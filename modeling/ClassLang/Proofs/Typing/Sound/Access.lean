import ClassLang.Proofs.Typing.Sound.Lambda

namespace ClassLang

namespace Program

variable {p0 p q : Program} {G : Atlas} {o : Option ClassId} {base : Option NodeId} {name : NameId}
  {c d : ClassId} {m : Member} {i : NodeId} {x : InstId} {declared t : TypeId} {way : List InstId}
  {a b : Typing.Access} {C : ColdId → Prop}

theorem Stripped.skeleton (h : p.Stripped x declared t) :
    (p.types.get declared).skeleton = (p.types.get t).skeleton := by
  unfold Stripped at h
  split at h
  · cases h
    assumption
  · rw [h]

theorem StrippedAlong.skeleton (h : p.StrippedAlong way declared t) :
    (p.types.get declared).skeleton = (p.types.get t).skeleton := by
  induction way generalizing declared with
  | nil =>
    cases h
    rfl
  | cons x way ih =>
    obtain ⟨w, hw, hrest⟩ := h
    exact hw.skeleton.trans (ih hrest)

theorem Owns.unique (h : p.Owned) (hc : p.Owns c m) (hd : p.Owns d m) : c = d := by
  cases m with
  | field f => exact VarRole.field.inj ((h.fields c f hc).2.1.symm.trans (h.fields d f hd).2.1)
  | method m => exact (h.methods c m hc).2.1.symm.trans (h.methods d m hd).2.1

structure Reached (p : Program) (o : Option ClassId) (base : Option NodeId) (name : NameId)
    (a : Typing.Access) : Prop where
  receiver : p.Receiver o base a.receiver
  found : ∃ d, p.classOf? a.receiver = some d ∧ (p.classes.get d).members.lookup name = .one a.entry

theorem Receiver.known (h : p.Receiver o base x) : ∀ b ∈ base, p.Known b := by
  rintro b rfl
  obtain ⟨t, _, ht, _⟩ := h
  exact ⟨t, ht⟩

theorem Receiver.receives (h : p.Receiver o base x) (hd : p.classOf? x = some d) :
    p.Receives o base d := by
  cases base with
  | none =>
    obtain ⟨c, ho, hthis⟩ := h
    cases hthis.classOf?.symm.trans hd
    exact ho
  | some b =>
    obtain ⟨t, kind, hslot, href⟩ := h
    exact ⟨t, kind, x, hslot, href, hd⟩

theorem Reached.keeps (h : p.Reached o base name a) (hk : p.Keeps q) (hp : p.Coherent) :
    q.Reached o base name a where
  receiver := h.receiver.keeps hk hp
  found := by
    obtain ⟨d, hclass, hlookup⟩ := h.found
    refine ⟨d, (hk.under.classOf? (h.receiver.valid hp)).trans hclass, ?_⟩
    rw [hk.alike.members]
    exact hlookup

/-- A name stands for one member of what a base refers to. -/
theorem Reached.entry_eq (h : p.Reached o base name a) (h' : p.Reached o base name b) :
    b.entry = a.entry := by
  obtain ⟨d, hclass, hlookup⟩ := h.found
  obtain ⟨d', hclass', hlookup'⟩ := h'.found
  cases (h.receiver.receives hclass).unique (h'.receiver.receives hclass')
  exact MemberLookup.one.inj (hlookup'.symm.trans hlookup)

theorem Reached.member_eq (h : p.Reached o none name a) (ho : o = some d) (halike : p0.Alike p)
    (hlookup : (p0.classes.get d).members.lookup name = .one ⟨m, way⟩) : a.entry.member = m := by
  obtain ⟨d', hclass, hlookup'⟩ := h.found
  obtain rfl : d = d' := Option.some.inj (ho.symm.trans (h.receiver.receives hclass))
  rw [halike.members, hlookup] at hlookup'
  exact (congrArg MemberEntry.member (MemberLookup.one.inj hlookup')).symm

theorem Reached.field_eq {z : Setting} {field : Option VarId} (h : p.Reached z.owner none name a)
    (halike : p0.Alike p) (hbound : p0.Bound z (.getField none name field)) :
    ∃ f, field = some f ∧ a.entry.member = .field f := by
  obtain ⟨c, f, path, ho, hlookup, rfl⟩ := hbound
  exact ⟨f, rfl, h.member_eq ho halike hlookup⟩

theorem Reached.seen (h : p.Reached o base name a) (hpath : ∀ j ∈ a.entry.path, p.insts.Valid j)
    (ht : p.types.Valid t)
    (hstripped : p.StrippedAlong (a.entry.path.reverse ++ [a.receiver]) declared t) :
    p.Seen o base name a.entry.member declared t := by
  obtain ⟨d, hclass, hlookup⟩ := h.found
  exact ⟨a.receiver, d, a.entry.path, h.receiver, hclass, hlookup, hpath, ht, hstripped⟩

section Wired

variable (hw : p0.Wired) (hu : p0.Under p)
include hw hu

theorem Wired.bases_within (c : ClassId) (y : InstId × ClassId) (hy : y ∈ p.basesOf c) :
    p.Within (p.classes.get c).params y.1 := by
  rw [hu.basesOf hw.shaped.bases] at hy
  rw [hu.alike.classParams]
  obtain ⟨b, hb, hinst⟩ := List.mem_filterMap.1 hy
  exact (hw.bases c b hb y.1 (baseOf?_eq_some.1 hinst).1).grows hu.insts

/-- A member is found on the way up to the class that declares it. -/
theorem path_of_lookup {entry : MemberEntry}
    (h : (p.classes.get d).members.lookup name = .one entry) :
    ∃ e, p.Path d entry.path e ∧ p0.Owns e entry.member ∧ p0.memberName entry.member = name := by
  rw [hu.alike.members] at h
  have hd : p0.classes.Valid d := by
    refine Arena.valid_of_get_ne fun he => ?_
    rw [he] at h
    cases h
  obtain ⟨order, hlaid, horder⟩ := hw.laid
  obtain ⟨e, hpath, howns⟩ := hlaid.path ((horder d).2 hd) (MemberTable.mem_of_lookup h)
  exact ⟨e, hu.path hw.shaped.bases hpath, howns⟩

theorem Reached.owner (h : p.Reached o base name a) :
    ∃ e, p0.Owns e a.entry.member ∧ p0.memberName a.entry.member = name ∧
      ∀ j ∈ a.entry.path, p.insts.Valid j := by
  obtain ⟨d, _, hlookup⟩ := h.found
  obtain ⟨e, hpath, howns, hname⟩ := path_of_lookup hw hu hlookup
  exact ⟨e, howns, hname, hpath.valid (hu.bases hw.shaped.bases)⟩

variable (hd : p0.Sound G p) (hsealed : p0.Sealed G p) (hbase : ∀ b ∈ base, G ⟨o, false⟩ b)
include hd hsealed hbase

omit hw in
theorem Receiver.within (h : p.Receiver o base x) : p.Within (p0.formals o) x := by
  cases base with
  | none =>
    obtain ⟨c, rfl, hthis⟩ := h
    have hwithin := hthis.within
    rwa [hu.alike.classParams] at hwithin
  | some b =>
    obtain ⟨t, kind, hslot, href⟩ := h
    exact (hd.tame.nodes ⟨o, false⟩ b t (hbase b rfl) hslot).ref href fun _ => hsealed

/-- As seen from its receiver, the type of a member mentions what can be mentioned where the member
is used. -/
theorem Seen.over (h : p.Seen o base name m declared t) (hm : p0.Owns c m)
    (hdeclared : TypeTable.Over p.types (p.Within (p0.formals (some c))) C declared) :
    TypeTable.Over p.types (p.Within (p0.formals o)) C t := by
  obtain ⟨x, d, path, hreceiver, hclass, hlookup, _, _, hstripped⟩ := h
  obtain ⟨w, halong, u, hlast, rfl⟩ := StrippedAlong.of_append hstripped
  obtain ⟨e, hpath, howns, _⟩ := path_of_lookup hw hu hlookup
  cases hm.unique hw.owned howns
  refine hlast.over hd.tidy (hreceiver.within hu hd hsealed hbase) hclass ?_
  refine (hpath.chain (hw.bases_within hu)).over hd.tidy.canonical halong ?_
  rw [hu.alike.classParams]
  exact hdeclared

end Wired

section Seeing

variable (hw : p0.Wired) (hu : p0.Under p) (hd : p0.Sound G p) (hbase : ∀ b ∈ base, G ⟨o, false⟩ b)
include hw hu hd hbase

theorem Says.ofMethod {m : MethodId} (h : p.Seen o base name (.method m) declared t)
    (hm : p0.Owns d (.method m)) (hsaid : p0.Says G p ⟨some d, true⟩ declared) :
    p0.Says G p ⟨o, false⟩ t :=
  fun hsealed => h.over hw hu hd (hsealed rfl) hbase hm ((hsaid nofun).of_plain (hsaid nofun).plain)

/-- A field whose type has placeholders is used only where they can be mentioned. -/
theorem Says.ofField {v : VarId} (h : p.Seen o base name (.field v) declared t)
    (hv : v ∈ (p0.classes.get d).fields) (hi : G ⟨o, false⟩ i)
    (hform : (∃ x, p0.form i = .getField base name x) ∨ ∃ x y, p0.form i = .setField base name x y)
    (hp : p.Coherent) (hslot : (p.vars.get v).slot = .fixed declared)
    (hsaid : p0.Says G p ⟨some d, false⟩ declared) : p0.Says G p ⟨o, false⟩ t := by
  intro hsealed
  have hsealed := hsealed rfl
  obtain ⟨_, hrole, hinit⟩ := hw.owned.fields d v hv
  obtain ⟨j, hinit⟩ := Option.isSome_iff_exists.1 hinit
  have hslot : p.slot j = .fixed declared := by
    have htyped := hp.vars v declared hslot
    rwa [VarTyped, hu.alike.role, hu.alike.init, hrole, hinit] at htyped
  have haccess : p0.Accesses p o i v := by
    obtain ⟨x, d', path, hreceiver, hclass, hlookup, _⟩ := h
    rw [hu.alike.members] at hlookup
    exact ⟨base, name, d', path, hform, hreceiver.receives hclass, hlookup⟩
  have hspeaks := hsaid fun _ => hsealed
  rcases hsealed ⟨o, false⟩ i v j declared hi haccess hinit hslot with hplain | hformals
  · exact h.over hw hu hd hsealed hbase hv (hspeaks.of_plain hplain)
  · rw [Var.owner?, hrole] at hformals
    refine h.over hw hu hd hsealed hbase hv
      (TypeTable.Over.mono hspeaks (.refl _) (fun _ => id) fun r hr => ?_)
    exact ⟨hr.1, hformals ▸ hr.2⟩

end Seeing

end Program

namespace Typing

variable {p0 : Program} {G : Atlas} {n : Nat} {c : Context} {s s' : PassState} {e e' : Engine}
  {z : Setting} {o : Option ClassId} {base : Option NodeId} {name : NameId} {i : NodeId}
  {declared t : TypeId} {m : MethodId} {a : Access}

section Access

variable (hs : Ready p0 G c s) (loc : Location)
include hs

theorem thisInst_walks {d : ClassId} (hat : At p0 G s.program c z) (ho : z.owner = some d) :
    Goes p0 G n {} c s (thisInst loc) fun x s' => s'.program.IsThis d x := by
  obtain ⟨_, x, hx, hthis⟩ := hat.this d ho
  unfold thisInst
  refine .read ?_
  rw [hx]
  exact .pure hs hthis

section Receivers

variable (he : e.Good p0 G n e') (hat : At p0 G s.program c z)
  (hbase : ∀ b ∈ base, p0.ScopedAt G c.chain z b) (hnone : base = none → z.owner.isSome)
include he hat hbase hnone

theorem receiverOf_walks :
    Walks p0 G n {} c s (receiverOf e base loc) (receiverOf e' base loc) fun x s' =>
      s'.program.Receiver z.owner base x := by
  unfold receiverOf
  split
  · obtain ⟨d, ho⟩ := Option.isSome_iff_exists.1 (hnone rfl)
    exact (thisInst_walks hs loc hat ho).post fun _ _ _ _ hthis => ⟨d, ho, hthis⟩
  · rename_i b
    refine (he.find hs hat (hbase b rfl)).bind fun t s1 _ hs1 ⟨ht, _⟩ => .ref? ?_
    split
    · rename_i href
      exact .pure hs1 ⟨t, _, ht, href⟩
    · rename_i href
      exact .pure hs1 ⟨t, _, ht, href⟩
    · exact .locOf (.fail hs1 (by nofun) (hs1.spot_of_mem (hbase b rfl).mem))

theorem access_walks (hloc : p0.Spot loc) :
    Walks p0 G n {} c s (access e base name loc) (access e' base name loc) fun a s' =>
      s'.program.Reached z.owner base name a := by
  unfold access
  refine (receiverOf_walks hs loc he hat hbase hnone).bind fun x s1 _ hs1 hx => .program ?_
  split
  · exact .fail hs1 (by nofun) hloc
  · rename_i d hclass
    refine .program ?_
    split
    · exact .fail hs1 (by nofun) hloc
    · exact .fail hs1 (by nofun) hloc
    · rename_i hlookup
      exact .pure hs1 ⟨hx, d, hclass, hlookup⟩

end Receivers

variable (ha : s.program.Reached o base name a)
include ha

theorem view_walks (ht : s.program.types.Valid declared) :
    Goes p0 G n {} c s (a.view declared loc) fun t s' =>
      s'.program.Seen o base name a.entry.member declared t := by
  obtain ⟨_, _, _, hpath⟩ := ha.owner hs.wired hs.under
  refine (Walks.editing hs
    (Program.stripPath_neat hs.sound.neat ht hpath (ha.receiver.valid hs.coherent)) loc).post
    fun t s' hst _ h => ?_
  exact (ha.keeps hst.keeps hs.coherent).seen
    (fun j hj => hst.keeps.insts.valid (hpath j hj)) h.1 h.2

variable (hbase : ∀ b ∈ base, G ⟨o, false⟩ b) (hm : a.entry.member = .method m)
include hbase hm

/-- The declared type of a method is one of a function, and so is what is seen of it. -/
theorem methodSignature_walks :
    Walks p0 G n {} c s (methodSignature e a m loc) (methodSignature e' a m loc) fun sig s' =>
      ∃ declared t, (s'.program.methods.get m).slot = .fixed declared ∧
      s'.program.Seen o base name (.method m) declared t ∧
      s'.program.types.signature? t = some sig ∧ (∀ u ∈ sig.1, s'.program.types.Valid u) ∧
      s'.program.types.Valid sig.2 ∧ (∀ u ∈ sig.1, Said p0 G o u s') ∧ Said p0 G o sig.2 s' := by
  obtain ⟨d, howns, _⟩ := ha.owner hs.wired hs.under
  rw [hm] at howns
  unfold methodSignature
  refine (methodType_walks hs loc (List.mem_append_left _ howns)).bind
    fun declared s1 hst1 hs1 ⟨hslot, hsaid⟩ => ?_
  obtain ⟨params, result, hget⟩ := hs1.sound.methods m declared hslot
  have hdeclared := hs1.coherent.methodTypes m declared hslot
  refine (view_walks hs1 loc (ha.keeps hst1.keeps hs.coherent) hdeclared).bind
    fun t s2 hst2 hs2 hseen => ?_
  rw [hm] at hseen
  have hsaid2 : Said p0 G o t s2 := .ofMethod hs.wired hs2.under hs2.sound hbase hseen howns
    (hsaid.step hs1.inv hst2)
  obtain ⟨hvalid, params', result', hget'⟩ : s2.program.types.Valid t ∧
    ∃ ps r, s2.program.types.get t = .function ps r := by
    obtain ⟨_, _, _, _, _, _, _, ht, hstripped⟩ := hseen
    obtain ⟨params, result, hget', _⟩ :=
      Ty.function_of_skeleton hstripped.skeleton.symm
      ((hst2.keeps.types.get_eq hdeclared).trans hget)
    exact ⟨ht, params, result, hget'⟩
  have hsig := TypeTable.signature?_of_function hget'
  obtain ⟨hps, hrs⟩ := hsaid2.params hsig
  refine (Walks.signatureOf hs2 hvalid hsig _ loc).post fun sig s3 _ _ ⟨hs3, hsame, hp, hr⟩ => ?_
  subst hs3 hsame
  exact ⟨declared, t, hst2.stays.methods m declared hslot, hseen, hsig, hp, hr, hps, hrs⟩

theorem delegateType_walks :
    Walks p0 G n {} c s (delegateType e a m loc) (delegateType e' a m loc) fun t s' =>
      s'.program.types.Valid t ∧ Said p0 G o t s' := by
  unfold delegateType
  refine (methodSignature_walks hs loc ha hbase hm).bind
    fun sig s1 _ hs1 ⟨_, _, _, _, _, hp, hr, hps, hrs⟩ => ?_
  refine (Walks.intern hs1 (Program.holds_lambda.2 ⟨hp, hr⟩) nofun nofun).post
    fun t s2 hst2 _ ⟨_, ht, hget⟩ => ⟨ht, .make ht hget rfl nofun fun u hu => ?_⟩
  rcases List.mem_append.1 hu with hu | hu
  · exact (hps u hu).step hs1.inv hst2
  · exact List.mem_singleton.1 hu ▸ hrs.step hs1.inv hst2

end Access

end Typing

end ClassLang
