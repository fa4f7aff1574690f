import ClassLang.Proofs.Typing.Sound.Check

namespace ClassLang

open Arena List Program

variable {rest : List ClassId}

namespace Program

variable {p0 p q r : Program} {G : Atlas} {built built' built'' order : List ClassId}
  {c d : ClassId}

def overloadsOf (p : Program) (c : ClassId) : List MethodId :=
  (p.classes.get c).bases.flatMap (·.overloads)

def withOverloads (p : Program) (table : List (MethodId × MethodId)) (overloads : List MethodId) :
    List (MethodId × MethodId) :=
  overloads.foldl (fun table m =>
    match (p.methods.get m).overrides with
    | none => table
    | some target => Typing.redirect target m table) table

def inheritedTable (p0 p : Program) (bases : List Base) : List (MethodId × MethodId) :=
  (bases.filterMap p0.baseOf?).foldl
    (fun table x => Assoc.merge table (p.classes.get x.2).dispatch) []

def Replaces (p0 p : Program) (c : ClassId) (b : Base) (m : MethodId) : Prop :=
  ∃ target x path this declared given, (p0.methods.get m).overrides = some target ∧
    p0.baseOf? b = some x ∧ (p0.classes.get x.2).members.lookup (p0.methods.get m).name = .one
    ⟨.method target, path⟩ ∧ p.IsThis c this ∧ (p.methods.get target).slot = .fixed declared ∧
    (p.methods.get m).slot = .fixed given ∧ (∀ j ∈ x.1 :: path, p.insts.Valid j) ∧
    p.StrippedAlong ((x.1 :: path).reverse ++ [this]) declared given

structure Dispatched (p0 : Program) (built : List ClassId) (p : Program) (c : ClassId) : Prop where
  bases : ∀ x ∈ p0.basesOf c, x.2 ∈ built
  table : (p.classes.get c).dispatch = p0.withOverloads
    (p0.inheritedTable p (p0.classes.get c).bases) (p0.overloadsOf c)
  replaces : ∀ b ∈ (p0.classes.get c).bases, ∀ m ∈ b.overloads, p0.Replaces p c b m
  implemented : (p0.classes.get c).isInterface = true ∨
    Typing.unimplemented p0 c (p.classes.get c).dispatch = []

theorem Replaces.keeps {b : Base} {m : MethodId} (h : p0.Replaces p c b m) (hk : p.Keeps q)
    (hl : p.Lasts q) : p0.Replaces q c b m := by
  obtain ⟨target, x, path, this, declared, given, hover, hx, hlookup, hthis, htarget, hm, hpath,
    hstripped⟩ := h
  refine ⟨target, x, path, this, declared, given, hover, hx, hlookup,
    hthis.grows hk.insts (hk.alike.classParams c), hl.methods _ _ htarget, hl.methods _ _ hm,
    fun j hj => hk.insts.valid (hpath j hj), hstripped.grows hk.insts hk.alike.params
    (fun j hj => ?_) hk.types⟩
  rcases mem_append.1 hj with hj | hj
  · exact hpath j (mem_reverse.1 hj)
  · exact mem_singleton.1 hj ▸ hthis.1

/-- Whether a method has a body is known from the beginning. -/
theorem Sound.unimplemented (h : p0.Sound G p) (halike : p0.Alike p)
    (table : List (MethodId × MethodId)) :
    Typing.unimplemented p c table = Typing.unimplemented p0 c table := by
  have hrel {b b' : Option NodeId} (hb : Option.Rel (p0.Passed p) b b') : b'.isNone = b.isNone := by
    cases hb <;> rfl
  have hbody (m : MethodId) : (p.methods.get m).body.isNone = (p0.methods.get m).body.isNone :=
    hrel (h.methodBodies m)
  have hmethods (a : ClassId) : (p.classes.get a).methods = (p0.classes.get a).methods :=
    (congrArg ClassDef.methods (halike.cls a) :)
  simp only [Typing.unimplemented, halike.ancestors, hmethods, hbody]

theorem inheritedTable_congr {bases : List Base}
    (h : ∀ x ∈ bases.filterMap p0.baseOf?, (q.classes.get x.2).dispatch =
      (p.classes.get x.2).dispatch) : p0.inheritedTable q bases = p0.inheritedTable p bases :=
  foldl_ext _ _ _ fun table x hx => by rw [h x hx]

theorem Dispatched.keeps (h : p0.Dispatched built p c) (hk : p.Keeps q) (hl : p.Lasts q)
    (hsub : built ⊆ built') (hc : (q.classes.get c).dispatch = (p.classes.get c).dispatch)
    (hbases : ∀ x ∈ p0.basesOf c, (q.classes.get x.2).dispatch = (p.classes.get x.2).dispatch) :
    p0.Dispatched built' q c where
  bases x hx := hsub (h.bases x hx)
  table := by rw [hc, h.table, inheritedTable_congr hbases]
  replaces b hb m hm := (h.replaces b hb m hm).keeps hk hl
  implemented := by rw [hc]; exact h.implemented

theorem Dispatched.mono (h : p0.Dispatched built p c) (hsub : built ⊆ built') :
    p0.Dispatched built' p c :=
  { h with bases := fun x hx => hsub (h.bases x hx) }

def Tabled (p0 : Program) (order built : List ClassId) (p : Program) : Prop :=
  ∀ x ∈ built, x ∈ order → p0.Dispatched built p x

structure Builds (order built built' : List ClassId) (p q : Program) : Prop where
  more : built ⊆ built'
  new : ∀ x ∈ built', x ∈ built ∨ x ∈ order
  same : ∀ x, x ∈ built ∨ x ∉ built' → (q.classes.get x).dispatch = (p.classes.get x).dispatch

theorem Builds.refl : Builds order built built p p := ⟨Subset.refl _, fun _ => .inl, fun _ _ => rfl⟩

theorem Builds.trans (h : Builds order built built' p q) (h' : Builds order built' built'' q r) :
    Builds order built built'' p r where
  more := Subset.trans h.more h'.more
  new x hx := (h'.new x hx).elim (h.new x) .inr
  same x hx := by
    refine (h'.same x ?_).trans (h.same x ?_)
    · exact hx.imp (fun hx => h.more hx) id
    · exact hx.imp_right fun hn => mt (fun hx => h'.more hx) hn

/-- After its bases, a class is built itself. -/
theorem Builds.close (hdone : p0.Tabled order built p) (hsub : rest ⊆ order) (hin : c ∈ order)
    (hnot : c ∉ built) (hnew : c ∉ rest) (hrest : p0.Laid rest)
    (hbuilds : Builds rest (c :: built) built' p q) (htabled : p0.Tabled rest built' q)
    (hpr : p.Keeps r) (hqr : q.Keeps r) (hpl : p.Lasts r) (hql : q.Lasts r)
    (hothers : ∀ x, x ≠ c → (r.classes.get x).dispatch = (q.classes.get x).dispatch)
    (hc : p0.Dispatched built' r c) :
    Builds order built built' p r ∧ p0.Tabled order built' r ∧ c ∈ built' := by
  have hmem : c ∈ built' := hbuilds.more mem_cons_self
  have hsame (x : ClassId) (hx : x ∈ built ∨ x ∉ built') : (r.classes.get x).dispatch =
      (p.classes.get x).dispatch := by
    refine (hothers x ?_).trans (hbuilds.same x (hx.imp_left (mem_cons_of_mem _)))
    rintro rfl
    exact hx.elim hnot fun hn => hn hmem
  refine ⟨⟨fun x hx => hbuilds.more (mem_cons_of_mem _ hx), fun x hx => ?_, hsame⟩,
    fun x hx hxo => ?_, hmem⟩
  · rcases hbuilds.new x hx with hx | hx
    · rcases mem_cons.1 hx with rfl | hx
      · exact .inr hin
      · exact .inl hx
    · exact .inr (hsub hx)
  · by_cases hxc : x = c
    · exact hxc ▸ hc
    rcases hbuilds.new x hx with hx' | hx'
    · have hbuilt := (mem_cons.1 hx').resolve_left hxc
      have hold := hdone x hbuilt hxo
      exact hold.keeps hpr hpl (fun y hy => hbuilds.more (mem_cons_of_mem _ hy))
        (hsame x (.inl hbuilt)) fun y hy => hsame y.2 (.inl (hold.bases y hy))
    · refine (htabled x hx hx').keeps hqr hql (Subset.refl _) (hothers x hxc) fun y hy =>
        hothers y.2 ?_
      rintro rfl
      exact hnew (hrest.base hx' hy)

end Program

namespace Typing

variable {p0 : Program} {G : Atlas} {n : Nat} {c : Context} {s : PassState} {e e' : Engine}
  {d : ClassId} {b : Base} {this : InstId}

section Overrides

variable (hs : Ready p0 G c s)
include hs

/-- What a method overrides is there, so that the check is about types only. -/
theorem checkOverride_walks {x : InstId × ClassId} {target overload : MethodId}
    (hb : b ∈ (p0.classes.get d).bases) (hm : overload ∈ b.overloads) (hx : p0.baseOf? b = some x)
    (htarget : (p0.methods.get overload).overrides = some target) (hthis : s.program.IsThis d this)
    {loc : Location} (hloc : p0.Spot loc) :
    Walks p0 G n {} c s (checkOverride e x.1 this target overload loc)
      (checkOverride e' x.1 this target overload loc) fun _ s' =>
      p0.Replaces s'.program d b overload := by
  have hall : overload ∈ (p0.classes.get d).allMethods :=
    mem_append_right _ (mem_flatMap.2 ⟨b, hb, hm⟩)
  obtain ⟨k, hk⟩ := mem_iff_getElem?.1 hb
  obtain ⟨_, howner, hbase⟩ := hs.wired.owned.overloads d k b hk overload hm
  obtain ⟨k', b', x', path, hbase', hk', hx', hlookup⟩ := hs.wired.found overload target htarget
  rw [howner] at hk'
  cases hbase.symm.trans hbase'
  cases hk.symm.trans hk'
  cases hx.symm.trans hx'
  obtain ⟨hinst, hcls⟩ := baseOf?_eq_some.1 hx
  have hxv := (hs.wired.bases d b hb x.1 hinst).valid
  have hclass : s.program.classOf? x.1 = some x.2 := by
    have hbase := classOf?_of_baseOf? hx
    rw [hinst, Option.bind_some] at hbase
    rw [hs.under.classOf? hxv, hbase]
  obtain ⟨owner, hpath, howns, hname⟩ := path_of_lookup hs.wired (.refl p0) hlookup
  have hnamed : (s.program.methods.get target).name = (p0.methods.get overload).name :=
    (congrArg Method.name (hs.alike.method target) :).trans hname
  have hvalid : ∀ j ∈ x.1 :: path, p0.insts.Valid j :=
    forall_mem_cons.2 ⟨hxv, hpath.valid hs.wired.shaped.bases⟩
  unfold checkOverride
  refine .program ?_
  rw [hclass]
  refine .program (.program ?_)
  rw [hnamed, hs.alike.members, hlookup]
  refine (methodType_walks hs loc (mem_append_left _ howns)).bind
    fun declared s1 hst1 hs1 ⟨hslot1, _⟩ => ?_
  have ht := hs1.coherent.methodTypes _ _ hslot1
  have hthis1 := hthis.grows hst1.keeps.insts (hst1.keeps.alike.classParams d)
  have hstrip := stripPath_neat hs1.sound.neat ht
    (fun j hj => hs1.sound.grows.valid (hvalid j hj)) hthis1.1
  refine (Walks.editing hs1 hstrip loc).bind fun expected s2 hst2 hs2 ⟨_, hstripped⟩ => ?_
  refine (methodType_walks hs2 loc hall).bind fun given s3 hst3 hs3 ⟨hslot3, _⟩ => ?_
  refine (expectType_walks hs3 expected given hloc).post fun _ s4 _ _ ⟨hs4, hsame⟩ => ?_
  subst hs4 hsame
  refine ⟨target, x, path, this, declared, given, htarget, hx, hlookup, ?_, ?_, hslot3,
    fun j hj => ?_, ?_⟩
  · exact hthis1.grows (hst2.trans hst3).keeps.insts ((hst2.trans hst3).keeps.alike.classParams d)
  · exact hst3.stays.methods _ _ (hst2.stays.methods _ _ hslot1)
  · exact hs3.sound.grows.valid (hvalid j hj)
  · refine hstripped.grows hst3.keeps.insts hst3.keeps.alike.params
      (fun j hj => ?_) hst3.keeps.types
    rcases mem_append.1 hj with hj | hj
    · exact hs2.sound.grows.valid (hvalid j (mem_reverse.1 hj))
    · exact mem_singleton.1 hj ▸ hst2.keeps.insts.valid hthis1.1

theorem addOverloads_walks (hb : b ∈ (p0.classes.get d).bases) (hx : (p0.baseOf? b).isSome)
    (hthis : s.program.IsThis d this) (table : List (MethodId × MethodId)) :
    Walks p0 G n {} c s (addOverloads e this table b) (addOverloads e' this table b)
      fun table' s' => table' = p0.withOverloads table b.overloads ∧
      ∀ m ∈ b.overloads, p0.Replaces s'.program d b m := by
  obtain ⟨x, hx⟩ := Option.isSome_iff_exists.1 hx
  unfold addOverloads
  rw [(baseOf?_eq_some.1 hx).1]
  refine Walks.foldlM (I := fun done table' s' => table' = p0.withOverloads table done ∧
    ∀ m ∈ done, p0.Replaces s'.program d b m) hs ⟨rfl, forall_mem_nil _⟩
    fun done overload rest table' s1 hms hst1 hs1 ⟨htable, hdone⟩ => .program ?_
  have hm : overload ∈ b.overloads := by simp [hms]
  obtain ⟨target, htarget⟩ := Option.isSome_iff_exists.1 (hs.wired.given d b hb overload hm)
  have hhere : (s1.program.methods.get overload).overrides = some target :=
    (congrArg Method.overrides (hs1.alike.method overload) :).trans htarget
  have hloc : p0.Spot (s1.program.methods.get overload).loc := by
    obtain ⟨k, hk⟩ := mem_iff_getElem?.1 hb
    rw [show (s1.program.methods.get overload).loc = (p0.methods.get overload).loc from
      (congrArg Method.loc (hs1.alike.method overload) :)]
    exact fun _ hK => hK.methods overload (hs.wired.owned.overloads d k b hk overload hm).1
  dsimp only
  rw [hhere]
  refine (checkOverride_walks hs1 hb hm hx htarget
    (hthis.grows hst1.keeps.insts (hst1.keeps.alike.classParams d)) hloc).bind
    fun _ s2 hst2 hs2 hnew =>
    .pure hs2 ⟨?_, forall_mem_append.2 ⟨fun m hm => ?_, forall_mem_singleton.2 hnew⟩⟩
  · rw [htable, Program.withOverloads, Program.withOverloads, foldl_append, foldl_cons,
      foldl_nil, htarget]
  · exact (hdone m hm).keeps hst2.keeps hst2.stays.toLasts

theorem overloads_walks (hflat : p0.Flat d) (hthis : s.program.IsThis d this)
    (table : List (MethodId × MethodId)) :
    Walks p0 G n {} c s ((p0.classes.get d).bases.foldlM (addOverloads e this) table)
      ((p0.classes.get d).bases.foldlM (addOverloads e' this) table) fun table' s' =>
      table' = p0.withOverloads table (p0.overloadsOf d) ∧ ∀ b ∈ (p0.classes.get d).bases,
      ∀ m ∈ b.overloads, p0.Replaces s'.program d b m := by
  refine Walks.foldlM (I := fun done table' s' =>
    table' = p0.withOverloads table (done.flatMap (·.overloads)) ∧
    ∀ b ∈ done, ∀ m ∈ b.overloads, p0.Replaces s'.program d b m) hs ⟨rfl, forall_mem_nil _⟩
    fun done b more table' s1 hbs hst1 hs1 ⟨htable, hreplaces⟩ => ?_
  have hb : b ∈ (p0.classes.get d).bases := by simp [hbs]
  refine (addOverloads_walks hs1 hb (hflat.bound b hb)
    (hthis.grows hst1.keeps.insts (hst1.keeps.alike.classParams d)) table').post
    fun table2 s2 hst2 _ ⟨htable2, hnew⟩ =>
    ⟨?_, forall_mem_append.2 ⟨fun b hb m hm => ?_, forall_mem_singleton.2 hnew⟩⟩
  · rw [htable2, htable, flatMap_append, flatMap_singleton, Program.withOverloads,
      Program.withOverloads, Program.withOverloads, foldl_append]
  · exact (hreplaces b hb m hm).keeps hst2.keeps hst2.stays.toLasts

end Overrides

abbrev tableFocus : Focus := { tables := fun _ => True }

def inheritWith (below : List ClassId → ClassId → Check (List ClassId))
    (bt : List ClassId × List (MethodId × MethodId)) (b : Base) :
    Check (List ClassId × List (MethodId × MethodId)) := do
  match b.inst.bind (← Typing.program).classOf? with
  | none => return bt
  | some base =>
    let built ← below bt.1 base
    return (built, Assoc.merge bt.2 ((← Typing.program).classes.get base).dispatch)

theorem inherit_walks {built : List ClassId}
    {below below' : List ClassId → ClassId → Check (List ClassId)} (hs : Ready p0 G c s)
    (hflat : p0.Flat d) (hdone : p0.Tabled rest built s.program)
    (hbelow : ∀ {built s'} x, x ∈ p0.basesOf d → Ready p0 G c s' → p0.Tabled rest built s'.program →
      Walks p0 G n tableFocus c s' (below built x.2) (below' built x.2) fun built' s'' =>
      Builds rest built built' s'.program s''.program ∧ p0.Tabled rest built' s''.program ∧
      x.2 ∈ built') :
    Walks p0 G n tableFocus c s ((p0.classes.get d).bases.foldlM (inheritWith below) (built, []))
      ((p0.classes.get d).bases.foldlM (inheritWith below') (built, [])) fun bt s' =>
      Builds rest built bt.1 s.program s'.program ∧ p0.Tabled rest bt.1 s'.program ∧
      (∀ x ∈ p0.basesOf d, x.2 ∈ bt.1) ∧ bt.2 = p0.inheritedTable s'.program
      (p0.classes.get d).bases := by
  refine Walks.foldlM (I := fun done (bt : List ClassId × List (MethodId × MethodId)) s' =>
    Builds rest built bt.1 s.program s'.program ∧ p0.Tabled rest bt.1 s'.program ∧
    (∀ x ∈ done.filterMap p0.baseOf?, x.2 ∈ bt.1) ∧ bt.2 = p0.inheritedTable s'.program done) hs
    ⟨.refl, hdone, forall_mem_nil _, rfl⟩
    fun done b more bt s1 hbs _ hs1 ⟨hbuilds, htabled, hover, htable⟩ => .program ?_
  have hb : b ∈ (p0.classes.get d).bases := by simp [hbs]
  obtain ⟨x, hx⟩ := Option.isSome_iff_exists.1 (hflat.bound b hb)
  have hinst := (baseOf?_eq_some.1 hx).1
  have hclass : b.inst.bind s1.program.classOf? = some x.2 := by
    rw [← classOf?_of_baseOf? hx, hinst, Option.bind_some, Option.bind_some,
      hs1.under.classOf? (hs.wired.bases d b hb _ hinst).valid]
  rw [hclass]
  refine (hbelow x (mem_filterMap.2 ⟨b, hb, hx⟩) hs1 htabled).bindIn
    fun built2 s2 _ hs2 ⟨hbuilds2, htabled2, hin2⟩ =>
    .program (.pure hs2 ⟨hbuilds.trans hbuilds2, htabled2, fun y hy => ?_, ?_⟩)
  · rw [filterMap_append, mem_append] at hy
    rcases hy with hy | hy
    · exact hbuilds2.more (hover y hy)
    · simp only [filterMap_cons, hx, filterMap_nil, mem_singleton] at hy
      exact hy ▸ hin2
  · have hsame : p0.inheritedTable s2.program done = p0.inheritedTable s1.program done :=
      inheritedTable_congr fun y hy => hbuilds2.same y.2 (.inl (hover y hy))
    simp only [Program.inheritedTable, filterMap_append, filterMap_cons, filterMap_nil, hx,
      foldl_append, foldl_cons, foldl_nil] at hsame ⊢
    rw [hsame, htable, Program.inheritedTable]

/-- The classes of `order` are those that are not below any class at work; the induction is on what
is left of it. -/
theorem dispatchUpTo_walks (k : Nat) {order built : List ClassId} (hlaid : p0.Laid order)
    (horder : ∀ x ∈ order, p0.classes.Valid x) (hin : d ∈ order) (hk : order.length ≤ k)
    (hs : Ready p0 G c s) (hdone : p0.Tabled order built s.program) :
    Walks p0 G n tableFocus c s (dispatchUpTo e k built d) (dispatchUpTo e' k built d)
      fun built' s' => Builds order built built' s.program s'.program ∧
      p0.Tabled order built' s'.program ∧ d ∈ built' := by
  induction k generalizing s order built d with
  | zero =>
    rw [eq_nil_of_length_eq_zero (Nat.le_zero.1 hk)] at hin
    cases hin
  | succ k ih =>
    rw [dispatchUpTo, dispatchUpTo]
    split
    · rename_i hbuilt
      exact .pure hs ⟨.refl, hdone, hbuilt⟩
    rename_i hnot
    obtain ⟨rest, hlen, hsub, hnew, hflat, hbases, hrest⟩ := hlaid.after hin
    have hdone' : p0.Tabled rest (d :: built) s.program :=
      fun x hx hxr => (hdone x ((mem_cons.1 hx).resolve_left fun h => hnew (h ▸ hxr))
        (hsub hxr)).mono (subset_cons_self _ _)
    refine .program ?_
    dsimp only
    rw [hs.alike.bases]
    refine (inherit_walks hs hflat hdone' fun x hx hs' htabled =>
      ih hrest (fun y hy => horder y (hsub hy)) (hbases x hx) (by omega) hs' htabled).bindIn
      fun bt s1 hst1 hs1 ⟨hbuilds, htabled, hover, htable⟩ => ?_
    refine (classThis_walks hs1 (horder d hin)).bind fun this s2 hst2 hs2 hthis => ?_
    refine (overloads_walks hs2 hflat hthis bt.2).bind fun table s3 hst3 hs3 ⟨htable3, hreplaces⟩ =>
      .program ?_
    have hbuilt (himplemented : (p0.classes.get d).isInterface = true ∨
        unimplemented p0 d table = []) : Goes p0 G n tableFocus c s3 (do
        emit (.dispatchBuilt (s3.program.className d) table.length)
        edit (·.modifyClass d fun decl => { decl with dispatch := table })
        pure bt.1) fun built' s' => Builds order built built' s.program s'.program ∧
          p0.Tabled order built' s'.program ∧ d ∈ built' := by
      refine (Walks.emit (f := tableFocus) hs3 rfl).bindIn fun _ s4 hst4 hs4 hsame4 => ?_
      refine (Walks.edit hs4 (.setDispatch hs4.inv table trivial)
        (hs4.sound.setDispatch hs.charted hs4.coherent d table)).bindIn
        fun _ s5 hst5 hs5 hafter => .pure hs5 ?_
      have hst : Step p0 tableFocus s1 s5 := ((hst2.trans hst3).widen.trans hst4).trans hst5
      have hvalid : s3.program.classes.Valid d :=
        Nat.lt_of_lt_of_eq (horder d hin) hs3.alike.classesSize.symm
      have hget (x : ClassId) : s5.program.classes.get x = if d =
          x then { s1.program.classes.get x with dispatch := table }
          else s1.program.classes.get x := by
        rw [hafter, Program.modifyClass, get_modify, hsame4, (hst2.trans hst3).stays.tables x id]
        simp only [hvalid, and_true]
      have hothers (x : ClassId) (hx : x ≠ d) : (s5.program.classes.get x).dispatch =
          (s1.program.classes.get x).dispatch := by
        rw [hget, if_neg hx.symm]
      refine hbuilds.close hdone hsub hin hnot hnew hrest htabled (hst1.trans hst).keeps hst.keeps
        (hst1.trans hst).stays.toLasts hst.stays.toLasts hothers
        ⟨hover, ?_, fun b hb m hm => ?_, ?_⟩
      · rw [hget, if_pos rfl, htable3, htable, inheritedTable_congr fun x hx => hothers x.2 ?_]
        rintro rfl
        exact hnew (hbases x hx)
      · exact (hreplaces b hb m hm).keeps (hst4.trans hst5).keeps (hst4.trans hst5).stays.toLasts
      · rw [hget, if_pos rfl]
        exact himplemented
    have hinterface : (s3.program.classes.get d).isInterface = (p0.classes.get d).isInterface :=
      (congrArg ClassDef.isInterface (hs3.alike.cls d) :)
    have hloc : p0.Spot (s3.program.classes.get d).loc := by
      rw [show (s3.program.classes.get d).loc = (p0.classes.get d).loc
        from (congrArg ClassDef.loc (hs3.alike.cls d) :)]
      exact fun _ hK => hK.classes d (horder d hin)
    rw [hinterface, hs3.sound.unimplemented hs3.alike]
    split
    · split
      · exact .fail hs3 (by simp) hloc
      · rename_i hnone
        exact hbuilt (.inr (eq_nil_iff_forall_not_mem.2 fun m hm => by
          obtain ⟨m', rest, hcons⟩ := exists_cons_of_ne_nil (ne_nil_of_mem hm)
          exact hnone m' rest hcons))
    · rename_i hno
      exact hbuilt (.inl (by simpa using hno))

theorem buildDispatch_walks (hs : Ready p0 G c s) :
    Walks p0 G n tableFocus c s (buildDispatch e) (buildDispatch e') fun _ s' =>
      ∃ built, ∀ d, p0.classes.Valid d → p0.Dispatched built s'.program d := by
  obtain ⟨order, hlaid, horder⟩ := hs.wired.laid
  have hlen : order.length ≤ s.program.classes.size + 1 := by
    rw [hs.alike.classesSize]
    exact Nat.le_succ_of_le (Program.Flatten.length_le_size hlaid.nodup fun d hd => (horder d).1 hd)
  unfold buildDispatch
  refine .program (.program
    (.discard ((Walks.foldlM (I := fun done built s' => p0.Tabled order built s'.program ∧
      ∀ d ∈ done, d ∈ built) hs ⟨forall_mem_nil _, forall_mem_nil _⟩
      fun done d rest built s1 hids _ hs1 ⟨htabled, hdone⟩ => ?_).post
      fun built s1 _ _ ⟨htabled, hdone⟩ => ⟨built, fun d hv => ?_⟩)))
  · have hv : p0.classes.Valid d :=
      Nat.lt_of_lt_of_eq (Arena.mem_ids.1 (by simp [hids] : d ∈ s.program.classes.ids))
      hs.alike.classesSize
    refine (dispatchUpTo_walks _ hlaid (fun x hx => (horder x).1 hx) ((horder d).2 hv) hlen hs1
      htabled).post fun built' s2 _ _ ⟨hbuilds, htabled', hin⟩ => ⟨htabled', ?_⟩
    exact forall_mem_append.2 ⟨fun x hx => hbuilds.more (hdone x hx), forall_mem_singleton.2 hin⟩
  · refine htabled d (hdone d (Arena.mem_ids.2 ?_)) ((horder d).2 hv)
    exact Nat.lt_of_lt_of_eq hv hs.alike.classesSize.symm

end Typing

end ClassLang
