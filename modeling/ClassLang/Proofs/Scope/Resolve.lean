import ClassLang.Proofs.Scope.Stage

namespace ClassLang.Program

open Arena List

variable {sc : Scope} {p0 p q : Program} {name : NameId} {loc : Location} {todo O : NodeId → Prop}
  {m t : MethodId} {order : List ClassId} {c : ClassId} {b : Base}

structure Early (p0 : Program) (todo : NodeId → Prop) (p : Program) :
    Prop extends Stage p0 todo p where
  methods : p.methods = p0.methods
  flattened : ∀ c, (p.classes.get c).flattened = false
  heads : ∀ r, r.isHead → ∀ d ∈ p0.rootParts r, todo d ∨ p.Explicit (p0.Below d) d

theorem Early.congr {todo' : NodeId → Prop} (h : Early p0 todo p) (htodo : ∀ d, todo' d → todo d)
    (hheads : ∀ r, r.isHead → ∀ d ∈ p0.rootParts r, todo d → todo' d) : Early p0 todo' p :=
  { h with
    toStage := h.toStage.mono htodo
    heads := fun r hr d hd => (h.heads r hr d hd).imp_left (hheads r hr d hd) }

theorem Sown.early (h : p.Sown O) (hp : p.Shaped) (hu : p.Untyped)
    (htodo : ∀ r, r.isHead → ∀ d ∈ p.rootParts r, todo d) : Early p todo p where
  linked := .refl hp hu
  akin := .refl p
  instances := by
    have hnone (i : InstId) (hi : p.insts.Valid i) : False := by
      rw [h.unlinked.insts] at hi
      exact Nat.not_lt_zero _ hi
    exact ⟨fun i hi => (hnone i hi).elim⟩
  globals n c hc := by
    rw [h.unlinked.globals] at hc
    cases hc
  texts _ _ _ _ _ _ := rfl
  bounds a c hc := by
    rw [h.unlinked.bounds] at hc
    cases hc
  bases c b hb i hi := by
    rw [h.unlinked.bases c b hb] at hi
    cases hi
  methods := rfl
  flattened := h.unlinked.flattened
  heads r hr d hd := .inl (htodo r hr d hd)

theorem Early.heads_congr (h : Early p0 todo p) (hnodes : q.nodes = p.nodes)
    (hvars : q.vars = p.vars) (hlambdas : q.lambdas = p.lambdas) (hinsts : q.insts = p.insts)
    (r : Root) (hr : r.isHead) (d : NodeId) (hd : d ∈ p0.rootParts r) :
    todo d ∨ q.Explicit (p0.Below d) d :=
  (h.heads r hr d hd).imp_right fun hd =>
    hd.congr (fun j _ => by rw [form, hnodes, form]) hvars hlambdas (hinsts ▸ .refl _)

def Overridden (p : Program) (m target : MethodId) : Prop :=
  ∃ k b x path, (p.methods.get m).base = some k ∧
    (p.classes.get (p.methods.get m).owner).bases[k]? = some b ∧ p.baseOf? b = some x ∧
    (p.classes.get x.2).members.lookup (p.methods.get m).name = .one ⟨.method target, path⟩

structure Overrides (p q : Program) : Prop where
  rest : { p with methods := q.methods } = q
  size : q.methods.size = p.methods.size
  heads : ∀ m, (q.methods.get m).bare = (p.methods.get m).bare
  kept : ∀ m, (p.methods.get m).overrides.isSome → (q.methods.get m).overrides.isSome
  found : ∀ m t, (q.methods.get m).overrides = some t → q.Overridden m t

theorem overridden_congr (hrest : { p with methods := q.methods } = q)
    (hm : (q.methods.get m).bare = (p.methods.get m).bare) (h : p.Overridden m t) :
    q.Overridden m t := by
  have hname : (q.methods.get m).name = (p.methods.get m).name := (congrArg Method.name hm :)
  have howner : (q.methods.get m).owner = (p.methods.get m).owner := (congrArg Method.owner hm :)
  have hbase : (q.methods.get m).base = (p.methods.get m).base := (congrArg Method.base hm :)
  have hclasses : q.classes = p.classes := (congrArg Program.classes hrest).symm
  have hinsts : q.insts = p.insts := (congrArg Program.insts hrest).symm
  simpa only [Overridden, baseOf?, hname, howner, hbase, hclasses, hinsts] using h

theorem Overrides.refl (h : ∀ m t, (p.methods.get m).overrides = some t → p.Overridden m t) :
    p.Overrides p :=
  ⟨rfl, rfl, fun _ => rfl, fun _ => id, h⟩

section

variable (h : p.Overrides q)
include h

theorem Overrides.trans {r : Program} (h' : q.Overrides r) : p.Overrides r where
  rest := by rw [← h'.rest, ← h.rest]
  size := h'.size.trans h.size
  heads m := (h'.heads m).trans (h.heads m)
  kept m hm := h'.kept m (h.kept m hm)
  found := h'.found

theorem Overrides.akin : p.Akin q := by
  rw [← h.rest]
  exact akin_of_arenas rfl rfl (map_eq_of_get h.size h.heads)

theorem Overrides.stage (hp : Stage p0 todo p) : Stage p0 todo q := by
  rw [← h.rest]
  exact hp.overrides h.size h.heads

theorem Overrides.laid (hp : p.Laid order) : q.Laid order := by
  rw [← h.rest]
  refine hp.congr (fun _ _ => rfl) (fun _ _ _ _ => rfl) fun c _ => ?_
  have hname (m : MethodId) : (q.methods.get m).name = (p.methods.get m).name :=
    (congrArg Method.name (h.heads m) :)
  have hloc (m : MethodId) : (q.methods.get m).loc = (p.methods.get m).loc :=
    (congrArg Method.loc (h.heads m) :)
  simp only [ownMembers, hname, hloc]

end

section Binding

variable {S : NodeId → Prop} (h : p.Binds S q)
include h

theorem Binds.baseOf? (hp : p.Shaped) (hb : b ∈ (p.classes.get c).bases) :
    q.baseOf? b = p.baseOf? b := by
  cases hi : b.inst with
  | none => rw [Program.baseOf?, hi, Program.baseOf?, hi]; rfl
  | some i =>
    rw [Program.baseOf?, hi, Program.baseOf?, hi, Option.bind_some, Option.bind_some,
      h.grows.get_eq (hp.bases c b hb i hi)]

theorem Binds.laid (hp : p.Shaped) (hlaid : p.Laid order) : q.Laid order := by
  refine hlaid.congr (fun c _ => by rw [h.classes]) (fun c _ b hb => h.baseOf? hp hb) fun c _ => ?_
  simp only [ownMembers, h.vars, h.methods]

theorem Binds.overridden (hp : p.Shaped) (hm : p.Overridden m t) : q.Overridden m t := by
  obtain ⟨k, b, x, path, hk, hb, hx, hlookup⟩ := hm
  refine ⟨k, b, x, path, ?_, ?_, (h.baseOf? hp (mem_of_getElem? hb)).trans hx, ?_⟩
  · rw [h.methods, hk]
  · rw [h.methods, h.classes, hb]
  · rw [h.methods, h.classes, hlookup]

end Binding

namespace Resolve

section Register

theorem register_early (h : Early p0 todo p) {g : Global}
    (hg : match g with | .cls c => p.classes.Valid c | .function f => p.Listed f) :
    Leads sc (Early p0 todo) p (register name g loc) fun _ _ => True := by
  unfold register
  refine .program ?_
  extract_lets previous
  refine .bind (.edit { h with
    toStage := h.toStage.register hg
    heads := h.heads_congr rfl rfl rfl rfl }) fun _ q hq _ => ?_
  split
  · exact .fail trivial
  · exact .pure hq trivial

theorem registerModule_early (h : Early p0 todo p) (hs : p0.Owned) (m : ModuleId) :
    Leads sc (Early p0 todo) p (registerModule m) fun _ _ => True := by
  unfold registerModule
  refine .program ?_
  extract_lets decl
  refine .bind (.forM h fun c hc q hq => .program (register_early hq ?_)) fun _ q hq _ => ?_
  · exact (hq.akin.owned hs).classes m c (by rw [hq.akin.modules, ← h.akin.modules]; exact hc)
  · refine .forM hq fun f hf r hr => .program (register_early hr ?_)
    exact ⟨m, by rw [hr.akin.modules, ← h.akin.modules]; exact hf⟩

end Register

section Header

variable (hs : p0.Sown O)
include hs

theorem typeRef_early (h : Early p0 todo p) {d : NodeId} {root : Root} (hd : d ∈ p0.rootParts root)
    (ht : todo d) :
    Leads sc (Early p0 fun x => todo x ∧ x ≠ d) p (typeRef d) fun inst q =>
      q.Within (q.formals sc.owner) inst := by
  obtain ⟨⟨ts, _, htree⟩, hbelow⟩ := h.tree hs.forest hd ht
  refine (typeRef_binds (h.indexed hs.owned) htree).imp fun inst q hq ⟨href, hscoped⟩ =>
    ⟨?_, within_of_refers href hscoped⟩
  have hparts : ∀ x ∈ [d], ∃ r, x ∈ p0.rootParts r := forall_mem_singleton.2 ⟨root, hd⟩
  have hstage := h.binds hs.forest hparts hq fun j hj => ⟨d, mem_singleton_self d, hbelow j hj⟩
  refine { hstage.mono fun x hx => ⟨hx.1, fun he => hx.2 (mem_singleton.1 he)⟩ with
    methods := ?_, flattened := ?_, heads := fun r hr x hx => ?_ }
  · exact hq.methods.trans h.methods
  · rw [hq.classes]
    exact h.flattened
  · by_cases he : x = d
    · subst he
      exact .inr (hscoped.explicit.mono hbelow)
    · refine (h.heads r hr x hx).imp (fun ht => ⟨ht, he⟩) fun hx' => ?_
      exact hq.explicit hx' fun j hj hdj => hs.forest.parts_apart hx hd he j hj (hbelow j hdj)

theorem bound_early (h : Early p0 todo p) {a : ParamId}
    (ha : ∀ d ∈ p0.rootParts (.param a), todo d) :
    Leads sc (Early p0 fun d => todo d ∧ d ∉ p0.rootParts (.param a)) p (bound a)
      fun _ _ => True := by
  have hparts := h.akin.rootParts (.param a)
  unfold bound
  refine .program ?_
  extract_lets decl invalid
  split
  · rename_i reference href
    have hroot : p0.rootParts (.param a) = [reference] :=
      hparts.symm.trans (congrArg Option.toList href)
    have hmem : reference ∈ p0.rootParts (.param a) := hroot ▸ mem_singleton_self _
    refine .bind (.tryCatch (typeRef_early hs h hmem (ha _ hmem)) fun e q _ => ?_)
      fun inst q hq hinst => .program ?_
    · split <;> exact fun _ _ => trivial
    · have hq' : Early p0 (fun d => todo d ∧ d ∉ p0.rootParts (.param a)) q :=
        hq.congr (fun d hd => ⟨hd.1, fun he => hd.2 (he ▸ hmem)⟩) fun r _ d _ hd =>
          ⟨hd.1, fun ha => hd.2 (mem_singleton.1 (hroot ▸ ha))⟩
      split
      · rename_i c hget
        refine .program ?_
        split
        · rename_i hempty
          have hformed := hq.instances.formed inst hinst.valid
          rw [hget] at hformed
          refine (LeadsOr.edit ?_).post fun _ _ _ _ => trivial
          exact { hq' with
            toStage := hq'.toStage.bound hformed.1 (List.isEmpty_iff.1 hempty)
            heads := hq'.heads_congr rfl rfl rfl rfl }
        · exact fun _ _ => trivial
      · exact fun _ _ => trivial
  · rename_i hnone
    have hroot : p0.rootParts (.param a) = [] :=
      hparts.symm.trans (congrArg Option.toList (Option.eq_none_iff_forall_ne_some.2 hnone))
    refine .pure (h.congr (fun d hd => hd.1) fun r _ d _ hd => ⟨hd, ?_⟩) trivial
    rw [hroot]
    exact not_mem_nil

def Pending (p0 : Program) (cs : List ClassId) (d : NodeId) : Prop :=
  ∃ r, d ∈ p0.rootParts r ∧
    match r with
    | .param a => (p0.params.get a).owner ∈ cs
    | .bases c => c ∈ cs
    | _ => True

omit hs in
theorem pending_head (ho : p0.Owned) (r : Root) (hr : r.isHead) (d : NodeId)
    (hd : d ∈ p0.rootParts r) : Pending p0 p0.classes.ids d := by
  refine ⟨r, hd, ?_⟩
  cases r with
  | param a => exact mem_ids.2 (valid_of_mem_params (ho.mem_params hd rfl))
  | bases c => exact mem_ids.2 (valid_of_mem_bases hd)
  | _ => cases hr

/-- While the bounds of the parameters `as` of `c` are still to be bound, all of its bases are too.
-/
structure BoundsLeft (p0 : Program) (c : ClassId) (cs : List ClassId) (as : List ParamId)
    (q : Program) : Prop where
  early : Early p0 (fun d => Pending p0 cs d ∨ (∃ a ∈ as, d ∈ p0.rootParts (.param a)) ∨
    d ∈ p0.rootParts (.bases c)) q
  nodup : as.Nodup
  owner : ∀ a ∈ as, (p0.params.get a).owner = c

structure BasesLeft (p0 : Program) (c : ClassId) (cs : List ClassId) (bs : List (Base × Nat))
    (q : Program) : Prop where
  early : Early p0 (fun d => Pending p0 cs d ∨ ∃ b ∈ bs, d = b.1.reference) q
  nodup : (bs.map fun b => b.1.reference).Nodup
  mem : ∀ b ∈ bs, b.1.reference ∈ p0.rootParts (.bases c)

section Class

variable {cs : List ClassId}

theorem not_pending_param (hc : c ∉ cs) {a : ParamId} {d : NodeId}
    (hd : d ∈ p0.rootParts (.param a)) (ha : (p0.params.get a).owner = c) : ¬ Pending p0 cs d := by
  rintro ⟨s, hs', hpending⟩
  obtain rfl := hs.forest.root_unique hd hs'
  exact hc (ha ▸ hpending)

theorem not_pending_bases (hc : c ∉ cs) {d : NodeId} (hd : d ∈ p0.rootParts (.bases c)) :
    ¬ Pending p0 cs d := by
  rintro ⟨s, hs', hpending⟩
  obtain rfl := hs.forest.root_unique hd hs'
  exact hc hpending

/-- What is pending of the first class is its bounds and its bases. -/
theorem boundsLeft_of_early (h : Early p0 (Pending p0 (c :: cs)) p) :
    BoundsLeft p0 c cs (p.classes.get c).params p := by
  rw [h.akin.params]
  have howned (k : Nat) (a : ParamId) (hk : (p0.classes.get c).params[k]? = some a) :=
    hs.owned.params c k a hk
  refine ⟨h.congr ?_ ?_, ?_, fun a ha => ?_⟩
  · rintro d (⟨r, hd, hr⟩ | ⟨a, ha, hd⟩ | hd)
    · refine ⟨r, hd, ?_⟩
      cases r with
      | param a => exact mem_cons_of_mem c hr
      | bases b => exact mem_cons_of_mem c hr
      | _ => trivial
    · obtain ⟨k, hk⟩ := mem_iff_getElem?.1 ha
      refine ⟨.param a, hd, ?_⟩
      exact (howned k a hk).2.1 ▸ mem_cons_self
    · exact ⟨.bases c, hd, mem_cons_self⟩
  · rintro r hr d hd ⟨s, hs', hpending⟩
    obtain rfl := hs.forest.root_unique hd hs'
    cases r with
    | param a =>
      rcases mem_cons.1 hpending with ha | ha
      · exact .inr (.inl ⟨a, hs.owned.mem_params hd ha, hd⟩)
      · exact .inl ⟨.param a, hd, ha⟩
    | bases b =>
      rcases mem_cons.1 hpending with rfl | hb
      · exact .inr (.inr hd)
      · exact .inl ⟨.bases b, hd, hb⟩
    | _ => cases hr
  · refine nodup_iff_getElem?_ne_getElem?.2 fun i j hij hj he => ?_
    have hi := getElem?_eq_getElem (Nat.lt_trans hij hj)
    have hindex := (howned i _ hi).2.2.symm.trans (howned j _ (he ▸ hi)).2.2
    exact Nat.ne_of_lt hij hindex
  · obtain ⟨k, hk⟩ := mem_iff_getElem?.1 ha
    exact (howned k a hk).2.1

theorem BoundsLeft.bound (hc : c ∉ cs) {a : ParamId} {as : List ParamId}
    (h : BoundsLeft p0 c cs (a :: as) q) :
    Leads sc (BoundsLeft p0 c cs as) q (bound a) fun _ _ => True := by
  obtain ⟨hnew, hnodup⟩ := nodup_cons.1 h.nodup
  refine (bound_early hs h.early fun d hd => .inr (.inl ⟨a, mem_cons_self, hd⟩)).imp fun _ r hr _ =>
    ⟨⟨hr.congr ?_ ?_, hnodup, fun b hb => h.owner b (mem_cons_of_mem a hb)⟩, trivial⟩
  · rintro d (hd | ⟨b, hb, hd⟩ | hd)
    · exact ⟨.inl hd, fun ha => not_pending_param hs hc ha (h.owner a mem_cons_self) hd⟩
    · refine ⟨.inr (.inl ⟨b, mem_cons_of_mem a hb, hd⟩), fun ha => hnew ?_⟩
      cases hs.forest.root_unique ha hd
      exact hb
    · exact ⟨.inr (.inr hd), fun ha => nomatch hs.forest.root_unique ha hd⟩
  · rintro r _ d _ ⟨hd | ⟨b, hb, hd⟩ | hd, hn⟩
    · exact .inl hd
    · rcases mem_cons.1 hb with rfl | hb
      · exact absurd hd hn
      · exact .inr (.inl ⟨b, hb, hd⟩)
    · exact .inr (.inr hd)

theorem BoundsLeft.basesLeft (h : BoundsLeft p0 c cs [] q) :
    BasesLeft p0 c cs (q.classes.get c).bases.zipIdx q := by
  have hrefs : (q.classes.get c).bases.zipIdx.map (fun b => b.1.reference) =
      p0.rootParts (.bases c) := by
    rw [← h.early.akin.rootParts (.bases c)]
    show _ = (q.classes.get c).bases.map Base.reference
    conv_rhs => rw [← zipIdx_map_fst 0 (q.classes.get c).bases, map_map]
    rfl
  have hmem (b : Base × Nat) (hb : b ∈ (q.classes.get c).bases.zipIdx) :
      b.1.reference ∈ p0.rootParts (.bases c) := hrefs ▸ mem_map_of_mem hb
  refine ⟨h.early.congr ?_ ?_, ?_, hmem⟩
  · rintro d (hd | ⟨b, hb, rfl⟩)
    · exact .inl hd
    · exact .inr (.inr (hmem b hb))
  · rintro r _ d _ (hd | ⟨b, hb, _⟩ | hd)
    · exact .inl hd
    · cases hb
    · rw [← hrefs] at hd
      obtain ⟨b, hb, rfl⟩ := mem_map.1 hd
      exact .inr ⟨b, hb, rfl⟩
  · rw [hrefs]
    refine (hs.forest.apart (.bases c)).imp fun hxy he => ?_
    subst he
    exact hxy _ (.refl _) (.refl _)

theorem BasesLeft.base (hc : c ∉ cs) (ho : sc.owner = some c) {k : Nat} {bs : List (Base × Nat)}
    (h : BasesLeft p0 c cs ((b, k) :: bs) q) :
    Leads sc (BasesLeft p0 c cs bs) q (do
      let inst ← typeRef b.reference
      Pass.edit (·.modifyClass c (setBaseInst k inst))) fun _ _ => True := by
  obtain ⟨hnew, hnodup⟩ := nodup_cons.1 h.nodup
  have hb := h.mem (b, k) mem_cons_self
  refine .bind (typeRef_early hs h.early hb (.inr ⟨(b, k), mem_cons_self, rfl⟩))
    fun inst r hr hinst => ?_
  rw [ho] at hinst
  refine (LeadsOr.edit (R := BasesLeft p0 c cs bs)
    ⟨?_, hnodup, fun x hx => h.mem x (mem_cons_of_mem _ hx)⟩).post fun _ _ _ _ => trivial
  have hnext : Early p0 (fun d => Pending p0 cs d ∨ ∃ b ∈ bs, d = b.1.reference) r :=
    hr.congr ?_ ?_
  · refine { hnext with
      toStage := hnext.toStage.baseInst hinst
      flattened := fun d => ?_
      heads := hnext.heads_congr rfl rfl rfl rfl }
    have hsame (x : ClassDef) : (setBaseInst k inst x).flattened = x.flattened := rfl
    exact (get_modify_eq ClassDef.flattened hsame d).trans (hnext.flattened d)
  · rintro d (hd | ⟨b', hb', rfl⟩)
    · exact ⟨.inl hd, fun he => not_pending_bases hs hc (he ▸ hb) (he ▸ hd)⟩
    · refine ⟨.inr ⟨b', mem_cons_of_mem _ hb', rfl⟩, fun he => hnew ?_⟩
      exact mem_map.2 ⟨b', hb', he⟩
  · rintro _ _ d _ ⟨hd | ⟨b', hb', rfl⟩, hn⟩
    · exact .inl hd
    · rcases mem_cons.1 hb' with rfl | hb'
      · exact absurd rfl hn
      · exact .inr ⟨b', hb', rfl⟩

theorem header_early (h : Early p0 (Pending p0 (c :: cs)) p) (hc : c ∉ cs) :
    Leads sc (Early p0 (Pending p0 cs)) p (header c) fun _ _ => True := by
  unfold header inClass
  refine .program ?_
  extract_lets module
  refine .withReader (.program ?_)
  refine .bind (.forM_rest (boundsLeft_of_early hs h) fun a as q hq => hq.bound hs hc)
    fun _ q hq _ => .program ?_
  refine (LeadsOr.forM_rest (hq.basesLeft hs) fun b bs r hr => hr.base hs hc rfl).imp
    fun _ r hr _ => ⟨hr.early.congr (fun d hd => .inl hd) fun _ _ d _ hd => ?_, trivial⟩
  exact hd.resolve_right fun ⟨b, hb, _⟩ => nomatch hb

end Class

end Header

section Overloads

variable {base : ClassId}

theorem override_overrides {k : Nat} {inst : InstId}
    (hfound : ∀ m t, (p.methods.get m).overrides = some t → p.Overridden m t)
    (hm : p.methods.Valid m) (howner : (p.methods.get m).owner = c)
    (hk : (p.methods.get m).base = some k) (hb : (p.classes.get c).bases[k]? = some b)
    (hbase : p.baseOf? b = some (inst, base)) :
    Leads sc p.Overrides p (override c base m) fun _ q => (q.methods.get m).overrides.isSome := by
  unfold override
  refine .program ?_
  split
  rename_i name _ _ _ _ _ _ _ loc hdecl
  refine .program ?_
  split
  · exact .fail trivial
  · exact .fail trivial
  · rename_i entry hentry
    split
    · rename_i target htarget
      let g (d : Method) : Method := { d with overrides := some target }
      have hself : (p.modifyMethod m g).methods.get m = g (p.methods.get m) := get_modify_self hm
      have hbare (m' : MethodId) : ((p.modifyMethod m g).methods.get m').bare =
        (p.methods.get m').bare :=
        get_modify_eq Method.bare (fun d => (rfl : (g d).bare = d.bare)) m'
      have hother {m' : MethodId} (hne : m ≠ m') : (p.modifyMethod m g).methods.get m' =
        p.methods.get m' := get_modify_of_ne hne
      have hnow : p.Overridden m target := by
        obtain ⟨member, path⟩ := entry
        cases htarget
        refine ⟨k, b, (inst, base), path, hk, howner ▸ hb, hbase, ?_⟩
        rw [hdecl]
        exact hentry
      have hover : p.Overrides (p.modifyMethod m g) := by
        refine ⟨rfl, size_modify _ _ _, hbare, fun m' h => ?_, fun m' t ht =>
          overridden_congr rfl (hbare m') ?_⟩
        · by_cases hne : m = m'
          · subst hne
            exact congrArg (fun d : Method => d.overrides.isSome) hself
          · rw [hother hne]
            exact h
        · by_cases hne : m = m'
          · subst hne
            cases (congrArg Method.overrides hself).symm.trans ht
            exact hnow
          · exact hfound m' t ((congrArg Method.overrides (hother hne)).symm.trans ht)
      refine (LeadsOr.edit hover).post fun _ q _ hq => ?_
      subst hq
      exact congrArg (fun d : Method => d.overrides.isSome) hself
    · exact .fail trivial

section Bases

variable (hfound : ∀ m t, (p.methods.get m).overrides = some t → p.Overridden m t) (ho : p.Owned)
  (hbases : ∀ c, ∀ b ∈ (p.classes.get c).bases, (p.baseOf? b).isSome)
include hfound ho hbases

theorem base_overrides (hb : b ∈ (p.classes.get c).bases)
    (hbase : b.inst.bind p.classOf? = some base) :
    Leads sc (fun q => p.Overrides q ∧ ∀ m ∈ b.overloads, (q.methods.get m).overrides.isSome) p
      (b.overloads.forM (override c base)) fun _ _ => True := by
  obtain ⟨k, hk⟩ := mem_iff_getElem?.1 hb
  obtain ⟨⟨inst, d⟩, hd⟩ := Option.isSome_iff_exists.1 (hbases c b hb)
  have hsame : d = base := Option.some.inj ((classOf?_of_baseOf? hd).symm.trans hbase)
  subst hsame
  refine .forM_done (I := fun done q => p.Overrides q ∧
    ∀ m ∈ done, (q.methods.get m).overrides.isSome) ⟨.refl hfound, nofun⟩
    fun done m hm q ⟨hq, hdone⟩ => ?_
  obtain ⟨hv, howner, hindex⟩ := ho.overloads c k b hk m hm
  have hclasses : q.classes = p.classes := (congrArg Program.classes hq.rest).symm
  have hbaseOf : q.baseOf? b = p.baseOf? b := by
    rw [baseOf?, ← congrArg Program.insts hq.rest, baseOf?]
  have hv' : q.methods.Valid m := by
    rw [Valid, hq.size]
    exact hv
  refine (override_overrides hq.found hv' ((congrArg Method.owner (hq.heads m) :).trans howner)
    ((congrArg Method.base (hq.heads m) :).trans hindex) (hclasses ▸ hk) (hbaseOf.trans hd)).imp
    fun _ r hr hm => ?_
  exact ⟨⟨hq.trans hr, forall_mem_append.2
    ⟨fun m hm => hr.kept m (hdone m hm), forall_mem_singleton.2 hm⟩⟩, trivial⟩

end Bases

section

variable (hfound : ∀ m t, (p.methods.get m).overrides = some t → p.Overridden m t) (ho : p.Owned)
  (hbases : ∀ c, ∀ b ∈ (p.classes.get c).bases, (p.baseOf? b).isSome)
include hfound ho hbases

theorem overrides_overrides (c : ClassId) :
    Leads sc (fun q => p.Overrides q ∧ ∀ b ∈ (p.classes.get c).bases,
      ∀ m ∈ b.overloads, (q.methods.get m).overrides.isSome) p (overrides c) fun _ _ => True := by
  refine .program ?_
  refine .forM_done (I := fun (done : List Base) q => p.Overrides q ∧
    ∀ b ∈ done, ∀ m ∈ b.overloads, (q.methods.get m).overrides.isSome) ⟨.refl hfound, nofun⟩
    fun done b hb q ⟨hq, hdone⟩ => .program ?_
  have hclasses : q.classes = p.classes := (congrArg Program.classes hq.rest).symm
  have hbaseOf (b : Base) : q.baseOf? b = p.baseOf? b := by
    rw [baseOf?, ← congrArg Program.insts hq.rest, baseOf?]
  have hbases' (c : ClassId) (b : Base) (hb : b ∈ (q.classes.get c).bases) :
      (q.baseOf? b).isSome := by
    rw [hbaseOf]
    exact hbases c b (hclasses ▸ hb)
  split
  · rename_i hnone
    obtain ⟨x, hx⟩ := Option.isSome_iff_exists.1 (hbases c b hb)
    cases (classOf?_of_baseOf? ((hbaseOf b).trans hx)).symm.trans hnone
  · rename_i base hbase
    refine (base_overrides hq.found (hq.akin.owned ho) hbases' (c := c) (hclasses ▸ hb) hbase).imp
      fun _ r hr _ => ?_
    obtain ⟨hr, hms⟩ := hr
    exact ⟨⟨hq.trans hr, forall_mem_append.2 ⟨fun b hb m hm => hr.kept m (hdone b hb m hm),
      forall_mem_singleton.2 hms⟩⟩, trivial⟩

theorem forM_overrides (cs : List ClassId) :
    Leads sc (fun q => p.Overrides q ∧ ∀ c ∈ cs, ∀ b ∈ (p.classes.get c).bases, ∀ m ∈ b.overloads,
      (q.methods.get m).overrides.isSome) p (cs.forM overrides) fun _ _ => True := by
  refine .forM_done (I := fun (done : List ClassId) q => p.Overrides q ∧
    ∀ c ∈ done, ∀ b ∈ (p.classes.get c).bases,
    ∀ m ∈ b.overloads, (q.methods.get m).overrides.isSome) ⟨.refl hfound, nofun⟩
    fun done c _ q ⟨hq, hdone⟩ => ?_
  have hclasses : q.classes = p.classes := (congrArg Program.classes hq.rest).symm
  have hbaseOf (b : Base) : q.baseOf? b = p.baseOf? b := by
    rw [baseOf?, ← congrArg Program.insts hq.rest, baseOf?]
  refine (overrides_overrides hq.found (hq.akin.owned ho) (fun d b hb => ?_) c).imp
    fun _ r hr _ => ?_
  · rw [hbaseOf]
    exact hbases d b (hclasses ▸ hb)
  · obtain ⟨hr, hms⟩ := hr
    refine ⟨⟨hq.trans hr, forall_mem_append.2
      ⟨fun d hd b hb m hm => hr.kept m (hdone d hd b hb m hm), ?_⟩⟩, trivial⟩
    exact forall_mem_singleton.2 (hclasses ▸ hms)

end

end Overloads

end Resolve

def rootVars (p : Program) : Root → List VarId
  | .method m => (p.methods.get m).params
  | .function f => (p.functions.get f).params
  | _ => []

def bodyRoots (p : Program) : List Root :=
  p.classes.ids.flatMap (fun c =>
    (p.classes.get c).fields.map .field ++ (p.classes.get c).allMethods.map .method) ++
    p.functions.ids.map .function

theorem Akin.rootVars (h : p.Akin q) (r : Root) : q.rootVars r = p.rootVars r := by
  cases r with
  | method m => exact h.methodParams m
  | _ => simp only [Program.rootVars, h.functions]

theorem Akin.bodyRoots (h : p.Akin q) : q.bodyRoots = p.bodyRoots := by
  simp only [Program.bodyRoots, h.classIds, h.fields, h.allMethods, h.functions]

theorem not_head_of_bodyRoots {r : Root} (h : r ∈ p.bodyRoots) : r.isHead = false := by
  rcases mem_append.1 h with h | h
  · obtain ⟨c, _, h⟩ := mem_flatMap.1 h
    rcases mem_append.1 h with h | h <;> obtain ⟨x, _, rfl⟩ := mem_map.1 h <;> rfl
  · obtain ⟨x, _, rfl⟩ := mem_map.1 h
    rfl

def Settled (p0 p : Program) (r : Root) : Prop :=
  ∀ d ∈ p0.rootParts r, ∃ ts, (∀ t ∈ ts, r.isField ∧ p0.Aloof t) ∧
    p.Scoped (p0.Below d) ⟨⟨p0.rootOwner r, ts⟩, p0.rootVars r⟩ d

structure Bodies (p0 p1 : Program) (rest : List Root) (p : Program) : Prop where
  stage : Stage p0 (fun d => ∃ r ∈ rest, d ∈ p0.rootParts r) p
  binds : p1.Binds (fun j => ∃ r ∈ p0.bodyRoots, ∃ d ∈ p0.rootParts r, p0.Below d j) p
  bodies : ∀ r ∈ rest, r ∈ p0.bodyRoots
  done : ∀ r ∈ p0.bodyRoots, r ∈ rest ∨ p0.Settled p r
  distinct : rest.Nodup

/-- Of what a class owns, the bodies of `xs` are still to be visited, and then those of `rest`. -/
structure BodiesLeft {α : Type} (p0 p1 : Program) (own : List α) (root : α → Root)
    (rest : List Root) (xs : List α) (p : Program) : Prop where
  bodies : Bodies p0 p1 (xs.map root ++ rest) p
  owned : xs ⊆ own

theorem BodiesLeft.next {α : Type} {p1 : Program} {own : List α} {root : α → Root}
    {rest : List Root} {x : α} {xs : List α} (h : BodiesLeft p0 p1 own root rest (x :: xs) p)
    (hq : Bodies p0 p1 (xs.map root ++ rest) q) : BodiesLeft p0 p1 own root rest xs q :=
  ⟨hq, fun _ hy => h.owned (mem_cons_of_mem x hy)⟩

namespace Resolve

section Bodies

variable {p1 : Program} {root : Root} {rest : List Root} (hs : p0.Sown O) (hk : p1.Keyed)
include hs

theorem bodies_visit {m : Resolve Unit} {e : Setting} (h : Bodies p0 p1 (root :: rest) p)
    (hm : Visits sc p m ((p0.rootParts root).map (e, ·))) (howner : e.owner = p0.rootOwner root)
    (hvars : e.vars = p0.rootVars root) (htargets : ∀ t ∈ e.targets, root.isField ∧ p0.Aloof t) :
    Leads sc (Bodies p0 p1 rest) p m fun _ _ => True := by
  have hnew (d : NodeId) (hd : d ∈ p0.rootParts root) : ∃ r ∈ root :: rest, d ∈ p0.rootParts r :=
    ⟨root, mem_cons_self, hd⟩
  have hbelow (d : NodeId) (hd : d ∈ p0.rootParts root) := (h.stage.tree hs.forest hd (hnew d hd)).2
  refine hm.imp fun _ q hq hscoped =>
    ⟨⟨?_, ?_, fun r hr => h.bodies r (mem_cons_of_mem _ hr), fun r hr => ?_,
      (nodup_cons.1 h.distinct).2⟩, trivial⟩
  · refine (h.stage.binds hs.forest (fun d hd => ⟨root, hd⟩) hq fun j ⟨x, hx, hj⟩ => ?_).mono ?_
    · exact ⟨x.2, snd_mem_of_pair hx, hbelow _ (snd_mem_of_pair hx) j hj⟩
    · rintro d ⟨r, hr, hd⟩
      refine ⟨⟨r, mem_cons_of_mem _ hr, hd⟩, fun hd' => (nodup_cons.1 h.distinct).1 ?_⟩
      exact hs.forest.root_unique hd hd' ▸ hr
  · refine h.binds.trans hq fun j ⟨x, hx, hj⟩ =>
      ⟨root, h.bodies root mem_cons_self, x.2, snd_mem_of_pair hx, ?_⟩
    exact hbelow _ (snd_mem_of_pair hx) j hj
  · by_cases hroot : r = root
    · subst hroot
      refine .inr fun d hd => ⟨e.targets, htargets, ?_⟩
      obtain ⟨⟨o, ts⟩, vs⟩ := e
      cases howner
      cases hvars
      exact (hscoped (_, d) (mem_map_of_mem hd)).mono (hbelow d hd) (.refl _)
    · refine (h.done r hr).imp (fun hr => (mem_cons.1 hr).resolve_left hroot) fun hdone d hd => ?_
      obtain ⟨ts, hts, hd'⟩ := hdone d hd
      refine ⟨ts, hts, hq.scoped hd' fun j hj ⟨x, hx, hxj⟩ => ?_⟩
      have hx' := snd_mem_of_pair hx
      exact hs.forest.disjoint r root hroot d hd x.2 hx' j hj (hbelow _ hx' j hxj)

include hk

theorem bodies_prepared (h : Bodies p0 p1 rest p) : p.Prepared p.nodes.size :=
  ⟨h.stage.indexed hs.owned, h.binds.keyed hk, Nat.le_refl _⟩

theorem callable_bodies {params : List VarId} {result body : Option NodeId}
    (h : Bodies p0 p1 (root :: rest) p)
    (hroot : p0.rootParts root = p.paramTypes params ++ (result.toList ++ body.toList))
    (howner : sc.owner = p0.rootOwner root) (hlocals : sc.locals = [])
    (hvars : p0.rootVars root = params) (hfield : root.isField = false) :
    Leads sc (Bodies p0 p1 rest) p (callable result body params) fun _ _ => True := by
  have hparts (d : NodeId) (hd : d ∈ p0.rootParts root) : p.Tree p.nodes.size
      ⟨p0.rootOwner root, []⟩ d := by
    obtain ⟨ts, hts, htree⟩ := (h.stage.tree hs.forest hd ⟨root, mem_cons_self, hd⟩).1
    cases ts with
    | nil => exact htree
    | cons t ts => cases hfield.symm.trans (hts t mem_cons_self).1
  have hapart := h.stage.apart hs.forest (fun d hd => ⟨hd, root, mem_cons_self, hd⟩)
    (hs.forest.apart root)
  rw [hroot] at hparts hapart
  refine bodies_visit hs h (e := ⟨⟨p0.rootOwner root, []⟩, params⟩) ?_ rfl hvars.symm nofun
  rw [hroot]
  refine callable_visits params (bodies_prepared hs hk h) hapart hparts howner.symm ?_
  refine ⟨howner.symm, Subset.refl _, fun v hv => ?_⟩
  rw [Scope.setting, hlocals] at hv
  simpa [Setting.seeing] using hv

theorem field_bodies {f : VarId} (h : Bodies p0 p1 (.field f :: rest) p)
    (hf : f ∈ (p0.classes.get c).fields) (howner : sc.owner = some c) (hlocals : sc.locals = []) :
    Leads sc (Bodies p0 p1 rest) p (optional visit (p.vars.get f).init) fun _ _ => True := by
  obtain ⟨_, hrole, hinit⟩ := hs.owned.fields c f hf
  obtain ⟨d, hd⟩ := Option.isSome_iff_exists.1 hinit
  have hroot : p0.rootParts (.field f) = [d] := by rw [rootParts, Var.fieldInit, hrole, hd]; rfl
  have hmem : d ∈ p0.rootParts (.field f) := hroot ▸ mem_singleton_self d
  have hc : p0.rootOwner (.field f) = some c := by rw [rootOwner, Var.owner?, hrole]
  obtain ⟨ts, hts, htree⟩ := (h.stage.tree hs.forest hmem ⟨_, mem_cons_self, hmem⟩).1
  rw [h.stage.akin.vars, hd]
  refine bodies_visit hs h (e := ⟨⟨some c, ts⟩, []⟩) ?_ hc.symm rfl hts
  rw [hroot]
  refine visit_visits sc d _ p _ (bodies_prepared hs hk h) htree (hc.trans howner.symm)
    ⟨howner.symm, Subset.refl _, ?_⟩
  rw [Scope.setting, hlocals]
  exact Subset.refl _

theorem classBodies_bodies (h : Bodies p0 p1 ((p0.classes.get c).fields.map .field ++
      ((p0.classes.get c).allMethods.map .method ++ rest)) p) :
    Leads sc (Bodies p0 p1 rest) p (classBodies c) fun _ _ => True := by
  refine .program (.withReader (.program ?_))
  rw [h.stage.akin.fields]
  refine .bind (.forM_rest (I := BodiesLeft p0 p1 (p0.classes.get c).fields .field _)
    ⟨h, Subset.refl _⟩ fun f fs q hq => .program ?_) fun _ q hq _ => .program ?_
  · exact (field_bodies hs hk hq.bodies (hq.owned mem_cons_self) rfl rfl).imp fun _ r hr _ =>
      ⟨hq.next hr, trivial⟩
  · have hmethods := hq.bodies
    rw [hmethods.stage.akin.allMethods]
    refine (LeadsOr.forM_rest (I := BodiesLeft p0 p1 (p0.classes.get c).allMethods .method rest)
      ⟨hmethods, Subset.refl _⟩ fun m ms r hr => .program ?_).imp fun _ r hr _ =>
      ⟨hr.bodies, trivial⟩
    have hakin := hr.bodies.stage.akin
    have howner := hs.owned.owner (hr.owned mem_cons_self)
    have hroot := hakin.rootParts (.method m)
    rw [rootParts, append_assoc] at hroot
    exact (callable_bodies hs hk hr.bodies hroot.symm (congrArg some howner).symm rfl
      (hakin.methodParams m).symm rfl).imp fun _ s hs _ => ⟨hr.next hs, trivial⟩

theorem functionBody_bodies {f : FunctionId} (h : Bodies p0 p1 (.function f :: rest) p) :
    Leads sc (Bodies p0 p1 rest) p (functionBody f) fun _ _ => True := by
  refine .program (.withReader ?_)
  have hroot := h.stage.akin.rootParts (.function f)
  rw [rootParts, append_assoc] at hroot
  have hparams : p0.rootVars (.function f) = (p.functions.get f).params := by
    rw [h.stage.akin.functions]
    rfl
  exact callable_bodies hs hk h hroot.symm rfl rfl hparams rfl

theorem forM_classBodies (h : Bodies p0 p1 p0.bodyRoots p) :
    Leads sc (Bodies p0 p1 (p0.functions.ids.map .function)) p (p0.classes.ids.forM classBodies)
      fun _ _ => True := by
  refine LeadsOr.forM_rest (c := sc) (g := classBodies)
    (I := fun cs => Bodies p0 p1 (cs.flatMap (fun c => (p0.classes.get c).fields.map .field ++
      (p0.classes.get c).allMethods.map .method) ++ p0.functions.ids.map .function)) h
    fun c cs q hq => ?_
  rw [flatMap_cons, append_assoc, append_assoc] at hq
  exact classBodies_bodies hs hk hq

theorem forM_functionBody (h : Bodies p0 p1 (p0.functions.ids.map .function) p) :
    Leads sc (Bodies p0 p1 []) p (p0.functions.ids.forM functionBody) fun _ _ => True := by
  refine LeadsOr.forM_rest (c := sc) (g := functionBody)
    (I := fun fs => Bodies p0 p1 (fs.map .function)) h fun f fs q hq => ?_
  exact functionBody_bodies hs hk hq

end Bodies

end Resolve

structure Bindings (p0 p : Program) : Prop where
  stage : Stage p0 (fun _ => False) p
  settled : ∀ r ∈ p0.bodyRoots, p0.Settled p r
  heads : ∀ r, r.isHead → ∀ d ∈ p0.rootParts r, p.Explicit (p0.Below d) d
  laid : ∃ order, p.Laid order ∧ ∀ c, c ∈ order ↔ p.classes.Valid c
  found : ∀ m t, (p.methods.get m).overrides = some t → p.Overridden m t
  given : ∀ c, ∀ b ∈ (p.classes.get c).bases, ∀ m ∈ b.overloads, (p.methods.get m).overrides.isSome

theorem Laid.keyed (h : p.Laid order) (horder : ∀ c, p.classes.Valid c → c ∈ order) : p.Keyed := by
  intro c name entry hentry
  by_cases hc : p.classes.Valid c
  · obtain ⟨_, _, _, hname⟩ := h.path (horder c hc) hentry
    exact hname
  · rw [get_of_not_valid hc] at hentry
    cases hentry

/-- No declaration is in two classes. -/
theorem Sown.nodup_bodyRoots (h : p.Sown O) : p.bodyRoots.Nodup := by
  have hfield : Function.Injective Root.field := fun _ _ he => Root.field.inj he
  have hmethod : Function.Injective Root.method := fun _ _ he => Root.method.inj he
  have hfunction : Function.Injective Root.function := fun _ _ he => Root.function.inj he
  refine nodup_append.2 ⟨nodup_flatMap.2 ⟨fun c _ => ?_, ?_⟩, (nodup_ids _).map hfunction, ?_⟩
  · refine nodup_append.2
      ⟨(h.owned.distinctFields c).map hfield, (h.owned.distinctMethods c).map hmethod, ?_⟩
    intro r hr s hs he
    obtain ⟨f, _, rfl⟩ := mem_map.1 hr
    obtain ⟨m, _, rfl⟩ := mem_map.1 hs
    cases he
  · refine (nodup_ids p.classes).imp fun {c d} hcd r hr hr' => hcd ?_
    rcases mem_append.1 hr with hr | hr <;> rcases mem_append.1 hr' with hr' | hr'
    · obtain ⟨f, hf, rfl⟩ := mem_map.1 hr
      obtain ⟨_, hf', he⟩ := mem_map.1 hr'
      cases he
      exact VarRole.field.inj ((h.owned.fields c f hf).2.1.symm.trans (h.owned.fields d f hf').2.1)
    · obtain ⟨f, _, rfl⟩ := mem_map.1 hr
      obtain ⟨_, _, he⟩ := mem_map.1 hr'
      cases he
    · obtain ⟨f, _, rfl⟩ := mem_map.1 hr
      obtain ⟨_, _, he⟩ := mem_map.1 hr'
      cases he
    · obtain ⟨m, hm, rfl⟩ := mem_map.1 hr
      obtain ⟨_, hm', he⟩ := mem_map.1 hr'
      cases he
      exact (h.owned.owner hm).symm.trans (h.owned.owner hm')
  · intro r hr s hs he
    obtain ⟨f, _, rfl⟩ := mem_map.1 hs
    obtain ⟨c, _, hr⟩ := mem_flatMap.1 hr
    rcases mem_append.1 hr with hr | hr
    · obtain ⟨x, _, rfl⟩ := mem_map.1 hr
      cases he
    · obtain ⟨x, _, rfl⟩ := mem_map.1 hr
      cases he

namespace Resolve

/-- Once no class is left, all that stands in the heads of classes is bound. -/
theorem explicit_head (hs : p0.Sown O) (h : Early p0 (Pending p0 []) p) {r : Root}
    (hr : r.isHead) {d : NodeId} (hd : d ∈ p0.rootParts r) : p.Explicit (p0.Below d) d := by
  refine (h.heads r hr d hd).resolve_left ?_
  rintro ⟨s, hs', hpending⟩
  obtain rfl := hs.forest.root_unique hd hs'
  cases r with
  | param _ | bases _ => cases hpending
  | _ => cases hr

theorem flattened_iff_valid (hsize : q.classes.size = p.classes.size)
    (hflat : ∀ c ∈ p.classes.ids, (q.classes.get c).flattened = true) (c : ClassId) :
    (q.classes.get c).flattened = true ↔ q.classes.Valid c := by
  refine ⟨fun h => ?_, fun h => hflat c (mem_ids.2 (Nat.lt_of_lt_of_eq h hsize))⟩
  by_contra hc
  rw [get_of_not_valid hc] at h
  cases h

theorem all_bindings (hs : p.Sown O) (hp : p.Shaped) (hu : p.Untyped) :
    Leads sc p.Bindings p all fun _ _ => True := by
  unfold all
  -- Globals, then the heads of classes.
  refine .program (.bind (.forM (hs.early hp hu (pending_head hs.owned)) fun m _ q hq =>
    registerModule_early hq hs.owned m) fun _ p1 h1 _ => .program ?_)
  have hids1 : p1.classes.ids = p.classes.ids := h1.akin.classIds
  rw [hids1]
  refine .bind (.forM_rest (I := fun cs q => Early p (Pending p cs) q ∧ cs.Nodup) ⟨h1, nodup_ids _⟩
    fun c cs q ⟨hq, hnodup⟩ => ?_) fun _ p2 ⟨h2, _⟩ _ => .program ?_
  · exact (header_early hs hq (nodup_cons.1 hnodup).1).imp fun _ r hr _ =>
      ⟨⟨hr, (nodup_cons.1 hnodup).2⟩, trivial⟩
  -- The members of classes, and what methods are given for.
  refine .bind (Q := fun _ q => ∀ c ∈ p2.classes.ids, (q.classes.get c).flattened = true)
    (S := p2.Flattens []) (Flatten.classes_end (layered_of_unflattened fun c _ => h2.flattened c)
      (fun c d ⟨i, hx⟩ => ?_) _ fun c hc => mem_ids.1 hc).leadsTo fun _ p3 h3 hflat => .program ?_
  · obtain ⟨b, hb, hx⟩ := mem_filterMap.1 hx
    obtain ⟨hi, hd⟩ := baseOf?_eq_some.1 hx
    exact ((h2.instances.formed i (h2.bases c b hb i hi).valid).cls hd).1
  have hstage3 := h2.toStage.flattens h3
  obtain ⟨order, hlaid, horder⟩ := h3.layered
  have hvalid (c : ClassId) : c ∈ order ↔ p3.classes.Valid c :=
    (horder c).symm.trans (flattened_iff_valid h3.size hflat c)
  have hbases (c : ClassId) (b : Base) (hb : b ∈ (p3.classes.get c).bases) :
      (p3.baseOf? b).isSome := by
    by_cases hc : p3.classes.Valid c
    · exact (hlaid.flat ((hvalid c).2 hc)).bound b hb
    · rw [get_of_not_valid hc] at hb
      cases hb
  have hnone (m t : MethodId) (hm : (p3.methods.get m).overrides = some t) : p3.Overridden m t := by
    rw [h3.methods, h2.methods, hs.unlinked.overrides] at hm
    cases hm
  refine .bind (forM_overrides hnone (hstage3.akin.owned hs.owned) hbases _)
    fun _ p4 ⟨h4, hgiven⟩ _ => .program ?_
  have hstage4 := h4.stage hstage3
  have hclasses4 : p4.classes = p3.classes := (congrArg Program.classes h4.rest).symm
  have hlaid4 := h4.laid hlaid
  have hkeyed : p4.Keyed := hlaid4.keyed fun c hc => (hvalid c).2 (hclasses4 ▸ hc)
  have hbodies : Bodies p p4 p.bodyRoots p4 := by
    refine ⟨hstage4.mono ?_, .refl (hstage4.indexed hs.owned), fun _ => id, fun r hr => .inl hr,
      hs.nodup_bodyRoots⟩
    rintro d ⟨r, hr, hd⟩
    refine ⟨r, hd, ?_⟩
    have hbody := not_head_of_bodyRoots hr
    cases r with
    | param _ | bases _ => cases hbody
    | _ => trivial
  -- The text of bodies.
  rw [hstage4.akin.classIds]
  refine .bind (forM_classBodies hs hkeyed hbodies) fun _ p5 h5 _ => .program ?_
  rw [h5.stage.akin.functions]
  refine .bind (forM_functionBody hs hkeyed h5) fun _ p6 h6 _ => .program (.program ?_)
  have hshaped := hstage4.linked.shaped
  have hdone : p.Bindings p6 := by
    refine ⟨h6.stage.mono fun _ => False.elim, fun r hr => (h6.done r hr).resolve_left nofun,
      fun r hr d hd => ?_, ⟨order, h6.binds.laid hshaped hlaid4, fun c => ?_⟩, fun m t hm => ?_,
      fun c b hb m hm => ?_⟩
    · have hd4 := (explicit_head hs h2 hr hd).congr (q := p4)
        (fun j _ => by rw [← h4.rest, ← h3.rest]; rfl) (by rw [← h4.rest, ← h3.rest])
        (by rw [← h4.rest, ← h3.rest]) (by rw [← h4.rest, ← h3.rest])
      refine h6.binds.explicit hd4 fun j hj ⟨s, hs', x, hx, hxj⟩ => ?_
      refine hs.forest.disjoint r s ?_ d hd x hx j hj hxj
      rintro rfl
      cases hr.symm.trans (not_head_of_bodyRoots hs')
    · rw [hvalid, h6.binds.classes, hclasses4]
    · rw [h6.binds.methods] at hm
      exact h6.binds.overridden hshaped (h4.found m t hm)
    · rw [h6.binds.classes, hclasses4] at hb
      rw [h6.binds.methods]
      refine hgiven c ?_ b hb m hm
      by_contra hc
      rw [get_of_not_valid fun hv => hc (mem_ids.2 hv)] at hb
      cases hb
  rintro s rfl
  exact ⟨hdone, trivial⟩

end Resolve

theorem resolve_bindings (hs : p.Sown O) (hp : p.Shaped) (hu : p.Untyped)
    (hok : p.resolve.result = .ok ()) : p.Bindings p.resolve.program :=
  (LeadsTo.outcome (Q := fun _ _ => True) (Resolve.all_bindings hs hp hu) hok).1

end ClassLang.Program
