import ClassLang.Proofs.Typing.Substitution

namespace ClassLang

open List

namespace Program

variable {p q r : Program} {c d : ClassId} {i j x : InstId} {way : List InstId}

section Ancestors

variable {o o' : Option InstId} (hw : p.Wired) (hu : p.Under q)
include hw hu

theorem FirstWay.chain (h : p.FirstWay d c way) :
    q.Chain c way d ∧ ∀ j ∈ way, q.insts.Valid j ∧ q.Saturated j := by
  have hvalid := h.path.valid hw.shaped.bases
  refine ⟨(hu.path hw.shaped.bases h.path).chain (hw.bases_within hu), fun j hj => ?_⟩
  exact ⟨hu.insts.valid (hvalid j hj), hw.saturated hu (hvalid j hj)⟩

theorem Rung.adds (h : p.Rung q i c d o) (hq : q.Tables) (hr : q.Adds r) (hi : q.insts.Valid i) :
    p.Rung r i c d o := by
  cases o with
  | none => exact h
  | some y =>
    obtain ⟨hy, way, hway, harrives⟩ := h
    exact ⟨hr.insts.valid hy, way, hway, harrives.adds hq hr hi fun j hj =>
      ((hway.chain hw hu).2 j hj).1⟩

theorem Rung.isSome (h : p.Rung q i c d o) (hc : q.classes.Valid c) :
    o.isSome = p.derivesFrom c d := by
  obtain ⟨order, hlaid, _, hin⟩ := hw.ordering hu hc
  cases o with
  | none => exact h.symm
  | some y =>
    obtain ⟨_, way, hway, _⟩ := h
    exact ((hlaid.derivesFrom_iff hin).2 hway.path.above).symm

theorem Rung.unique (h : p.Rung q i c d o) (h' : p.Rung q i c d o') (hc : q.classes.Valid c) :
    o = o' := by
  have hsome := (h.isSome hw hu hc).trans (h'.isSome hw hu hc).symm
  cases o with
  | none => exact (Option.isNone_iff_eq_none.1 (Option.isSome_eq_false_iff.1 hsome.symm)).symm
  | some y =>
    obtain ⟨y', rfl⟩ := Option.isSome_iff_exists.1 hsome.symm
    obtain ⟨_, way, hway, harrives⟩ := h
    obtain ⟨_, way', hway', harrives'⟩ := h'
    rw [hway.unique hway'] at harrives'
    rw [harrives.unique harrives']

/-- What an instance is found to be is what the class is, as seen from the instance. -/
theorem Rung.stripped {args : List InstId} (hq : q.Canonical) (h : p.Rung q i c d o)
    (h' : p.Rung q x c d o') (hi : q.insts.Valid i) (hget : q.insts.get i = ⟨.cls c, args⟩)
    (hs : q.Saturated i) (hx : q.IsThis c x) (hc : q.classes.Valid c) :
    Option.Rel (q.StrippedInst i) o' o := by
  have hsome := (h.isSome hw hu hc).trans (h'.isSome hw hu hc).symm
  cases o with
  | none =>
    rw [Option.isNone_iff_eq_none.1 (Option.isSome_eq_false_iff.1 hsome.symm)]
    exact .none
  | some y =>
    obtain ⟨y', rfl⟩ := Option.isSome_iff_exists.1 hsome.symm
    obtain ⟨_, way, hway, harrives⟩ := h
    obtain ⟨_, way', hway', harrives'⟩ := h'
    rw [hway.unique hway'] at harrives'
    obtain ⟨_, _, hgetx, _⟩ := id hx
    exact .some (harrives'.stripped hq (hway.chain hw hu).1 (hx.replaced hq hi hget hs) harrives
      (by rw [hgetx]))

end Ancestors

/-- `i` is an instance of the class `c` with all its arguments, in a program that has grown from
`p`. -/
structure Seated (p q : Program) (i : InstId) (c : ClassId) : Prop where
  under : p.Under q
  inst : q.insts.Valid i
  target : (q.insts.get i).target = .cls c
  saturated : q.Saturated i
  cls : q.classes.Valid c

section Seats

variable {n : Nat} {a : ClassId} {o o' : Option InstId} (h : p.Seated q i c)
include h

theorem Seated.adds (hr : q.Adds r) : p.Seated r i c where
  under := h.under.trans hr.under
  inst := hr.insts.valid h.inst
  target := by rw [hr.insts.get_eq h.inst, h.target]
  saturated := hr.saturated h.inst h.saturated
  cls := by rw [hr.classes]; exact h.cls

theorem Seated.this (hx : q.IsThis c x) : p.Seated q x c := by
  obtain ⟨hvalid, _, hget, hparams⟩ := hx
  exact ⟨h.under, hvalid, by rw [hget], (saturated_cls hget).2 hparams.length_eq.symm, h.cls⟩

variable (hw : p.Wired)
include hw

theorem Seated.rung_adds (hq : q.Tables) (hr : q.Adds r) (hb : p.Rung q i c a o) :
    p.Rung r i c a o :=
  hb.adds hw h.under hq hr h.inst

theorem Seated.upcastUpTo (hq : q.Canonical) (hn : q.classes.size ≤ n) :
    Works Canonical q (upcastUpTo n i a) (fun b r => p.Rung r i c a b) False := by
  obtain ⟨order, hlaid, hlen, hin⟩ := hw.ordering h.under h.cls
  exact upcastUpTo_works canonical_lawful (fun _ => id) hw h.under hq h.inst h.saturated hlaid hin
    (Nat.le_trans hlen hn) h.target

theorem Seated.upcast (hq : q.Canonical) :
    Works Canonical q (upcast i a) (fun b r => p.Rung r i c a b) False :=
  .get (h.upcastUpTo hw hq (Nat.le_succ _))

theorem Seated.found (hq : q.Canonical) :
    ∃ b r, Program.upcast i a q = .ok b r ∧ b.isSome = q.derivesFrom c a ∧
      ∀ j ∈ b, r.insts.Valid j ∧ (r.insts.get j).target = .cls a ∧ r.Saturated j := by
  obtain ⟨b, r, hrun, hr, hcan, hb⟩ := (h.upcast hw hq (a := a)).exists_ok
  have hseated := h.adds hr
  have hsome := hb.isSome hw hseated.under hseated.cls
  rw [derivesFrom, ← h.under.alike.ancestors, ← derivesFrom] at hsome
  refine ⟨b, r, hrun, hsome, fun j hj => ?_⟩
  cases hj
  obtain ⟨hj, way, hway, harrives⟩ := hb
  obtain ⟨hchain, hways⟩ := hway.chain hw hseated.under
  exact ⟨hj, hchain.arrives (fun j hj => (hways j hj).2) harrives hseated.target hseated.saturated⟩

theorem Seated.agree_upTo (hq : q.Canonical) (hn : q.classes.size ≤ n) :
    q.Agree (Program.upcast i a) (Program.upcastUpTo n i a) :=
  .of_works (M := fun b r => p.Rung r i c a b) (N := fun b r => p.Rung r i c a b) hq
    (fun _ hr hcan => (h.adds hr).upcast hw hcan)
    (fun _ hr hcan => (h.adds hr).upcastUpTo hw hcan (by rwa [hr.classes]))
    (fun _ _ _ hr hr' => (h.adds hr).rung_adds hw hr.tables hr')
    (fun _ _ _ hr hr' => (h.adds hr).rung_adds hw hr.tables hr') fun _ _ _ hr hcan hb hb' =>
    hb.unique hw (h.adds hr).under hb' (h.adds hr).cls

/-- What the class is, as seen from the instance. -/
theorem Seated.seen (hq : q.Canonical) : Works Canonical q (do
      let this ← modifyGet (·.thisInst c)
      (← Program.upcast this a).mapM (stripInst · i))
    (fun b r => ∃ x b0, r.IsThis c x ∧ p.Rung r x c a b0 ∧ Option.Rel (r.StrippedInst i) b0 b)
      False := by
  have hthis : Works Canonical q (modifyGet (·.thisInst c)) (fun x r => r.IsThis c x) False :=
    ⟨(thisInst_adds hq.tables c).1, thisInst_keeps canonical_lawful hq hq h.cls⟩
  refine hthis.bind fun x r1 h1 hcan1 hx => ?_
  have hseated := (h.adds h1).this hx
  refine (hseated.upcast hw hcan1).bind fun b r2 h2 hcan2 hb => ?_
  have hi := (h.adds h1).adds h2
  have hx2 := hx.grows h2.insts (by rw [h2.classes])
  cases b with
  | none => exact .pure h2.tables hcan2 ⟨x, none, hx2, hb, .none⟩
  | some y =>
    refine (stripInst_saturated hcan2 canonical_lawful hcan2 hi.inst hi.saturated hb.1).bind
      fun j r3 h3 hcan3 ⟨_, hj⟩ =>
      .pure h3.tables hcan3 ⟨x, some y, hx2.grows h3.insts (by rw [h3.classes]), ?_, .some hj⟩
    exact (hseated.adds h2).rung_adds hw h2.tables h3 hb

theorem Seated.agree_seen (hq : q.Canonical) : q.Agree (Program.upcast i a) (do
    let this ← modifyGet (·.thisInst c)
    (← Program.upcast this a).mapM (stripInst · i)) := by
  refine .of_works (M := fun b r => p.Rung r i c a b)
    (N := fun b r => ∃ x b0, r.IsThis c x ∧ p.Rung r x c a b0 ∧ Option.Rel (r.StrippedInst i) b0 b)
    hq (fun _ hr hcan => (h.adds hr).upcast hw hcan) (fun _ hr hcan => (h.adds hr).seen hw hcan)
    (fun _ _ _ hr hr' => (h.adds hr).rung_adds hw hr.tables hr') (fun b r r' hr hr' => ?_)
    fun b b' r hr hcan hb ⟨x, b0, hx, hb0, hrel⟩ => ?_
  · rintro ⟨x, b0, hx, hb0, hrel⟩
    refine ⟨x, b0, hx.grows hr'.insts (by rw [hr'.classes]),
      ((h.adds hr).this hx).rung_adds hw hr.tables hr' hb0, ?_⟩
    cases hrel with
    | none => exact .none
    | some hstripped => exact .some (hstripped.grows hr'.insts hr'.params (h.adds hr).inst)
  · obtain ⟨hunder, hi, htarget, hs, hc⟩ := h.adds hr
    have hget : r.insts.get i = ⟨.cls c, (r.insts.get i).args⟩ := by rw [← htarget]
    have hrel' := hb.stripped hw hunder hcan hb0 hi hget hs hx hc
    cases hrel with
    | none =>
      cases hrel'
      rfl
    | some hj =>
      cases hrel' with
      | some hj' => rw [hj.unique hj']

end Seats

/-- Whether an instance has an ancestor is whether its class has, and it is found without going
deeper than there are classes. What is found is what the class, applied to its own parameters, has,
as seen from the instance. -/
theorem upcast_natural (h : p.Resolved) (hu : p.Under q) (hq : q.Canonical) (hi : q.insts.Valid i)
    (hc : (q.insts.get i).target = .cls c) (hs : q.Saturated i) (hv : q.classes.Valid c)
    (a : ClassId) :
    (∃ b r, upcast i a q = .ok b r ∧ b.isSome = q.derivesFrom c a ∧
      ∀ j ∈ b, r.insts.Valid j ∧ (r.insts.get j).target = .cls a ∧ r.Saturated j) ∧
    (∀ n, q.classes.size ≤ n → q.Agree (upcast i a) (upcastUpTo n i a)) ∧
    q.Agree (upcast i a) (do
      let this ← modifyGet (·.thisInst c)
      (← upcast this a).mapM (stripInst · i)) := by
  have hseated : p.Seated q i c := ⟨hu, hi, hc, hs, hv⟩
  exact ⟨hseated.found h.wired hq, fun n hn => hseated.agree_upTo h.wired hq hn,
    hseated.agree_seen h.wired hq⟩

/-- `B(P)` is an `I(P)`, as `B(U)` is an `I(U)`. -/
theorem upcast_natural_box :
    (∃ j r, upcast ⟨3⟩ ⟨1⟩ (ofText boxText) = .ok (some j) r ∧ (r.insts.get j).target = .cls ⟨1⟩) ∧
    (ofText boxText).Agree (upcast ⟨3⟩ ⟨1⟩) (do
      let this ← modifyGet (·.thisInst ⟨2⟩)
      (← upcast this ⟨1⟩).mapM (stripInst · ⟨3⟩)) := by
  have hrun : resolves boxText = true ∧ (ofText boxText).insts.Valid ⟨3⟩ ∧
      (ofText boxText).insts.get ⟨3⟩ = ⟨.cls ⟨2⟩, [⟨2⟩]⟩ ∧
      ((ofText boxText).classes.get ⟨2⟩).params.length = 1 ∧ (ofText boxText).classes.Valid ⟨2⟩ ∧
      (ofText boxText).derivesFrom ⟨2⟩ ⟨1⟩ = true := by
    decide +kernel
  have h := resolved_ofText boxText hrun.1
  generalize ofText boxText = p at h hrun ⊢
  obtain ⟨_, hi, hget, hparams, hc, hderives⟩ := hrun
  have hcan : p.Canonical := (Furnished.resolved h).canonical
  have hs : p.Saturated ⟨3⟩ := (saturated_cls hget).2 hparams.symm
  obtain ⟨⟨b, r, hrun, hsome, hb⟩, _, hagree⟩ :=
    upcast_natural h (.refl p) hcan hi (congrArg Inst.target hget) hs hc ⟨1⟩
  obtain ⟨j, rfl⟩ := Option.isSome_iff_exists.1 (hsome.trans hderives)
  exact ⟨⟨j, r, hrun, (hb j rfl).2.1⟩, hagree⟩

end Program

end ClassLang
