import ClassLang.Proofs.Typing.Dispatch
import ClassLang.Proofs.Typing.Signatures

namespace ClassLang

namespace Program

variable {p q : Program} {c d : ClassId} {x y : InstId}

theorem isSubinst_of_ne (hne : x ≠ y) : isSubinst x y p = (match (p.insts.get y).target with
    | .cls c => do return decide ((← upcast x c) = some y)
    | .param _ => return false : Edit Bool) p := by
  rw [isSubinst, if_neg hne]
  rfl

theorem again_false_of_param {k : ParamId} (hy : q.insts.Valid y) (hne : x ≠ y)
    (htarget : (q.insts.get y).target = .param k) : q.Again (isSubinst x y) false := by
  intro r hr
  rw [isSubinst_of_ne hne, hr.get_inst hy, htarget]
  rfl

/-- An instance derives neither from another one of its own class nor from one of a class that is no
ancestor of it. -/
theorem again_false_of_cls (hx : q.insts.Valid x) (hy : q.insts.Valid y) (hne : x ≠ y)
    (hc : (q.insts.get x).target = .cls c) (hd : (q.insts.get y).target = .cls d)
    (h : d ∉ (q.classes.get c).ancestors) : q.Again (isSubinst x y) false := by
  intro r hr
  have hup : ∃ z, upcast x d r = .ok z r ∧ z ≠ some y := by
    have hfrom : upcast x d r = upcastFrom (r.classes.get c).bases (r.derivesFrom c d)
        (upcastUpTo r.classes.size · d) c d x r := by
      show upcastUpTo (r.classes.size + 1) x d r = _
      rw [upcastUpTo_succ]
      show r.upcastAt _ x d r = _
      rw [upcastAt, show r.classOf? x = some c by rw [hr.classOf? hx, classOf?, hc]]
      dsimp only
      rw [hr.get_inst hx, hc]
      rfl
    rw [hfrom, upcastFrom]
    by_cases hcd : c = d
    · rw [if_pos hcd]
      exact ⟨some x, rfl, fun he => hne (Option.some_inj.1 he)⟩
    · have hfurther : r.derivesFrom c d = false := by simp [derivesFrom, hcd, hr.alike.ancestors, h]
      rw [if_neg hcd, hfurther]
      exact ⟨none, rfl, fun he => by cases he⟩
  obtain ⟨z, hz, hzy⟩ := hup
  rw [isSubinst_of_ne hne, hr.get_inst hy, hd]
  show EStateM.bind (upcast x d) _ r = _
  rw [EStateM.bind, hz]
  exact congrArg (EStateM.Result.ok · r) (decide_eq_false hzy)

/-- Of two instances one at most derives from the other; that the other one does not is seen without
any work. -/
theorem Wired.again_false (hw : p.Wired) (hu : p.Under q) (hx : q.insts.Valid x)
    (hy : q.insts.Valid y) (hne : x ≠ y) :
    q.Again (isSubinst x y) false ∨ q.Again (isSubinst y x) false := by
  cases hc : (q.insts.get x).target with
  | param => exact .inr (again_false_of_param hx hne.symm hc)
  | cls c =>
    cases hd : (q.insts.get y).target with
    | param => exact .inl (again_false_of_param hy hne hd)
    | cls d =>
      by_cases hanc : d ∈ (q.classes.get c).ancestors
      · rw [hu.alike.ancestors] at hanc
        have hvalid : p.classes.Valid c := Arena.valid_of_get_ne fun he => by
          rw [he] at hanc
          cases hanc
        refine .inr (again_false_of_cls hy hx hne.symm hd hc fun hback => ?_)
        rw [hu.alike.ancestors] at hback
        exact hw.acyclic hvalid hanc (List.mem_cons_of_mem _ hback)
      · exact .inl (again_false_of_cls hx hy hne hc hd hanc)

end Program

namespace Typing

open TypeTable

variable {p : Program} {e : Engine} {a b r : TypeId} {x y : RefKind × InstId} {c : Context}
  {s s' : PassState} {loc : Location}

theorem joinKinds_comm (k k' : RefKind) : joinKinds k k' = joinKinds k' k := by
  cases k <;> cases k' <;> rfl

theorem keepsKind_of_joinKinds {k k' kind : RefKind} (h : joinKinds k k' = some kind) :
    keepsKind kind k = true ∧ keepsKind kind k' = true := by
  cases k <;> cases k' <;> cases h <;> exact ⟨rfl, rfl⟩

def joinAs (a b : TypeId) (x y : RefKind × InstId) (loc : Location) (inst : InstId) :
    Check TypeId :=
  match joinKinds x.1 y.1 with
  | some kind => intern (.ref kind inst)
  | none => failAt (.incompatible a b) loc

theorem joinAs_iff {inst : InstId} : joinAs a b x y loc inst c s = .ok r s' ↔
    ∃ kind, joinKinds x.1 y.1 = some kind ∧ intern (.ref kind inst) c s = .ok r s' := by
  unfold joinAs
  cases joinKinds x.1 y.1 with
  | none => exact ⟨nofun, nofun⟩
  | some kind => simp

theorem joinRefs_of_ok {left : Bool} {s1 : PassState}
    (h : editing loc (Program.isSubinst y.2 x.2) c s = .ok left s1) :
    joinRefs a b x y loc c s = (if left then joinAs a b x y loc x.2 else do
      if ← editing loc (Program.isSubinst x.2 y.2) then joinAs a b x y loc y.2
      else failAt (.incompatible a b) loc) c s1 := by
  unfold joinRefs
  rw [bind_of_ok h]
  cases left with
  | true => rfl
  | false =>
    cases hright : editing loc (Program.isSubinst x.2 y.2) c s1 with
    | error => exact (bind_of_error hright).trans (bind_of_error hright).symm
    | ok right =>
      refine (bind_of_ok hright).trans ((bind_of_ok hright).trans ?_).symm
      cases right <;> rfl

theorem adds_of_editing {α : Type} {m : Program.Edit α} {Q : α → Program → Prop} {v : α}
    (h : Program.Interns s.program m Q) (hrun : editing loc m c s = .ok v s') :
    s.program.Adds s'.program ∧ Q v s'.program := by
  have hyields := editing_yields (c := c) h loc
  rw [Yields, hrun] at hyields
  exact hyields.2

theorem adds_of_intern {x : Ty} (hp : s.program.Tables) (hx : s.program.Holds x)
    (hrun : intern x c s = .ok r s') : s.program.Adds s'.program ∧ s'.program.types.get r = x := by
  cases hrun
  exact ⟨hp.intern hx, Pool.get_intern_self s.program.types x⟩

def Lifts (x y : RefKind × InstId) (loc : Location) (c : Context) (s : PassState) (r : TypeId)
    (s' : PassState) : Prop :=
  ∃ kind s1, joinKinds x.1 y.1 = some kind ∧ editing loc (Program.isSubinst x.2 y.2) c s =
    .ok true s1 ∧ intern (.ref kind y.2) c s1 = .ok r s'

section References

variable (hside : x.2 = y.2 ∨ s.program.Again (Program.isSubinst y.2 x.2) false)
include hside

theorem joinRefs_iff : joinRefs a b x y loc c s = .ok r s' ↔ Lifts x y loc c s r s' := by
  unfold Lifts
  rcases hside with heq | hside
  · have hself (i : InstId) : editing loc (Program.isSubinst i i) c s = .ok true s :=
      editing_again (Program.again_isSubinst_self _ _) (.refl _) loc
    have hleft := hself x.2
    nth_rewrite 1 [heq] at hleft
    rw [joinRefs_of_ok hleft, if_pos rfl, joinAs_iff, heq, hself]
    simp
  · rw [joinRefs_of_ok (editing_again hside (.refl _) loc), if_neg (by decide)]
    cases hright : editing loc (Program.isSubinst x.2 y.2) c s with
    | error => rw [bind_of_error hright]; simp
    | ok right s1 =>
      rw [bind_of_ok hright]
      cases right with
      | false => exact ⟨nofun, nofun⟩
      | true => simp [joinAs_iff]

theorem joinRefs_swap_iff (hp : s.program.Tables) (hb : s.program.BasesValid)
    (hx : s.program.insts.Valid x.2) (hy : s.program.insts.Valid y.2) :
    joinRefs b a y x loc c s = .ok r s' ↔ Lifts x y loc c s r s' := by
  unfold Lifts
  cases hleft : editing loc (Program.isSubinst x.2 y.2) c s with
  | error e s1 =>
    rw [show joinRefs b a y x loc c s = .error e s1 from bind_of_error hleft]
    simp
  | ok left s1 =>
    rw [joinRefs_of_ok hleft]
    cases left with
    | true => simp [joinAs_iff, joinKinds_comm y.1]
    | false =>
      -- The same is still seen once the search for the other answer has added to the tables.
      obtain ⟨hadds, hagain⟩ := adds_of_editing (Program.isSubinst_interns hp hb hx hy) hleft
      have hfalse : s.program.Again (Program.isSubinst y.2 x.2) false := by
        refine hside.resolve_left fun heq => ?_
        rw [heq] at hagain
        cases (hagain _ (.refl _)).symm.trans (Program.again_isSubinst_self _ _ _ (.refl _))
      rw [if_neg (by decide), bind_of_ok (editing_again hfalse hadds.under loc)]
      exact ⟨nofun, nofun⟩

end References

theorem failAt_ne_ok {cause : TypeCause} : (failAt cause loc : Check TypeId) c s ≠ .ok r s' := nofun

theorem unify_of_warm (hca : TypeTable.isCold s.program.types a = false)
    (hcb : TypeTable.isCold s.program.types b = false) (hne : ¬(a = b ∨ b = TypeId.noReturn))
    (hna : a ≠ TypeId.noReturn) :
    unify e a b loc c s = .ok r s' ↔ ∃ x y, s.program.types.ref? a = some x ∧
      s.program.types.ref? b = some y ∧ joinRefs a b x y loc c s = .ok r s' := by
  have href (t : TypeId) : ref? t c s = .ok (s.program.types.ref? t) s := rfl
  unfold unify
  rw [if_neg hne, if_neg hna, bind_typeOf, bind_typeOf]
  generalize hta : s.program.types.get a = ta
  generalize htb : s.program.types.get b = tb
  split
  · cases hca.symm.trans (isCold_of_get hta)
  · cases hca.symm.trans (isCold_of_get hta)
  · cases hcb.symm.trans (isCold_of_get htb)
  · rw [bind_of_ok (href a), bind_of_ok (href b)]
    cases s.program.types.ref? a <;> cases s.program.types.ref? b <;> simp [failAt_ne_ok]

theorem unify_self : unify e a a loc c s = .ok a s := by
  rw [unify, if_pos (.inl rfl)]
  rfl

theorem unify_never_right : unify e a TypeId.noReturn loc c s = .ok a s := by
  rw [unify, if_pos (.inr rfl)]
  rfl

theorem unify_never_left : unify e TypeId.noReturn b loc c s = .ok b s := by
  by_cases hne : TypeId.noReturn = b ∨ b = TypeId.noReturn
  · rw [show b = TypeId.noReturn from hne.elim Eq.symm id]
    exact unify_self
  · rw [unify, if_neg hne, if_pos rfl]
    rfl

section Branches

variable (hp : s.program.Tables) (hb : s.program.BasesValid) (ha : s.program.types.Valid a)
  (hbv : s.program.types.Valid b)
include hp hb ha hbv

/-- Both references get into a place of the type they have in common. -/
theorem Lifts.enters (h : Lifts x y loc c s r s') (hx : s.program.types.ref? a = some x)
    (hy : s.program.types.ref? b = some y) :
    s'.program.Tables ∧ s'.program.Enters a r .direct ∧ s'.program.Enters b r .direct := by
  obtain ⟨kind, s1, hkind, hsub, hintern⟩ := h
  have hvx := Program.holds_ref.1 (ref?_eq_some.1 hx ▸ hp.holds ha)
  have hvy := Program.holds_ref.1 (ref?_eq_some.1 hy ▸ hp.holds hbv)
  obtain ⟨hadds1, hagain⟩ := adds_of_editing (Program.isSubinst_interns hp hb hvx hvy) hsub
  obtain ⟨hadds2, hget⟩ :=
    adds_of_intern hadds1.tables (Program.holds_ref.2 (hadds1.insts.valid hvy)) hintern
  have hadds := hadds1.trans hadds2
  have hr := ref?_eq_some.2 hget
  have hxa : s'.program.types.ref? a = some x := (Grows.ref? hadds.types ha).trans hx
  have hyb : s'.program.types.ref? b = some y := (Grows.ref? hadds.types hbv).trans hy
  obtain ⟨hkx, hky⟩ := keepsKind_of_joinKinds hkind
  exact ⟨hadds.tables, .kept hr hxa (hagain.mono hadds2.under) hkx,
    .kept hr hyb (Program.again_isSubinst_self _ _) hky⟩

theorem unify_enters (hw : p.Wired) (hu : p.Under s.program)
    (hca : TypeTable.isCold s.program.types a = false)
    (hcb : TypeTable.isCold s.program.types b = false) :
    (unify e a b loc c s = .ok r s' ↔ unify e b a loc c s = .ok r s') ∧
      (unify e a b loc c s = .ok r s' → s'.program.Tables ∧ s'.program.Enters a r .direct ∧
        s'.program.Enters b r .direct) := by
  by_cases hab : a = b
  · subst hab
    rw [unify_self]
    refine ⟨.rfl, fun hr => ?_⟩
    cases hr
    exact ⟨hp, .same, .same⟩
  by_cases hnb : b = TypeId.noReturn
  · subst hnb
    rw [unify_never_right, unify_never_left]
    refine ⟨.rfl, fun hr => ?_⟩
    cases hr
    exact ⟨hp, .same, .never⟩
  by_cases hna : a = TypeId.noReturn
  · subst hna
    rw [unify_never_right, unify_never_left]
    refine ⟨.rfl, fun hr => ?_⟩
    cases hr
    exact ⟨hp, .never, .same⟩
  rw [unify_of_warm hca hcb (not_or.2 ⟨hab, hnb⟩) hna,
    unify_of_warm hcb hca (not_or.2 ⟨Ne.symm hab, hna⟩) hnb]
  cases hx : s.program.types.ref? a with
  | none => simp
  | some x =>
    cases hy : s.program.types.ref? b with
    | none => simp
    | some y =>
      simp only [Option.some_inj, exists_and_left, exists_eq_left']
      have hvx := Program.holds_ref.1 (ref?_eq_some.1 hx ▸ hp.holds ha)
      have hvy := Program.holds_ref.1 (ref?_eq_some.1 hy ▸ hp.holds hbv)
      by_cases heq : x.2 = y.2
      · rw [joinRefs_iff (.inl heq), joinRefs_swap_iff (.inl heq) hp hb hvx hvy]
        exact ⟨.rfl, fun hr => hr.enters hp hb ha hbv hx hy⟩
      rcases hw.again_false hu hvx hvy heq with hside | hside
      · rw [joinRefs_iff (x := y) (.inr hside),
          joinRefs_swap_iff (x := y) (.inr hside) hp hb hvy hvx]
        exact ⟨.rfl, fun hr => (hr.enters hp hb hbv ha hy hx).imp_right And.symm⟩
      · rw [joinRefs_iff (.inr hside), joinRefs_swap_iff (.inr hside) hp hb hvx hvy]
        exact ⟨.rfl, fun hr => hr.enters hp hb ha hbv hx hy⟩

end Branches

/-- What has one of two types has the same type in whatever order they are given, and both get in
there as they are. -/
theorem unify_joins (h : p.Resolved) (hu : p.Under s.program) (hp : s.program.Tables)
    (ha : s.program.types.Valid a) (hb : s.program.types.Valid b)
    (hca : TypeTable.isCold s.program.types a = false)
    (hcb : TypeTable.isCold s.program.types b = false) :
    (unify e a b loc c s = .ok r s' ↔ unify e b a loc c s = .ok r s') ∧
    (unify e a b loc c s = .ok r s' →
      ∀ c' loc', assign e a r loc' c' s' = .ok .direct s' ∧
        assign e b r loc' c' s' = .ok .direct s') := by
  refine (unify_enters hp (hu.bases h.raw.1.bases) ha hb h.wired hu hca hcb).imp_right
    fun henters hr c' loc' => ?_
  obtain ⟨hp', hea, heb⟩ := henters hr
  exact ⟨assignUpTo_of_enters hp' hea (Nat.le_refl _), assignUpTo_of_enters hp' heb (Nat.le_refl _)⟩

def pickText : String := "class P { } class Q { +P } fn pick(int n, P p) P { n < 0 ? p : Q }"

theorem unify_joins_derived :
    (Program.ofText pickText).check.program.types.get ⟨7⟩ = .ref .pin ⟨0⟩ ∧
      (Program.ofText pickText).check.program.types.get ⟨10⟩ = .ref .own ⟨1⟩ ∧
      ∃ s,
        unify (engine 0) ⟨7⟩ ⟨10⟩ default {}
          { program := (Program.ofText pickText).check.program } = .ok ⟨7⟩ s ∧
        unify (engine 0) ⟨10⟩ ⟨7⟩ default {}
          { program := (Program.ofText pickText).check.program } = .ok ⟨7⟩ s ∧
        assign (engine 0) ⟨7⟩ ⟨7⟩ default {} s = .ok .direct s ∧
        assign (engine 0) ⟨10⟩ ⟨7⟩ default {} s = .ok .direct s := by
  have hrun : Program.resolves pickText = true ∧ (Program.ofText pickText).check.result = .ok () ∧
      (Program.ofText pickText).check.program.types.get ⟨7⟩ = .ref .pin ⟨0⟩ ∧
      (Program.ofText pickText).check.program.types.get ⟨10⟩ = .ref .own ⟨1⟩ ∧
      (unify (engine 0) ⟨7⟩ ⟨10⟩ default {}).run'
      { program := (Program.ofText pickText).check.program } = some ⟨7⟩ := by
    decide +kernel
  have h := Program.resolved_ofText pickText hrun.1
  generalize Program.ofText pickText = p at h hrun ⊢
  obtain ⟨_, hok, hp, hq, hunify⟩ := hrun
  refine ⟨hp, hq, ?_⟩
  obtain ⟨_, hprogram, _, hstep, htyped, _⟩ := check_ok h hok
  have hunder : p.Under p.check.program :=
    ⟨hprogram ▸ hstep.inv.alike, (typed_of_check h hok).sound.grows⟩
  have htables : p.check.program.Tables := hprogram ▸ htyped.sound.tidy.tables
  have hcold {t : TypeId} {kind : RefKind} {i : InstId}
      (ht : p.check.program.types.get t = .ref kind i) :
      p.check.program.types.isCold t = false := by
    rw [TypeTable.isCold, ht]
  have hvp : p.check.program.types.Valid ⟨7⟩ := valid_of_get hp (by simp)
  have hvq : p.check.program.types.Valid ⟨10⟩ := valid_of_get hq (by simp)
  obtain ⟨s, hs⟩ := ok_of_run' hunify
  obtain ⟨hcomm, hbound⟩ :=
    unify_joins (e := engine 0) (c := {}) (s := { program := p.check.program }) h hunder htables hvp
    hvq (hcold hp) (hcold hq)
  exact ⟨s, hs, hcomm.1 hs, hbound hs {} default⟩

end Typing

end ClassLang
