import ClassLang.Proofs.Typing.Terminates
import ClassLang.Proofs.Typing.Views

namespace ClassLang

namespace Program

variable {p q : Program} {c d e : ClassId} {x y z : InstId} {way : List InstId}
  {qs : List (InstId × InstId)}

theorem Rises.trans (h : p.Rises q x y) (h' : p.Rises q y z) : p.Rises q x z := by
  rcases h with rfl | ⟨c, hc, a, u, way, hacts, hway, harrives⟩
  · exact h'
  rcases h' with rfl | ⟨d, hd, b, v, way', hacts', hway', harrives'⟩
  · exact .inr ⟨c, hc, a, u, way, hacts, hway, harrives⟩
  · obtain ⟨rfl, rfl⟩ := (acts_of_target hc).1 hacts'
    exact .inr ⟨d, hd, a, u, way ++ way', hacts, hway.append hway', harrives.append harrives'⟩

/-- A way from a class to itself would also be one from its base, turned by one step. -/
theorem Wired.loop_eq_nil (hw : p.Wired) (h : p.Path c way c) : way = [] := by
  induction c using hw.wellFounded_bases.induction generalizing way with
  | h c ih =>
    cases h with
    | nil => rfl
    | cons hi hway => exact absurd (ih _ ⟨_, hi⟩ (hway.append (.cons hi .nil))) (by simp)

theorem Rises.antisymm (hw : p.Wired) (h : p.Rises q x y) (h' : p.Rises q y x) : x = y := by
  rcases h with rfl | ⟨c, hc, a, u, way, hacts, hway, harrives⟩
  · rfl
  rcases h' with rfl | ⟨d, hd, b, v, way', hacts', hway', _⟩
  · rfl
  · obtain ⟨rfl, rfl⟩ := (acts_of_target hd).1 hacts
    obtain ⟨rfl, rfl⟩ := (acts_of_target hc).1 hacts'
    obtain ⟨rfl, _⟩ := List.append_eq_nil_iff.1 (hw.loop_eq_nil (hway.append hway'))
    exact harrives.symm

/-- All ways up from `x` to `d` lead to the same instance, however the tables grow. -/
def Converges (p q : Program) (x : InstId) (d : ClassId) : Prop :=
  ∀ r, q.Adds r → r.Tidy → ∀ y z, p.Climbs r x d y → p.Climbs r x d z → y = z

/-- All ways meet in a class that is a base with the same arguments everywhere, if these mention no
parameters. -/
theorem Converges.of_closed (hall : ∀ d, ∀ i, (i, e) ∈ p.basesOf d → i = y) (hy : q.Within [] y)
    (hclass : (q.insts.get x).target = .cls c) (hx : q.insts.Valid x) (hce : c ≠ e) :
    p.Converges q x e := by
  rintro r hr htidy z z' ⟨c', u, way, hacts, hway, harrives⟩
    ⟨c'', u', way', hacts', hway', harrives'⟩
  rw [← hr.insts.get_eq hx] at hclass
  obtain ⟨rfl, rfl⟩ := (acts_of_target hclass).1 hacts
  obtain ⟨rfl, rfl⟩ := (acts_of_target hclass).1 hacts'
  exact Meet.of_closed hall hy hce hway hway' r hr htidy z z' harrives harrives'

def answers (qs : List (InstId × InstId)) : Edit (List Bool) := qs.mapM fun x => isSubinst x.1 x.2

section Asking

variable (hw : p.Wired) (hu : p.Under q) (hq : q.Tidy)
include hw hu hq

theorem isSubinst_settles (hx : q.insts.Valid x) (hy : q.insts.Valid y) :
    Mends q (isSubinst x y) fun b r => r.Again (isSubinst x y) b := by
  have hmends := isSubinst_mends hw hu hq hx hy
  have hagain := isSubinst_interns hq.tables hq.bases hx hy
  unfold Mends at hmends ⊢
  unfold Interns Yields at hagain
  split
  · rename_i hrun
    rw [hrun] at hmends hagain
    exact ⟨hmends.1, hmends.2.1, hagain.2⟩
  · rename_i hrun
    rw [hrun] at hmends
    exact hmends

theorem Again.rises {b : Bool} (h : q.Again (isSubinst x y) b) (hx : q.insts.Valid x)
    (hy : q.insts.Valid y) :
    if b then p.Rises q x y else
      p.Rises q x y → ∃ d z, (q.insts.get y).target = .cls d ∧ p.Climbs q x d z ∧ z ≠ y := by
  have hmends := isSubinst_mends hw hu hq hx hy
  rw [Mends, h q (.refl q)] at hmends
  exact hmends.2.2

end Asking

/-- Whatever is asked in whatever order, the answers are those of one relation, and it is reflexive
and antisymmetric. It is transitive where all ways lead to the same instance. -/
theorem answers_ordered (h : p.Resolved) (hu : p.Under q) (hq : q.Tidy)
    (hqs : ∀ x ∈ qs, q.insts.Valid x.1 ∧ q.insts.Valid x.2) :
    Mends q (answers qs) fun bs _ => qs.length = bs.length ∧
      (∀ x y b b', ((x, y), b) ∈ qs.zip bs → ((x, y), b') ∈ qs.zip bs → b = b') ∧
      (∀ x b, ((x, x), b) ∈ qs.zip bs → b = true) ∧
      (∀ x y, ((x, y), true) ∈ qs.zip bs → ((y, x), true) ∈ qs.zip bs → x = y) ∧
      ∀ x y z b, ((x, y), true) ∈ qs.zip bs → ((y, z), true) ∈ qs.zip bs →
        ((x, z), b) ∈ qs.zip bs →
        (∀ d, (q.insts.get z).target = .cls d → p.Converges q x d) → b = true := by
  refine (Mends.mapM (P := fun (x : InstId × InstId) b r => r.Again (isSubinst x.1 x.2) b) hq
    (fun _ _ _ _ hr hb => hb.mono hr.under) fun x hx r hr htidy => ?_).imp
    fun bs r hr htidy ⟨hlen, hbs⟩ => ?_
  · obtain ⟨hx, hy⟩ := hqs x hx
    exact isSubinst_settles h.wired (hu.trans hr.under) htidy (hr.insts.valid hx)
      (hr.insts.valid hy)
  have hsaid {x y : InstId} {b : Bool} (hb : ((x, y), b) ∈ qs.zip bs) :=
    Again.rises h.wired (hu.trans hr.under) htidy (hbs _ hb)
    (hr.insts.valid (hqs _ (List.of_mem_zip hb).1).1)
    (hr.insts.valid (hqs _ (List.of_mem_zip hb).1).2)
  have hrefl (x : InstId) (b : Bool) (hb : ((x, x), b) ∈ qs.zip bs) : b = true := by
    have hrun := hbs _ hb r (.refl r)
    rw [isSubinst, if_pos rfl] at hrun
    cases hrun
    rfl
  refine ⟨hlen, fun x y b b' hb hb' => ?_, hrefl, fun x y hxy hyx =>
    (hsaid hxy).antisymm h.wired (hsaid hyx), fun x y z b hxy hyz hb hconverges => ?_⟩
  · cases (hbs _ hb r (.refl r)).symm.trans (hbs _ hb' r (.refl r))
    rfl
  · by_contra hno
    obtain rfl : b = false := Bool.eq_false_iff.2 hno
    have hrises : p.Rises r x z := Rises.trans (hsaid hxy) (hsaid hyz)
    obtain ⟨d, w, htarget, hclimbs, hne⟩ := hsaid hb hrises
    rcases hrises with rfl | ⟨d', htarget', hclimbs'⟩
    · exact hno (hrefl _ _ hb)
    · cases htarget.symm.trans htarget'
      rw [hr.insts.get_eq (hqs _ (List.of_mem_zip hb).1).2] at htarget
      exact hne (hconverges d htarget r hr htidy w z hclimbs hclimbs')

def sidesText (bases : String) : String :=
  "class P { } class Q { } interface I(T) { } interface A { +I(P) } interface B " ++ bases ++
    " class C { +A +B } c = C"

def evenText : String := sidesText "{ +I(P) }"

def unevenText : String := sidesText "{ +I(Q) }"

/-- `C`, `B` and `I(P)`, to which both ways lead. -/
theorem answers_ordered_even :
    (answers [(⟨4⟩, ⟨3⟩), (⟨3⟩, ⟨1⟩), (⟨4⟩, ⟨1⟩)]).run' (ofText evenText) =
      some [true, true, true] ∧
    Mends (ofText evenText) (answers [(⟨4⟩, ⟨3⟩), (⟨3⟩, ⟨1⟩), (⟨4⟩, ⟨1⟩)]) fun bs _ =>
      ∀ b, bs = [true, true, b] → b = true := by
  have hrun : resolves evenText = true ∧ (answers [(⟨4⟩, ⟨3⟩), (⟨3⟩, ⟨1⟩), (⟨4⟩, ⟨1⟩)]).run'
      (ofText evenText) = some [true, true, true] ∧
      (∀ i ∈ [0, 1, 3, 4], (ofText evenText).insts.Valid ⟨i⟩) ∧ (ofText evenText).insts.get ⟨0⟩ =
      ⟨.cls ⟨0⟩, []⟩ ∧ (ofText evenText).insts.get ⟨1⟩ = ⟨.cls ⟨2⟩, [⟨0⟩]⟩ ∧
      ((ofText evenText).insts.get ⟨4⟩).target = .cls ⟨5⟩ ∧ ∀ d ∈ (ofText evenText).classes.ids,
      ∀ x ∈ (ofText evenText).basesOf d, x.2 = ⟨2⟩ → x.1 = ⟨1⟩ := by
    decide +kernel
  have h := resolved_ofText evenText hrun.1
  generalize ofText evenText = p at h hrun ⊢
  obtain ⟨_, hanswers, hvalid, hget₀, hget₁, hget₄, hall⟩ := hrun
  simp only [List.forall_mem_cons] at hvalid
  obtain ⟨hv₀, hv₁, hv₃, hv₄, _⟩ := hvalid
  have hclosed₀ : p.Within [] ⟨0⟩ := .node hv₀ (by rw [hget₀]; nofun) (by rw [hget₀]; nofun)
  have hclosed₁ : p.Within [] ⟨1⟩ :=
    .node hv₁ (by rw [hget₁]; nofun) (by rw [hget₁]; exact List.forall_mem_singleton.2 hclosed₀)
  have hends (d : ClassId) (i : InstId) (hi : (i, ⟨2⟩) ∈ p.basesOf d) : i = ⟨1⟩ :=
    hall d (Arena.mem_ids.2 (valid_of_mem_basesOf hi)) _ hi rfl
  have hqs : ∀ x ∈ [((⟨4⟩, ⟨3⟩) : InstId × InstId), (⟨3⟩, ⟨1⟩), (⟨4⟩, ⟨1⟩)], p.insts.Valid x.1 ∧
      p.insts.Valid x.2 := by
    simp [hv₁, hv₃, hv₄]
  refine ⟨hanswers, (answers_ordered h (.refl p) (h.wired.sound (G := fun _ _ => True)).tidy
    hqs).imp fun bs _ _ _ hbs b hb => ?_⟩
  subst hb
  refine hbs.2.2.2.2 ⟨4⟩ ⟨3⟩ ⟨1⟩ b (by simp) (by simp) (by simp) fun d hd => ?_
  cases (congrArg Inst.target hget₁).symm.trans hd
  exact .of_closed hends hclosed₁ hget₄ hv₄ (by decide)

/-- `C`, `B` and `I(Q)`: what is found first is `I(P)`. -/
theorem answers_ordered_uneven :
    (ofText unevenText).Resolved ∧
      (answers [(⟨6⟩, ⟨5⟩), (⟨5⟩, ⟨3⟩), (⟨6⟩, ⟨3⟩)]).run' (ofText unevenText) =
        some [true, true, false] := by
  have hrun : resolves unevenText = true ∧ (answers [(⟨6⟩, ⟨5⟩), (⟨5⟩, ⟨3⟩), (⟨6⟩, ⟨3⟩)]).run'
      (ofText unevenText) = some [true, true, false] := by
    decide +kernel
  exact ⟨resolved_ofText unevenText hrun.1, hrun.2⟩

end Program

end ClassLang
