import ClassLang.Proofs.Forest

namespace ClassLang

open List

/-- A way to an action: the declaration where it starts, the place of an action among those that the
declaration refers to, and from there on the place of a part at each step. -/
structure Way where
  root : Root
  start : Nat
  steps : List Nat := []
deriving DecidableEq

namespace Program

variable {p : Program} {O : NodeId → Prop} {r : Root} {i j x : NodeId} {ks ls : List Nat}

def descend (p : Program) (i : NodeId) : List Nat → Option NodeId
  | [] => some i
  | k :: ks => (p.inner (p.form i))[k]?.bind fun x => p.descend x ks

def reach (p : Program) (w : Way) : Option NodeId :=
  (p.rootParts w.root)[w.start]?.bind fun d => p.descend d w.steps

/-- The actions of a program are a forest: exactly one way leads to each that a declaration has in
its text, and none is in the text of its own parts. -/
structure Branches (p : Program) : Prop where
  unique : ∀ i, p.Taken i → ∃! w, p.reach w = some i
  acyclic : ∀ i, ∀ x ∈ p.inner (p.form i), ¬ p.Below x i

/-- What ways are unique by: wherever there is more than one place to go to, what is there has no
text in common. -/
structure Parted (p : Program) : Prop where
  acyclic : ∀ i, ∀ x ∈ p.inner (p.form i), ¬ p.Below x i
  parts : ∀ i, p.Taken i → (p.inner (p.form i)).Pairwise p.Apart
  starts : ∀ r, (p.rootParts r).Pairwise p.Apart
  roots : ∀ r s, r ≠ s → ∀ x ∈ p.rootParts r, ∀ y ∈ p.rootParts s, p.Apart x y

@[simp] theorem descend_nil : p.descend i [] = some i := rfl

theorem descend_cons {k : Nat} : p.descend i (k :: ks) = some j ↔
    ∃ x, (p.inner (p.form i))[k]? = some x ∧ p.descend x ks = some j := by
  simp [descend, Option.bind_eq_some_iff]

theorem reach_eq_some {w : Way} : p.reach w = some i ↔
    ∃ d, (p.rootParts w.root)[w.start]? = some d ∧ p.descend d w.steps = some i := by
  simp [reach, Option.bind_eq_some_iff]

theorem below_of_descend (h : p.descend i ks = some j) : p.Below i j := by
  induction ks generalizing i with
  | nil =>
    rw [descend_nil] at h
    exact Option.some.inj h ▸ .refl i
  | cons k ks ih =>
    obtain ⟨x, hx, hj⟩ := descend_cons.1 h
    exact .head (mem_of_getElem? hx) (ih hj)

/-- Steps lead to all that is in the text of an action. -/
theorem exists_descend (h : p.Below i j) : ∃ ks, p.descend i ks = some j := by
  induction h using Relation.ReflTransGen.head_induction_on with
  | refl => exact ⟨[], rfl⟩
  | head hx _ ih =>
    obtain ⟨ks, hks⟩ := ih
    obtain ⟨k, hk⟩ := mem_iff_getElem?.1 hx
    exact ⟨k :: ks, descend_cons.2 ⟨_, hk, hks⟩⟩

theorem exists_reach (h : p.Taken i) : ∃ w, p.reach w = some i := by
  obtain ⟨r, d, hd, hi⟩ := h
  obtain ⟨n, hn⟩ := mem_iff_getElem?.1 hd
  obtain ⟨ks, hks⟩ := exists_descend hi
  exact ⟨⟨r, n, ks⟩, reach_eq_some.2 ⟨d, hn, hks⟩⟩

/-- What is in the text of two of several actions that are apart is in the text of one at the same
place. -/
theorem place_unique {xs : List NodeId} (h : xs.Pairwise p.Apart) {m n : Nat} {y : NodeId}
    (hm : xs[m]? = some x) (hn : xs[n]? = some y) (hx : p.Below x j) (hy : p.Below y j) :
    m = n := by
  obtain ⟨hmlt, rfl⟩ := List.getElem?_eq_some_iff.1 hm
  obtain ⟨hnlt, rfl⟩ := List.getElem?_eq_some_iff.1 hn
  rw [pairwise_iff_getElem] at h
  rcases Nat.lt_trichotomy m n with hlt | heq | hlt
  · exact (h m n hmlt hnlt hlt j hx hy).elim
  · exact heq
  · exact (h n m hnlt hmlt hlt j hy hx).elim

/-- The steps from one action to another are determined. The induction follows one of the two ways;
where only one of them ends, its end would be in the text of its own parts. -/
theorem Parted.descend_unique (h : p.Parted) (hi : p.Taken i) (hks : p.descend i ks = some j)
    (hls : p.descend i ls = some j) : ks = ls := by
  induction ks generalizing i ls with
  | nil =>
    rw [descend_nil] at hks
    cases hks
    cases ls with
    | nil => rfl
    | cons l ls =>
      obtain ⟨x, hx, hj⟩ := descend_cons.1 hls
      exact (h.acyclic _ x (mem_of_getElem? hx) (below_of_descend hj)).elim
  | cons k ks ih =>
    obtain ⟨x, hx, hj⟩ := descend_cons.1 hks
    cases ls with
    | nil =>
      rw [descend_nil] at hls
      cases hls
      exact (h.acyclic _ x (mem_of_getElem? hx) (below_of_descend hj)).elim
    | cons l ls =>
      obtain ⟨y, hy, hj'⟩ := descend_cons.1 hls
      have hplace := place_unique (h.parts i hi) hx hy (below_of_descend hj) (below_of_descend hj')
      subst hplace
      cases hx.symm.trans hy
      obtain ⟨r, d, hd, hdi⟩ := hi
      have hx' : p.Taken x := ⟨r, d, hd, hdi.tail (mem_of_getElem? hx)⟩
      rw [ih hx' hj hj']

theorem Parted.reach_unique (h : p.Parted) {w w' : Way} (hw : p.reach w = some i)
    (hw' : p.reach w' = some i) : w = w' := by
  obtain ⟨r, n, ks⟩ := w
  obtain ⟨s, m, ls⟩ := w'
  obtain ⟨d, hd, hi⟩ := reach_eq_some.1 hw
  obtain ⟨e, he, hi'⟩ := reach_eq_some.1 hw'
  have hroot : r = s := by
    by_contra hne
    exact h.roots r s hne d (mem_of_getElem? hd) e (mem_of_getElem? he) i (below_of_descend hi)
      (below_of_descend hi')
  subst hroot
  have hstart := place_unique (h.starts r) hd he (below_of_descend hi) (below_of_descend hi')
  subst hstart
  cases hd.symm.trans he
  have hsteps := h.descend_unique ⟨r, d, mem_of_getElem? hd, .refl d⟩ hi hi'
  subst hsteps
  rfl

theorem Parted.branches (h : p.Parted) : p.Branches where
  unique i hi := by
    obtain ⟨w, hw⟩ := exists_reach hi
    exact ⟨w, hw, fun w' hw' => h.reach_unique hw' hw⟩
  acyclic := h.acyclic

theorem Tree.parts_apart {n : Nat} {z : Zone} (h : p.Tree n z i) :
    (p.inner (p.form i)).Pairwise p.Apart := by
  cases h
  assumption

theorem Sown.parted (h : p.Sown O) : p.Parted where
  acyclic _ _ hx := h.nested.acyclic hx
  parts i hi := by
    obtain ⟨r, d, hd, hi⟩ := hi
    obtain ⟨ts, _, htree⟩ := h.forest.trees r d hd
    obtain ⟨z, hz⟩ := htree.inside hi
    exact hz.parts_apart
  starts := h.forest.apart
  roots := h.forest.disjoint

end Program

end ClassLang
