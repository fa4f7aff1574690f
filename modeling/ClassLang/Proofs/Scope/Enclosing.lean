import ClassLang.Proofs.Tree
import ClassLang.Scope.Lookup
import Mathlib.Data.List.Pairwise

namespace ClassLang

variable {sc : Scope} {b : Binding}

namespace Program

variable {p q : Program} {us vs ws : List VarId} {i j x : NodeId} {name : NameId} {v : VarId}
  {form : Form}

/-- The parts of a form with the variables in scope there, innermost first, where `vs` are in scope
at the form itself. A variable is in scope in what follows its value, a binding where the value is
present, and parameters in the body of their lambda. -/
def enclosed (p : Program) (vs : List VarId) : Form → List (List VarId × NodeId)
  | .letIn v body => (p.vars.get v).init.toList.map (vs, ·) ++ body.map (v :: vs, ·)
  | .guard cond yes b => [(vs, cond), (b :: vs, yes)]
  | .lambda l => (p.paramTypes (p.lambdas.get l).params).map (vs, ·) ++
      [((p.lambdas.get l).params.reverse ++ vs, (p.lambdas.get l).body)]
  | form => form.children.map (vs, ·)

/-- With `us` in scope at `i`, the variables in scope at `j` in the text of `i` are `vs`. -/
inductive Encloses (p : Program) : List VarId → NodeId → List VarId → NodeId → Prop
  | here {vs : List VarId} {i : NodeId} : Encloses p vs i vs i
  | inside {us vs ws : List VarId} {i x j : NodeId} : (vs, x) ∈ p.enclosed us (p.form i) →
      Encloses p vs x ws j →
      Encloses p us i ws j

/-- The same, but the types of the parameters of a lambda may be read with anything in scope. -/
inductive Reaches (p : Program) : List VarId → NodeId → List VarId → NodeId → Prop
  | here {vs : List VarId} {i : NodeId} : Reaches p vs i vs i
  | inside {us vs ws : List VarId} {i x j : NodeId} : (vs, x) ∈ p.enclosed us (p.form i) →
      Reaches p vs x ws j →
      Reaches p us i ws j
  | type {us vs ws : List VarId} {i x j : NodeId} {l : LambdaId} : p.form i = .lambda l →
      x ∈ p.paramTypes (p.lambdas.get l).params → Reaches p vs x ws j → Reaches p us i ws j

def Innermost (p : Program) (vs : List VarId) (name : NameId) (v : VarId) : Prop :=
  ∃ inner outer, vs = inner ++ v :: outer ∧ (p.vars.get v).name = name ∧
    ∀ u ∈ inner, (p.vars.get u).name ≠ name

/-- A qualified name does not stand for a variable, and any other for the innermost one that has it.
-/
def Denotes (p : Program) (vs : List VarId) (name : NameId) (v : VarId) : Prop :=
  p.names.isQualified name = false ∧ p.Innermost vs name v

theorem map_snd_enclosed (p : Program) (vs : List VarId) (form : Form) :
    (p.enclosed vs form).map Prod.snd = p.inner form := by
  unfold enclosed
  split <;> simp [inner, Form.children, Function.comp_def]

theorem mem_inner_of_enclosed (h : (ws, x) ∈ p.enclosed vs form) : x ∈ p.inner form := by
  rw [← map_snd_enclosed p vs]
  exact List.mem_map_of_mem h

theorem below_of_encloses (h : p.Encloses us i vs j) : p.Below i j := by
  induction h with
  | here => exact .refl _
  | inside hx _ ih => exact .head (mem_inner_of_enclosed hx) ih

theorem mem_inner_of_paramTypes {l : LambdaId} (h : p.form i = .lambda l)
    (hx : x ∈ p.paramTypes (p.lambdas.get l).params) : x ∈ p.inner (p.form i) := by
  rw [h]
  exact List.mem_append_left _ hx

theorem below_of_reaches (h : p.Reaches us i vs j) : p.Below i j := by
  induction h with
  | here => exact .refl _
  | inside hx _ ih => exact .head (mem_inner_of_enclosed hx) ih
  | type hl hx _ ih => exact .head (mem_inner_of_paramTypes hl hx) ih

theorem enclosed_unique (hapart : (p.inner form).Pairwise p.Apart) {y : NodeId}
    (hx : (vs, x) ∈ p.enclosed us form) (hy : (ws, y) ∈ p.enclosed us form) (hxj : p.Below x j)
    (hyj : p.Below y j) : vs = ws ∧ x = y := by
  rw [← map_snd_enclosed p us, List.pairwise_map] at hapart
  by_contra hne
  have : Std.Symm fun a b : List VarId × NodeId => p.Apart a.2 b.2 := ⟨fun _ _ h => h.symm⟩
  refine hapart.forall hx hy (fun he => hne ?_) j hxj hyj
  cases he
  exact ⟨rfl, rfl⟩

/-- In a tree there is one way to a node. Types are not on it, unless the node itself is one. -/
theorem Encloses.unique (h : p.Encloses us i ws j) (hj : (p.form j).isType = false) {n : Nat}
    {z : Zone} (htree : p.Tree n z i) (h' : p.Reaches us i vs j) : vs = ws := by
  induction h generalizing n z with
  | here =>
    cases h' with
    | here => rfl
    | inside hx h' => exact (htree.not_below (mem_inner_of_enclosed hx) (below_of_reaches h')).elim
    | type hl hx h' =>
      exact (htree.not_below (mem_inner_of_paramTypes hl hx) (below_of_reaches h')).elim
  | inside hx h ih =>
    have hmem := mem_inner_of_enclosed hx
    cases h' with
    | here => exact (htree.not_below hmem (below_of_encloses h)).elim
    | inside hy h' =>
      have ⟨_, hapart, hparts⟩ := htree
      obtain ⟨rfl, rfl⟩ := enclosed_unique hapart hx hy (below_of_encloses h) (below_of_reaches h')
      obtain ⟨z', hz'⟩ := exists_zone hmem z _
      exact ih hj (hparts _ hz') h'
    | type hl hy h' =>
      have ⟨hraw, _, _⟩ := htree
      rw [hl] at hraw
      cases hj.symm.trans (hraw.2.2.2 _ hy _ (below_of_reaches h'))

theorem innermost_iff_find? (p : Program) (vs : List VarId) (name : NameId) (v : VarId) :
    p.Innermost vs name v ↔ vs.find? (fun u => (p.vars.get u).name = name) = some v := by
  rw [List.find?_eq_some_iff_append]
  constructor
  · rintro ⟨inner, outer, rfl, hv, hinner⟩
    exact ⟨by simpa using hv, inner, outer, rfl, by simpa using hinner⟩
  · rintro ⟨hv, inner, outer, rfl, hinner⟩
    exact ⟨inner, outer, rfl, by simpa using hv, by simpa using hinner⟩

end Program

open Program

theorem Scope.inClass_ne_var {p : Program} {name : NameId} (h : sc.inClass p name = .ok (some b))
    (v : VarId) : b ≠ .var v := by
  unfold Scope.inClass at h
  split at h
  · cases h
  split at h
  · cases h
  · split at h <;> cases h <;> exact nofun
  · cases hparam : sc.classParam? p name with
    | none =>
      rw [hparam] at h
      cases h
    | some a =>
      rw [hparam] at h
      cases h
      exact nofun

/-- A name is found to be a variable exactly when it stands for one of those in scope. -/
theorem Scope.lookup_var {p : Program} {name : NameId} (h : sc.lookup p name = .ok b) (v : VarId) :
    b = .var v ↔ p.Denotes sc.locals name v := by
  have hglobal {name : NameId} (h : (sc.global p name).map Binding.ofGlobal = .ok b) :
      b ≠ .var v := by
    cases hg : sc.global p name with
    | error e =>
      rw [hg] at h
      cases h
    | ok g =>
      rw [hg] at h
      cases h
      cases g <;> exact nofun
  rw [Denotes, innermost_iff_find?]
  unfold Scope.lookup at h
  split at h
  · rename_i hqualified
    simp [hglobal h, hqualified]
  rename_i hname
  rw [Bool.not_eq_true] at hname
  split at h
  · rename_i u hu
    rw [Scope.localNamed?] at hu
    cases h
    simp [hname, hu]
  rename_i hnone
  rw [Scope.localNamed?] at hnone
  have hno : b ≠ .var v := by
    split at h
    · cases h
    · rename_i hclass
      cases h
      exact inClass_ne_var hclass v
    · exact hglobal h
  simp [hnone, hno]

end ClassLang
