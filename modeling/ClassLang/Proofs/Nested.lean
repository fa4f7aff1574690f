import ClassLang.Proofs.Tree

namespace ClassLang.Program

variable {p q : Program} {i j x : NodeId}

/-- The parts of an action were all read before it; or it is a block or loop, and was there before
all that is in it. -/
def Nested (p : Program) : Prop :=
  ∀ i, (∀ x ∈ p.inner (p.form i), x.index < i.index) ∨ ∀ x ∈ p.inner (p.form i), ∀ j, p.Below x j →
    i.index < j.index

/-- No action is in the text of one of its parts. On a way from an action back to itself, consider
the one that was read first: its parts on that way come neither before nor after it. -/
theorem Nested.acyclic (h : p.Nested) (hx : x ∈ p.inner (p.form i)) : ¬ p.Below x i := by
  induction hn : i.index using Nat.strongRecOn generalizing i x with
  | ind n ih =>
    subst hn
    intro hi
    rcases h i with hbefore | hafter
    · rcases hi.cases with rfl | ⟨y, hy, hyi⟩
      · exact Nat.lt_irrefl _ (hbefore _ hx)
      · exact ih x.index (hbefore x hx) hy rfl (hyi.tail hx)
    · exact Nat.lt_irrefl _ (hafter x hx i hi)

theorem Nested.congr (h : p.Nested) (hinner : ∀ i, q.inner (q.form i) = p.inner (p.form i)) :
    q.Nested := by
  intro i
  rw [hinner]
  exact (h i).imp_right fun hafter x hx j hj => hafter x hx j (hj.of_same fun k _ => hinner k)

/-- More actions are there, over parts that were read before them. -/
theorem Nested.extend (h : p.Nested) (hvalid : ∀ i, ∀ x ∈ p.inner (p.form i), p.nodes.Valid x)
    (hinner : ∀ i, p.nodes.Valid i → q.inner (q.form i) = p.inner (p.form i))
    (hnew : ∀ i, ¬ p.nodes.Valid i → ∀ x ∈ q.inner (q.form i), x.index < i.index) : q.Nested := by
  intro i
  by_cases hi : p.nodes.Valid i
  · rw [hinner i hi]
    refine (h i).imp_right fun hafter x hx j hj =>
      hafter x hx j (hj.of_same fun k hk => hinner k ?_)
    rcases Relation.ReflTransGen.cases_tail hk with rfl | ⟨y, _, hy⟩
    · exact hvalid i _ hx
    · exact hvalid y _ hy
  · exact .inl (hnew i hi)

/-- Where only the action `i` gets other parts, text that is new somewhere is in one of these. -/
theorem below_of_finish (hinner : ∀ j, j ≠ i → q.inner (q.form j) = p.inner (p.form j))
    (hj : q.Below x j) : p.Below x j ∨ p.Below x i ∧ ∃ y ∈ q.inner (q.form i), p.Below y j := by
  induction hj with
  | refl => exact .inl (.refl x)
  | @tail k j _ hj ih =>
    by_cases hk : k = i
    · subst hk
      exact .inr ⟨ih.elim id And.left, j, hj, .refl j⟩
    · rw [hinner k hk] at hj
      exact ih.imp (·.tail hj) fun ⟨hi, y, hy, hyk⟩ => ⟨hi, y, hy, hyk.tail hj⟩

/-- A block or loop gets its statements, which were all read after it. -/
theorem Nested.finish (h : p.Nested) (hinner : ∀ j, j ≠ i → q.inner (q.form j) = p.inner (p.form j))
    (hparts : ∀ x ∈ q.inner (q.form i), ∀ j, p.Below x j → i.index < j.index) : q.Nested := by
  intro t
  by_cases ht : t = i
  · subst ht
    refine .inr fun x hx j hj => ?_
    rcases below_of_finish hinner hj with hj | ⟨_, y, hy, hj⟩
    · exact hparts x hx j hj
    · exact hparts y hy j hj
  · rw [hinner t ht]
    refine (h t).imp_right fun hafter x hx j hj => ?_
    rcases below_of_finish hinner hj with hj | ⟨hi, y, hy, hj⟩
    · exact hafter x hx j hj
    · exact Nat.lt_trans (hafter x hx i hi) (hparts y hy j hj)

end ClassLang.Program
