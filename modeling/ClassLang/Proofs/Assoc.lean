import ClassLang.Assoc
import Mathlib.Data.List.Nodup

namespace ClassLang.Assoc

open List

variable {κ ν : Type} [DecidableEq κ] {k n : κ} {v x : ν} {table more : List (κ × ν)}

theorem lookup_cons : ((k, v) :: table).lookup n = if n = k then some v else table.lookup n := by
  rw [List.lookup_cons]
  by_cases h : n = k
  · rw [if_pos h, beq_iff_eq.2 h]
  · rw [if_neg h, beq_false_of_ne h]

theorem mem_put (h : (n, x) ∈ put k v table) : (n = k ∧ x = v) ∨ (n, x) ∈ table := by
  induction table with
  | nil => simpa [put] using h
  | cons y table ih =>
    obtain ⟨k', v'⟩ := y
    unfold put at h
    split at h
    · rcases mem_cons.1 h with h | h
      · exact .inl (Prod.mk.inj h)
      · exact .inr (mem_cons_of_mem _ h)
    · rcases mem_cons.1 h with h | h
      · exact .inr (h ▸ mem_cons_self)
      · exact (ih h).imp_right (mem_cons_of_mem _)

theorem lookup_put : (put k v table).lookup n = if n = k then some v else table.lookup n := by
  induction table with
  | nil => exact lookup_cons
  | cons x table ih =>
    obtain ⟨k', v'⟩ := x
    rw [put]
    split
    · rename_i hk
      rw [lookup_cons, lookup_cons, hk]
      split <;> rfl
    · rename_i hk
      rw [lookup_cons, lookup_cons, ih]
      split
      · rename_i hn
        rw [if_neg (hn ▸ hk)]
      · rfl

/-- What a table says already can be put there again. -/
theorem put_of_lookup (h : table.lookup k = some v) : put k v table = table := by
  induction table with
  | nil => cases h
  | cons y table ih =>
    obtain ⟨k', v'⟩ := y
    rw [lookup_cons] at h
    rw [put]
    split
    · rename_i hk
      rw [if_pos hk.symm] at h
      cases h
      rw [hk]
    · rename_i hk
      rw [if_neg (Ne.symm hk)] at h
      rw [ih h]

theorem put_of_not_mem (h : k ∉ table.map Prod.fst) : put k v table = table ++ [(k, v)] := by
  induction table with
  | nil => rfl
  | cons y table ih =>
    obtain ⟨k', v'⟩ := y
    obtain ⟨hk, hrest⟩ := not_or.1 (mt mem_cons.2 h)
    rw [put, if_neg (Ne.symm hk), ih hrest, cons_append]

/-- A key that is there keeps its place. -/
theorem map_fst_put : (put k v table).map Prod.fst =
    if k ∈ table.map Prod.fst then table.map Prod.fst else table.map Prod.fst ++ [k] := by
  induction table with
  | nil => rfl
  | cons y table ih =>
    obtain ⟨k', v'⟩ := y
    rw [put]
    by_cases hk : k' = k
    · simp [hk]
    · have hk' : ¬ k = k' := fun he => hk he.symm
      simp only [if_neg hk, map_cons, ih, mem_cons, hk', false_or]
      split <;> rfl

theorem keys_put (h : (table.map Prod.fst).Nodup) : ((put k v table).map Prod.fst).Nodup := by
  rw [map_fst_put]
  split
  · exact h
  · rename_i hk
    exact h.append (nodup_singleton k) (disjoint_singleton.2 hk)

/-- Where keys are there once only, what is merged into a table comes first. -/
theorem lookup_merge (h : (more.map Prod.fst).Nodup) :
    (merge table more).lookup n = (more.lookup n).or (table.lookup n) := by
  induction more generalizing table with
  | nil => rfl
  | cons x more ih =>
    obtain ⟨k, v⟩ := x
    rw [map_cons, nodup_cons] at h
    rw [merge, foldl_cons, ← merge, ih h.2, lookup_put, lookup_cons]
    split
    · rename_i hn
      have hnone : more.lookup n = none := by
        rw [lookup_eq_none_iff]
        intro y hy
        exact bne_iff_ne.2 fun he => h.1 (mem_map.2 ⟨y, hy, he.symm.trans hn⟩)
      rw [hnone]
      rfl
    · rfl

end ClassLang.Assoc
