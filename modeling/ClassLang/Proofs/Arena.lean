import ClassLang.Arena
import Mathlib.Data.List.Nodup
import Mathlib.Tactic.Common

namespace ClassLang

theorem Id.eq_iff {e : Entity} {i j : Id e} : i = j ↔ i.index = j.index := by
  cases i; cases j; simp

namespace Arena

variable {e : Entity} {α β : Type} {a b : Arena e α} {x : α} {g : α → α}

def Valid (a : Arena e α) (i : Id e) : Prop := i.index < a.size

instance (a : Arena e α) (i : Id e) : Decidable (a.Valid i) :=
  inferInstanceAs (Decidable (i.index < a.size))

def Grows (a b : Arena e α) : Prop := ∀ i, a.Valid i → b.get? i = a.get? i

def map (f : α → β) (a : Arena e α) : Arena e β := ⟨a.items.map f⟩

theorem ext_get? (h : ∀ i, a.get? i = b.get? i) : a = b := by
  cases a; cases b
  congr
  exact Array.ext_getElem? fun k => h ⟨k⟩

@[simp] theorem size_push (a : Arena e α) (x : α) : (a.push x).2.size = a.size + 1 := by
  simp [size, push]

@[simp] theorem size_modify (a : Arena e α) (i : Id e) (f : α → α) :
    (a.modify i f).size = a.size := by
  simp [size, modify]

@[simp] theorem size_map (f : α → β) (a : Arena e α) : (a.map f).size = a.size := by
  simp [size, map]

theorem size_of_map_eq {f : α → β} (h : b.map f = a.map f) : b.size = a.size := by
  rw [← size_map f b, h, size_map]

theorem valid_push {i : Id e} : (a.push x).2.Valid i ↔ a.Valid i ∨ i = ⟨a.size⟩ := by
  simp only [Valid, size_push, Id.eq_iff]
  omega

@[simp] theorem valid_modify {a : Arena e α} {i j : Id e} {f : α → α} :
    (a.modify i f).Valid j ↔ a.Valid j := by
  simp [Valid]

theorem not_valid_size (a : Arena e α) : ¬ a.Valid ⟨a.size⟩ := Nat.lt_irrefl _

theorem mem_ids {i : Id e} : i ∈ a.ids ↔ a.Valid i := by
  simp [ids, Valid, Id.eq_iff]

theorem length_ids (a : Arena e α) : a.ids.length = a.size := by simp [ids]

theorem nodup_ids (a : Arena e α) : a.ids.Nodup :=
  List.Nodup.map (fun _ _ h => by simpa using h) List.nodup_range

theorem get?_eq_none {i : Id e} : a.get? i = none ↔ ¬ a.Valid i := by
  simp [get?, Valid, size]

theorem get?_push (a : Arena e α) (x : α) (i : Id e) :
    (a.push x).2.get? i = if i = ⟨a.size⟩ then some x else a.get? i := by
  simp only [get?, push, Array.getElem?_push, Id.eq_iff, size]

theorem get?_modify (a : Arena e α) (i j : Id e) (f : α → α) :
    (a.modify i f).get? j = if i = j then (a.get? j).map f else a.get? j := by
  simp only [get?, modify, Array.getElem?_modify, Id.eq_iff]

theorem get?_map (f : α → β) (a : Arena e α) (i : Id e) : (a.map f).get? i = (a.get? i).map f := by
  simp [get?, map]

section Get

variable [Inhabited α] {f : α → α}

theorem get_of_not_valid {i : Id e} (h : ¬ a.Valid i) : a.get i = default := by
  simp [get, get?_eq_none.2 h]

theorem get?_of_valid {i : Id e} (h : a.Valid i) : a.get? i = some (a.get i) := by
  cases hi : a.get? i with
  | none => exact absurd h (get?_eq_none.1 hi)
  | some x => simp [get, hi]

theorem valid_of_get_ne {i : Id e} (h : a.get i ≠ default) : a.Valid i :=
  not_not.1 fun hi => h (get_of_not_valid hi)

theorem get_push (a : Arena e α) (x : α) (i : Id e) :
    (a.push x).2.get i = if i = ⟨a.size⟩ then x else a.get i := by
  simp only [get, get?_push]
  split <;> rfl

theorem get_push_of_valid {i : Id e} (h : a.Valid i) : (a.push x).2.get i = a.get i := by
  have hi : i ≠ ⟨a.size⟩ := fun he => not_valid_size a (he ▸ h)
  rw [get_push, if_neg hi]

theorem get_push_eq (g : α → β) (h : g x = g default) (i : Id e) :
    g ((a.push x).2.get i) = g (a.get i) := by
  rw [get_push]
  split
  · rename_i hi
    rw [hi, get_of_not_valid (not_valid_size a), h]
  · rfl

theorem get_modify (a : Arena e α) (i j : Id e) (f : α → α) :
    (a.modify i f).get j = if i = j ∧ a.Valid i then f (a.get j) else a.get j := by
  by_cases hij : i = j
  · subst hij
    by_cases hv : a.Valid i
    · rw [if_pos ⟨rfl, hv⟩, get, get?_modify, if_pos rfl, get?_of_valid hv]
      rfl
    · rw [if_neg fun h => hv h.2, get, get?_modify, if_pos rfl, get, get?_eq_none.2 hv]
      rfl
  · simp [get, get?_modify, hij]

theorem get_modify_self {i : Id e} (h : a.Valid i) : (a.modify i f).get i = f (a.get i) := by
  simp [get_modify, h]

theorem get_modify_of_ne {i j : Id e} (h : i ≠ j) : (a.modify i f).get j = a.get j := by
  simp [get_modify, h]

theorem get_modify_eq {i : Id e} (g : α → β) (h : ∀ x, g (f x) = g x) (j : Id e) :
    g ((a.modify i f).get j) = g (a.get j) := by
  rw [get_modify]
  split
  · exact h _
  · rfl

theorem get_map [Inhabited β] {f : α → β} (hf : f default = default) (a : Arena e α) (i : Id e) :
    (a.map f).get i = f (a.get i) := by
  simp only [get, get?_map]
  cases a.get? i <;> simp [hf]

theorem get_of_map_eq (hf : f default = default) (h : b.map f = a.map f) (i : Id e) :
    f (b.get i) = f (a.get i) := by
  rw [← get_map hf, h, get_map hf]

theorem map_eq_of_get {f : α → β} (hsize : b.size = a.size) (h : ∀ i, f (b.get i) = f (a.get i)) :
    b.map f = a.map f := by
  apply ext_get?
  intro i
  rw [get?_map, get?_map]
  by_cases hi : a.Valid i
  · have hi' : b.Valid i := by
      rw [Valid, hsize]
      exact hi
    rw [get?_of_valid hi, get?_of_valid hi', Option.map_some, Option.map_some, h]
  · have hi' : ¬ b.Valid i := by
      rw [Valid, hsize]
      exact hi
    rw [get?_eq_none.2 hi, get?_eq_none.2 hi']

theorem ext_get (hsize : a.size = b.size) (h : ∀ i, a.get i = b.get i) : a = b := by
  have hmap : a.map id = b.map id := map_eq_of_get hsize h
  have hitems : a.items = b.items := by simpa [map] using hmap
  exact congrArg Arena.mk hitems

theorem modify_eq_self {i : Id e} (h : f (a.get i) = a.get i) : a.modify i f = a := by
  refine ext_get (size_modify a i f) fun j => ?_
  rw [get_modify]
  split
  · rename_i hj
    rw [← hj.1, h]
  · rfl

end Get

theorem map_push (f : α → β) (a : Arena e α) (x : α) :
    (a.push x).2.map f = ((a.map f).push (f x)).2 := by
  simp [map, push]

theorem map_modify (f : α → β) {g' : β → β} (h : ∀ x, f (g x) = g' (f x)) (a : Arena e α)
    (i : Id e) : (a.modify i g).map f = (a.map f).modify i g' := by
  apply ext_get?
  intro j
  simp only [get?_map, get?_modify]
  split
  · simp [Function.comp_def, h]
  · rfl

theorem map_modify_eq (f : α → β) (h : ∀ x, f (g x) = f x) (a : Arena e α) (i : Id e) :
    (a.modify i g).map f = a.map f := by
  apply ext_get?
  intro j
  simp only [get?_map, get?_modify]
  split
  · simp [Function.comp_def, h]
  · rfl

namespace Grows

@[refl] theorem refl (a : Arena e α) : a.Grows a := fun _ _ => rfl

theorem size_le (h : a.Grows b) : a.size ≤ b.size := by
  by_contra hlt
  have hi : a.Valid ⟨b.size⟩ := by simpa [Valid] using hlt
  exact get?_eq_none.1 (by rw [← h _ hi]; exact get?_eq_none.2 (not_valid_size b)) hi

theorem valid (h : a.Grows b) {i : Id e} (hi : a.Valid i) : b.Valid i :=
  Nat.lt_of_lt_of_le hi h.size_le

theorem trans {c : Arena e α} (h : a.Grows b) (h' : b.Grows c) : a.Grows c := fun i hi =>
  (h' i (h.valid hi)).trans (h i hi)

theorem get_eq [Inhabited α] (h : a.Grows b) {i : Id e} (hi : a.Valid i) : b.get i = a.get i := by
  rw [get, h i hi, get]

theorem push (a : Arena e α) (x : α) : a.Grows (a.push x).2 := by
  intro i hi
  have hne : i ≠ ⟨a.size⟩ := fun he => not_valid_size a (he ▸ hi)
  rw [get?_push, if_neg hne]

end Grows

end Arena

namespace Pool

open Arena

variable {e : Entity} {α : Type} [DecidableEq α] {t u : Pool e α} {x : α} {i j : Id e}

theorem intern_of_find? (h : t.find? x = some i) : t.intern x = (i, t) := by
  unfold intern
  split
  · rename_i j hj
    rw [Option.some.inj (hj.symm.trans h)]
  · rename_i hnone
    cases hnone.symm.trans h

theorem intern_of_find?_eq_none (h : t.find? x = none) : t.intern x = (⟨t.size⟩, t.add x h) := by
  unfold intern
  split
  · rename_i i hi
    cases hi.symm.trans h
  · rfl

/-- What interning does to the entries: nothing, or it adds one at the end. -/
theorem intern_cases (t : Pool e α) (x : α) : (t.intern x).2 = t ∧ t.find? x = some (t.intern x).1 ∨
    (t.intern x).2.toArena = (t.push x).2 ∧ t.find? x = none ∧ (t.intern x).1 = ⟨t.size⟩ := by
  cases h : t.find? x with
  | some i =>
    rw [intern_of_find? h]
    exact .inl ⟨rfl, rfl⟩
  | none =>
    rw [intern_of_find?_eq_none h]
    exact .inr ⟨rfl, rfl, rfl⟩

theorem grows_intern (t : Pool e α) (x : α) : t.Grows (t.intern x).2 := by
  obtain ⟨h, -⟩ | ⟨h, -⟩ := t.intern_cases x <;> rw [h]
  exact Grows.push t.toArena x

theorem find?_intern (t : Pool e α) (x : α) : (t.intern x).2.find? x = some (t.intern x).1 := by
  cases h : t.find? x with
  | some i => rw [intern_of_find? h, h]
  | none =>
    rw [intern_of_find?_eq_none h]
    exact List.lookup_cons_self

section Get

variable [Inhabited α]

theorem find?_eq_some : t.find? x = some i ↔ t.Valid i ∧ t.get i = x := by
  refine (t.inverse x i).trans ⟨fun h => ?_, fun ⟨hi, hx⟩ => hx ▸ get?_of_valid hi⟩
  have hi : t.Valid i := not_not.1 fun hn => by
    cases (get?_eq_none.2 hn).symm.trans h
  exact ⟨hi, Option.some.inj ((get?_of_valid hi).symm.trans h)⟩

/-- An entry has one id. -/
theorem get_inj (hi : t.Valid i) (hj : t.Valid j) (h : t.get i = t.get j) : i = j :=
  Option.some.inj ((find?_eq_some.2 ⟨hi, h⟩).symm.trans (find?_eq_some.2 ⟨hj, rfl⟩))

theorem intern_eq (hi : t.Valid i) (hx : t.get i = x) : t.intern x = (i, t) :=
  intern_of_find? (find?_eq_some.2 ⟨hi, hx⟩)

theorem valid_intern (t : Pool e α) (x : α) : (t.intern x).2.Valid (t.intern x).1 :=
  (find?_eq_some.1 (find?_intern t x)).1

theorem get_intern_self (t : Pool e α) (x : α) : (t.intern x).2.get (t.intern x).1 = x :=
  (find?_eq_some.1 (find?_intern t x)).2

theorem get_intern (t : Pool e α) (x : α) (i : Id e) :
    (t.intern x).2.get i = t.get i ∨ i = ⟨t.size⟩ ∧ (t.intern x).2.get i = x := by
  obtain ⟨h, -⟩ | ⟨h, -⟩ := t.intern_cases x <;> rw [h]
  · exact .inl rfl
  · by_cases hi : i = ⟨t.size⟩
    · exact .inr ⟨hi, by simp [get_push, hi]⟩
    · exact .inl (by simp [get_push, hi])

theorem valid_or_get_intern (hi : (t.intern x).2.Valid i) :
    t.Valid i ∨ (t.intern x).2.get i = x := by
  obtain ⟨h, -⟩ | ⟨h, -⟩ := t.intern_cases x <;> rw [h] at hi ⊢
  · exact .inl hi
  · rcases valid_push.1 hi with hi | rfl
    · exact .inl hi
    · exact .inr (by simp [get_push])

end Get

end Pool

theorem Arena.Grows.find? {e : Entity} {α : Type} [DecidableEq α] {t u : Pool e α} {x : α}
    {i : Id e} (h : t.Grows u) (hi : t.find? x = some i) : u.find? x = some i := by
  have hget : t.get? i = some x := (t.inverse x i).1 hi
  have hvalid : t.Valid i := not_not.1 fun hn => by
    cases (Arena.get?_eq_none.2 hn).symm.trans hget
  exact (u.inverse x i).2 ((h i hvalid).trans hget)

end ClassLang
