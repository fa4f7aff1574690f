import ClassLang.Proofs.Arena
import ClassLang.Ty

namespace ClassLang

open Arena Pool

def Ty.parts : Ty → List TypeId
  | .optional wrapped _ => [wrapped]
  | .function params result | .lambda params result => params ++ [result]
  | .array element => [element]
  | _ => []

def Ty.inst? : Ty → Option InstId
  | .classOf inst | .ref _ inst => some inst
  | _ => none

def Ty.cold? : Ty → Option ColdId
  | .cold c => some c
  | _ => none

theorem Slot.fixed?_eq_some {slot : Slot} {t : TypeId} :
    slot.fixed? = some t ↔ slot = .fixed t := by
  cases slot <;> simp [Slot.fixed?]

namespace TypeTable

structure Sound (T : TypeTable) (n : Nat) : Prop where
  basic : basic.Grows T
  parts : ∀ t u, u ∈ (T.get t).parts → u.index < t.index
  insts : ∀ t i, (T.get t).inst? = some i → i.index < n

structure Yields (T : TypeTable) (n : Nat) (t : TypeId) (U : TypeTable) : Prop where
  grows : T.Grows U
  sound : Sound U n
  valid : U.Valid t
  colds : ∀ u c, U.get u = .cold c → T.get u = .cold c

variable {T U : TypeTable} {n : Nat} {t u : TypeId} {x : Ty}

theorem basic_sound : Sound basic 0 := by
  refine ⟨Arena.Grows.refl _, fun t u hu => ?_, fun t i hi => ?_⟩ <;> by_cases ht : basic.Valid t
  · have h : ∀ t ∈ basic.ids, ∀ u ∈ (basic.get t).parts, u.index < t.index := by decide
    exact h t (mem_ids.2 ht) u hu
  · rw [get_of_not_valid ht] at hu
    cases hu
  · have h : ∀ t ∈ basic.ids, (basic.get t).inst? = none := by decide
    rw [h t (mem_ids.2 ht)] at hi
    cases hi
  · rw [get_of_not_valid ht] at hi
    cases hi

theorem Sound.mono (h : Sound T n) {m : Nat} (hm : n ≤ m) : Sound T m :=
  ⟨h.basic, h.parts, fun t i hi => Nat.lt_of_lt_of_le (h.insts t i hi) hm⟩

theorem Sound.valid_part (h : Sound T n) (ht : T.Valid t) (hu : u ∈ (T.get t).parts) : T.Valid u :=
  Nat.lt_trans (h.parts t u hu) ht

theorem Sound.valid_basic (h : Sound T n) (ht : TypeTable.basic.Valid t) : T.Valid t :=
  h.basic.valid ht

theorem Sound.get_basic (h : Sound T n) (ht : TypeTable.basic.Valid t) :
    T.get t = TypeTable.basic.get t :=
  h.basic.get_eq ht

theorem valid_of_get (h : T.get t = x) (hx : x ≠ .int) : T.Valid t :=
  valid_of_get_ne fun he => hx (h.symm.trans he)

section

variable (h : Sound T n) (hp : ∀ u ∈ x.parts, T.Valid u) (hi : ∀ i, x.inst? = some i → i.index < n)
include h hp hi

theorem Sound.intern : Sound (T.intern x).2 n := by
  refine ⟨h.basic.trans (grows_intern T x), fun t u hu => ?_, fun t i hti => ?_⟩
  · obtain he | ⟨rfl, he⟩ := get_intern T x t
    · exact h.parts t u (he ▸ hu)
    · exact hp u (he ▸ hu)
  · obtain he | ⟨_, he⟩ := get_intern T x t
    · exact h.insts t i (he ▸ hti)
    · exact hi i (he ▸ hti)

theorem intern_yields (hc : ∀ c, x ≠ .cold c) : Yields T n (T.intern x).1 (T.intern x).2 := by
  refine ⟨grows_intern T x, h.intern hp hi, valid_intern T x, fun u c hu => ?_⟩
  obtain he | ⟨_, he⟩ := get_intern T x u
  · exact he.symm.trans hu
  · exact absurd (he.symm.trans hu) (hc c)

end

theorem intern_settled (hU : (T.intern x).2.Grows U) : U.intern x = ((T.intern x).1, U) :=
  intern_of_find? (hU.find? (find?_intern T x))

theorem Yields.trans {V : TypeTable} (h : Yields T n t U) (h' : Yields U n u V) : Yields T n u V :=
  ⟨h.grows.trans h'.grows, h'.sound, h'.valid, fun u c hu => h.colds u c (h'.colds u c hu)⟩

theorem Yields.refl (h : Sound T n) (ht : T.Valid t) : Yields T n t T :=
  ⟨.refl _, h, ht, fun _ _ => id⟩

theorem optional_yields (h : Sound T n) (ht : T.Valid t) :
    Yields T n (optional T t).1 (optional T t).2 := by
  unfold optional
  split
  · rename_i wrapped depth hg
    refine intern_yields h (fun u hu => ?_) (fun i hi => by cases hi) nofun
    exact h.valid_part ht (by simpa [hg, Ty.parts] using hu)
  · refine intern_yields h (fun u hu => ?_) (fun i hi => by cases hi) nofun
    rw [List.mem_singleton.1 hu]
    exact ht

theorem optional_settled (ht : T.Valid t) (hU : (optional T t).2.Grows U) :
    optional U t = ((optional T t).1, U) := by
  have hT : T.Grows (optional T t).2 := by
    unfold optional
    split <;> exact grows_intern T _
  have hg := (hT.trans hU).get_eq ht
  unfold optional at hU ⊢
  rw [hg]
  split at hU <;> exact intern_settled hU

theorem unwrap_yields (h : Sound T n) (ht : T.Valid t) (hu : (unwrap T t).1 = some u) :
    Yields T n u (unwrap T t).2 := by
  unfold unwrap at hu ⊢
  split at hu
  · rename_i wrapped hg
    cases hu
    exact .refl h (h.valid_part ht (by simp [hg, Ty.parts]))
  · rename_i wrapped depth _ hg
    cases hu
    refine intern_yields h (fun u hu => ?_) (fun i hi => by cases hi) nofun
    exact h.valid_part ht (by simpa [hg, Ty.parts] using hu)
  · cases hu

theorem unwrap_eq_of_none (h : (unwrap T t).1 = none) : unwrap T t = (none, T) := by
  unfold unwrap at h ⊢
  split at h
  · cases h
  · cases h
  · rfl

theorem unwrap_settled (ht : T.Valid t) (hU : (unwrap T t).2.Grows U) :
    unwrap U t = ((unwrap T t).1, U) := by
  have hT : T.Grows (unwrap T t).2 := by
    unfold unwrap
    split
    · exact .refl _
    · exact grows_intern T _
    · exact .refl _
  have hg := (hT.trans hU).get_eq ht
  unfold unwrap at hU ⊢
  rw [hg]
  split at hU
  · rfl
  · simp [intern_settled hU]
  · rfl

theorem optional_of_grows (ht : T.Valid t) (h : optional T t = (u, T)) (hU : T.Grows U) :
    optional U t = (u, U) := by
  have := optional_settled ht (U := U) (by rwa [h])
  rwa [h] at this

theorem unwrap_of_grows {o : Option TypeId} (ht : T.Valid t) (h : unwrap T t = (o, T))
    (hU : T.Grows U) : unwrap U t = (o, U) := by
  have := unwrap_settled ht (U := U) (by rwa [h])
  rwa [h] at this

theorem pinned_yields (h : Sound T n) (ht : T.Valid t) :
    Yields T n (pinned T t).1 (pinned T t).2 := by
  unfold pinned
  split
  · rename_i inst hg
    refine intern_yields h (fun u hu => by cases hu) (fun i hi => ?_) nofun
    exact h.insts t i (by simpa [hg, Ty.inst?] using hi)
  · rename_i wrapped depth hg
    split
    · rename_i inst hw
      have h1 : Yields T n (T.intern (.ref .pin inst)).1 (T.intern (.ref .pin inst)).2 := by
        refine intern_yields h (fun u hu => by cases hu) (fun i hi => ?_) nofun
        exact h.insts wrapped i (by simpa [hw, Ty.inst?] using hi)
      refine h1.trans (intern_yields h1.sound (fun u hu => ?_) (fun i hi => by cases hi) nofun)
      rw [List.mem_singleton.1 hu]
      exact h1.valid
    · exact .refl h ht
  · exact .refl h ht

theorem pinned_settled (h : Sound T n) (ht : T.Valid t) (hU : (pinned T t).2.Grows U) :
    pinned U t = ((pinned T t).1, U) := by
  have hT := (pinned_yields h ht).grows.trans hU
  have hg := hT.get_eq ht
  unfold pinned at hU ⊢
  rw [hg]
  split at hU
  · exact intern_settled hU
  · rename_i wrapped depth hgt
    have hw : T.Valid wrapped := h.valid_part ht (by simp [hgt, Ty.parts])
    rw [hT.get_eq hw]
    split at hU
    · rename_i inst hwt
      have hmid := (grows_intern (T.intern (.ref .pin inst)).2
        (.optional (T.intern (.ref .pin inst)).1 depth)).trans hU
      simp only [intern_settled hmid]
      exact intern_settled hU
    · rfl
  · rfl

theorem pinned_of_grows (hT : Sound T n) (ht : T.Valid t) (h : pinned T t = (u, T))
    (hU : T.Grows U) : pinned U t = (u, U) := by
  have := pinned_settled hT ht (U := U) (by rwa [h])
  rwa [h] at this

theorem read_yields (h : Sound T n) (ht : T.Valid t) : Yields T n (read T t).1 (read T t).2 := by
  unfold read
  split
  · rename_i inst hg
    have h1 : Yields T n (T.intern (.ref .pin inst)).1 (T.intern (.ref .pin inst)).2 := by
      refine intern_yields h (fun u hu => by cases hu) (fun i hi => ?_) nofun
      exact h.insts t i (by simpa [hg, Ty.inst?] using hi)
    exact h1.trans (optional_yields h1.sound h1.valid)
  · exact pinned_yields h ht

theorem pinned_ne_own (T : TypeTable) (t : TypeId) (i : InstId) :
    (pinned T t).2.get (pinned T t).1 ≠ .ref .own i := by
  unfold pinned
  split
  · rw [get_intern_self]
    nofun
  · rename_i hget
    split
    · rw [get_intern_self]
      nofun
    · rw [hget]
      nofun
  · rename_i hown _
    exact hown i

/-- What is read is not owned. -/
theorem read_ne_own (T : TypeTable) (t : TypeId) (i : InstId) :
    (read T t).2.get (read T t).1 ≠ .ref .own i := by
  unfold read
  split
  · dsimp only
    unfold optional
    split <;>
    · rw [get_intern_self]
      nofun
  · exact pinned_ne_own T t i

theorem get_of_grows (h : T.Grows U) (hget : T.get t = x) (hx : x ≠ .int) : U.get t = x :=
  (h.get_eq (valid_of_get hget hx)).trans hget

theorem Grows.ref? (h : T.Grows U) (ht : T.Valid t) : TypeTable.ref? U t = TypeTable.ref? T t := by
  unfold TypeTable.ref?
  rw [h.get_eq ht]

theorem ref?_eq_some {k : RefKind} {i : InstId} : ref? T t = some (k, i) ↔ T.get t = .ref k i := by
  unfold TypeTable.ref?
  split
  · rename_i h; simp [h]
  · rename_i h
    simpa using h k i

theorem ref?_eq_none (h : T.get t = x) (hx : ∀ k i, x ≠ .ref k i) : ref? T t = none := by
  cases hr : ref? T t with
  | none => rfl
  | some y => exact absurd (h.symm.trans (ref?_eq_some.1 hr)) (hx y.1 y.2)

theorem ref?_of_grows (h : T.Grows U) {x : RefKind × InstId} (hx : ref? T t = some x) :
    ref? U t = some x :=
  ref?_eq_some.2 (get_of_grows h (ref?_eq_some.1 hx) nofun)

theorem isTemporary_of_grows (h : Sound T n) (hU : T.Grows U) (ht : T.Valid t) :
    isTemporary U t = isTemporary T t := by
  unfold isTemporary
  rw [hU.get_eq ht]
  split
  · rfl
  · rename_i hg
    rw [hU.get_eq (h.valid_part ht (by simp [hg, Ty.parts]))]
  · rfl

inductive Over (T : TypeTable) (I : InstId → Prop) (C : ColdId → Prop) : TypeId → Prop
  | node {t : TypeId} : T.Valid t → (∀ i, (T.get t).inst? = some i → I i) →
      (∀ c, T.get t = .cold c → C c) →
      (∀ u ∈ (T.get t).parts, Over T I C u) → Over T I C t

section Over

open List

variable {I I' : InstId → Prop} {C C' : ColdId → Prop} {i : InstId} {kind : RefKind}

section

variable (h : Over T I C t)
include h

theorem Over.valid : T.Valid t := by
  cases h
  assumption

theorem Over.inst (hi : (T.get t).inst? = some i) : I i := by
  cases h with
  | node _ hinst _ _ => exact hinst i hi

theorem Over.ref (hi : ref? T t = some (kind, i)) : I i :=
  h.inst (by rw [ref?_eq_some.1 hi]; rfl)

theorem Over.cold {c : ColdId} (hc : T.get t = .cold c) : C c := by
  cases h with
  | node _ _ hcold _ => exact hcold c hc

theorem Over.part (hu : u ∈ (T.get t).parts) : Over T I C u := by
  cases h with
  | node _ _ _ hparts => exact hparts u hu

theorem Over.result {params : List TypeId} (ht : T.get t = .lambda params u) : Over T I C u :=
  h.part (by rw [ht]; exact mem_append_right _ (mem_singleton_self _))

theorem Over.mono (hT : T.Grows U) (hI : ∀ i, I i → I' i) (hC : ∀ c, C c → C' c) :
    Over U I' C' t := by
  induction h with
  | node ht hinst hcold _ ih =>
    have hget := hT.get_eq ht
    refine .node (hT.valid ht) ?_ ?_ ?_ <;> rw [hget]
    · exact fun i hi => hI i (hinst i hi)
    · exact fun c hc => hC c (hcold c hc)
    · exact ih

theorem Over.grows (hT : T.Grows U) : Over U I C t := h.mono hT (fun _ => id) fun _ => id

end

theorem Sound.over (h : Sound T n) (hI : ∀ i : InstId, i.index < n → I i) {t : TypeId}
    (ht : T.Valid t) : Over T I (fun _ => True) t :=
  .node ht (fun i hi => hI i (h.insts t i hi)) (fun _ _ => trivial) fun _ hu =>
    h.over hI (h.valid_part ht hu)
termination_by t.index
decreasing_by exact h.parts t _ hu

/-- A type that was there before was made of the same. -/
theorem Over.restrict (h : Over U I C t) (hT : T.Grows U) (hs : Sound T n) (ht : T.Valid t) :
    Over T I C t := by
  induction h with
  | node _ hinst hcold _ ih =>
    rw [hT.get_eq ht] at hinst hcold ih
    exact .node ht hinst hcold fun u hu => ih u hu (hs.valid_part ht hu)

theorem Over.and (h : Over T I C t) (h' : Over T I' C' t) :
    Over T (fun i => I i ∧ I' i) (fun c => C c ∧ C' c) t := by
  induction h with
  | node ht hinst hcold _ ih =>
    exact .node ht (fun i hi => ⟨hinst i hi, h'.inst hi⟩) (fun c hc => ⟨hcold c hc, h'.cold hc⟩)
      fun u hu => ih u hu (h'.part hu)

theorem Over.intern {x : Ty} (hinst : ∀ i, x.inst? = some i → I i) (hcold : ∀ c, x = .cold c → C c)
    (hparts : ∀ u ∈ x.parts, Over T I C u) : Over (T.intern x).2 I C (T.intern x).1 := by
  have hget := get_intern_self T x
  refine .node (valid_intern T x) ?_ ?_ ?_ <;> rw [hget]
  · exact hinst
  · exact hcold
  · exact fun u hu => (hparts u hu).grows (grows_intern T x)

theorem Over.internRef (hi : I i) (kind : RefKind) :
    Over (T.intern (.ref kind i)).2 I C (T.intern (.ref kind i)).1 :=
  .intern (fun _ hj => Option.some.inj hj ▸ hi) nofun nofun

theorem Over.basic (h : Sound T n) (ht : TypeTable.basic.Valid t) : Over T I C t := by
  have hleaf {x : Ty} {u : TypeId} (hu : T.Valid u) (hget : T.get u = x) (hparts : x.parts = [])
      (hinst : x.inst? = none) (hcold : ∀ c, x ≠ .cold c) : Over T I C u := by
    refine .node hu ?_ ?_ ?_ <;> rw [hget]
    · rw [hinst]
      nofun
    · exact fun c hc => absurd hc (hcold c)
    · rw [hparts]
      nofun
  have hvoid : Over T I C TypeId.void :=
    hleaf (h.valid_basic (by decide)) (h.get_basic (by decide)) rfl rfl nofun
  have hall : ∀ t ∈ TypeTable.basic.ids, TypeTable.basic.get t = .optional TypeId.void 1 ∨
      (TypeTable.basic.get t).parts = [] ∧ (TypeTable.basic.get t).inst? = none ∧
      (TypeTable.basic.get t).cold? = none := by
    decide
  have hget := h.get_basic ht
  rcases hall t (mem_ids.2 ht) with hopt | ⟨hparts, hinst, hcold⟩
  · rw [hopt] at hget
    refine .node (h.valid_basic ht) ?_ ?_ ?_ <;> rw [hget]
    · nofun
    · nofun
    · exact forall_mem_singleton.2 hvoid
  · refine hleaf (h.valid_basic ht) hget hparts hinst fun c hc => ?_
    rw [hc] at hcold
    cases hcold

section

variable (h : Over T I C t)
include h

theorem Over.optional : Over (optional T t).2 I C (optional T t).1 := by
  unfold TypeTable.optional
  split
  · rename_i w depth hget
    refine .intern nofun nofun (forall_mem_singleton.2 (h.part ?_))
    rw [hget]
    exact mem_singleton_self w
  · exact .intern nofun nofun (forall_mem_singleton.2 h)

theorem Over.unwrap (hu : (unwrap T t).1 = some u) : Over (unwrap T t).2 I C u := by
  unfold TypeTable.unwrap at hu ⊢
  split at hu
  · rename_i hget
    cases hu
    refine h.part ?_
    rw [hget]
    exact mem_singleton_self _
  · rename_i w depth _ hget
    cases hu
    refine .intern nofun nofun (forall_mem_singleton.2 (h.part ?_))
    rw [hget]
    exact mem_singleton_self w
  · cases hu

theorem Over.pinned : Over (pinned T t).2 I C (pinned T t).1 := by
  unfold TypeTable.pinned
  split
  · rename_i i hget
    exact .internRef (h.inst (by rw [hget]; rfl)) .pin
  · rename_i w depth hget
    have hw : Over T I C w := h.part (by rw [hget]; exact mem_singleton_self w)
    split
    · rename_i i hgetw
      exact .intern nofun nofun
        (forall_mem_singleton.2 (.internRef (hw.inst (by rw [hgetw]; rfl)) .pin))
    · exact h
  · exact h

theorem Over.read : Over (read T t).2 I C (read T t).1 := by
  unfold TypeTable.read
  split
  · rename_i i hget
    have hpin : Over (T.intern (.ref .pin i)).2 I C (T.intern (.ref .pin i)).1 :=
      .internRef (h.inst (by rw [hget]; rfl)) .pin
    exact hpin.optional
  · exact h.pinned

end

end Over

end TypeTable

end ClassLang
