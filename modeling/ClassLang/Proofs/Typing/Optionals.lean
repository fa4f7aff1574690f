import ClassLang.Proofs.Typing.Sound.Program

namespace ClassLang

open Arena Pool

namespace TypeTable

inductive Layers (T : TypeTable) : TypeId → Nat → TypeId → Prop
  | core {t : TypeId} : isOptional T t = false → Layers T t 0 t
  | wrap {t w b : TypeId} {depth n : Nat} : T.get t = .optional w depth → Layers T w n b →
      Layers T t (depth + n) b

variable {T U : TypeTable} {t u w b : TypeId} {n depth : Nat}

theorem optional_other (h : ∀ w depth, T.get t ≠ .optional w depth) :
    optional T t = T.intern (.optional t 1) := by
  unfold TypeTable.optional
  split
  · rename_i hget
    exact absurd hget (h _ _)
  · rfl

theorem optional_optional (h : T.get t = .optional w depth) :
    optional T t = T.intern (.optional w (depth + 1)) := by
  rw [TypeTable.optional, h]

theorem unwrap_one (h : T.get t = .optional w 1) : unwrap T t = (some w, T) := by
  rw [unwrap, h]
  rfl

theorem unwrap_succ {k : Nat} (h : T.get t = .optional w (k + 2)) :
    unwrap T t = (some (T.intern (.optional w (k + 1))).1, (T.intern (.optional w (k + 1))).2) := by
  rw [unwrap, h]
  rfl

section

variable (hT : Flat T)
include hT

/-- All levels of absence are in one optional. -/
theorem Layers.eq_optional (h : Layers T t n b) (ht : T.get t = .optional w depth) :
    n = depth ∧ b = w := by
  have hw := (hT t w depth ht).2.2
  cases h with
  | core hnot => exact absurd ht (isOptional_eq_false.1 hnot w depth)
  | wrap hget hinner =>
    cases hget.symm.trans ht
    cases hinner with
    | core _ => exact ⟨rfl, rfl⟩
    | wrap hget' _ => exact absurd hget' (isOptional_eq_false.1 hw _ _)

theorem exists_layers (t : TypeId) : ∃ n b, Layers T t n b := by
  cases hopt : isOptional T t with
  | false => exact ⟨0, t, .core hopt⟩
  | true =>
    obtain ⟨w, depth, ht⟩ := isOptional_eq_true.1 hopt
    exact ⟨depth, w, .wrap ht (.core (hT t w depth ht).2.2)⟩

theorem Layers.unique (h : Layers T t n b) (h' : Layers T u n b) : t = u := by
  cases hopt : isOptional T t with
  | true =>
    obtain ⟨w, depth, ht⟩ := isOptional_eq_true.1 hopt
    obtain ⟨rfl, rfl⟩ := h.eq_optional hT ht
    have hdepth := (hT t b n ht).2.1
    cases h' with
    | core _ => omega
    | @wrap _ v _ k _ hu hinner =>
      obtain ⟨hk, rfl⟩ := (Layers.wrap hu hinner).eq_optional hT hu
      rw [hk] at ht
      exact get_inj (valid_of_get ht nofun) (valid_of_get hu nofun) (ht.trans hu.symm)
  | false =>
    cases h with
    | wrap hget _ => exact absurd hget (isOptional_eq_false.1 hopt _ _)
    | core _ =>
      generalize hn : 0 = k at h'
      cases h' with
      | core _ => rfl
      | wrap hget _ =>
        have hdepth := (hT _ _ _ hget).2.1
        omega

theorem unwrap_optional (ht : T.Valid t) :
    unwrap (optional T t).2 (optional T t).1 = (some t, (optional T t).2) := by
  unfold TypeTable.optional
  split
  · rename_i w depth hget
    obtain ⟨k, rfl⟩ := Nat.exists_eq_add_of_le' (hT t w depth hget).2.1
    have hgrows := grows_intern T (.optional w (k + 2))
    rw [unwrap_succ (get_intern_self _ _),
      intern_eq (hgrows.valid ht) ((hgrows.get_eq ht).trans hget)]
  · exact unwrap_one (get_intern_self _ _)

theorem optional_unwrap (ht : T.get t = .optional w depth) :
    ∃ u, (unwrap T t).1 = some u ∧ optional (unwrap T t).2 u = (t, (unwrap T t).2) := by
  have hvalid := valid_of_get ht nofun
  obtain ⟨_, hdepth, hw⟩ := hT t w depth ht
  by_cases hone : depth = 1
  · subst hone
    refine ⟨w, by rw [unwrap_one ht], ?_⟩
    rw [unwrap_one ht, optional_other (isOptional_eq_false.1 hw)]
    exact intern_eq hvalid ht
  · obtain ⟨k, rfl⟩ : ∃ k, depth = k + 2 := ⟨depth - 2, by omega⟩
    have hgrows := grows_intern T (.optional w (k + 1))
    refine ⟨(T.intern (.optional w (k + 1))).1, by rw [unwrap_succ ht], ?_⟩
    rw [unwrap_succ ht, optional_optional (get_intern_self _ _)]
    exact intern_eq (hgrows.valid hvalid) ((hgrows.get_eq hvalid).trans ht)

end

end TypeTable

namespace Program

/-- The types that are there once a program is read, once its names are bound, and at any time while
it is typed, whether this succeeds or not. -/
inductive Arises : TypeTable → Prop
  | load {p : Program} : p.Loaded → Arises p.types
  | resolve {p : Program} : p.Resolved → Arises p.types
  | check {p : Program} {T : TypeTable} : p.Resolved → T.Grows p.check.program.types → Arises T

variable {p : Program}

theorem Untyped.flat (h : p.Untyped) : TypeTable.Flat p.types := by
  rw [h.types]
  exact TypeTable.basic_flat

theorem Arises.flat {T : TypeTable} (h : Arises T) : TypeTable.Flat T := by
  cases h with
  | load h =>
    obtain ⟨_, hgrown⟩ := h.grown
    exact hgrown.untyped.flat
  | resolve h => exact h.wired.untyped.flat
  | check h hT =>
    exact (Typing.lasting_of_check h).neat.flat.restrict hT

open TypeTable in
/-- An optional is never around another one, and adding a level of absence and taking one away undo
each other. So there is one type for each number of levels around a type. -/
theorem optional_canonical {T : TypeTable} (h : Arises T) :
    (∀ t w depth, T.get t = .optional w depth → 1 ≤ depth ∧ isOptional T w = false) ∧
    (∀ t, T.Valid t → unwrap (optional T t).2 (optional T t).1 = (some t, (optional T t).2)) ∧
    (∀ t, isOptional T t = true →
      ∃ u, (unwrap T t).1 = some u ∧ optional (unwrap T t).2 u = (t, (unwrap T t).2)) ∧
    ∀ t, ∃ n b, Layers T t n b ∧ ∀ u, Layers T u n b → u = t := by
  have hflat := h.flat
  refine ⟨fun t w depth ht => (hflat t w depth ht).2, fun t ht => unwrap_optional hflat ht,
    fun t ht => ?_, fun t => ?_⟩
  · obtain ⟨w, depth, hget⟩ := isOptional_eq_true.1 ht
    exact optional_unwrap hflat hget
  · obtain ⟨n, b, hlayers⟩ := exists_layers hflat t
    exact ⟨n, b, hlayers, fun u hu => hu.unique hflat hlayers⟩

def layersText : String := "class P { p = &P; q() { p } } a = + +1; b = +a; c = b + 1;"

open TypeTable in
theorem optional_canonical_layers :
    let p := ofText layersText
    p.check.result.toOption = none ∧ Arises p.check.program.types ∧
      p.check.program.types.get ⟨13⟩ = .optional TypeId.int 3 ∧
      isOptional p.check.program.types TypeId.int = false ∧
      ∃ u, (unwrap p.check.program.types ⟨13⟩).1 = some u ∧
        optional (unwrap p.check.program.types ⟨13⟩).2 u =
          (⟨13⟩, (unwrap p.check.program.types ⟨13⟩).2) := by
  have hrun : resolves layersText = true ∧ (ofText layersText).check.result.toOption = none ∧
      (ofText layersText).check.program.types.get ⟨13⟩ = .optional TypeId.int 3 := by decide +kernel
  have h : Arises (ofText layersText).check.program.types :=
    .check (resolved_ofText layersText hrun.1) (.refl _)
  generalize ofText layersText = p at h hrun ⊢
  obtain ⟨_, hfails, hget⟩ := hrun
  obtain ⟨hflat, _, hoptional, _⟩ := optional_canonical h
  exact ⟨hfails, h, hget, (hflat _ _ _ hget).2, hoptional _ (isOptional_eq_true.2 ⟨_, _, hget⟩)⟩

end Program

end ClassLang
