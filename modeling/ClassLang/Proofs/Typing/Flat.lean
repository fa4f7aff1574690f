import ClassLang.Proofs.Typing.Replace

/-!
Optionals are kept flat: whatever adds types puts an optional around what is none, and never at
depth zero.
-/

namespace ClassLang

open Arena Pool List

namespace TypeTable

def Flat (T : TypeTable) : Prop :=
  ∀ t w depth, T.get t = .optional w depth → w.index < t.index ∧ 1 ≤ depth ∧ isOptional T w = false

variable {T U : TypeTable} {t u w : TypeId} {x : Ty} {depth : Nat}

theorem isOptional_eq_true : isOptional T t = true ↔ ∃ w depth, T.get t = .optional w depth := by
  unfold isOptional
  split
  · rename_i w depth hget
    exact ⟨fun _ => ⟨w, depth, hget⟩, fun _ => rfl⟩
  · rename_i hnot
    exact ⟨nofun, fun ⟨w, depth, hget⟩ => absurd hget (hnot w depth)⟩

theorem isOptional_eq_false : isOptional T t = false ↔ ∀ w depth, T.get t ≠ .optional w depth := by
  rw [← Bool.not_eq_true, isOptional_eq_true]
  simp

theorem isOptional_congr (h : U.get t = T.get t) : isOptional U t = isOptional T t := by
  rw [isOptional, h, isOptional]

theorem basic_flat : Flat basic := by
  intro t w depth ht
  have hmem := mem_ids.2 (valid_of_get ht nofun)
  have hall : ∀ t ∈ basic.ids, basic.get t = .optional TypeId.void 1 ∧ t = TypeId.bool ∨
      isOptional basic t = false := by
    decide
  rcases hall t hmem with ⟨hget, rfl⟩ | hnot
  · cases ht.symm.trans hget
    decide
  · exact absurd ht (isOptional_eq_false.1 hnot w depth)

/-- What an optional may be around at which depth. -/
theorem Flat.intern (hT : Flat T)
    (hx : ∀ w depth, x = .optional w depth → T.Valid w ∧ 1 ≤ depth ∧ isOptional T w = false) :
    Flat (T.intern x).2 := by
  have hgrows := grows_intern T x
  intro t w depth ht
  rcases get_intern T x t with he | ⟨rfl, he⟩
  · have hget := he.symm.trans ht
    obtain ⟨hlt, hdepth, hw⟩ := hT t w depth hget
    have hvalid : T.Valid w := Nat.lt_trans hlt (valid_of_get hget nofun)
    exact ⟨hlt, hdepth, (isOptional_congr (hgrows.get_eq hvalid)).trans hw⟩
  · obtain ⟨hvalid, hdepth, hw⟩ := hx w depth (he.symm.trans ht)
    exact ⟨hvalid, hdepth, (isOptional_congr (hgrows.get_eq hvalid)).trans hw⟩

theorem Flat.intern_other (hT : Flat T) (hx : ∀ w depth, x ≠ .optional w depth) :
    Flat (T.intern x).2 :=
  hT.intern fun w depth h => absurd h (hx w depth)

theorem Flat.valid (hT : Flat T) (ht : T.get t = .optional w depth) : T.Valid w :=
  Nat.lt_trans (hT t w depth ht).1 (valid_of_get ht nofun)

section Operations

variable (hT : Flat T)
include hT

theorem Flat.optional (ht : T.Valid t) : Flat (optional T t).2 := by
  unfold TypeTable.optional
  split
  · rename_i w depth hget
    apply hT.intern
    intro v k h
    cases h
    exact ⟨hT.valid hget, by omega, (hT t w depth hget).2.2⟩
  · rename_i hnot
    apply hT.intern
    intro v k h
    cases h
    exact ⟨ht, Nat.le_refl 1, isOptional_eq_false.2 hnot⟩

theorem Flat.unwrap (t : TypeId) : Flat (unwrap T t).2 := by
  unfold TypeTable.unwrap
  split
  · exact hT
  · rename_i w depth hdepth hget
    apply hT.intern
    intro v k h
    cases h
    obtain ⟨_, hpos, hw⟩ := hT t w depth hget
    have hne : depth ≠ 1 := hdepth
    exact ⟨hT.valid hget, by omega, hw⟩
  · exact hT

/-- A reference is wrapped again at the depth that there was. -/
theorem Flat.repin (ht : T.get t = .optional w depth) (i : InstId) :
    Flat ((T.intern (.ref .pin i)).2.intern (.optional (T.intern (.ref .pin i)).1 depth)).2 := by
  have hpin : Flat (T.intern (.ref .pin i)).2 := hT.intern_other nofun
  apply hpin.intern
  intro v k h
  cases h
  refine ⟨valid_intern _ _, (hT t w depth ht).2.1, isOptional_eq_false.2 fun v k h => ?_⟩
  cases (get_intern_self _ _).symm.trans h

theorem Flat.pinned (t : TypeId) : Flat (pinned T t).2 := by
  unfold TypeTable.pinned
  split
  · exact hT.intern_other nofun
  · rename_i w depth hget
    split
    · exact hT.repin hget _
    · exact hT
  · exact hT

theorem Flat.read (t : TypeId) : Flat (read T t).2 := by
  unfold TypeTable.read
  split
  · rename_i i _
    have hpin : Flat (T.intern (.ref .pin i)).2 := hT.intern_other nofun
    exact hpin.optional (valid_intern _ _)
  · exact hT.pinned t

end Operations

/-- What is flat was flat before types were added. -/
theorem Flat.restrict (hU : Flat U) (h : T.Grows U) : Flat T := by
  intro t w depth ht
  have hvalid := valid_of_get ht nofun
  obtain ⟨hlt, hdepth, hw⟩ := hU t w depth ((h.get_eq hvalid).trans ht)
  exact ⟨hlt, hdepth, (isOptional_congr (h.get_eq (Nat.lt_trans hlt hvalid))).symm.trans hw⟩

end TypeTable

namespace Program

variable {p q : Program} {α : Type}

structure Neat (p : Program) : Prop extends p.Tidy where
  flat : TypeTable.Flat p.types

theorem Neat.internInst {inst : Inst} (h : p.Neat)
    (hq : ({ p with insts := (p.insts.intern inst).2 } : Program).Tidy) :
    ({ p with insts := (p.insts.intern inst).2 } : Program).Neat := ⟨hq, h.flat⟩

theorem neat_lawful : Lawful Neat where
  tables h := h.tables
  param h hx := h.internInst (tidy_lawful.param h.toTidy hx)
  this h hc ha hlen := h.internInst (tidy_lawful.this h.toTidy hc ha hlen)
  inst h hi hget hlen ha := h.internInst (tidy_lawful.inst h.toTidy hi hget hlen ha)
  type {p _ t x} h ht hx hshape hparts := by
    refine ⟨tidy_lawful.type h.toTidy ht hx hshape hparts, h.flat.intern fun v depth hv => ?_⟩
    -- An optional is made of an optional of the same depth, and what it is around of what that one
    -- is around.
    subst hv
    obtain ⟨w, hw⟩ := Ty.optional_of_skeleton hshape rfl
    rw [hw] at hparts
    obtain ⟨_, hdepth, hnot⟩ := h.flat t w depth hw
    refine ⟨holds_optional.1 hx, hdepth, TypeTable.isOptional_eq_false.2 fun v' k hv' => ?_⟩
    cases hparts (w, v) (mem_singleton_self _) with
    | node _ _ hskeleton _ _ =>
      obtain ⟨w', hw'⟩ := Ty.optional_of_skeleton hskeleton hv'
      exact TypeTable.isOptional_eq_false.1 hnot w' k hw'

theorem stripPath_neat {t : TypeId} {path : List InstId} {receiver : InstId} (hp : p.Neat)
    (ht : p.types.Valid t) (hpath : ∀ j ∈ path, p.insts.Valid j) (hr : p.insts.Valid receiver) :
    Works Neat p (stripPath t path receiver)
      (fun u q => q.types.Valid u ∧ q.StrippedAlong (path.reverse ++ [receiver]) t u) False :=
  stripPath_works neat_lawful (fun _ h => h.canonical) hp ht
    (fun j hj => ⟨hpath j hj, hp.saturated (hpath j hj)⟩) hr (hp.saturated hr)

/-- Work on the tables that leaves the types as they are, however it ends. -/
def Spares (m : Edit α) : Prop :=
  ∀ p, Yields p m (fun _ q => q.types = p.types) fun _ q => q.types = p.types

theorem Mends.neat {m : Edit α} {Q : α → Program → Prop} (h : Mends p m Q) (hm : Spares m)
    (hp : p.Neat) : Works Neat p m Q False :=
  Yields.imp (Yields.and (mends_iff.1 h) (hm p))
    (fun _ _ ⟨⟨hadds, htidy, hQ⟩, htypes⟩ => ⟨hadds, ⟨htidy, htypes ▸ hp.flat⟩, hQ⟩)
    fun _ _ h => h.1

namespace Spares

variable {β : Type} {m : Edit α} {f : α → Edit β}

theorem pure (a : α) : Spares (Pure.pure a) := fun _ => rfl

theorem throw (e : TypeCause) : Spares (MonadExcept.throw e : Edit α) := fun _ => rfl

theorem get {f : Program → Edit α} (h : ∀ p, Spares (f p)) : Spares (MonadState.get >>= f) :=
  fun p => h p p

theorem bind (h : Spares m) (hf : ∀ a, Spares (f a)) : Spares (m >>= f) := by
  intro p
  apply Yields.bind ((h p).imp (fun _ _ h => h) fun _ _ h => h)
  intro a q hq
  rw [← hq]
  exact hf a q

theorem mapM {xs : List α} (hf : ∀ x ∈ xs, Spares (f x)) : Spares (xs.mapM f) := by
  induction xs with
  | nil => exact pure []
  | cons x xs ih =>
    rw [mapM_cons]
    apply bind (hf x mem_cons_self)
    intro b
    apply bind (ih fun y hy => hf y (mem_cons_of_mem x hy))
    intro bs
    exact pure (b :: bs)

theorem internInst (inst : Inst) : Spares (Program.internInst inst) := fun _ => rfl

theorem firstSome {g : α → Edit (Option β)} (hg : ∀ x, Spares (g x)) (xs : List α) :
    Spares (Program.firstSome g xs) := by
  induction xs with
  | nil => exact pure none
  | cons x xs ih =>
    unfold Program.firstSome
    apply bind (hg x)
    rintro (_ | b)
    · exact ih
    · exact pure (some b)

end Spares

theorem instUpTo_spares (s : Substitution) (n : Nat) (i : InstId) : Spares (s.instUpTo n i) := by
  induction n generalizing i with
  | zero => exact .pure i
  | succ n ih =>
    unfold Substitution.instUpTo
    apply Spares.get
    intro p
    split
    · dsimp only
      split
      · split
        · exact .pure _
        · exact .throw _
      · exact .pure i
    · exact (Spares.mapM fun a _ => ih a).bind fun _ => .internInst _

theorem stripInst_spares (i context : InstId) : Spares (stripInst i context) := by
  unfold stripInst
  apply Spares.get
  intro p
  split
  · rename_i s _
    exact .get fun p => instUpTo_spares s p.insts.size i
  · exact .pure i

theorem upcastUpTo_spares (n : Nat) (i : InstId) (ancestor : ClassId) :
    Spares (upcastUpTo n i ancestor) := by
  induction n generalizing i with
  | zero => exact .pure none
  | succ n ih =>
    rw [upcastUpTo_succ]
    apply Spares.get
    intro p
    unfold upcastAt
    split
    · exact .pure none
    · rename_i c _
      have hfrom (j : InstId) :
          Spares (upcastFrom (p.classes.get c).bases (p.derivesFrom c ancestor)
            (upcastUpTo n · ancestor) c ancestor j) := by
        unfold upcastFrom
        split
        · exact .pure (some j)
        split
        · exact .pure none
        · exact .firstSome (fun base => (stripInst_spares base j).bind ih) _
      split
      · exact hfrom i
      · exact (Spares.internInst _).bind hfrom

theorem upcast_spares (i : InstId) (ancestor : ClassId) : Spares (upcast i ancestor) :=
  .get fun _ => upcastUpTo_spares _ i ancestor

theorem isSubinst_spares (i target : InstId) : Spares (isSubinst i target) := by
  unfold isSubinst
  split
  · exact .pure true
  · apply Spares.get
    intro p
    split
    · exact (upcast_spares i _).bind fun _ => .pure _
    · exact .pure false

end Program

end ClassLang
