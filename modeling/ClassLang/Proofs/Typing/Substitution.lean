import ClassLang.Proofs.Typing.Replay
import ClassLang.Proofs.Typing.Views

namespace ClassLang

open List TypeTable

namespace Program

variable {α : Type} {p q r : Program} {s : Substitution} {c d : ClassId} {b i j x : InstId}
  {t u v w : TypeId} {way : List InstId}

/-- A program that was read, bound or checked, perhaps with more instances and types in its tables.
-/
inductive Furnished : Program → Prop
  | loaded {p : Program} : p.Loaded → Furnished p
  | resolved {p : Program} : p.Resolved → Furnished p
  | checked {p : Program} : p.Resolved → p.check.result = .ok () → Furnished p.check.program
  | inst {p : Program} {inst : Inst} : Furnished p → (∀ a ∈ inst.args, p.insts.Valid a) →
      (∀ x, inst.target = .param x → p.params.Valid x ∧ inst.args = []) →
        Furnished { p with insts := (p.insts.intern inst).2 }
  | type {p : Program} {x : Ty} : Furnished p → p.Holds x →
      Furnished { p with types := (p.types.intern x).2 }

theorem Loaded.canonical (h : p.Loaded) : p.Canonical := by
  obtain ⟨O, hbuilt⟩ := h.grown
  have hnone (i : InstId) (hi : p.insts.Valid i) : False := by
    rw [hbuilt.sown.unlinked.insts] at hi
    exact absurd hi (Nat.not_lt_zero _)
  exact
    { tables := (Typing.coherent_start hbuilt.shaped hbuilt.untyped).tables
      bare := fun i _ hi => (hnone i hi).elim
      params := hbuilt.sown.owned.params_iff }

theorem Furnished.canonical (h : p.Furnished) : p.Canonical := by
  induction h with
  | loaded h => exact h.canonical
  | resolved h => exact h.wired.sound (G := p.atlas) |>.tidy.canonical
  | checked h hok => exact (Typing.typed_of_check h hok).sound.tidy.canonical
  | inst _ hargs hbare ih => exact ih.internInst hargs hbare
  | type _ hx ih => exact ih.interned (ih.tables.intern hx)

section Composition

variable (hp : p.Canonical) (hi : p.insts.Valid i) (hs : p.Saturated i)
include hp hi hs

theorem agree_inst (hb : p.insts.Valid b) (hd : (p.insts.get b).target = .cls d)
    (hsb : p.Saturated b) (hj : p.Within (p.classes.get d).params j) :
    p.Agree (do stripInst (← stripInst j b) i) (do stripInst j (← stripInst b i)) := by
  refine .of_works (M := fun k q => ∃ y, q.StrippedInst b j y ∧ q.StrippedInst i y k)
    (N := fun k q => ∃ z, q.insts.Valid z ∧ q.StrippedInst i b z ∧ q.StrippedInst z j k) hp
    (fun q hq hcan => ?_) (fun q hq hcan => ?_) (fun k q r hq hr ⟨y, hy, hk⟩ => ⟨y, ?_, ?_⟩)
    (fun k q r hq hr ⟨z, hvalid, hz, hk⟩ => ⟨z, hr.insts.valid hvalid, ?_, ?_⟩)
    fun k k' q hq hcan ⟨y, hy, hk⟩ ⟨z, _, hz, hk'⟩ => ?_
  · have hb' := hq.insts.valid hb
    refine (stripInst_saturated hcan canonical_lawful hcan hb' (hq.saturated hb hsb)
      (hq.insts.valid hj.valid)).bind fun y r hr hcan' ⟨hy, hstripped⟩ => ?_
    refine (stripInst_saturated hcan' canonical_lawful hcan' ((hq.trans hr).insts.valid hi)
      ((hq.trans hr).saturated hi hs) hy).post fun k r' hr' _ ⟨_, hk⟩ =>
      ⟨y, hstripped.grows hr'.insts hr'.params (hr.insts.valid hb'), hk⟩
  · have hi' := hq.insts.valid hi
    have hb' := hq.insts.valid hb
    refine (stripInst_saturated hcan canonical_lawful hcan hi' (hq.saturated hi hs) hb').bind
      fun z r hr hcan' ⟨hz, hstripped⟩ => ?_
    have hsz := (hstripped.target (by rw [(hq.trans hr).insts.get_eq hb, hd])).2
      ((hq.trans hr).saturated hb hsb)
    refine (stripInst_saturated hcan' canonical_lawful hcan' hz hsz
      ((hq.trans hr).insts.valid hj.valid)).post fun k r' hr' _ ⟨_, hk⟩ =>
      ⟨z, hr'.insts.valid hz, hstripped.grows hr'.insts hr'.params (hr.insts.valid hi'), hk⟩
  · exact hy.grows hr.insts hr.params (hq.insts.valid hb)
  · exact hk.grows hr.insts hr.params (hq.insts.valid hi)
  · exact hz.grows hr.insts hr.params (hq.insts.valid hi)
  · exact hk.grows hr.insts hr.params hvalid
  · refine (hy.between (d := d) hcan hz hk' ?_ ?_).unique hk
    · rw [hq.insts.get_eq hb, hd]
    · rw [hq.classes]
      exact hj.grows hq.insts

theorem agree_path (hc : (p.insts.get i).target = .cls c) (hway : p.Chain c way d)
    (hsat : ∀ j ∈ way, p.Saturated j)
    (ht : Over p.types (p.Within (p.classes.get d).params) (fun _ => True) t) :
    p.Agree (stripPath t way i) (do strip t (← way.foldlM (fun x j => stripInst j x) i)) := by
  have hways {q : Program} (hq : p.Adds q) : ∀ j ∈ way, q.insts.Valid j ∧ q.Saturated j :=
    fun j hj => ⟨hq.insts.valid (hway.valid j hj), hq.saturated (hway.valid j hj) (hsat j hj)⟩
  have hover {q : Program} (hq : p.Adds q) : Over q.types (q.Within (q.classes.get d).params)
      (fun _ => True) t := by
    rw [hq.classes]
    exact ht.mono hq.types (fun _ h => h.grows hq.insts) fun _ => id
  refine .of_works (M := fun u q => q.types.Valid u ∧ q.StrippedAlong (way.reverse ++ [i]) t u)
    (N := fun u q => ∃ y, q.insts.Valid y ∧ q.Arrives i way y ∧ q.Stripped y t u) hp
    (fun q hq hcan => ?_) (fun q hq hcan => ?_) (fun u q r hq hr hu => ⟨hr.types.valid hu.1, ?_⟩)
    (fun u q r hq hr ⟨y, hy, harrives, hu⟩ => ⟨y, hr.insts.valid hy, ?_, ?_⟩)
    fun u u' q hq hcan hu ⟨y, _, harrives, hu'⟩ => ?_
  · exact stripPath_works canonical_lawful (fun _ => id) hcan (hq.types.valid ht.valid) (hways hq)
      (hq.insts.valid hi) (hq.saturated hi hs)
  · refine ((hway.adds hq).arrive_works hcan (fun j hj => (hways hq j hj).2) (hq.insts.valid hi)
      (hq.saturated hi hs)).bind fun y r hr hcan' ⟨hy, harrives⟩ => ?_
    have hqr := hq.trans hr
    have hsy := ((hway.adds hqr).arrives (fun j hj => (hways hqr j hj).2) harrives
      (by rw [hqr.insts.get_eq hi, hc]) (hqr.saturated hi hs)).2
    refine (strip_saturated hcan' canonical_lawful hcan' hy hsy (hqr.types.valid ht.valid)).post
      fun u r' hr' _ ⟨_, hu⟩ => ⟨y, hr'.insts.valid hy, ?_, hu⟩
    exact harrives.adds hr.tables hr' (hqr.insts.valid hi) fun j hj => (hways hqr j hj).1
  · refine hu.2.grows hr.insts hr.params (fun j hj => ?_) hr.types
    rcases mem_append.1 hj with hj | hj
    · exact (hways hq j (mem_reverse.1 hj)).1
    · exact mem_singleton.1 hj ▸ hq.insts.valid hi
  · exact harrives.adds hq.tables hr (hq.insts.valid hi) fun j hj => (hways hq j hj).1
  · exact hu.grows hr.insts hr.params hy hr.types
  · exact hu'.unique ((hway.adds hq).stripped hcan hu.2 harrives (hover hq))

end Composition

/-- To see something from an instance, and that from another one, is to see it from the first
instance as the other one sees it. Over a way, all is seen as from the instance at its end. -/
theorem strip_composes (h : p.Furnished) (hi : p.insts.Valid i)
    (hc : (p.insts.get i).target = .cls c) (hs : p.Saturated i) :
    (∀ b d, (p.insts.get b).target = .cls d → p.Saturated b → p.Within (p.classes.get c).params b →
      (∀ t, Over p.types (p.Within (p.classes.get d).params) (fun _ => True) t →
        p.Agree (do strip (← strip t b) i) (do strip t (← stripInst b i))) ∧
      ∀ j, p.Within (p.classes.get d).params j →
        p.Agree (do stripInst (← stripInst j b) i) (do stripInst j (← stripInst b i))) ∧
    ∀ way d t, p.Chain c way d → (∀ j ∈ way, p.Saturated j) →
      Over p.types (p.Within (p.classes.get d).params) (fun _ => True) t →
      p.Agree (stripPath t way i) (do strip t (← way.foldlM (fun x j => stripInst j x) i)) := by
  have hp := h.canonical
  refine ⟨fun b d hd hsb hb => ⟨fun t ht => ?_, fun j hj => agree_inst hp hi hs hb.valid hd hsb hj⟩,
    fun way d t hway hsat ht => agree_path hp hi hs hc hway hsat ht⟩
  simpa [stripPath] using agree_path hp hi hs hc (.cons hd hb .nil) (forall_mem_singleton.2 hsb) ht

def boxText : String :=
  "class P { } interface I(T) { put(?T x); } class B(U) { +I(U) { put(?U x) { } } } class C { +B(P) }"

theorem furnished_box (h : resolves boxText = true ∧ (ofText boxText).check.result = .ok ()) :
    (ofText boxText).check.program.Furnished := .checked (resolved_ofText boxText h.1) h.2

/-- `?T` as seen from `I(U)` and from `B(P)`. -/
theorem strip_composes_box :
    (ofText boxText).check.program.Agree (do strip (← strip ⟨9⟩ ⟨1⟩) ⟨3⟩)
      (do strip ⟨9⟩ (← stripInst ⟨1⟩ ⟨3⟩)) := by
  have hrun : (resolves boxText = true ∧ (ofText boxText).check.result = .ok ()) ∧
      (ofText boxText).check.program.types.get ⟨9⟩ = .optional ⟨8⟩ 1 ∧
      (ofText boxText).check.program.types.get ⟨8⟩ = .ref .pin ⟨4⟩ ∧
      (∀ i ∈ [0, 1, 3, 4], (ofText boxText).check.program.insts.Valid ⟨i⟩) ∧
      (ofText boxText).check.program.insts.get ⟨0⟩ = ⟨.param ⟨1⟩, []⟩ ∧
      (ofText boxText).check.program.insts.get ⟨1⟩ = ⟨.cls ⟨1⟩, [⟨0⟩]⟩ ∧
      (ofText boxText).check.program.insts.get ⟨3⟩ = ⟨.cls ⟨2⟩, [⟨2⟩]⟩ ∧
      (ofText boxText).check.program.insts.get ⟨4⟩ = ⟨.param ⟨0⟩, []⟩ ∧
      ((ofText boxText).check.program.classes.get ⟨1⟩).params = [⟨0⟩] ∧
      ((ofText boxText).check.program.classes.get ⟨2⟩).params = [⟨1⟩] := by decide +kernel
  have h := furnished_box hrun.1
  replace hrun := hrun.2
  generalize (ofText boxText).check.program = p at h hrun ⊢
  obtain ⟨hoptional, href, hvalid, hget₀, hget₁, hget₃, hget₄, hparams₁, hparams₂⟩ := hrun
  simp only [forall_mem_cons] at hvalid
  obtain ⟨hv₀, hv₁, hv₃, hv₄, _⟩ := hvalid
  have hwithin₀ : p.Within [⟨1⟩] ⟨0⟩ := .node hv₀ (by rw [hget₀]; simp) (by rw [hget₀]; nofun)
  have hwithin₁ : p.Within [⟨1⟩] ⟨1⟩ :=
    .node hv₁ (by rw [hget₁]; nofun) (by rw [hget₁]; exact forall_mem_singleton.2 hwithin₀)
  have hwithin₄ : p.Within [⟨0⟩] ⟨4⟩ := .node hv₄ (by rw [hget₄]; simp) (by rw [hget₄]; nofun)
  have hover₈ : Over p.types (p.Within [⟨0⟩]) (fun _ => True) ⟨8⟩ :=
    .node (valid_of_get href nofun) (by rw [href]; rintro _ ⟨⟩; exact hwithin₄) (fun _ _ => trivial)
    (by rw [href]; nofun)
  have hover₉ : Over p.types (p.Within [⟨0⟩]) (fun _ => True) ⟨9⟩ :=
    .node (valid_of_get hoptional nofun) (by rw [hoptional]; nofun) (fun _ _ => trivial)
      (by rw [hoptional]; exact forall_mem_singleton.2 hover₈)
  have hs₁ : p.Saturated ⟨1⟩ := (saturated_cls hget₁).2 (by rw [hparams₁]; rfl)
  have hs₃ : p.Saturated ⟨3⟩ := (saturated_cls hget₃).2 (by rw [hparams₂]; rfl)
  refine ((strip_composes h hv₃ (congrArg Inst.target hget₃) hs₃).1 ⟨1⟩ ⟨1⟩
    (congrArg Inst.target hget₁) hs₁ ?_).1 ⟨9⟩ ?_
  · rwa [hparams₂]
  · rwa [hparams₁]

section Operations

theorem of_intern {T : TypeTable} {y : Ty} (h : T.intern y = (v, T)) : T.Valid v ∧ T.get v = y := by
  have hvalid := Pool.valid_intern T y
  have hget := Pool.get_intern_self T y
  rw [h] at hvalid hget
  exact ⟨hvalid, hget⟩

theorem intern_eq_of_grows {T : TypeTable} {y : Ty} {z : TypeId × TypeTable} (hz : z = (v, T))
    (h : (T.intern y).2.Grows z.2) : T.intern y = ((T.intern y).1, T) :=
  intern_settled (by rwa [hz] at h)

theorem Retyped.refer {kind : RefKind} (h : p.Replaced s i j)
    (hv : p.types.intern (.ref kind i) = (v, p.types))
    (hw : p.types.intern (.ref kind j) = (w, p.types)) : p.Retyped s v w := by
  obtain ⟨hvalid, hget⟩ := of_intern hv
  obtain ⟨hvalid', hget'⟩ := of_intern hw
  refine .node hvalid hvalid' ?_ ?_ ?_ <;> rw [hget, hget']
  · rfl
  · exact forall_mem_nil _
  · rintro _ _ ⟨⟩ ⟨⟩
    exact h

variable (h : p.Retyped s t u)
include h

theorem Retyped.skeleton : (p.types.get t).skeleton = (p.types.get u).skeleton := by
  cases h
  assumption

theorem Retyped.ref {kind : RefKind} (ht : p.types.get t = .ref kind i) :
    ∃ j, p.types.get u = .ref kind j ∧ p.Replaced s i j := by
  cases h with
  | node _ _ hshape _ hinst =>
    obtain ⟨j, hj⟩ := Ty.ref_of_skeleton hshape.symm ht
    exact ⟨j, hj, hinst i j (by rw [ht]; rfl) (by rw [hj]; rfl)⟩

theorem Retyped.wrapped {depth : Nat} (ht : p.types.get t = .optional v depth) :
    ∃ w, p.types.get u = .optional w depth ∧ p.Retyped s v w := by
  cases h with
  | node _ _ hshape hparts _ =>
    obtain ⟨w, hw⟩ := Ty.optional_of_skeleton hshape.symm ht
    exact ⟨w, hw, hparts (v, w) (by simp [ht, hw, Ty.parts])⟩

theorem Retyped.wrap {depth : Nat} (hv : p.types.intern (.optional t depth) = (v, p.types))
    (hw : p.types.intern (.optional u depth) = (w, p.types)) : p.Retyped s v w := by
  obtain ⟨hvalid, hget⟩ := of_intern hv
  obtain ⟨hvalid', hget'⟩ := of_intern hw
  refine .node hvalid hvalid' ?_ ?_ ?_ <;> rw [hget, hget']
  · rfl
  · exact forall_mem_singleton.2 h
  · nofun

theorem Retyped.optional (hv : optional p.types t = (v, p.types))
    (hw : optional p.types u = (w, p.types)) : p.Retyped s v w := by
  unfold TypeTable.optional at hv hw
  split at hv
  · rename_i hget
    obtain ⟨_, hget', hpart⟩ := h.wrapped hget
    rw [hget'] at hw
    exact hpart.wrap hv hw
  · rename_i hnot
    split at hw
    · rename_i hget
      obtain ⟨_, hget'⟩ := Ty.optional_of_skeleton h.skeleton hget
      exact absurd hget' (hnot _ _)
    · exact h.wrap hv hw

theorem Retyped.unwrap {o o' : Option TypeId} (hv : unwrap p.types t = (o, p.types))
    (hw : unwrap p.types u = (o', p.types)) : Option.Rel (p.Retyped s) o o' := by
  unfold TypeTable.unwrap at hv hw
  split at hv
  · rename_i hget
    obtain ⟨_, hget', hpart⟩ := h.wrapped hget
    rw [hget'] at hw
    cases hv
    cases hw
    exact .some hpart
  · rename_i hone hget
    obtain ⟨_, hget', hpart⟩ := h.wrapped hget
    rw [hget'] at hw
    split at hw
    · rename_i heq
      cases heq
      exact absurd rfl hone
    · rename_i heq
      cases heq
      have hmade {w : TypeId} {depth : Nat} {o : Option TypeId}
        (ho : (some (p.types.intern (.optional w depth)).1,
          (p.types.intern (.optional w depth)).2) = (o, p.types)) : ∃ v, o = some v ∧
        p.types.intern (.optional w depth) = (v, p.types) :=
        ⟨_, (congrArg Prod.fst ho).symm, Prod.ext rfl (congrArg Prod.snd ho :)⟩
      obtain ⟨_, rfl, hinner⟩ := hmade hv
      obtain ⟨_, rfl, hinner'⟩ := hmade hw
      exact .some (hpart.wrap hinner hinner')
    · rename_i hnot
      exact (hnot _ _ rfl).elim
  · rename_i hnot
    have hnone {w : TypeId} {depth : Nat} (hget : p.types.get u = .optional w depth) : False := by
      obtain ⟨_, hget'⟩ := Ty.optional_of_skeleton h.skeleton hget
      exact hnot _ _ hget'
    cases hv
    split at hw
    · exact (hnone (by assumption)).elim
    · exact (hnone (by assumption)).elim
    · cases hw
      exact .none

theorem Retyped.pinned (hv : pinned p.types t = (v, p.types))
    (hw : pinned p.types u = (w, p.types)) : p.Retyped s v w := by
  unfold TypeTable.pinned at hv hw
  split at hv
  · rename_i hget
    obtain ⟨_, hget', hinst⟩ := h.ref hget
    rw [hget'] at hw
    exact .refer hinst hv hw
  · rename_i hget
    obtain ⟨_, hget', hpart⟩ := h.wrapped hget
    rw [hget'] at hw
    dsimp only at hw
    split at hv
    · rename_i i hown
      obtain ⟨j, hown', hinst⟩ := hpart.ref hown
      rw [hown'] at hw
      have hpin := intern_eq_of_grows hv (Pool.grows_intern _ _)
      have hpin' := intern_eq_of_grows hw (Pool.grows_intern _ _)
      dsimp only at hv hw
      rw [hpin] at hv
      rw [hpin'] at hw
      exact (Retyped.refer hinst hpin hpin').wrap hv hw
    · rename_i hnot
      cases hv
      split at hw
      · rename_i hown
        obtain ⟨_, hown'⟩ := Ty.ref_of_skeleton hpart.skeleton hown
        exact absurd hown' (hnot _)
      · cases hw
        exact h
  · rename_i hown hoptional
    cases hv
    split at hw
    · rename_i hget
      obtain ⟨_, hget'⟩ := Ty.ref_of_skeleton h.skeleton hget
      exact absurd hget' (hown _)
    · rename_i hget
      obtain ⟨_, hget'⟩ := Ty.optional_of_skeleton h.skeleton hget
      exact absurd hget' (hoptional _ _)
    · cases hw
      exact h

theorem Retyped.read (hv : read p.types t = (v, p.types)) (hw : read p.types u = (w, p.types)) :
    p.Retyped s v w := by
  unfold TypeTable.read at hv hw
  split at hv
  · rename_i hget
    obtain ⟨_, hget', hinst⟩ := h.ref hget
    rw [hget'] at hw
    have hpin := intern_eq_of_grows hv (optional_interned _ _).grows
    have hpin' := intern_eq_of_grows hw (optional_interned _ _).grows
    dsimp only at hv hw
    rw [hpin] at hv
    rw [hpin'] at hw
    exact (Retyped.refer hinst hpin hpin').optional hv hw
  · rename_i hnot
    split at hw
    · rename_i hget
      obtain ⟨_, hget'⟩ := Ty.ref_of_skeleton h.skeleton hget
      exact absurd hget' (hnot _)
    · exact h.pinned hv hw

end Operations

def onTypes (f : TypeTable → α × TypeTable) : Edit α :=
  modifyGet fun p =>
    let (a, types) := f p.types
    (a, { p with types })

/-- An operation on types that does not care what the class parameters stand for. -/
structure Natural (op : TypeTable → TypeId → Option TypeId × TypeTable) : Prop where
  adds : ∀ {p : Program} {t : TypeId}, p.Canonical → p.types.Valid t →
    p.Adds { p with types := (op p.types t).2 } ∧ ∀ v ∈ (op p.types t).1, (op p.types t).2.Valid v
  settled : ∀ {T U : TypeTable} {n : Nat} {t : TypeId}, TypeTable.Sound T n → T.Valid t →
    (op T t).2.Grows U → op U t = ((op T t).1, U)
  mentions : ∀ {T : TypeTable} {I : InstId → Prop} {C : ColdId → Prop} {t v : TypeId},
    Over T I C t → (op T t).1 = some v → Over (op T t).2 I C v
  retyped : ∀ {p : Program} {s : Substitution} {t u : TypeId} {o o' : Option TypeId},
    p.Retyped s t u → op p.types t = (o, p.types) → op p.types u = (o', p.types) →
    Option.Rel (p.Retyped s) o o'

section Naturality

variable {op : TypeTable → TypeId → Option TypeId × TypeTable} {o o' : Option TypeId}
  (h : Natural op)
include h

theorem Natural.works (hp : p.Canonical) (ht : p.types.Valid t) :
    Works Canonical p (onTypes (op · t))
      (fun o q => (∀ v ∈ o, q.types.Valid v) ∧ op q.types t = (o, q.types)) False := by
  obtain ⟨hadds, hvalid⟩ := h.adds hp ht
  exact ⟨hadds, hp.interned hadds, hvalid, h.settled hp.tables.types ht (.refl _)⟩

theorem Natural.grows (hp : p.Tables) (hq : p.Adds q) (ht : p.types.Valid t)
    (ho : op p.types t = (o, p.types)) : op q.types t = (o, q.types) := by
  have hsettled := h.settled (U := q.types) hp.types ht (by rw [ho]; exact hq.types)
  rwa [ho] at hsettled

theorem Natural.stripped (hu : p.Stripped x t u) (ho : op p.types t = (o, p.types))
    (ho' : op p.types u = (o', p.types)) : Option.Rel (p.Stripped x) o o' := by
  unfold Stripped at hu ⊢
  split at hu
  · exact h.retyped hu ho ho'
  · subst hu
    cases ho.symm.trans ho'
    cases o with
    | none => exact .none
    | some => exact .some rfl

/-- To see the result of an operation from an instance is to do it with what is seen. -/
theorem Natural.agree (hp : p.Canonical) (ht : p.types.Valid t) (hx : p.insts.Valid x)
    (hanswers : p.Answers x t) :
    p.Agree (do (← onTypes (op · t)).mapM (strip · x)) (do onTypes (op · (← strip t x))) := by
  refine .of_works (M := fun o q => ∃ o', (∀ v ∈ o', q.types.Valid v) ∧
    op q.types t = (o', q.types) ∧ Option.Rel (q.Stripped x) o' o)
    (N := fun o q => ∃ u, q.types.Valid u ∧ q.Stripped x t u ∧ op q.types u = (o, q.types)) hp
    (fun q hq hcan => ?_) (fun q hq hcan => ?_) (fun o q r hq hr => ?_) (fun o q r hq hr => ?_)
    fun o o' q _ hcan => ?_
  · refine (h.works hcan (hq.types.valid ht)).bind fun o r hr hcan' ⟨hvalid, ho⟩ => ?_
    cases o with
    | none => exact .pure hr.tables hcan' ⟨none, hvalid, ho, .none⟩
    | some v =>
      have hv : r.Answers x v := fun s hs => by
        have hover := h.mentions ((hq.trans hr).answers hx hanswers s hs) (congrArg Prod.fst ho)
        rwa [ho] at hover
      refine ((strip_works canonical_lawful hcan' (hvalid v rfl)
        ((hq.trans hr).insts.valid hx)).sure (not_not_intro hv)).bind
        fun w r' hr' hcan'' ⟨hw, hstripped⟩ =>
        .pure hr'.tables hcan'' ⟨some v, ?_, h.grows hr.tables hr' ?_ ho, .some hstripped⟩
      · exact fun v hv => hr'.types.valid (hvalid v hv)
      · exact hr.types.valid (hq.types.valid ht)
  · refine ((strip_works canonical_lawful hcan (hq.types.valid ht) (hq.insts.valid hx)).sure
      (not_not_intro (hq.answers hx hanswers))).bind fun u r hr hcan' ⟨hu, hstripped⟩ => ?_
    refine (h.works hcan' hu).post fun o r' hr' _ ⟨_, ho⟩ => ⟨u, hr'.types.valid hu, ?_, ho⟩
    exact hstripped.grows hr'.insts hr'.params ((hq.trans hr).insts.valid hx) hr'.types
  · rintro ⟨o', hvalid, ho, hrel⟩
    refine ⟨o', fun v hv => hr.types.valid (hvalid v hv),
      h.grows hq.tables hr (hq.types.valid ht) ho, ?_⟩
    cases hrel with
    | none => exact .none
    | some hstripped =>
      exact .some (hstripped.grows hr.insts hr.params (hq.insts.valid hx) hr.types)
  · rintro ⟨u, hu, hstripped, ho⟩
    exact ⟨u, hr.types.valid hu, hstripped.grows hr.insts hr.params (hq.insts.valid hx) hr.types,
      h.grows hq.tables hr hu ho⟩
  · rintro ⟨o1, _, ho1, hrel⟩ ⟨u, _, hu, ho'⟩
    have hrel' := h.stripped hu ho1 ho'
    cases hrel with
    | none =>
      cases hrel'
      rfl
    | some hv =>
      cases hrel' with
      | some hv' => rw [hv.unique hv']

end Naturality

section Single

variable {op : TypeTable → TypeId → TypeId × TypeTable}

def always (op : TypeTable → TypeId → TypeId × TypeTable) (T : TypeTable) (t : TypeId) :
    Option TypeId × TypeTable :=
  (some (op T t).1, (op T t).2)

theorem natural_always
    (hyields : ∀ {T : TypeTable} {n : Nat} {t : TypeId}, TypeTable.Sound T n → T.Valid t →
      TypeTable.Yields T n (op T t).1 (op T t).2)
    (hsettled : ∀ {T U : TypeTable} {n : Nat} {t : TypeId}, TypeTable.Sound T n → T.Valid t →
      (op T t).2.Grows U → op U t = ((op T t).1, U))
    (hover : ∀ {T : TypeTable} {I : InstId → Prop} {C : ColdId → Prop} {t : TypeId}, Over T I C t →
      Over (op T t).2 I C (op T t).1)
    (hretyped : ∀ {p : Program} {s : Substitution} {t u v w : TypeId}, p.Retyped s t u →
      op p.types t = (v, p.types) → op p.types u = (w, p.types) → p.Retyped s v w) :
    Natural (always op) where
  adds hp ht := ⟨hp.tables.yields (hyields hp.tables.types ht), fun v hv => by
    cases hv
    exact (hyields hp.tables.types ht).valid⟩
  settled hT ht hU := by
    rw [always, hsettled hT ht hU]
    rfl
  mentions h hv := by
    cases hv
    exact hover h
  retyped h hv hw := by
    have hop {t : TypeId} {o : Option TypeId} {T : TypeTable} (ho : always op T t = (o, T)) :
      ∃ v, o = some v ∧ op T t = (v, T) :=
      ⟨_, (congrArg Prod.fst ho).symm, Prod.ext rfl (congrArg Prod.snd ho :)⟩
    obtain ⟨v, rfl, hv'⟩ := hop hv
    obtain ⟨w, rfl, hw'⟩ := hop hw
    exact .some (hretyped h hv' hw')

end Single

theorem read_settled {T U : TypeTable} {n : Nat} (h : TypeTable.Sound T n) (ht : T.Valid t)
    (hU : (read T t).2.Grows U) : read U t = ((read T t).1, U) := by
  have hT := (read_yields h ht).grows.trans hU
  unfold TypeTable.read at hU ⊢
  rw [hT.get_eq ht]
  split at hU
  · rename_i i _
    have hpin := intern_settled
      ((optional_interned (T.intern (.ref .pin i)).2 (T.intern (.ref .pin i)).1).grows.trans hU)
    simp only [hpin]
    exact optional_settled (Pool.valid_intern _ _) hU
  · exact pinned_settled h ht hU

theorem natural_unwrap : Natural TypeTable.unwrap where
  adds {p t} hp ht := by
    refine ⟨?_, fun v hv => (unwrap_yields hp.tables.types ht hv).valid⟩
    cases hu : (unwrap p.types t).1 with
    | some u => exact hp.tables.yields (unwrap_yields hp.tables.types ht hu)
    | none =>
      rw [unwrap_eq_of_none hu]
      exact .refl hp.tables
  settled _ := unwrap_settled
  mentions := Over.unwrap
  retyped h := h.unwrap

theorem natural_ops :
    ∀ op ∈ [always TypeTable.optional, always TypeTable.read, always TypeTable.pinned,
      TypeTable.unwrap], Natural op := by
  simp only [forall_mem_cons]
  exact ⟨natural_always optional_yields (fun _ => optional_settled) Over.optional Retyped.optional,
    natural_always read_yields read_settled Over.read Retyped.read,
    natural_always pinned_yields pinned_settled Over.pinned Retyped.pinned, natural_unwrap,
    forall_mem_nil _⟩

theorem Within.restrict {a : List ParamId} (h : q.Within a i) (hp : p.Tables)
    (hinsts : p.insts.Grows q.insts) (hi : p.insts.Valid i) : p.Within a i := by
  induction h with
  | node _ hparam _ ih =>
    rw [hinsts.get_eq hi] at hparam ih
    exact .node hi hparam fun j hj => ih j hj (Nat.lt_trans (hp.insts _ j hj) hi)

/-- What could be seen in the end has all its arguments from the start. -/
theorem Adds.answers_of (h : p.Adds q) (hp : p.Tables) (ht : p.types.Valid t) (hx : p.insts.Valid x)
    (hq : q.Answers x t) : p.Answers x t := by
  intro s hs
  have hover := (hq s (by rwa [substitution?_of_grows h.insts hx])).restrict h.types hp.types ht
  refine (hover.and (hp.types.over (I := p.insts.Valid) (fun _ => id) ht)).mono (.refl _)
    (fun i ⟨hi, hvalid⟩ => ?_) fun _ _ => trivial
  have hanswered : p.answered s = q.answered s := by rw [answered, ← h.params, answered]
  rw [hanswered]
  exact hi.restrict hp h.insts hvalid

/-- To be seen from an instance respects the operations on types: they can be done before or after.
From within a class, all types are seen as they are. -/
theorem strip_commutes (h : p.Furnished) (ht : p.types.Valid t) :
    (∀ x u q, p.insts.Valid x → strip t x p = .ok u q →
      isTemporary q.types u = isTemporary p.types t ∧
      ∀ op ∈ [always TypeTable.optional, always TypeTable.read, always TypeTable.pinned,
          TypeTable.unwrap],
        p.Agree (do (← onTypes (op · t)).mapM (strip · x)) (do onTypes (op · (← strip t x)))) ∧
    ∀ c, p.classes.Valid c →
      strip t (p.thisInst c).1 (p.thisInst c).2 = .ok t (p.thisInst c).2 := by
  have hp := h.canonical
  refine ⟨fun x u q hx hrun => ?_, fun c hc => ?_⟩
  · have hworks := strip_works canonical_lawful hp ht hx
    rw [Works, Yields, hrun] at hworks
    obtain ⟨hadds, hcan, _, hstripped⟩ := hworks
    have hanswers := hadds.answers_of hp.tables ht hx (hstripped.answers hcan)
    refine ⟨?_, fun op hop => (natural_ops op hop).agree hp ht hx hanswers⟩
    rw [← isTemporary_of_grows hp.tables.types hadds.types ht]
    unfold Stripped at hstripped
    split at hstripped
    · exact hstripped.isTemporary
    · rw [hstripped]
  · obtain ⟨hcan, hthis⟩ := thisInst_keeps canonical_lawful hp hp hc
    have hadds := (thisInst_adds hp.tables c).1
    have hseen := hthis.seen hcan (hadds.types.valid ht)
    exact (hseen.replays hcan (hadds.types.valid ht)).1

/-- `?*U` as seen from `B(P)` and from within `B`. -/
theorem strip_commutes_box :
    (ofText boxText).check.program.Agree
      (do (← onTypes (always TypeTable.pinned · ⟨12⟩)).mapM (strip · ⟨3⟩))
      (do onTypes (always TypeTable.pinned · (← strip ⟨12⟩ ⟨3⟩))) ∧
    strip ⟨12⟩ ((ofText boxText).check.program.thisInst ⟨2⟩).1
        ((ofText boxText).check.program.thisInst ⟨2⟩).2 =
      .ok ⟨12⟩ ((ofText boxText).check.program.thisInst ⟨2⟩).2 := by
  have hrun : (resolves boxText = true ∧ (ofText boxText).check.result = .ok ()) ∧
      (ofText boxText).check.program.types.get ⟨12⟩ = .optional ⟨11⟩ 1 ∧
      (ofText boxText).check.program.insts.Valid ⟨3⟩ ∧
      ((strip ⟨12⟩ ⟨3⟩).run' (ofText boxText).check.program).isSome ∧
      (ofText boxText).check.program.classes.Valid ⟨2⟩ := by
    decide +kernel
  have h := furnished_box hrun.1
  replace hrun := hrun.2
  generalize (ofText boxText).check.program = p at h hrun ⊢
  obtain ⟨ht, hx, hstrip, hc⟩ := hrun
  obtain ⟨hseen, hthis⟩ := strip_commutes h (valid_of_get ht nofun)
  refine ⟨?_, hthis ⟨2⟩ hc⟩
  obtain ⟨u, hstrip⟩ := Option.isSome_iff_exists.1 hstrip
  obtain ⟨q, hu⟩ := ok_of_run' hstrip
  exact (hseen ⟨3⟩ u q hx hu).2 (always TypeTable.pinned) (by simp)

end Program

end ClassLang
