import ClassLang.Proofs.Typing.Sound.Logic

namespace ClassLang

open List Program TypeTable

variable {p : Program} {o : Option ClassId} {form : Form}

theorem Form.isReform_of_isType (h : form.isType) : Typing.isReform form = false := by
  cases form <;> first | rfl | cases h

theorem Program.places_of_isType (p : Program) (z : Setting) (i : NodeId) (h : form.isType) :
    p.places z i form = form.children.map (z, ·) := by
  cases form <;> first | rfl | cases h

theorem Program.Worked.kept {p0 : Program} {i : NodeId} (hform : p.form i = p0.form i)
    (hre : Typing.isReform (p0.form i) = false)
    (hleft : ∀ target result, p0.form i = .leave target result → p.Leaves target result)
    (hbounded : ¬ p0.AsType i → ∀ name c args x, p0.form i = .classRef name (some (.cls c)) args
      (some x) → p.InBounds c x) : p0.Worked p o i where
  left := hleft
  covered h := by
    rw [hre] at h
    cases h
  bounded := hbounded
  stored := by
    rw [hform]
    cases hf : p0.form i <;> first | trivial | (rw [hf] at hre; cases hre)
  given := by
    rw [hform]
    cases hf : p0.form i <;> first | exact .nil | (rw [hf] at hre; cases hre)
  rebound := by
    cases hf : p0.form i <;> first | trivial | (rw [hf] at hre; cases hre)

/-- If no placeholder gets elsewhere, `cold` was made where the parameters of `o` can be mentioned.
-/
def Program.Awaited (p0 : Program) (G : Atlas) (p : Program) (o : Option ClassId) (cold : ColdId) :
    Prop :=
  p0.Sealed G p → p.Waiting (p0.formals o) cold

namespace Typing

variable {p0 q : Program} {G : Atlas} {c : Context} {s : PassState} {r : Region} {i : NodeId}
  {t : TypeId} {n k : Nat} {z : Setting}

structure Spells (p q : Program) : Prop where
  methods : q.methods = p.methods
  functions : q.functions = p.functions

/-- What the typing of a type expression does: nodes from `k` on are left as they are, too. -/
structure TypeStep (k : Nat) (p q : Program) : Prop extends Spells p q where
  forms : ∀ j, q.form j = p.form j
  above : ∀ j, k ≤ j.index → q.slot j = p.slot j

theorem Spells.refl (p : Program) : Spells p p := ⟨rfl, rfl⟩

theorem Spells.trans {r : Program} (h : Spells p q) (h' : Spells q r) : Spells p r :=
  ⟨h'.methods.trans h.methods, h'.functions.trans h.functions⟩

theorem Spells.adds {r : Program} (h : Spells p q) (h' : q.Adds r) : Spells p r :=
  h.trans ⟨(congrArg Program.methods h'.rest :), (congrArg Program.functions h'.rest :)⟩

namespace TypeStep

theorem refl (p : Program) : TypeStep k p p := ⟨.refl p, fun _ => rfl, fun _ _ => rfl⟩

theorem trans {r : Program} (h : TypeStep k p q) (h' : TypeStep k q r) : TypeStep k p r :=
  ⟨h.toSpells.trans h'.toSpells, fun j => (h'.forms j).trans (h.forms j), fun j hj =>
    (h'.above j hj).trans (h.above j hj)⟩

theorem mono (h : TypeStep k p q) {k' : Nat} (hk : k ≤ k') : TypeStep k' p q :=
  { h with above := fun j hj => h.above j (Nat.le_trans hk hj) }

theorem adds {r : Program} (h : TypeStep k p q) (h' : q.Adds r) : TypeStep k p r := by
  have hnodes : r.nodes = q.nodes := (congrArg Program.nodes h'.rest :)
  refine ⟨h.toSpells.adds h', fun j => ?_, fun j hj => ?_⟩
  · rw [form, hnodes]
    exact h.forms j
  · rw [slot, hnodes]
    exact h.above j hj

end TypeStep

theorem closed_of_children (hlet : ∀ v body, form ≠ .letIn v body)
    (hlambda : ∀ l, form ≠ .lambda l) (hc : ∀ c ∈ form.children, p.Known c) : p.Closed form where
  children := hc
  init v body hf := absurd hf (hlet v body)
  annotated l hf := absurd hf (hlambda l)
  waiting l hf := absurd hf (hlambda l)

theorem closed_of_isType (h : form.isType) (hc : ∀ c ∈ form.children, p.Known c) : p.Closed form :=
  closed_of_children (by rintro v body rfl; cases h) (by rintro l rfl; cases h) hc

theorem Step.record (hs : Inv p0 s) (hi : s.program.nodes.Valid i) (hn : ¬ s.program.Known i)
    (htype : (s.program.form i).isType) (ht : s.program.types.Valid t)
    (hc : ∀ c ∈ (s.program.form i).children, s.program.Known c)
    (hr : s.program.Rule t (s.program.form i)) : Step p0 {} s (s.after (.node i (.fixed t))) := by
  have hk : s.program.Keeps (s.after (.node i (.fixed t))).program :=
    keeps_setSlot hs.coherent fun u hu => absurd ⟨u, hu⟩ hn
  have hdone : (s.after (.node i (.fixed t))).program.Done i := by
    refine ⟨t, (slot_setSlot s.program i (.fixed t) i).trans (if_pos ⟨rfl, hi⟩), ?_, ?_, ?_⟩ <;>
      rw [show (s.after (.node i (.fixed t))).program.form i = _ from form_setSlot s.program i
        (.fixed t) i]
    · exact hk.closed (closed_of_isType htype hc)
    · exact hk.rule hs.coherent ht hr
    · cases hform : s.program.form i <;> first | trivial | (rw [hform] at htype; cases htype)
  exact .fixNode hs ht (fun u hu => absurd ⟨u, hu⟩ hn) (fun _ _ => hdone) fun _ _ =>
    .inr ⟨htype, hdone⟩

section TypeExpr

theorem finished_of_isType (hform : p.form i = p0.form i) (htype : (p0.form i).isType)
    (has : p0.AsType i) (hdecl : ∀ t, p.slot i = .fixed t → Declarable p.types t) :
    p0.Finished p o i where
  toWorked := by
    refine .kept hform (Form.isReform_of_isType htype) (fun _ _ h => ?_) fun hvalue =>
      absurd has hvalue
    rw [h] at htype
    cases htype
  verdict t ht := by
    refine ⟨fun _ => hdecl t ht, fun _ _ h => ?_, fun _ h => ?_⟩
    all_goals
      rw [h] at htype
      cases htype
  looped body h := by
    rw [h] at htype
    cases htype

/-- What a type expression denotes: something that can be mentioned where it stands, and that can be
declared. -/
structure Denotes (p0 : Program) (G : Atlas) (r : Region) (p : Program) (i : NodeId) (t : TypeId) :
    Prop where
  slot : p.slot i = .fixed t
  said : p0.Says G p r t
  declarable : (p0.form i).isType → Declarable p.types t

/-- The form of a type expression is the one that names were bound in. -/
theorem form_of_isType (hd : p0.Sound G p) (hi : G r i) (htype : (p.form i).isType) :
    p.form i = p0.form i := by
  cases hd.forms r i hi with
  | same hform => exact hform
  | other _ hre _ _ =>
    rw [Form.isReform_of_isType htype] at hre
    cases hre

theorem record_walks (hs : Ready p0 G c s) (hi : G r i) (hn : ¬ s.program.Known i)
    (htype : (s.program.form i).isType) (has : p0.AsType i) (hdecl : Declarable s.program.types t)
    (hsaid : p0.Says G s.program r t) (hc : ∀ c ∈ (s.program.form i).children, s.program.Known c)
    (hr : s.program.Rule t (s.program.form i)) :
    Goes p0 G n {} c s (do
      write (.node i (.fixed t))
      pure t) fun t s' => TypeStep (i.index + 1) s.program s'.program ∧
        Denotes p0 G r s'.program i t := by
  have hvalid := hs.charted.valid r i hi
  have hform := form_setSlot s.program i (.fixed t)
  have hslot := slot_setSlot s.program i (.fixed t)
  have hst : Step p0 {} s (s.after (.node i (.fixed t))) :=
    .record hs.inv (hs.sound.nodes i hvalid) hn htype hdecl.plain.valid hc hr
  have hsame := form_of_isType hs.sound hi htype
  refine Walks.bind (.write hs hst
    (hs.sound.fixSlot hs.charted hs.coherent hn (fun _ => ⟨r, hi⟩) (fun _ _ => ?_)
      (fun r' hi' => ?_) fun _ _ hv => absurd hvalid hv)) fun _ s1 _ hs1 hs' => .pure hs1 ?_
  · refine finished_of_isType ((hform i).trans hsame) (hsame ▸ htype) has fun u hu => ?_
    rw [hslot] at hu
    split at hu
    · cases hu
      exact hdecl
    · exact absurd ⟨u, hu⟩ hn
  · cases hs.charted.unique _ _ _ hi hi'
    exact hsaid
  · subst hs'
    refine ⟨⟨⟨rfl, rfl⟩, hform, fun j hj => (hslot j).trans (if_neg ?_)⟩,
      ⟨(hslot i).trans (if_pos ⟨rfl, hs.sound.nodes i hvalid⟩), hsaid.step hs.inv hst,
        fun _ => hdecl⟩⟩
    rintro ⟨rfl, _⟩
    exact Nat.not_succ_le_self _ hj

/-- What the typing of a type expression `i` of the form `form` relies on: `find` types its parts,
and a type that fits the form can be recorded. Neither does anything to nodes from `i` on. -/
structure Expresses (p0 : Program) (G : Atlas) (n : Nat) (c : Context) (s : PassState) (r : Region)
    (i : NodeId) (find : NodeId → Check TypeId) (form : Form) : Prop where
  part : ∀ {s1 : PassState} {x : NodeId}, Ready p0 G c s1 →
    TypeStep i.index s.program s1.program → x ∈ form.children →
    Goes p0 G n {} c s1 (find x) fun t s' =>
      TypeStep i.index s.program s'.program ∧ Denotes p0 G r s'.program x t
  record : ∀ {s1 : PassState} {t : TypeId}, Ready p0 G c s1 →
    TypeStep i.index s.program s1.program → p0.Says G s1.program r t →
    Declarable s1.program.types t → (∀ x ∈ form.children, s1.program.Known x) →
    s1.program.Rule t form →
    Goes p0 G n {} c s1 (do
      write (.node i (.fixed t))
      pure t) fun t s' =>
        TypeStep (i.index + 1) s.program s'.program ∧ Denotes p0 G r s'.program i t

namespace Expresses

variable {find : NodeId → Check TypeId} (hs : Ready p0 G c s)
include hs

theorem of_isType (hscoped : p0.Scoped (G r) z i) (has : p0.AsType i)
    (hn : ¬ s.program.Known i) (htype : (s.program.form i).isType)
    (hfind : ∀ {s : PassState} {x : NodeId}, Ready p0 G c s → p0.Scoped (G r) z x → p0.AsType x →
      Goes p0 G n {} c s (find x) fun t s' =>
        TypeStep (x.index + 1) s.program s'.program ∧ Denotes p0 G r s'.program x t) :
    Expresses p0 G n c s r i find (s.program.form i) where
  part := by
    intro s1 x hs1 hty hx
    have hlt := hs.coherent.ordered i htype x hx
    have hform := form_of_isType hs.sound hscoped.mem htype
    obtain ⟨_, _, hparts⟩ := hscoped
    rw [hform] at htype hx
    rw [places_of_isType p0 z i htype] at hparts
    exact (hfind hs1 (hparts (z, x) (mem_map_of_mem hx)) (.part has hx)).post
      fun t s' _ _ ⟨hstep, ht⟩ => ⟨hty.trans (hstep.mono hlt), ht⟩
  record := by
    intro s1 t hs1 hty hsaid hdecl hc hr
    rw [← hty.forms i] at htype hc hr
    refine (record_walks hs1 hscoped.mem ?_ htype has hdecl hsaid hc hr).post
      fun t s' _ _ ⟨hstep, ht⟩ => ⟨(hty.mono (Nat.le_succ _)).trans hstep, ht⟩
    rintro ⟨u, hu⟩
    rw [hty.above i (Nat.le_refl _)] at hu
    exact hn ⟨u, hu⟩

theorem classRef {name : NameId} {target : Option Target} {args : List NodeId} {inst : InstId}
    (h : Expresses p0 G n c s r i find (.classRef name target args (some inst)))
    (hwithin : p0.Within (p0.formals r.owner) inst) :
    Goes p0 G n {} c s (do
      args.forM fun a => discard (find a)
      let t ← intern (.ref .own inst)
      write (.node i (.fixed t))
      pure t) fun t s' =>
        TypeStep (i.index + 1) s.program s'.program ∧ Denotes p0 G r s'.program i t := by
  refine Walks.bind (Walks.forEach (I := fun done s' => TypeStep i.index s.program s'.program ∧
    ∀ x ∈ done, s'.program.Known x) hs ⟨.refl _, forall_mem_nil _⟩
    fun done x rest s1 hargs _ hs1 ⟨hty, hdone⟩ => ?_) fun _ s1 _ hs1 ⟨hty, hargs⟩ => ?_
  · exact .discard ((h.part hs1 hty (hargs ▸ mem_append_right _ mem_cons_self)).post
      fun t s2 hst2 _ ⟨hty2, ht⟩ => ⟨hty2, forall_mem_append.2
        ⟨fun y hy => hst2.keeps.known (hdone y hy), forall_mem_singleton.2 ⟨t, ht.slot⟩⟩⟩)
  · have hvalid := (hwithin.grows hs1.sound.grows).valid
    refine Walks.bind (.intern hs1 (holds_ref.2 hvalid) nofun nofun)
      fun t s2 hst2 hs2 ⟨hadds, ht, hget⟩ => ?_
    exact h.record hs2 (hty.adds hadds)
      (.makeRef ht hget fun _ => hwithin.grows hs2.sound.grows) (.ref ht hget nofun)
      (fun x hx => hst2.keeps.known (hargs x hx)) trivial

theorem toWeak {inner : NodeId} {loc : Location} (h : Expresses p0 G n c s r i find (.toWeak inner))
    (hloc : p0.Spot loc) :
    Goes p0 G n {} c s (do
      let t ← find inner
      match ← ref? t with
      | some (_, inst) =>
        let t ← intern (.ref .weak inst)
        write (.node i (.fixed t))
        pure t
      | none =>
        let t ← failAt (.mismatch .classRef t) loc
        write (.node i (.fixed t))
        pure t) fun t s' =>
        TypeStep (i.index + 1) s.program s'.program ∧ Denotes p0 G r s'.program i t := by
  refine (h.part hs (.refl _) mem_cons_self).bind fun t s1 _ hs1 ⟨hty, ht⟩ => .ref? ?_
  split
  · rename_i kind inst href
    have hvalid := hs1.valid_ref (hs1.valid_slot ht.slot) href
    refine Walks.bind (.intern hs1 (holds_ref.2 hvalid) nofun nofun)
      fun u s2 hst2 hs2 ⟨hadds, hu, hget⟩ => ?_
    refine h.record hs2 (hty.adds hadds) (.makeRef hu hget fun hsealed => ?_) (.ref hu hget nofun)
      (forall_mem_singleton.2 ⟨t, hst2.keeps.slots _ _ ht.slot⟩) trivial
    exact (ht.said.ref href (hsealed.back hst2.keeps hs1.coherent)).grows hst2.keeps.insts
  · exact .fail hs1 (by nofun) hloc

theorem noneOf {inner : NodeId} (h : Expresses p0 G n c s r i find (.noneOf inner))
    (hinner : (p0.form inner).isType) :
    Goes p0 G n {} c s (do
      let t ← find inner
      let t ← onTypes (·.optional t)
      write (.node i (.fixed t))
      pure t) fun t s' =>
        TypeStep (i.index + 1) s.program s'.program ∧ Denotes p0 G r s'.program i t := by
  refine (h.part hs (.refl _) mem_cons_self).bind fun t s1 _ hs1 ⟨hty, ht⟩ => ?_
  refine (Walks.optional hs1 (hs1.valid_slot ht.slot) ht.said).bind
    fun u s2 hst2 hs2 ⟨hadds, _, hopt, hsaid⟩ => ?_
  have ht2 := hst2.keeps.slots _ _ ht.slot
  refine h.record hs2 (hty.adds hadds) hsaid (.optional ?_ hopt) (forall_mem_singleton.2 ⟨t, ht2⟩)
    ⟨t, ht2, hopt⟩
  exact (ht.declarable hinner).grows hs1.coherent.tables.types hst2.keeps.types

theorem arrayOf {element : NodeId} (h : Expresses p0 G n c s r i find (.arrayOf element))
    (helement : (p0.form element).isType) :
    Goes p0 G n {} c s (do
      let t ← find element
      let t ← intern (.array t)
      write (.node i (.fixed t))
      pure t) fun t s' =>
        TypeStep (i.index + 1) s.program s'.program ∧ Denotes p0 G r s'.program i t := by
  refine (h.part hs (.refl _) mem_cons_self).bind fun t s1 _ hs1 ⟨hty, ht⟩ => ?_
  have hdecl := ht.declarable helement
  refine Walks.bind (.intern hs1 (holds_array.2 hdecl.plain.valid) (fun u hu => ?_) nofun)
    fun u s2 hst2 hs2 ⟨hadds, hu, hget⟩ => ?_
  · cases hu
    exact hdecl.lasting
  · have hplain := forall_mem_singleton.2 (Over.grows hdecl.plain hst2.keeps.types)
    exact h.record hs2 (hty.adds hadds)
      (.make hu hget rfl nofun (forall_mem_singleton.2 (ht.said.step hs1.inv hst2)))
      (.make hu hget nofun nofun nofun hplain)
      (forall_mem_singleton.2 ⟨t, hst2.keeps.slots _ _ ht.slot⟩) trivial

section Signatures

variable {params : List NodeId} {result : Option NodeId}
  (h : Expresses p0 G n c s r i find (.signature params result))
include h

omit hs in
/-- In a signature, references are pinned. -/
theorem signaturePart {s1 : PassState} {x : NodeId} (hs1 : Ready p0 G c s1)
    (hty : TypeStep i.index s.program s1.program)
    (hx : x ∈ (Form.signature params result).children) (htype : (p0.form x).isType) :
    Goes p0 G n {} c s1 (find x >>= fun t => onTypes (·.pinned t)) fun t s' =>
        TypeStep i.index s.program s'.program ∧ Plain s'.program.types t ∧
          p0.Says G s'.program r t ∧ s'.program.Known x := by
  refine (h.part hs1 hty hx).bind fun t s2 _ hs2 ⟨hty, ht⟩ => ?_
  refine (Walks.pinned hs2 (hs2.valid_slot ht.slot) ht.said).post
    fun u s3 hst3 _ ⟨hadds, _, hpinned, hsaid⟩ =>
      ⟨hty.adds hadds, ?_, hsaid, t, hst3.keeps.slots _ _ ht.slot⟩
  have hover := Over.pinned (Over.grows (ht.declarable htype).plain hst3.keeps.types)
  rwa [hpinned] at hover

omit hs in
theorem signatureRecord {s1 s2 : PassState} {ts : List TypeId} {u : TypeId} (hs1 : Ready p0 G c s1)
    (hts : Forall₂ (fun x t => Plain s1.program.types t ∧ p0.Says G s1.program r t ∧
      s1.program.Known x) params ts)
    (hst2 : Step p0 {} s1 s2) (hs2 : Ready p0 G c s2)
    (hty2 : TypeStep i.index s.program s2.program) (hu : Plain s2.program.types u)
    (hsaid : p0.Says G s2.program r u) (hx : ∀ x ∈ result, s2.program.Known x) :
    Goes p0 G n {} c s2 (do
      let t ← intern (.lambda ts u)
      write (.node i (.fixed t))
      pure t) fun t s' =>
        TypeStep (i.index + 1) s.program s'.program ∧ Denotes p0 G r s'.program i t := by
  have hparts : ∀ t ∈ ts ++ [u], Plain s2.program.types t ∧ p0.Says G s2.program r t :=
    forall_mem_append.2 ⟨forall_of_forall₂ hts fun _ t ht =>
      ⟨Over.grows ht.1 hst2.keeps.types, ht.2.1.step hs1.inv hst2⟩,
      forall_mem_singleton.2 ⟨hu, hsaid⟩⟩
  have hvalid (t : TypeId) (ht : t ∈ ts) := (hparts t (mem_append_left _ ht)).1.valid
  refine Walks.bind (.intern hs2 (holds_lambda.2 ⟨hvalid, hu.valid⟩) nofun nofun)
    fun t s3 hst3 hs3 ⟨hadds, ht, hget⟩ => ?_
  refine h.record hs3 (hty2.adds hadds)
    (.make ht hget rfl nofun fun t ht => (hparts t ht).2.step hs2.inv hst3)
    (.make ht hget nofun nofun nofun fun t ht => Over.grows (hparts t ht).1 hst3.keeps.types)
    (fun x hx' => hst3.keeps.known ?_) trivial
  rcases mem_append.1 hx' with hx' | hx'
  · exact hst2.keeps.known (forall_of_forall₂ hts.flip (fun _ _ h => h.2.2) x hx')
  · exact hx x (Option.mem_toList.1 hx')

theorem signature (htypes : ∀ x ∈ params ++ result.toList, (p0.form x).isType) :
    Goes p0 G n {} c s (do
      let ts ← params.mapM fun x => find x >>= fun t => onTypes (·.pinned t)
      let u ←
        match result with
        | some x => find x >>= fun t => onTypes (·.pinned t)
        | none => pure TypeId.void
      let t ← intern (.lambda ts u)
      write (.node i (.fixed t))
      pure t) fun t s' =>
        TypeStep (i.index + 1) s.program s'.program ∧ Denotes p0 G r s'.program i t := by
  refine (Walks.mapKeeping (P := fun x t s => Plain s.program.types t ∧ p0.Says G s.program r t ∧
    s.program.Known x) hs (.refl _)
    (fun _ _ _ _ hs h ht =>
      ⟨Over.grows ht.1 h.keeps.types, ht.2.1.step hs.inv h, h.keeps.known ht.2.2⟩)
    fun x hx s1 _ hs1 hty => h.signaturePart hs1 hty (mem_append_left _ hx)
      (htypes x (mem_append_left _ hx))).bind fun ts s1 _ hs1 ⟨hty1, hts⟩ => ?_
  cases result with
  | some x =>
    have hx : x ∈ (Form.signature params (some x)).children := mem_append_right _ mem_cons_self
    exact (h.signaturePart hs1 hty1 hx (htypes x hx)).bind
      fun t s2 hst2 hs2 ⟨hty2, ht, hsaid, hx⟩ =>
        h.signatureRecord hs1 hts hst2 hs2 hty2 ht hsaid fun y hy => Option.some.inj hy ▸ hx
  | none =>
    exact h.signatureRecord hs1 hts (.refl hs1.inv) hs1 hty1
      (.basic hs1.coherent.tables.types (by decide)) (.basic hs1.coherent (by decide)) nofun

end Signatures

end Expresses

section

variable (hs : Ready p0 G c s) (hscoped : p0.Scoped (G r) z i) (howner : z.owner = r.owner)
  (has : p0.AsType i)
include hs hscoped howner has

theorem typeExprUpTo_walks : Goes p0 G n {} c s (typeExprUpTo k i) fun t s' =>
    TypeStep (i.index + 1) s.program s'.program ∧ Denotes p0 G r s'.program i t := by
  induction k generalizing s i with
  | zero => exact .locOf (.fail hs (by nofun) (hs.spot_of_mem hscoped.mem))
  | succ k ih =>
    have hi := hscoped.mem
    have hloc := hs.spot_of_mem hi
    unfold typeExprUpTo
    refine .program ?_
    dsimp only
    split
    · rename_i t ht
      have ht := Slot.fixed?_eq_some.1 ht
      exact .pure hs ⟨.refl _, ht, hs.sound.tame.nodes r i t hi ht, fun htype =>
        ((hs.sound.finished r i hi ⟨t, ht⟩).verdict t ht).declarable htype⟩
    · rename_i hn
      have hunknown : ¬ s.program.Known i := fun ⟨u, hu⟩ => hn u (Slot.fixed?_eq_some.2 hu)
      have hexpr {form : Form} (hform : s.program.form i = form) (htype : form.isType) :
          Expresses p0 G n c s r i (typeExprUpTo k) form ∧ p0.Bound z form := by
        subst hform
        have hsame := form_of_isType hs.sound hi htype
        exact ⟨.of_isType hs hscoped has hunknown htype fun hs hx has => ih hs hx has,
          hsame ▸ hscoped.bound⟩
      have htypes := hs.coherent.tables.types
      cases hform : (s.program.nodes.get i).form
      case int | double | bool =>
        exact (hexpr hform rfl).1.record hs (.refl _) (.basic hs.coherent (by decide))
          (.basic htypes (by decide) (by decide)) nofun trivial
      case classRef name target args inst =>
        cases inst with
        | none => exact .fail hs (by nofun) hloc
        | some inst =>
          obtain ⟨h, x, hx, _, _, hwithin⟩ := hexpr hform rfl
          cases hx
          exact h.classRef hs (howner ▸ hwithin)
      case toWeak inner => exact (hexpr hform rfl).1.toWeak hs hloc
      case noneOf inner => exact (hexpr hform rfl).1.noneOf hs (hexpr hform rfl).2
      case arrayOf element => exact (hexpr hform rfl).1.arrayOf hs (hexpr hform rfl).2
      case signature params result => exact (hexpr hform rfl).1.signature hs (hexpr hform rfl).2
      all_goals exact .fail hs (by nofun) hloc

theorem typeExpr_walks : Goes p0 G n {} c s (typeExpr i) fun t s' =>
    TypeStep (i.index + 1) s.program s'.program ∧ Denotes p0 G r s'.program i t :=
  .program (typeExprUpTo_walks hs hscoped howner has)

theorem signatureType_walks :
    Goes p0 G n {} c s (signatureType i) fun t s' => Spells s.program s'.program ∧
      s'.program.types.Valid t ∧ p0.Says G s'.program r t ∧ ∃ u, s'.program.slot i = .fixed u ∧
      s'.program.types.pinned u = (t, s'.program.types) := by
  refine (typeExpr_walks hs hscoped howner has).bind fun t s1 _ hs1 ⟨hty, ht⟩ => ?_
  exact (Walks.pinned hs1 (hs1.valid_slot ht.slot) ht.said).post
    fun u s2 hst2 _ ⟨hadds, hu, hpin, hsaid⟩ =>
    ⟨hty.toSpells.adds hadds, hu, hsaid, t, hst2.keeps.slots _ _ ht.slot, hpin⟩

end

end TypeExpr

def Settles (p : Program) (actual target : TypeId) (how : Storing) : Prop :=
  Plain p.types target → p.Enters actual target how

def Assigns (p0 : Program) (G : Atlas) (n : Nat) (c : Context) (s : PassState)
    (store store' : TypeId → TypeId → Location → Check Storing) : Prop :=
  ∀ {actual target loc} {o : Option ClassId}, p0.Spot loc → Ready p0 G c s →
    s.program.types.Valid actual → s.program.types.Valid target → Said p0 G o actual s →
    Said p0 G o target s → Walks p0 G n {} c s (store actual target loc) (store' actual target loc)
    fun how s' => (∀ inst, how = .weaken inst → s'.program.types.get target = .ref .weak inst) ∧
    Settles s'.program actual target how

/-- What the parts of the checker that call each other give, so that each can rely on the others.
Two ways to go on do the same as long as at most `n` is left to do, and to store a value as long as
less is. -/
structure Engine.Good (p0 : Program) (G : Atlas) (n : Nat) (e e' : Engine) : Prop where
  find : ∀ {c s i} {z : Setting}, Ready p0 G c s → At p0 G s.program c z →
    p0.ScopedAt G c.chain z i → Walks p0 G n {} c s (e.find i) (e'.find i) fun t s' =>
    s'.program.slot i = .fixed t ∧ Said p0 G z.owner t s'
  fix : ∀ {c s cold params loc} {o : Option ClassId}, p0.Spot loc → Ready p0 G c s →
    s.program.colds.Valid cold → (∀ t ∈ params, s.program.types.Valid t) →
    p0.Awaited G s.program o cold → (∀ t ∈ params, Said p0 G o t s) →
    Walks p0 G n { colds := [cold] } c s (e.fix cold params loc) (e'.fix cold params loc)
    fun t s' => (s'.program.colds.lookup cold).signature = some t ∧ Said p0 G o t s'
  assign : ∀ {j c s}, j < n → Assigns p0 G j c s e.assign e'.assign

variable {e e' : Engine}

theorem Engine.Good.sign {cold : ColdId} {params : List TypeId} (he : e.Good p0 G n e')
    (hs : Ready p0 G c s) (hc : s.program.colds.Valid cold)
    (hp : ∀ t ∈ params, s.program.types.Valid t) (hwaits : p0.Awaited G s.program o cold)
    (hps : ∀ t ∈ params, Said p0 G o t s) (hnone : (s.program.colds.lookup cold).signature = none)
    {loc : Location} (hloc : p0.Spot loc) :
    Walks p0 G n {} c s (e.fix cold params loc) (e'.fix cold params loc) fun t s' =>
      (s'.program.colds.lookup cold).signature = some t ∧ Said p0 G o t s' :=
  (he.fix hloc hs hc hp hwaits hps).imp fun _ _ h _ ht => ⟨h.unsigned hnone, ht⟩

/-- Where less is left to do, a value can be stored. -/
theorem Engine.Good.store (he : e.Good p0 G n e') (h : p0.remaining s.program < n) :
    Assigns p0 G n c s e.assign e'.assign :=
  fun hloc hs ha ht hsa hst _ => he.assign h hloc hs ha ht hsa hst (Nat.le_refl _)

section Variables

variable {v : VarId} {d : NodeId}

/-- Except for bindings, there is one type that a variable can have. -/
theorem VarTyped.unique {u : TypeId} (hinit : (p.vars.get v).init = some d)
    (hrole : (p.vars.get v).role ≠ .binding) (h : p.VarTyped v t) (h' : p.VarTyped v u) :
    u = t := by
  unfold Program.VarTyped at h h'
  rw [hinit] at h h'
  cases hr : (p.vars.get v).role with
  | param =>
    rw [hr] at h h'
    obtain ⟨x, hx, ht⟩ := h
    obtain ⟨y, hy, hu⟩ := h'
    cases hx.symm.trans hy
    exact (congrArg Prod.fst (hu.symm.trans ht) :)
  | field owner =>
    rw [hr] at h h'
    exact Slot.fixed.inj (h'.symm.trans h)
  | localVar =>
    rw [hr] at h h'
    exact Slot.fixed.inj (h'.symm.trans h)
  | binding => exact absurd hr hrole

variable (hs : Ready p0 G c s)
include hs

theorem knownVar_walks (ht : (s.program.vars.get v).slot = .fixed t) (hhome : p0.Home G r v)
    (loc : Location) :
    Walks p0 G n {} c s (varType e v loc) (varType e' v loc) fun u s' => s' = s ∧ u = t ∧
      p0.Says G s.program r t := by
  unfold varType
  refine .program ?_
  dsimp only
  rw [ht]
  exact .pure hs ⟨rfl, rfl, hs.sound.tame.vars r v t hhome ht⟩

theorem setVar_walks (hst : Step p0 {} s (s.after (.var v (.fixed t))))
    (hv : s.program.vars.Valid v) (hhome : p0.Home G r v) (hsaid : p0.Says G s.program r t)
    (hlast : ∀ d, (p0.vars.get v).role = .field d →
      TypeTable.isTemporary s.program.types t = false) :
    Goes p0 G n {} c s (write (.var v (.fixed t))) fun _ s' => s' = s.after (.var v (.fixed t)) ∧
      (s'.program.vars.get v).slot = .fixed t ∧ p0.Says G s'.program r t := by
  have hslot : ((s.after (.var v (.fixed t))).program.vars.get v).slot = .fixed t :=
    (slot_setVarSlot s.program v (.fixed t) v).trans (if_pos ⟨rfl, hv⟩)
  refine (Walks.write hs hst
    (hs.sound.setVar hs.charted hs.coherent (fun _ => ⟨t, rfl⟩) (fun d u hrole hu => ?_)
      (fun d u hrole hu => Slot.fixed.inj hu ▸ hlast d hrole) fun u hu r' hhome' => ?_)).post
    fun _ s' _ _ hs' => ?_
  · rw [← hslot]
    exact hst.stays.fields v d u hrole hu
  · cases hu
    cases hhome.unique hs.wired.shaped hs.charted hhome'
    exact hsaid
  · subst hs'
    exact ⟨rfl, hslot, hsaid.step hs.inv hst⟩

theorem recordVar_walks (hinit : (p0.vars.get v).init = some d)
    (hrole : (p0.vars.get v).role ≠ .binding) (ht : s.program.types.Valid t)
    (htyped : s.program.VarTyped v t) (hhome : p0.Home G r v) (hsaid : p0.Says G s.program r t)
    (hlast : ∀ d, (p0.vars.get v).role = .field d →
      TypeTable.isTemporary s.program.types t = false) :
    Goes p0 G n {} c s (write (.var v (.fixed t))) fun _ s' => s' = s.after (.var v (.fixed t)) ∧
      (s'.program.vars.get v).slot = .fixed t ∧ p0.Says G s'.program r t := by
  rw [← hs.alike.init] at hinit
  rw [← hs.alike.role] at hrole
  refine setVar_walks hs
    (.setVar hs.inv (fun u hu => ?_) (fun u hu => Slot.fixed.inj hu ▸ ⟨ht, htyped⟩) fun _ => ?_)
    (Arena.valid_of_get_ne fun h => ?_) hhome hsaid hlast
  · rw [VarTyped.unique hinit hrole htyped (hs.coherent.vars v u hu)]
  · simp [hinit]
  · rw [h] at hinit
    cases hinit

theorem declaredVar_walks (hrole : (p0.vars.get v).role = .param)
    (hinit : (p0.vars.get v).init = some d) (hscoped : p0.Scoped (G r) z d)
    (howner : z.owner = r.owner) (loc : Location) :
    Walks p0 G n {} c s (varType e v loc) (varType e' v loc) fun t s' =>
      Spells s.program s'.program ∧ (s'.program.vars.get v).slot = .fixed t ∧
      p0.Says G s'.program r t := by
  have hhome : p0.Home G r v := .init hinit hscoped.mem
  unfold varType
  refine .program ?_
  dsimp only
  split
  · rename_i t ht
    exact .pure hs ⟨.refl _, ht, hs.sound.tame.vars r v t hhome ht⟩
  · exact .fail hs (by nofun) (hs.varSpot (valid_of_role hrole (by simp)))
  · rw [hs.alike.role, hs.alike.init, hrole, hinit]
    refine (signatureType_walks hs hscoped howner (.param hrole hinit)).bind
      fun t s1 _ hs1 ⟨hspells, ht, hsaid, hpin⟩ => ?_
    refine (recordVar_walks hs1 hinit (by simp [hrole]) ht ?_ hhome hsaid fun d hfield => ?_).bind
      fun _ s2 _ hs2 ⟨hafter, hfound⟩ => .pure hs2 ⟨hspells.trans (hafter ▸ ⟨rfl, rfl⟩), hfound⟩
    · rw [Program.VarTyped, hs1.alike.role, hs1.alike.init, hrole, hinit]
      exact hpin
    · cases hrole.symm.trans hfield

variable (he : e.Good p0 G n e') {owner : ClassId} (hv : v ∈ (p0.classes.get owner).fields)
include he hv

theorem fieldType_walks (hempty : (s.program.vars.get v).slot = .empty) :
    Walks p0 G n {} c s (fieldType e v (s.program.vars.get v) owner)
      (fieldType e' v (s.program.vars.get v) owner) fun t s' =>
      (∃ d, (p0.vars.get v).init = some d ∧ s'.program.slot d = .fixed t) ∧
      p0.Says G s'.program ⟨some owner, false⟩ t ∧
      TypeTable.isTemporary s'.program.types t = false := by
  obtain ⟨hvalid, hrole, hinit⟩ := hs.wired.owned.fields owner v hv
  obtain ⟨d, hinit⟩ := Option.isSome_iff_exists.1 hinit
  obtain ⟨ts, hscoped, hts⟩ := hs.charted.fields owner v hv d hinit
  have hopens : p0.Opens [] d := .start (r := .field v) (Var.mem_fieldInit hrole hinit)
  have hn (t : TypeId) (ht : (s.program.vars.get v).slot = .fixed t) : False := by
    cases hempty.symm.trans ht
  have howner : p0.classes.Valid owner := by
    refine Arena.valid_of_get_ne fun he => ?_
    rw [he] at hv
    cases hv
  have hbegin : Step p0 {} s (s.after (.var v .inProgress)) :=
    .setVar hs.inv (fun t ht => (hn t ht).elim) nofun fun h => by simp [hs.alike.role, hrole] at h
  unfold fieldType
  rw [hs.alike.init, hinit]
  refine (Walks.write hs hbegin
    (hs.sound.setVar hs.charted hs.coherent (fun ⟨t, ht⟩ => (hn t ht).elim)
      (fun _ t _ ht => (hn t ht).elim) nofun nofun)).bind fun _ s1 _ hs1 _ => ?_
  refine (within_walks hs1 (fun _ h => Option.some.inj h ▸ howner) fun c' s2 _ hs2 hat =>
    he.find (z := ⟨⟨some owner, ts⟩, []⟩) hs2 (hat.enter rfl nofun hts)
    ⟨hscoped, hat.starts hopens⟩).bind fun t s2 _ hs2 ⟨ht, hsaid⟩ => .program ?_
  dsimp only
  split
  · exact .fail hs2 (by nofun) (hs.varSpot hvalid)
  · rename_i hlast
    exact .pure hs2 ⟨⟨d, rfl, ht⟩, hsaid, Bool.eq_false_iff.2 hlast⟩

theorem fieldVar_walks (loc : Location) :
    Walks p0 G n {} c s (varType e v loc) (varType e' v loc) fun t s' =>
      (s'.program.vars.get v).slot = .fixed t ∧ p0.Says G s'.program ⟨some owner, false⟩ t := by
  obtain ⟨hvalid, hrole, hinit⟩ := hs.wired.owned.fields owner v hv
  obtain ⟨d, hinit⟩ := Option.isSome_iff_exists.1 hinit
  obtain ⟨ts, hscoped, _⟩ := hs.charted.fields owner v hv d hinit
  have hhome : p0.Home G ⟨some owner, false⟩ v := .init hinit hscoped.mem
  unfold varType
  refine .program ?_
  dsimp only
  split
  · rename_i t ht
    exact .pure hs ⟨ht, hs.sound.tame.vars _ v t hhome ht⟩
  · exact .fail hs (by nofun) (hs.varSpot hvalid)
  · rename_i hempty
    rw [hs.alike.role, hrole]
    refine (fieldType_walks hs he hv hempty).bind fun t s1 _ hs1 ⟨⟨d', hd', ht⟩, hsaid, hlast⟩ => ?_
    refine (recordVar_walks hs1 hd' (by simp [hrole]) (hs1.valid_slot ht) ?_ hhome hsaid fun _ _ =>
      hlast).bind fun _ s2 _ hs2 h => .pure hs2 h.2
    rw [Program.VarTyped, hs1.alike.role, hs1.alike.init, hrole, hd']
    exact ht

end Variables

section Callables

variable {params : List VarId} {result body : Option NodeId} (hs : Ready p0 G c s) (loc : Location)
include hs loc

theorem callableType_walks (hdeclares : p0.Declares params result body)
    (hresult : ∀ r ∈ result, p0.AsType r) (hw : p0.Written G o params result) :
    Walks p0 G n {} c s (callableType e params result loc) (callableType e' params result loc)
      fun t s' => Spells s.program s'.program ∧ s'.program.types.Valid t ∧
      s'.program.Spelled params result ∧ (∃ ts u, s'.program.types.get t = .function ts u) ∧
      p0.Says G s'.program ⟨o, true⟩ t := by
  unfold callableType
  refine (Walks.mapKeeping (J := fun s' => Spells s.program s'.program)
    (P := fun v t s => s.program.types.Valid t ∧ p0.Says G s.program ⟨o, true⟩ t ∧
      s.program.VarKnown v) hs (.refl _)
    (fun v _ _ _ hs h ht => ⟨h.keeps.types.valid ht.1, ht.2.1.step hs.inv h, h.keeps.vars v ht.2.2⟩)
    fun v hv s1 _ hs1 hspells => ?_).bind fun ts s1 _ hs1 ⟨hspells1, hts⟩ => ?_
  · obtain ⟨hrole, hinit⟩ := hdeclares.params v hv
    obtain ⟨d, hinit⟩ := Option.isSome_iff_exists.1 hinit
    exact (declaredVar_walks hs1 hrole hinit (hw.params v hv d hinit) rfl loc).post
      fun t s2 _ hs2 ⟨hspells2, ht, hsaid⟩ =>
      ⟨hspells.trans hspells2, hs2.coherent.varTypes v t ht, hsaid, t, ht⟩
  · have hfunction {s2 : PassState} (hst2 : Step p0 {} s1 s2) (hs2 : Ready p0 G c s2)
        (hspells2 : Spells s1.program s2.program) {u : TypeId} (hu : s2.program.types.Valid u)
        (hsaid : p0.Says G s2.program ⟨o, true⟩ u)
        (hr : ∀ r, result = some r → s2.program.Known r) : Goes p0 G n {} c s2
        (intern (.function ts u)) fun t s' => Spells s.program s'.program ∧
        s'.program.types.Valid t ∧ s'.program.Spelled params result ∧
        (∃ ts u, s'.program.types.get t = .function ts u) ∧ p0.Says G s'.program ⟨o, true⟩ t := by
      have hts2 : ∀ t ∈ ts, s2.program.types.Valid t ∧ p0.Says G s2.program ⟨o, true⟩ t :=
        forall_of_forall₂ hts fun _ t ht => ⟨hst2.keeps.types.valid ht.1, ht.2.1.step hs1.inv hst2⟩
      have hvs : ∀ v ∈ params, s2.program.VarKnown v := forall_of_forall₂ hts.flip fun _ v h =>
        hst2.keeps.vars v h.2.2
      refine (Walks.intern hs2 (holds_function.2 ⟨fun t ht => (hts2 t ht).1, hu⟩) nofun nofun).post
        fun t s3 hst3 _ ⟨hadds, ht, hget⟩ =>
        ⟨(hspells1.trans hspells2).adds hadds, ht, hst3.keeps.spelled ⟨hvs, hr⟩, ⟨ts, u, hget⟩,
          .make ht hget rfl nofun fun x hx => ?_⟩
      rcases mem_append.1 hx with hx | hx
      · exact (hts2 x hx).2.step hs2.inv hst3
      · exact mem_singleton.1 hx ▸ hsaid.step hs2.inv hst3
    split
    · rename_i r
      exact (signatureType_walks hs1 (hw.result r rfl) rfl (hresult r rfl)).bind
        fun u s2 hst2 hs2 ⟨hspells2, hu, hsaid, x, hx, _⟩ =>
          hfunction hst2 hs2 hspells2 hu hsaid fun r' hr' => Option.some.inj hr' ▸ ⟨x, hx⟩
    · exact hfunction (.refl hs1.inv) hs1 (.refl _) (hs1.valid_basic (by decide))
        (.basic hs1.coherent (by decide)) nofun

theorem methodType_walks {m : MethodId} {d : ClassId} (hm : m ∈ (p0.classes.get d).allMethods) :
    Walks p0 G n {} c s (methodType e m loc) (methodType e' m loc) fun t s' =>
      (s'.program.methods.get m).slot = .fixed t ∧ p0.Says G s'.program ⟨some d, true⟩ t := by
  unfold methodType
  refine .program ?_
  dsimp only
  split
  · rename_i t ht
    have ht := Slot.fixed?_eq_some.1 ht
    exact .pure hs ⟨ht, hs.sound.tame.methods d m t hm ht⟩
  · rename_i hn
    have hvalid : s.program.methods.Valid m :=
      hs.alike.methodsValid.2 (hs.wired.owned.valid_method hm)
    rw [hs.alike.methodParams, hs.alike.methodResult]
    refine (callableType_walks hs loc (hs.wired.shaped.methods m) (fun r hr => .methodResult hr)
      (hs.charted.methods d m hm)).bind fun t s1 _ hs1 ⟨hspells, ht, hspelled, hget, hsaid⟩ => ?_
    have hnew (u : TypeId) (hu : (s1.program.methods.get m).slot = .fixed u) : t = u := by
      rw [hspells.methods] at hu
      exact absurd (Slot.fixed?_eq_some.2 hu) (hn u)
    rw [← hs1.alike.methodParams, ← hs1.alike.methodResult] at hspelled
    refine (Walks.write hs1 (.setMethod hs1.inv ht hnew hspelled)
      (hs1.sound.setMethod hs.charted hs1.coherent hnew hget fun d' hm' => ?_)).bind
      fun _ s2 hst2 hs2 hafter => .pure hs2 ⟨?_, hsaid.step hs1.inv hst2⟩
    · cases (hs.wired.owned.owner hm).symm.trans (hs.wired.owned.owner hm')
      exact hsaid
    · rw [← hspells.methods] at hvalid
      subst hafter
      show ((s1.program.fixMethod m t).methods.get m).slot = _
      rw [Program.fixMethod, Program.modifyMethod, Arena.get_modify, if_pos ⟨rfl, hvalid⟩]

/-- The entries of modules have no names, so their types are not looked for. -/
theorem functionType_walks {d : FunctionId} (hv : p0.functions.Valid d) (hentry : ¬ p0.IsEntry d) :
    Walks p0 G n {} c s (functionType e d loc) (functionType e' d loc) fun t s' =>
      (s'.program.functions.get d).slot = .fixed t ∧ p0.Says G s'.program ⟨none, true⟩ t := by
  unfold functionType
  refine .program ?_
  dsimp only
  split
  · rename_i t ht
    have ht := Slot.fixed?_eq_some.1 ht
    exact .pure hs ⟨ht, hs.sound.tame.functions d t hentry ht⟩
  · rename_i hn
    have hvalid : s.program.functions.Valid d := hs.alike.functionsValid.2 hv
    rw [hs.alike.functionParams, hs.alike.functionResult]
    refine (callableType_walks hs loc (hs.wired.shaped.functions d) (fun r hr => .functionResult hr)
      (hs.charted.functions d hv)).bind fun t s1 _ hs1 ⟨hspells, ht, hspelled, hget, hsaid⟩ => ?_
    have hnew (u : TypeId) (hu : (s1.program.functions.get d).slot = .fixed u) : t = u := by
      rw [hspells.functions] at hu
      exact absurd (Slot.fixed?_eq_some.2 hu) (hn u)
    rw [← hs1.alike.functionParams, ← hs1.alike.functionResult] at hspelled
    refine (Walks.write hs1 (.setFunction hs1.inv ht hnew hspelled fun m hm => ?_)
      (hs1.sound.setFunction hs.charted hs1.coherent hnew hget fun _ => hsaid)).bind
      fun _ s2 hst2 hs2 hafter => .pure hs2 ⟨?_, hsaid.step hs1.inv hst2⟩
    · rw [hs1.alike.modules] at hm
      exact absurd ⟨m, hm⟩ hentry
    · rw [← hspells.functions] at hvalid
      subst hafter
      show ((s1.program.fixFunction d t).functions.get d).slot = _
      rw [Program.fixFunction, Program.modifyFunction, Arena.get_modify, if_pos ⟨rfl, hvalid⟩]

end Callables

end Typing

end ClassLang
