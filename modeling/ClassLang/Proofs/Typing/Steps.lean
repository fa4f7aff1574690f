import ClassLang.Proofs.Typing.Effects

namespace ClassLang

open Arena List Program

namespace Program

variable (p : Program)

theorem marks_node (i : NodeId) : p.marks.nodes.get i = p.slot i := get_map (by rfl) p.nodes i

theorem marks_var (v : VarId) : p.marks.vars.get v = (p.vars.get v).slot :=
  get_map (by rfl) p.vars v

theorem marks_method (m : MethodId) : p.marks.methods.get m = (p.methods.get m).slot :=
  get_map (by rfl) p.methods m

theorem marks_function (d : FunctionId) : p.marks.functions.get d = (p.functions.get d).slot :=
  get_map (by rfl) p.functions d

end Program

def PassState.after (s : PassState) (w : Write) : PassState :=
  { s with program := w.apply s.program, writes := w :: s.writes }

namespace Typing

variable {p0 q : Program} {f : Focus} {s s' : PassState} {w : Write} {r : ColdId}

section

variable (h : Logged p0 s)
include h

theorem Logged.same (hm : s'.program.marks = s.program.marks) (hw : s'.writes = s.writes) :
    Logged p0 s' := by
  obtain ⟨hreplay, hclean, hbare, honce⟩ := h
  rw [← hw] at hreplay hclean hbare honce
  exact ⟨hreplay.trans hm.symm, hclean, hbare, honce⟩

theorem Logged.throughout_cons {P : Marks → Write → Prop} :
    p0.marks.Throughout P (s.after w).writes ↔ P s.program.marks w ∧
      p0.marks.Throughout P s.writes := by
  rw [← h.replay]
  rfl

theorem Logged.after
    (hclean : s.program.marks.Kept (w.mark s.program.marks) ∨ s.program.marks.Refixes w)
    (hbare : ∀ v t, w = .param v t → (p0.vars.get v).role = .param ∧ (p0.vars.get v).init = none)
    (honce : p0.marks.Calm (s.after w).writes → p0.marks.Fresh (s.after w).writes →
      ¬ s.program.marks.Refixes w) : Logged p0 (s.after w) where
  replay := by
    rw [PassState.after, Marks.replay, h.replay, Write.marks_apply]
  clean := h.throughout_cons.2 ⟨hclean, h.clean⟩
  bare v t hm := (mem_cons.1 hm).elim (fun he => hbare v t he.symm) (h.bare v t)
  once hc hf :=
    h.throughout_cons.2 ⟨honce hc hf, h.once (h.throughout_cons.1 hc).2 (h.throughout_cons.1 hf).2⟩

theorem Logged.after_kept (hk : s.program.marks.Kept (w.mark s.program.marks))
    (hw : ∀ v t, w ≠ .param v t) : Logged p0 (s.after w) :=
  h.after (.inl hk) (fun v t he => absurd he (hw v t)) fun _ _ hr => Marks.not_kept_of_refixes hr hk

/-- Between any two points of a run without a second write, types and signatures stay. -/
theorem Logged.steady (h' : Logged p0 s') (hsuf : s.writes <:+ s'.writes)
    (hc : p0.marks.Calm s'.writes) (hf : p0.marks.Fresh s'.writes) :
    s.program.Steady s'.program := by
  have honce := (Marks.writeOnce_iff_of_clean h'.clean).2 (h'.once hc hf)
  have hkept := honce s.writes s'.writes (suffix_refl _) hsuf
  rw [h.replay, h'.replay] at hkept
  refine ⟨fun v t ht => ?_, hkept.signatures⟩
  rw [← marks_var] at ht ⊢
  exact hkept.vars v t ht

end

theorem Step.steady (h : Step p0 f s s') (hs : Inv p0 s) (hc : p0.marks.Calm s'.writes)
    (hf : p0.marks.Fresh s'.writes) : s.program.Steady s'.program :=
  hs.logged.steady h.inv.logged h.log hc hf

/-- A signature that fits a lambda goes on to fit it. -/
theorem Inv.fitted (hs : Inv p0 s) (hk : s.program.Keeps s'.program) (hlog : Logged p0 s')
    (hsuf : s.writes <:+ s'.writes) (hc : p0.marks.Calm s'.writes) (hf : p0.marks.Fresh s'.writes)
    {t : TypeId} {l : LambdaId} (hr : (s.program.colds.get r).forward = none)
    (ht : (s.program.colds.get r).signature = some t) (hl : l ∈ (s.program.colds.get r).sites) :
    s'.program.Fitted t l :=
  (hs.fitting (hc.of_suffix hsuf) (hf.of_suffix hsuf) r hr t ht l hl).keeps hk
    (hs.logged.steady hlog hsuf hc hf) hs.coherent

theorem suffix_after : s.writes <:+ (s.after w).writes := suffix_cons _ _

structure Step.New (f : Focus) (p q : Program) : Prop where
  colds : q.colds = p.colds
  lambdas : q.lambdas = p.lambdas
  bare : ∀ v, (p.vars.get v).role = .param → (p.vars.get v).init = none →
    (q.vars.get v).slot = (p.vars.get v).slot
  empty : ∀ i, q.slot i = .empty → p.slot i = .empty
  begun : ∀ i, f.node ≠ some i → p.slot i = .inProgress → q.form i = p.form i ∧ Pending q i
  new : ∀ i, f.node ≠ some i → p.slot i = .empty → q.slot i = .empty ∨ q.Done i
  methods : ∀ m, BodyKept q (p.methods.get m).body (q.methods.get m).body
  functions : ∀ d, BodyKept q (p.functions.get d).body (q.functions.get d).body
  entries : ∀ m d, (p.modules.get m).entry = some d → d ∉ f.entries →
    (q.functions.get d).slot = (p.functions.get d).slot
  stays : Stays f p q

theorem Step.New.refl (f : Focus) (p : Program) : Step.New f p p :=
  ⟨rfl, rfl, fun _ _ _ => rfl, fun _ => id, fun _ _ hi => ⟨rfl, .inl hi⟩, fun _ _ => .inl, fun _ =>
    .same _, fun _ => .same _, fun _ _ _ _ => rfl, .of_eq rfl rfl rfl rfl⟩

theorem Step.advance (hs : Inv p0 s) (hk : s.program.Keeps s'.program) (hcoh : s'.program.Coherent)
    (hlog : Logged p0 s') (hsuf : s.writes <:+ s'.writes) (hnew : Step.New f s.program s'.program) :
    Step p0 f s s' := by
  have hslot {l : LambdaId} {v : VarId} (hv : v ∈ (s.program.lambdas.get l).params)
    (hi : (s.program.vars.get v).init = none) : (s'.program.vars.get v).slot =
    (s.program.vars.get v).slot := hnew.bare v ((hs.coherent.shaped.params l).2 v hv) hi
  have hunapplied {l : LambdaId} (hl : s.program.Unapplied l) : s'.program.Unapplied l := by
    intro v hv hi hkn
    rw [hk.alike.lambdaParams] at hv
    rw [hk.alike.init] at hi
    refine hl v hv hi ?_
    obtain ⟨t, ht⟩ := hkn
    exact ⟨t, (hslot hv hi).symm.trans ht⟩
  refine ⟨⟨hs.alike.trans hk.alike, hcoh, hlog, fun hc => ?_, fun hc hf => ?_, fun hc hf => ?_⟩, hk,
    .of_nodes hnew.colds hnew.lambdas hnew.empty, hsuf, hnew.empty, hnew.begun, hnew.new,
    hnew.methods, hnew.functions, hnew.entries, fun l v _ hv hi hn hkn => ?_,
    fun _ r _ _ => by rw [hnew.colds], ?_, fun c _ _ => hnew.colds ▸ .refl _ c, hnew.stays⟩
  · have hsigned := hs.signed (hc.of_suffix hsuf)
    intro r hr hx l hl
    rw [hnew.colds] at hr hx hl
    exact hk.lambdaKnown (hsigned r hr hx l hl)
  · have hun := hs.unhurried (hc.of_suffix hsuf) (hf.of_suffix hsuf)
    refine ⟨fun r hr hx hfix l hl => ?_, fun l hl => ?_, fun r hr hfix => ?_⟩
    · rw [hnew.colds] at hr hx hfix hl
      exact hunapplied (hun.sites r hr hx hfix l hl)
    · rw [hnew.lambdas] at hl
      exact hunapplied (hun.unplaced l hl)
    · rw [hnew.colds] at hr hfix ⊢
      exact hun.fixing r hr hfix
  · intro r hr t ht l hl
    rw [hnew.colds] at hr ht hl
    exact hs.fitted hk hlog hsuf hc hf hr ht hl
  · obtain ⟨t, ht⟩ := hkn
    exact absurd ⟨t, (hslot hv hi).symm.trans ht⟩ hn
  · exact fun _ _ r _ _ l _ _ v hv hi => hslot hv hi

theorem BodyKept.of_eq {b b' : Option NodeId} (hb : b' = b) : BodyKept q b b' := hb ▸ .same b'

theorem Step.adds (hs : Inv p0 s) (h : s.program.Adds q) : Step p0 f s { s with program := q } := by
  have hk := h.keeps hs.coherent
  have hcoh := h.coherent hs.coherent
  obtain ⟨hrest, _, _, _⟩ := h
  generalize q.types = T at hrest
  generalize q.insts = I at hrest
  subst hrest
  exact .advance hs hk hcoh (hs.logged.same rfl rfl) (suffix_refl _)
    { Step.New.refl f _ with stays := .of_eq rfl rfl rfl rfl }

theorem Step.emit (hs : Inv p0 s) (events : List Event) : Step p0 f s { s with events } :=
  .advance hs (.refl hs.coherent.colds.rooted) hs.coherent (hs.logged.same rfl rfl) (suffix_refl _)
    { Step.New.refl f _ with stays := .of_eq rfl rfl rfl rfl }

section Nodes

variable {i : NodeId}

theorem Step.fixNode (hs : Inv p0 s) {t : TypeId} (ht : s.program.types.Valid t)
    (hfix : ∀ u, s.program.slot i = .fixed u → u = t)
    (hnew : f.node ≠ some i → s.program.slot i = .empty →
      (s.after (.node i (.fixed t))).program.Done i)
    (hpend : f.node ≠ some i → s.program.slot i = .inProgress → (s.program.form i).isTarget ∨
      (s.program.form i).isType ∧ (s.after (.node i (.fixed t))).program.Done i) :
    Step p0 f s (s.after (.node i (.fixed t))) := by
  have hfix' : ∀ u, s.program.slot i = .fixed u → Slot.fixed t = .fixed u := fun u hu => by
    rw [hfix u hu]
  have hform := form_setSlot s.program i (.fixed t)
  have hslot := slot_setSlot s.program i (.fixed t)
  refine .advance hs (keeps_setSlot hs.coherent hfix')
    (coherent_setSlot hs.coherent hfix' fun u hu => Slot.fixed.inj hu ▸ ht)
    (hs.logged.after_kept (Marks.kept_node fun u hu => ?_) nofun) suffix_after
    { Step.New.refl f _ with
      empty := empty_setSlot s.program i (.fixed t) nofun
      begun := fun j hj hp => ?_
      new := fun j hj he => ?_
      stays := .of_eq rfl rfl rfl rfl }
  · rw [marks_node] at hu
    exact hfix' u hu
  · refine ⟨hform j, ?_⟩
    by_cases hij : i = j ∧ s.program.nodes.Valid i
    · obtain ⟨rfl, hv⟩ := hij
      refine .inr ⟨⟨t, (hslot i).trans (if_pos ⟨rfl, hv⟩)⟩, ?_⟩
      rw [show (s.after (.node i (.fixed t))).program.form i = s.program.form i from hform i]
      exact hpend hj hp
    · exact .inl (((hslot j).trans (if_neg hij)).trans hp)
  · by_cases hij : i = j ∧ s.program.nodes.Valid i
    · obtain ⟨rfl, hv⟩ := hij
      exact .inr (hnew hj he)
    · exact .inl (((hslot j).trans (if_neg hij)).trans he)

theorem Step.begin (hs : Inv p0 s) (hi : s.program.slot i = .empty) :
    Step p0 { node := some i } s (s.after (.node i .inProgress)) := by
  have hfix : ∀ u, s.program.slot i = .fixed u → Slot.inProgress = .fixed u :=
    fun u hu => nomatch hi.symm.trans hu
  have hslot {j : NodeId} (hj : some i ≠ some j) : (s.after (.node i .inProgress)).program.slot
      j = s.program.slot j := by
    refine (slot_setSlot s.program i .inProgress j).trans (if_neg fun h => hj (congrArg some h.1))
  refine .advance hs (keeps_setSlot hs.coherent hfix) (coherent_setSlot hs.coherent hfix nofun)
    (hs.logged.after_kept (Marks.kept_node fun u hu => ?_) nofun) suffix_after
    { Step.New.refl _ _ with
      empty := empty_setSlot s.program i .inProgress nofun
      begun := fun j hj hp => ⟨form_setSlot s.program i .inProgress j, .inl ((hslot hj).trans hp)⟩
      new := fun j hj he => .inl ((hslot hj).trans he)
      stays := .of_eq rfl rfl rfl rfl }
  rw [marks_node] at hu
  exact hfix u hu

/-- Once its node has a type, the work on it is a step like any other. -/
theorem Step.done_node (h : Step p0 { node := some i } s s') (hi : s.program.slot i = .empty)
    (hd : s'.program.Done i) : Step p0 {} s s' := by
  refine { h with
    begun := fun j _ hj => h.begun j (fun he => ?_) hj
    new := fun j _ hj => ?_
    stays := { h.stays with } }
  · cases he
    cases hi.symm.trans hj
  · by_cases hij : i = j
    · exact .inr (hij ▸ hd)
    · exact h.new j (fun he => hij (Option.some.inj he)) hj

theorem Step.setForm (hs : Inv p0 s) {form : Form} (hi : ¬ s.program.Known i)
    (hform : s.program.Admits form) (hguard : ∀ c y b, form ≠ .guard c y b)
    (htype : form.isType = false) (htarget : (s.program.form i).isTarget = false) :
    Step p0 { node := some i } s { s with program := s.program.setForm i form } := by
  have hslot := slot_setForm s.program i form
  refine .advance hs (keeps_setForm hs.coherent hi form)
    (coherent_setForm hs.coherent hi hform hguard htype htarget) (hs.logged.same ?_ rfl)
    (suffix_refl _) { Step.New.refl _ _ with
      empty := fun j he => (hslot j).symm.trans he
      begun := fun j hj hp => ⟨?_, .inl ((hslot j).trans hp)⟩
      new := fun j _ he => .inl ((hslot j).trans he)
      stays := .of_eq rfl rfl rfl rfl }
  · simp only [Program.marks, Program.setForm, Marks.mk.injEq, and_true]
    exact map_modify_eq Node.slot (fun _ => by rfl) _ _
  · refine (form_setForm s.program i form j).trans (if_neg fun h => hj (congrArg some h.1))

theorem Step.addWeak (hs : Inv p0 s) {value : NodeId} (hv : s.program.nodes.Valid value)
    (loc : Location) : Step p0 f s (s.after (.add { form := .toWeak value, loc })) := by
  have hslot := slot_addWeak s.program value loc
  refine .advance hs (keeps_addWeak hs.coherent value loc) (coherent_addWeak hs.coherent hv)
    (hs.logged.after_kept (Marks.kept_add _ _) nofun) suffix_after
    { Step.New.refl f _ with
      empty := fun j he => (hslot j).symm.trans he
      begun := fun j _ hp => ⟨?_, .inl ((hslot j).trans hp)⟩
      new := fun j _ he => .inl ((hslot j).trans he)
      stays := .of_eq rfl rfl rfl rfl }
  refine form_addWeak_of_valid (valid_of_get_ne fun he => ?_)
  rw [Program.slot, he] at hp
  cases hp

end Nodes

section Variables

variable {v : VarId} {slot : Slot}

theorem stays_setVarSlot {p : Program}
    (hfield : ∀ c t, (p.vars.get v).role = .field c → (p.vars.get v).slot = .fixed t →
      slot = .fixed t) : Stays f p (p.setVarSlot v slot) := by
  refine ⟨⟨(alike_setVarSlot p v slot).role, fun u c t hrole hu => ?_, fun _ _ => id, fun _ _ =>
    id⟩, fun _ _ => rfl, fun _ _ => rfl, fun _ _ => rfl⟩
  rw [slot_setVarSlot]
  split
  · rename_i huv
    obtain ⟨rfl, _⟩ := huv
    exact hfield c t hrole hu
  · exact hu

theorem Step.setVar (hs : Inv p0 s)
    (hfix : ∀ t, (s.program.vars.get v).slot = .fixed t → slot = .fixed t)
    (ht : ∀ t, slot = .fixed t → s.program.types.Valid t ∧ s.program.VarTyped v t)
    (hv : (s.program.vars.get v).role = .param → (s.program.vars.get v).init ≠ none) :
    Step p0 f s (s.after (.var v slot)) := by
  have hknown : s.program.VarKnown v → ∃ t, slot = .fixed t := fun ⟨t, ht⟩ => ⟨t, hfix t ht⟩
  refine .advance hs (keeps_setVarSlot hs.coherent hknown)
    (coherent_setVarSlot hs.coherent hknown ht)
    (hs.logged.after_kept (Marks.kept_var fun t h => ?_) nofun) suffix_after
    { Step.New.refl f _ with
      bare := fun u hr hi => ?_
      stays := stays_setVarSlot fun _ t _ => hfix t }
  · rw [marks_var] at h
    exact hfix t h
  · refine (slot_setVarSlot s.program v slot u).trans (if_neg ?_)
    rintro ⟨rfl, _⟩
    exact hv hr hi

end Variables

section Declarations

variable {m : MethodId} {d : FunctionId} {t : TypeId}

theorem stays_setMethod {p : Program} (hold : ∀ u, (p.methods.get m).slot = .fixed u → t = u) :
    Stays f p (p.fixMethod m t) where
  roles _ := rfl
  fields _ _ _ _ := id
  methods n u hu := by
    rw [fixMethod, modifyMethod, get_modify]
    split
    · rename_i hmn
      obtain ⟨rfl, _⟩ := hmn
      rw [hold u hu]
    · exact hu
  functions _ _ := id
  tables _ _ := rfl
  methodBodies n _ := get_modify_eq Method.body (fun _ => by rfl) n
  functionBodies _ _ := rfl

theorem stays_setFunction {p : Program} (hold : ∀ u, (p.functions.get d).slot = .fixed u → t = u) :
    Stays f p (p.fixFunction d t) where
  roles _ := rfl
  fields _ _ _ _ := id
  methods _ _ := id
  functions n u hu := by
    rw [fixFunction, modifyFunction, get_modify]
    split
    · rename_i hdn
      obtain ⟨rfl, _⟩ := hdn
      rw [hold u hu]
    · exact hu
  tables _ _ := rfl
  methodBodies _ _ := rfl
  functionBodies n _ := get_modify_eq Function.body (fun _ => by rfl) n

theorem Step.setMethod (hs : Inv p0 s) (ht : s.program.types.Valid t)
    (hfix : ∀ u, (s.program.methods.get m).slot = .fixed u → t = u)
    (hm : s.program.Spelled (s.program.methods.get m).params (s.program.methods.get m).result) :
    Step p0 f s (s.after (.method m t)) := by
  have hk : s.program.Keeps (s.after (.method m t)).program := keeps_fixMethod hs.coherent
  refine .advance hs hk (coherent_modifyMethod hs.coherent hk (fun _ _ => .inl) fun x u hu =>
    .inr ?_) (hs.logged.after_kept (Marks.kept_method fun u hu => ?_) nofun) suffix_after
    { Step.New.refl f _ with
      methods := fun n => .of_eq (get_modify_eq Method.body (fun _ => by rfl) n)
      stays := stays_setMethod hfix }
  · cases hu
    exact ⟨ht, hm⟩
  · rw [marks_method] at hu
    exact hfix u hu

/-- The type of a function that is no entry, or of the entry that is worked on. -/
theorem Step.setFunction (hs : Inv p0 s) (ht : s.program.types.Valid t)
    (hfix : ∀ u, (s.program.functions.get d).slot = .fixed u → t = u)
    (hd : s.program.Spelled (s.program.functions.get d).params (s.program.functions.get d).result)
    (hentry : ∀ m, (s.program.modules.get m).entry = some d → d ∈ f.entries) :
    Step p0 f s (s.after (.function d t)) := by
  have hk : s.program.Keeps (s.after (.function d t)).program := keeps_fixFunction hs.coherent
  refine .advance hs hk (coherent_modifyFunction hs.coherent hk (fun _ _ => .inl) fun x u hu =>
    .inr ?_) (hs.logged.after_kept (Marks.kept_function fun u hu => ?_) nofun) suffix_after
    { Step.New.refl f _ with
      functions := fun n => .of_eq (get_modify_eq Function.body (fun _ => by rfl) n)
      entries := fun m n hn hf => ?_
      stays := stays_setFunction hfix }
  · cases hu
    exact ⟨ht, hd⟩
  · rw [marks_function] at hu
    exact hfix u hu
  · simp only [PassState.after, Write.apply, Program.modifyFunction]
    rw [get_modify_of_ne]
    rintro rfl
    exact hf (hentry m hn)

variable {b : NodeId}

theorem Step.setMethodBody (hs : Inv p0 s) (hb : s.program.Known b)
    (hm : ∃ b', (s.program.methods.get m).body = some b') (hf : f.methods m) :
    Step p0 f s { s with program := s.program.modifyMethod m fun d =>
      { d with body := some b } } := by
  have hk : s.program.Keeps (s.program.modifyMethod m fun d => { d with body := some b }) :=
    keeps_modifyMethod hs.coherent (fun _ => by rfl) (fun _ t ht => ⟨t, by exact ht⟩) m
  refine .advance hs hk (coherent_modifyMethod hs.coherent hk (fun _ c hc => .inr ?_) fun _ _ =>
    .inl) (hs.logged.same ?_ rfl) (suffix_refl _) { Step.New.refl f _ with
      methods := fun n => ?_
      stays := ⟨⟨fun _ => rfl, fun _ _ _ _ => id, fun n t ht =>
        (get_modify_eq Method.slot (fun _ => by rfl) n).trans ht, fun _ _ => id⟩, fun _ _ => rfl,
        fun n hn => ?_, fun _ _ => rfl⟩ }
  · cases hc
    exact valid_of_known hb
  · simp only [Program.marks, Program.modifyMethod, Marks.mk.injEq, and_true, true_and]
    exact map_modify_eq Method.slot (fun _ => by rfl) _ _
  · simp only [Program.modifyMethod, get_modify]
    split
    · rename_i hmn
      obtain ⟨b', hb'⟩ := hm
      rw [← hmn.1, hb']
      exact .typed b' b (hk.known hb)
    · exact .of_eq rfl
  · rw [modifyMethod, get_modify_of_ne]
    rintro rfl
    exact hn hf

theorem Step.setFunctionBody (hs : Inv p0 s) (hb : s.program.Known b)
    (hd : ∃ b', (s.program.functions.get d).body = some b') (hf : f.functions d) :
    Step p0 f s { s with program := s.program.modifyFunction d fun d =>
      { d with body := some b } } := by
  have hk : s.program.Keeps (s.program.modifyFunction d fun d => { d with body := some b }) :=
    keeps_modifyFunction hs.coherent (fun _ => by rfl) (fun _ t ht => ⟨t, by exact ht⟩) d
  refine .advance hs hk (coherent_modifyFunction hs.coherent hk (fun _ c hc => .inr ?_) fun _ _ =>
    .inl) (hs.logged.same ?_ rfl) (suffix_refl _) { Step.New.refl f _ with
      functions := fun n => ?_
      entries := fun _ n _ _ => get_modify_eq Function.slot (fun _ => by rfl) n
      stays := ⟨⟨fun _ => rfl, fun _ _ _ _ => id, fun _ _ => id, fun n t ht =>
        (get_modify_eq Function.slot (fun _ => by rfl) n).trans ht⟩, fun _ _ => rfl, fun _ _ => rfl,
        fun n hn => ?_⟩ }
  · cases hc
    exact valid_of_known hb
  · simp only [Program.marks, Program.modifyFunction, Marks.mk.injEq, and_true, true_and]
    exact map_modify_eq Function.slot (fun _ => by rfl) _ _
  · simp only [Program.modifyFunction, get_modify]
    split
    · rename_i hdn
      obtain ⟨b', hb'⟩ := hd
      rw [← hdn.1, hb']
      exact .typed b' b (hk.known hb)
    · exact .of_eq rfl
  · rw [modifyFunction, get_modify_of_ne]
    rintro rfl
    exact hn hf

theorem Step.setDispatch (hs : Inv p0 s) {c : ClassId} (dispatch : List (MethodId × MethodId))
    (hf : f.tables c) :
    Step p0 f s { s with program := s.program.modifyClass c fun d => { d with dispatch } } :=
  .advance hs (keeps_modifyClass hs.coherent (fun _ => by rfl) c)
    (coherent_modifyClass hs.coherent (fun _ => by rfl) c) (hs.logged.same rfl rfl)
    (suffix_refl _) { Step.New.refl f _ with
      stays := ⟨⟨fun _ => rfl, fun _ _ _ _ => id, fun _ _ => id, fun _ _ => id⟩, fun d hd =>
        get_modify_of_ne (by rintro rfl; exact hd hf), fun _ _ => rfl, fun _ _ => rfl⟩ }

end Declarations

section Placeholders

variable {c x y : ColdId} {l : LambdaId} {v : VarId} {t : TypeId}

theorem Step.of_colds (hs : Inv p0 s) (hk : s.program.Keeps s'.program) (hcoh : s'.program.Coherent)
    (hwinds : p0.Winds s.program s'.program) (hlog : Logged p0 s') (hsuf : s.writes <:+ s'.writes)
    (hnodes : s'.program.nodes = s.program.nodes) (hvars : s'.program.vars = s.program.vars)
    (hmethods : s'.program.methods = s.program.methods)
    (hfunctions : s'.program.functions = s.program.functions)
    (hclasses : s'.program.classes = s.program.classes)
    (hsigned : ∀ r, (s'.program.colds.get r).forward = none →
      (s'.program.colds.get r).signature ≠ none →
      s'.program.colds.get r =
      { s.program.colds.get r with fixing := (s'.program.colds.get r).fixing })
    (hunhurried : p0.marks.Calm s'.writes → p0.marks.Fresh s'.writes → s.program.Unhurried →
      s'.program.Unhurried)
    (hshield : p0.marks.Calm s'.writes → ∀ r, (s.program.colds.get r).forward = none →
      (s.program.colds.get r).fixing = true → s'.program.colds.get r = s.program.colds.get r)
    (hfirm : ∀ c, (s.program.colds.lookup c).signature ≠ none →
      s.program.colds.Firm s'.program.colds c) : Step p0 f s s' where
  inv := by
    refine ⟨hs.alike.trans hk.alike, hcoh, hlog, fun hc r hr ht l hl => ?_, fun hc hf =>
      hunhurried hc hf (hs.unhurried (hc.of_suffix hsuf) (hf.of_suffix hsuf)),
      fun hc hf r hr t ht l hl => ?_⟩
    · have hold := hsigned r hr ht
      rw [hold] at hr ht hl
      exact hk.lambdaKnown (hs.signed (hc.of_suffix hsuf) r hr ht l hl)
    · have hold := hsigned r hr (by simp [ht])
      rw [hold] at hr ht hl
      exact hs.fitted hk hlog hsuf hc hf hr ht hl
  keeps := hk
  winds := hwinds
  log := hsuf
  empty i hi := by rwa [Program.slot, hnodes] at hi
  begun i _ hi := by
    rw [Pending, Program.slot, Program.form, hnodes]
    exact ⟨rfl, .inl hi⟩
  new i _ hi := by
    rw [Program.slot, hnodes]
    exact .inl hi
  methods m := .of_eq (by rw [hmethods])
  functions d := .of_eq (by rw [hfunctions])
  entries m d _ _ := by rw [hfunctions]
  applied l v _ _ _ hn hv := by
    rw [VarKnown, hvars] at hv
    exact absurd hv hn
  shielded := hshield
  untouched _ _ r _ _ l _ _ v _ _ := by rw [hvars]
  firm c hc _ := hfirm c hc
  stays := .of_eq hclasses hvars hmethods hfunctions

theorem unapplied_of_keeps (hk : s.program.Keeps s'.program)
    (hvars : s'.program.vars = s.program.vars) (h : s.program.Unapplied l) :
    s'.program.Unapplied l := by
  intro v hv hi hn
  rw [hk.alike.lambdaParams] at hv
  rw [hvars] at hi
  rw [VarKnown, hvars] at hn
  exact h v hv hi hn

section

variable (hs : Inv p0 s)
include hs

theorem Step.place (hv : s.program.lambdas.Valid l) (hl : (s.program.lambdas.get l).cold = none) :
    Step p0 f s (s.after (.place l)) := by
  obtain ⟨hk, hcoh⟩ := coherent_place hs.coherent hv hl
  have hget (r : ColdId) : (s.after (.place l)).program.colds.get r =
      if r = ⟨s.program.colds.size⟩ then { sites := [l] } else s.program.colds.get r :=
    ColdTable.get_create s.program.colds l r
  have hlog := hs.logged.after_kept (Marks.kept_place hs.coherent.colds.rooted l) nofun
  have hcold {l' : LambdaId} (h : ((s.after (.place l)).program.lambdas.get l').cold = none) :
      (s.program.lambdas.get l').cold = none := by
    cases hc : (s.program.lambdas.get l').cold with
    | none => rfl
    | some c => exact nomatch (hk.lambdas l' c hc).symm.trans h
  refine .of_colds hs hk hcoh (winds_place hs.coherent.colds.rooted hv hl) hlog suffix_after rfl rfl
    rfl rfl rfl (fun r hr hx => ?_)
    (fun hc _ hun => ⟨fun r hr hx hfix l' hl' => ?_, fun l' hl' => ?_, fun r hr hfix => ?_⟩)
    (fun hc r hr hfix => ?_) fun c hc => hs.coherent.colds.rooted.firm_create l hc
  · rw [hget] at hx ⊢
    split at hx
    · exact absurd rfl hx
    · rw [if_neg ‹_›]
  · rw [hget] at hr hx hfix hl'
    split at hl'
    · rw [mem_singleton.1 hl']
      exact unapplied_of_keeps hk rfl (hun.unplaced l hl)
    · rw [if_neg ‹_›] at hr hx hfix
      exact unapplied_of_keeps hk rfl (hun.sites r hr hx hfix l' hl')
  · exact unapplied_of_keeps hk rfl (hun.unplaced l' (hcold hl'))
  · rw [hget] at hr hfix ⊢
    split at hfix
    · cases hfix
    · rw [if_neg ‹_›] at hr ⊢
      exact hun.fixing r hr hfix
  · rw [hget, if_neg]
    rintro rfl
    rw [get_of_not_valid (not_valid_size _)] at hfix
    cases hfix

theorem Step.merge (hx : s.program.colds.Valid x) (hy : s.program.colds.Valid y)
    (hsx : (s.program.colds.lookup x).signature = none)
    (hsy : (s.program.colds.lookup y).signature = none) : Step p0 f s (s.after (.merge x y)) := by
  have hlog := hs.logged.after_kept (Marks.kept_merge hs.coherent.colds.rooted hx hy hsx hsy) nofun
  by_cases hxy : s.program.colds.find x = s.program.colds.find y
  · have hsame : (s.after (.merge x y)).program = s.program := by
      rw [PassState.after, Write.apply, ColdTable.merge_of_eq hxy]
    have hk : s.program.Keeps (s.after (.merge x y)).program := by
      rw [hsame]
      exact .refl hs.coherent.colds.rooted
    refine .advance hs hk (hsame ▸ hs.coherent) hlog suffix_after ?_
    rw [hsame]
    exact .refl f _
  · obtain ⟨hk, hcoh⟩ := coherent_merge hs.coherent hx hy hxy
    have hroots (r : ColdId) (hr : ((s.after (.merge x y)).program.colds.get r).forward = none) :
        r = s.program.colds.find x ∧ (s.after (.merge x y)).program.colds.get r =
        { s.program.colds.lookup x with
          sites := (s.program.colds.lookup x).sites ++ (s.program.colds.lookup y).sites } ∨
        (s.after (.merge x y)).program.colds.get r = s.program.colds.get r := by
      have hget : (s.after (.merge x y)).program.colds.get r = _ :=
        hs.coherent.colds.rooted.get_merge hx hy hxy r
      rw [hget] at hr ⊢
      split at hr
      · rw [if_pos ‹_›]
        exact .inl ⟨‹_›, rfl⟩
      · rw [if_neg ‹_›]
        split at hr
        · cases hr
        · rw [if_neg ‹_›]
          exact .inr rfl
    have hcalm (hc : p0.marks.Calm (s.after (.merge x y)).writes) :
        (s.program.colds.lookup x).fixing = false ∧ (s.program.colds.lookup y).fixing = false := by
      have hn := (hs.logged.throughout_cons.1 hc).1
      simpa [Marks.Disturbs, Program.marks, hxy] using hn
    refine .of_colds hs hk hcoh (winds_merge hs.coherent.colds.rooted hx hy) hlog suffix_after rfl
      rfl rfl rfl rfl (fun r hr hsig => ?_)
      (fun hc _ hun => ⟨fun r hr hsig hfix l' hl' => ?_, fun l' hl' => ?_, fun r hr hfix => ?_⟩)
      (fun hc r hr hfix => ?_) fun c hc => hs.coherent.colds.rooted.firm_merge hx hy hxy hsx hsy hc
    · obtain ⟨_, hget⟩ | hget := hroots r hr <;> rw [hget] at hsig ⊢
      exact absurd hsx hsig
    · have hroot := hs.coherent.colds.rooted.forward_find
      obtain ⟨_, hget⟩ | hget := hroots r hr <;> rw [hget] at hr hsig hfix hl'
      · obtain hl' | hl' := mem_append.1 hl'
        · exact unapplied_of_keeps hk rfl (hun.sites _ (hroot x) hsx (hcalm hc).1 l' hl')
        · exact unapplied_of_keeps hk rfl (hun.sites _ (hroot y) hsy (hcalm hc).2 l' hl')
      · exact unapplied_of_keeps hk rfl (hun.sites r hr hsig hfix l' hl')
    · exact unapplied_of_keeps hk rfl (hun.unplaced l' hl')
    · obtain ⟨_, hget⟩ | hget := hroots r hr <;> rw [hget] at hr hfix ⊢
      · exact hsx
      · exact hun.fixing r hr hfix
    · refine (hs.coherent.colds.rooted.get_merge hx hy hxy r).trans ?_
      rw [if_neg, if_neg]
      · rintro rfl
        cases (hcalm hc).2.symm.trans hfix
      · rintro rfl
        cases (hcalm hc).1.symm.trans hfix

theorem Step.startFixing (hv : s.program.colds.Valid c)
    (hc : (s.program.colds.lookup c).fixing = false) : Step p0 f s (s.after (.fixing c true)) := by
  have hk : s.program.Keeps (s.after (.fixing c true)).program :=
    keeps_updateCold hs.coherent (fun _ => by rfl) c
  have hget (r : ColdId) : (s.after (.fixing c true)).program.colds.get r = s.program.colds.get r ∨
      r = s.program.colds.find c ∧ (s.after (.fixing c true)).program.colds.get r =
      { s.program.colds.get r with fixing := true } := by
    have h := get_updateCold s.program c r ({ · with fixing := true })
    split at h
    · rename_i hr
      exact .inr ⟨hr.1.symm, h⟩
    · exact .inl h
  refine .of_colds hs hk
    (coherent_updateCold hs.coherent (fun _ => by rfl) (fun _ => by rfl)
      (fun _ _ h => .inl (by exact h)) c) (winds_fixing hs.coherent.colds.rooted hv hc)
    (hs.logged.after_kept (Marks.kept_fixing _ c true) nofun) suffix_after rfl rfl rfl rfl rfl
    (fun r hr hsig => ?_) (fun _ hfresh hun =>
      ⟨fun r hr hsig hfix l hl => ?_, fun l hl => ?_, fun r hr hfix => ?_⟩) (fun _ r hr hfix => ?_)
    fun _ _ => ColdTable.firm_update (fun _ => by rfl) (.inl fun _ => by rfl)
  · obtain h | ⟨_, h⟩ := hget r <;> rw [h]
  · obtain h | ⟨_, h⟩ := hget r <;> rw [h] at hr hsig hfix hl
    · exact unapplied_of_keeps hk rfl (hun.sites r hr hsig hfix l hl)
    · cases hfix
  · exact unapplied_of_keeps hk rfl (hun.unplaced l hl)
  · obtain h | ⟨hrc, h⟩ := hget r <;> rw [h] at hr hfix ⊢
    · exact hun.fixing r hr hfix
    · have hn := (hs.logged.throughout_cons.1 hfresh).1
      rw [hrc]
      simpa [Marks.Restarts, Program.marks, ColdTable.lookup] using hn
  · obtain h | ⟨hrc, _⟩ := hget r
    · exact h
    · rw [hrc] at hfix
      cases hc.symm.trans hfix

/-- The first lambda with a parameter is the only one. -/
theorem Inv.owner_unique {l l' : LambdaId} (hv : v ∈ (s.program.lambdas.get l).params)
    (hv' : v ∈ (s.program.lambdas.get l').params) : l' = l :=
  hs.coherent.shaped.owners l' l v hv' hv

/-- A lambda is among those of one placeholder only. -/
theorem Inv.site_unique {r' : ColdId} (hl : l ∈ (s.program.colds.get r).sites)
    (hl' : l ∈ (s.program.colds.get r').sites) : r' = r := by
  obtain ⟨c, hc, hr⟩ := hs.coherent.colds.sites r l hl
  obtain ⟨c', hc', hr'⟩ := hs.coherent.colds.sites r' l hl'
  cases hc.symm.trans hc'
  exact hr'.symm.trans hr

/-- A parameter of one of the lambdas that are being typed gets its type from an application. -/
theorem Step.apply (ht : s.program.types.Valid t) (hf : l ∈ f.sites)
    (hv : v ∈ (s.program.lambdas.get l).params) (hi : (s.program.vars.get v).init = none)
    (hsite : p0.marks.Calm s.writes → ∃ r, (s.program.colds.get r).fixing = true ∧
      l ∈ (s.program.colds.get r).sites)
    (hfirst : p0.marks.Calm s.writes → p0.marks.Fresh s.writes → ¬ s.program.VarKnown v) :
    Step p0 f s (s.after (.param v t)) := by
  have hrole := (hs.coherent.shaped.params l).2 v hv
  have hk : s.program.Keeps (s.after (.param v t)).program :=
    keeps_setVarSlot hs.coherent fun _ => ⟨t, rfl⟩
  have hcoh : (s.after (.param v t)).program.Coherent := by
    refine coherent_setVarSlot hs.coherent (fun _ => ⟨t, rfl⟩) fun u hu => ?_
    cases hu
    refine ⟨ht, ?_⟩
    rw [Program.VarTyped, hrole, hi]
    trivial
  have hslot {u : VarId} (hu : u ≠ v) :
      ((s.after (.param v t)).program.vars.get u).slot = (s.program.vars.get u).slot :=
    (slot_setVarSlot s.program v (.fixed t) u).trans (if_neg fun h => hu h.1.symm)
  have hlog : Logged p0 (s.after (.param v t)) := by
    refine hs.logged.after (Marks.kept_param_or_refixes _ v t) (fun u t' he => ?_)
      fun hc hfr hr => ?_
    · cases he
      rw [← hs.alike.role, ← hs.alike.init]
      exact ⟨hrole, hi⟩
    · obtain ⟨u, hu, _⟩ := hr
      rw [marks_var] at hu
      exact hfirst (hc.of_suffix suffix_after) (hfr.of_suffix suffix_after) ⟨u, hu⟩
  have hunapplied {l' : LambdaId} (hne : l' ≠ l) (h : s.program.Unapplied l') :
      (s.after (.param v t)).program.Unapplied l' := by
    intro u hu hui hn
    rw [hk.alike.lambdaParams] at hu
    rw [hk.alike.init] at hui
    refine h u hu hui ?_
    rwa [VarKnown, hslot] at hn
    rintro rfl
    exact hne (hs.owner_unique hv hu)
  refine ⟨⟨hs.alike.trans hk.alike, hcoh, hlog, fun hc => ?_, fun hc hfr => ?_, fun hc hfr => ?_⟩,
    hk, .of_nodes rfl rfl fun _ => id, suffix_after, fun _ => id, fun _ _ hp => ⟨rfl, .inl hp⟩,
    fun _ _ => .inl, fun _ => .of_eq rfl, fun _ => .of_eq rfl, fun _ _ _ _ => rfl,
    fun l' u hl' hu hui hn hkn => ?_, fun _ _ _ _ => rfl, fun _ _ r _ _ l' _ hl' u hu _ => ?_,
    fun c _ _ => .refl _ c, stays_setVarSlot fun _ _ hfield => by cases hrole.symm.trans hfield⟩
  · exact fun r hr hsig l' hl' =>
      hk.lambdaKnown (hs.signed (hc.of_suffix suffix_after) r hr hsig l' hl')
  · have hun := hs.unhurried (hc.of_suffix suffix_after) (hfr.of_suffix suffix_after)
    obtain ⟨r, hfix, hl⟩ := hsite (hc.of_suffix suffix_after)
    refine ⟨fun r' hr' hsig hfix' l' hl' => hunapplied ?_ (hun.sites r' hr' hsig hfix' l' hl'),
      fun l' hl' => hunapplied ?_ (hun.unplaced l' hl'), hun.fixing⟩
    · rintro rfl
      rw [hs.site_unique hl hl'] at hfix'
      cases hfix.symm.trans hfix'
    · rintro rfl
      obtain ⟨c, hc, _⟩ := hs.coherent.colds.sites r l' hl
      cases hc.symm.trans hl'
  · exact fun r hr t ht l' hl' => hs.fitted hk hlog suffix_after hc hfr hr ht hl'
  · refine absurd ?_ hn
    rwa [VarKnown, hslot] at hkn
    rintro rfl
    exact hl' (hs.owner_unique hv hu ▸ hf)
  · refine hslot ?_
    rintro rfl
    exact hl' (hs.owner_unique hv hu ▸ hf)

end

section

variable (h : Step p0 f (s.after (.fixing c true)) s') (hs : Inv p0 s)
  (hv : s.program.colds.Valid c)
include h hs hv

/-- What stood for `c` when its lambdas began to be typed still does, if nothing was merged into it.
-/
theorem Step.still_fixing (hc : p0.marks.Calm s'.writes) :
    s'.program.colds.find c = s.program.colds.find c ∧
      s'.program.colds.get (s.program.colds.find c) =
      { s.program.colds.lookup c with fixing := true } := by
  have hroot := hs.coherent.colds.rooted
  have hget : (s.after (.fixing c true)).program.colds.get (s.program.colds.find c) =
      { s.program.colds.lookup c with fixing := true } := by
    refine (get_updateCold s.program c _ ({ · with fixing := true })).trans (if_pos ⟨rfl, ?_⟩)
    exact hroot.valid_find hv
  have hfind : (s.after (.fixing c true)).program.colds.find c = s.program.colds.find c :=
    ColdTable.find_update (fun _ => by rfl) c c
  have hshield := (h.shielded hc (s.program.colds.find c) (by rw [hget]; exact hroot.forward_find c)
    (by rw [hget])).trans hget
  refine ⟨?_, hshield⟩
  rw [h.keeps.finds c, hfind]
  apply ColdTable.find_of_forward
  rw [hshield]
  exact hroot.forward_find c

/-- A placeholder that got its signature is otherwise what it was before its lambdas were typed. -/
theorem Step.get_sign (hfix : (s.program.colds.lookup c).fixing = false)
    (hc : p0.marks.Calm s'.writes) (t : TypeId) (r : ColdId) :
    ((s'.after (.fixing c false)).after (.signature c t)).program.colds.get r = if r =
      s.program.colds.find c then { s.program.colds.lookup c with signature := some t }
      else s'.program.colds.get r := by
  obtain ⟨hfind, hsame⟩ := h.still_fixing hs hv hc
  have hvalid : s'.program.colds.Valid (s.program.colds.find c) :=
    valid_of_get_ne fun he => nomatch (congrArg Cold.fixing (hsame.symm.trans he) :)
  have hfind4 : (s'.after (.fixing c false)).program.colds.find c = s.program.colds.find c :=
    (ColdTable.find_update (fun _ => by rfl) c c).trans hfind
  have h4 := get_updateCold s'.program c r ({ · with fixing := false })
  have h5 := get_updateCold (s'.after (.fixing c false)).program c r
    ({ · with signature := some t })
  rw [hfind] at h4
  rw [hfind4] at h5
  refine h5.trans ?_
  by_cases hr : r = s.program.colds.find c
  · subst hr
    rw [if_pos ⟨rfl, valid_modify.2 hvalid⟩, if_pos rfl]
    refine (congrArg (fun x : Cold => { x with signature := some t }) h4).trans ?_
    rw [if_pos ⟨rfl, hvalid⟩, hsame, ← hfix]
  · rw [if_neg (fun h => hr h.1.symm), if_neg hr]
    exact h4.trans (if_neg fun h => hr h.1.symm)

theorem Step.logged_sign (t : TypeId) :
    Logged p0 ((s'.after (.fixing c false)).after (.signature c t)) := by
  have hlog := h.inv.logged.after_kept (Marks.kept_fixing s'.program.marks c false) nofun
  have hsuf : s'.writes <:+ ((s'.after (.fixing c false)).after (.signature c t)).writes :=
    suffix_after.trans suffix_after
  refine hlog.after (Marks.kept_signature_or_refixes _ c t) nofun fun hc hf hr => ?_
  -- A placeholder that was begun afresh had no signature, and got none while its lambdas were
  -- typed.
  have hfresh := hs.logged.throughout_cons.1 ((hf.of_suffix hsuf).of_suffix h.log)
  have hnone : (s.program.colds.lookup c).signature = none := by
    simpa [Marks.Restarts, Program.marks] using hfresh.1
  obtain ⟨hfind, hsame⟩ := h.still_fixing hs hv (hc.of_suffix hsuf)
  obtain ⟨u, hu, _⟩ := hr
  have hsig : (s'.program.colds.lookup c).signature = some u := by
    rw [show (s'.after (.fixing c false)).program.marks.colds.lookup c = _ from
      ColdTable.lookup_update (fun _ => by rfl) c c] at hu
    split at hu <;> exact hu
  rw [ColdTable.lookup, hfind, hsame] at hsig
  cases hnone.symm.trans hsig

end

/-- Gives a placeholder its signature after all its lambdas were typed. -/
theorem Step.sign (hs : Inv p0 s) (hv : s.program.colds.Valid c)
    (hfix : (s.program.colds.lookup c).fixing = false)
    (h : Step p0 { sites := (s.program.colds.lookup c).sites } (s.after (.fixing c true)) s')
    (hlit : ∀ l ∈ (s.program.colds.lookup c).sites, s'.program.LambdaKnown l)
    (ht : ∃ params result, s'.program.types.get t = .lambda params result)
    (hfit : p0.marks.Calm s'.writes → p0.marks.Fresh s'.writes →
      ∀ l ∈ (s.program.colds.lookup c).sites, s'.program.Fitted t l) :
    Step p0 { colds := [c] } s ((s'.after (.fixing c false)).after (.signature c t)) := by
  have hstart := (Step.startFixing hs hv hfix).trans h
  have hcoh4 : (s'.after (.fixing c false)).program.Coherent :=
    coherent_updateCold h.inv.coherent (fun _ => by rfl) (fun _ => by rfl)
    (fun _ _ hx => .inl (by exact hx)) c
  have hk4 : s'.program.Keeps (s'.after (.fixing c false)).program :=
    keeps_updateCold h.inv.coherent (fun _ => by rfl) c
  have hcoh5 : ((s'.after (.fixing c false)).after (.signature c t)).program.Coherent := by
    refine coherent_updateCold hcoh4 (fun _ => by rfl) (fun _ => by rfl) (fun _ u hu => .inr ?_) c
    cases hu
    exact ht
  have hk5 : s'.program.Keeps ((s'.after (.fixing c false)).after (.signature c t)).program :=
    hk4.trans (keeps_updateCold hcoh4 (fun _ => by rfl) c)
  have hsuf : s'.writes <:+ ((s'.after (.fixing c false)).after (.signature c t)).writes :=
    suffix_after.trans suffix_after
  have hget (hc : p0.marks.Calm s'.writes) (r : ColdId) := h.get_sign hs hv hfix hc t r
  have hlog := h.logged_sign hs hv t
  refine
    { inv := ⟨hs.alike.trans (hstart.keeps.trans hk5).alike, hcoh5, hlog, fun hc => ?_, fun hc hf =>
      ?_, fun hc hf => ?_⟩
      keeps := hstart.keeps.trans hk5
      winds := ?_
      log := hstart.log.trans hsuf
      empty := hstart.empty
      begun := fun i hi hp => ?_
      new := fun i hi he => (hstart.new i hi he).imp id (hk5.done h.inv.coherent)
      methods := fun m => (hstart.methods m).trans (.of_eq rfl) hk5
      functions := fun d => (hstart.functions d).trans (.of_eq rfl) hk5
      entries := hstart.entries
      applied := fun l v _ hm hi hn hkn => ?_
      shielded := fun hc r hr hx => ?_
      untouched := fun hc hf r hr hx l hl _ v hm hi => ?_
      firm := fun d hd hother => ?_
      stays := { hstart.stays.trans (.of_eq rfl rfl rfl rfl) with } }
  rotate_left 3
  · have hwinds := h.winds.marking hs.coherent.colds.rooted hv hfix
    refine hwinds.trans (winds_signature hcoh4.colds.rooted ?_ t).1 (hstart.keeps.trans hk4).colds
    exact Nat.lt_of_lt_of_le hv (hstart.keeps.trans hk4).colds
  rotate_right 3
  · intro r hr hsig l hl
    rw [hget (hc.of_suffix hsuf)] at hr hsig hl
    split at hl
    · exact hk5.lambdaKnown (hlit l hl)
    · rw [if_neg ‹_›] at hr hsig
      exact hk5.lambdaKnown (h.inv.signed (hc.of_suffix hsuf) r hr hsig l hl)
  · have hun := h.inv.unhurried (hc.of_suffix hsuf) (hf.of_suffix hsuf)
    refine ⟨fun r hr hsig hx l hl => ?_, fun l hl => unapplied_of_keeps hk5 rfl (hun.unplaced l hl),
      fun r hr hx => ?_⟩
    · rw [hget (hc.of_suffix hsuf)] at hr hsig hx hl
      split at hsig
      · cases hsig
      · rw [if_neg ‹_›] at hr hx hl
        exact unapplied_of_keeps hk5 rfl (hun.sites r hr hsig hx l hl)
    · rw [hget (hc.of_suffix hsuf)] at hr hx ⊢
      split at hx
      · exact nomatch hfix.symm.trans hx
      · rw [if_neg ‹_›] at hr ⊢
        exact hun.fixing r hr hx
  · intro r hr u hu l hl
    rw [hget (hc.of_suffix hsuf)] at hr hu hl
    split at hl
    · rw [if_pos ‹_›] at hu
      cases hu
      exact (hfit (hc.of_suffix hsuf) (hf.of_suffix hsuf) l hl).keeps hk5
        (h.inv.logged.steady hlog hsuf hc hf) h.inv.coherent
    · rw [if_neg ‹_›] at hr hu
      exact h.inv.fitted hk5 hlog hsuf hc hf hr hu hl
  · obtain ⟨hform, hp | hp⟩ := hstart.begun i hi hp
    · exact ⟨hform, .inl hp⟩
    · exact ⟨hform, .keep h.inv.coherent hk5 hp⟩
  · by_cases hl : l ∈ (s.program.colds.lookup c).sites
    · exact hk5.lambdaKnown (hlit l hl)
    · exact hk5.lambdaKnown (hstart.applied l v hl hm hi hn hkn)
  · have hne : r ≠ s.program.colds.find c := by
      rintro rfl
      exact nomatch hfix.symm.trans hx
    rw [hget (hc.of_suffix hsuf), if_neg hne]
    exact hstart.shielded (hc.of_suffix hsuf) r hr hx
  · refine hstart.untouched (hc.of_suffix hsuf) (hf.of_suffix hsuf) r hr hx l hl
      (fun hl' => ?_) v hm hi
    rw [hs.site_unique hl' hl] at hx
    exact nomatch hfix.symm.trans hx
  · have hfirm := hstart.firm d hd nofun
    have hne : s'.program.colds.find c ≠ s'.program.colds.find d :=
      fun he => hother c (mem_singleton_self c) (hfirm.alone c he)
    have hfirm4 : s'.program.colds.Firm (s'.after (.fixing c false)).program.colds d :=
      ColdTable.firm_update (fun _ => by rfl) (.inl fun _ => by rfl)
    refine (hfirm.trans hfirm4).trans
      (ColdTable.firm_update (fun _ => by rfl) (.inr fun he => hne (hfirm4.alone c he)))

end Placeholders

end Typing

end ClassLang
