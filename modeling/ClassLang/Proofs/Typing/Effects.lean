import ClassLang.Proofs.Typing.State

namespace ClassLang

open Arena List

namespace Program

variable {p q : Program}

theorem Alike.extends (h : p.Alike q) (hnodes : ∀ i, p.nodes.Valid i → q.nodes.Valid i)
    (htargets : ∀ i, (p.form i).isTarget → (q.form i).isTarget) (hinsts : p.insts.Grows q.insts) :
    p.Extends q where
  nodes := hnodes
  targets := htargets
  vars _ := h.varsValid.2
  roles v _ := h.role v
  inits v _ := h.init v
  lambdas _ := h.lambdasValid.2
  insts _ := hinsts.valid
  listed _ := h.listed.2

structure Coherent.New (p q : Program) : Prop where
  targets : ∀ i, (p.form i).isTarget → (q.form i).isTarget
  forms : ∀ i, q.form i = p.form i ∨ p.Admits (q.form i) ∧
    ((q.form i).isType → ∀ c ∈ (q.form i).children, c.index < i.index)
  guards : ∀ i c y b, q.form i = .guard c y b → p.form i = .guard c y b
  methodBodies : ∀ m b, (q.methods.get m).body = some b → (p.methods.get m).body = some b ∨
    p.nodes.Valid b
  functionBodies : ∀ f b, (q.functions.get f).body = some b → (p.functions.get f).body = some b ∨
    p.nodes.Valid b
  nodes : ∀ i t, q.slot i = .fixed t → p.slot i = .fixed t ∨ p.types.Valid t
  vars : ∀ v t, (q.vars.get v).slot = .fixed t → (p.vars.get v).slot = .fixed t ∨ p.types.Valid t ∧
    p.VarTyped v t
  methods : ∀ m t, (q.methods.get m).slot = .fixed t → (p.methods.get m).slot = .fixed t ∨
    p.types.Valid t ∧ p.Spelled (p.methods.get m).params (p.methods.get m).result
  functions : ∀ f t, (q.functions.get f).slot = .fixed t → (p.functions.get f).slot = .fixed t ∨
    p.types.Valid t ∧ p.Spelled (p.functions.get f).params (p.functions.get f).result

theorem Coherent.New.refl (p : Program) : Coherent.New p p :=
  ⟨fun _ => id, fun _ => .inl rfl, fun _ _ _ _ => id, fun _ _ => .inl, fun _ _ => .inl, fun _ _ =>
    .inl, fun _ _ => .inl, fun _ _ => .inl, fun _ _ => .inl⟩

section Advancing

variable (hp : p.Coherent) (h : p.Keeps q) (hnew : Coherent.New p q) (htables : q.Tables)
include hp h hnew htables

theorem Coherent.shaped_of_new : q.Shaped := by
  have hext := h.alike.extends (fun _ => h.valid) hnew.targets h.insts
  exact
    { forms := fun i => (hnew.forms i).elim (fun he => he ▸ (hp.shaped.forms i).mono hext) fun h =>
      h.1.mono hext
      inits := fun v d hd => h.valid (hp.shaped.inits v d (by rwa [h.alike.init] at hd))
      bindings := fun v => by simpa only [h.alike.role, h.alike.init] using hp.shaped.bindings v
      guards := fun i j c y c' y' b hi hj => hp.shaped.guards i j c y c' y' b
        (hnew.guards i c y b hi) (hnew.guards j c' y' b hj)
      bodies := fun l hl => by
        rw [h.alike.lambdaBody]
        exact h.valid (hp.shaped.bodies l (h.alike.lambdasValid.1 hl))
      params := fun l => by simpa only [h.alike.lambdaParams, h.alike.role] using hp.shaped.params l
      owners := fun l l' v => by simpa only [h.alike.lambdaParams] using hp.shaped.owners l l' v
      methods := fun m => by
        have hd := (hp.shaped.methods m).mono hext
        rw [h.alike.methodParams, h.alike.methodResult]
        exact ⟨hd.params, hd.result, fun b hb =>
          h.valid ((hnew.methodBodies m b hb).elim ((hp.shaped.methods m).body b) id)⟩
      functions := fun f => by
        have hd := (hp.shaped.functions f).mono hext
        rw [h.alike.functionParams, h.alike.functionResult]
        exact ⟨hd.params, hd.result, fun b hb =>
          h.valid ((hnew.functionBodies f b hb).elim ((hp.shaped.functions f).body b) id)⟩
      entries := fun m f hf => by
        rw [h.alike.modules] at hf
        rw [h.alike.functionsValid, h.alike.listed, h.alike.functionParams, h.alike.functionResult]
        exact hp.shaped.entries m f hf
      listed := fun f hf => h.alike.functionsValid.2 (hp.shaped.listed f (h.alike.listed.1 hf))
      globals := fun n f hf =>
        h.alike.listed.2 (hp.shaped.globals n f (by rwa [h.alike.globals] at hf))
      bases := fun c b hb i hi => by
        rw [h.alike.bases] at hb
        exact h.insts.valid (hp.shaped.bases c b hb i hi)
      insts := htables.insts }

theorem Coherent.advance (hcolds : q.ColdsSound) : q.Coherent where
  shaped := hp.shaped_of_new h hnew htables
  ordered i := (hnew.forms i).elim (fun he => he ▸ hp.ordered i) And.right
  tables := htables
  nodeTypes i t ht := h.types.valid ((hnew.nodes i t ht).elim (hp.nodeTypes i t) id)
  varTypes v t ht := h.types.valid ((hnew.vars v t ht).elim (hp.varTypes v t) And.left)
  methodTypes m t ht := h.types.valid ((hnew.methods m t ht).elim (hp.methodTypes m t) And.left)
  functionTypes f t ht :=
    h.types.valid ((hnew.functions f t ht).elim (hp.functionTypes f t) And.left)
  vars v t ht := h.varTyped hp ((hnew.vars v t ht).elim (hp.vars v t) And.right) hnew.guards
  methods m hm := by
    obtain ⟨t, ht⟩ := hm
    rw [h.alike.methodParams, h.alike.methodResult]
    exact h.spelled ((hnew.methods m t ht).elim (fun h' => hp.methods m ⟨t, h'⟩) And.right)
  functions f hf := by
    obtain ⟨t, ht⟩ := hf
    rw [h.alike.functionParams, h.alike.functionResult]
    exact h.spelled ((hnew.functions f t ht).elim (fun h' => hp.functions f ⟨t, h'⟩) And.right)
  colds := hcolds

end Advancing

theorem ColdsSound.of_grows (hp : p.ColdsSound) (hcolds : q.colds = p.colds)
    (htypes : p.types.Grows q.types)
    (hlambdas : ∀ l, (q.lambdas.get l).cold = (p.lambdas.get l).cold) : q.ColdsSound where
  rooted := hcolds ▸ hp.rooted
  placed l c hc := by
    rw [hcolds]
    exact hp.placed l c (by rwa [hlambdas] at hc)
  sites r l hl := by
    rw [hcolds] at hl ⊢
    rw [hlambdas]
    exact hp.sites r l hl
  nodup r := hcolds ▸ hp.nodup r
  signatures c t ht := by
    rw [hcolds] at ht
    obtain ⟨params, result, hget⟩ := hp.signatures c t ht
    exact ⟨params, result, (htypes.get_eq (TypeTable.valid_of_get hget (by simp))).trans hget⟩
  filled c hc := by
    simp only [hlambdas]
    exact hp.filled c (hcolds ▸ hc)

theorem Coherent.renew (hp : p.Coherent) (hk : p.Keeps q) (htypes : q.types = p.types)
    (hinsts : q.insts = p.insts) (hcolds : q.colds = p.colds) (hlambdas : q.lambdas = p.lambdas)
    (hnew : Coherent.New p q) : q.Coherent :=
  hp.advance hk hnew (hp.tables.congr htypes hinsts hk.colds)
    (hp.colds.of_grows hcolds hk.types fun _ => by rw [hlambdas])

theorem Coherent.of_colds {lambdas : Arena .lambda Lambda} {colds : ColdTable} (hp : p.Coherent)
    (hk : p.Keeps { p with lambdas, colds }) (hcolds : ColdsSound { p with lambdas, colds }) :
    Coherent { p with lambdas, colds } :=
  hp.advance hk { Coherent.New.refl p with } (hp.tables.congr rfl rfl hk.colds) hcolds

section Adds

theorem Adds.keeps (h : p.Adds q) (hp : p.Coherent) : p.Keeps q := by
  have hu := h.under
  obtain ⟨hrest, htypes, hinsts, _⟩ := h
  generalize q.types = T at hrest htypes
  generalize q.insts = I at hrest hinsts
  subst hrest
  exact { Keeps.refl hp.colds.rooted with alike := hu.alike, types := htypes, insts := hinsts }

theorem Adds.coherent (h : p.Adds q) (hp : p.Coherent) : q.Coherent := by
  have hk := h.keeps hp
  obtain ⟨hrest, htypes, hinsts, htables⟩ := h
  generalize q.types = T at hrest htypes
  generalize q.insts = I at hrest hinsts
  subst hrest
  exact hp.advance hk { Coherent.New.refl p with } htables
    (hp.colds.of_grows rfl htypes fun _ => rfl)

end Adds

section SetSlot

variable {i : NodeId} {slot : Slot}

theorem form_setSlot (p : Program) (i : NodeId) (slot : Slot) (j : NodeId) :
    (p.setSlot i slot).form j = p.form j :=
  get_modify_eq Node.form (fun _ => by rfl) j

theorem slot_setSlot (p : Program) (i : NodeId) (slot : Slot) (j : NodeId) :
    (p.setSlot i slot).slot j = if i = j ∧ p.nodes.Valid i then slot else p.slot j := by
  simp only [Program.slot, setSlot, get_modify]
  split <;> rfl

theorem empty_setSlot (p : Program) (i : NodeId) (slot : Slot) (h : slot ≠ .empty) (j : NodeId)
    (hj : (p.setSlot i slot).slot j = .empty) : p.slot j = .empty := by
  rw [slot_setSlot] at hj
  split at hj
  · exact absurd hj h
  · exact hj

section

variable (hp : p.Coherent) (h : ∀ t, p.slot i = .fixed t → slot = .fixed t)
include hp h

theorem keeps_setSlot : p.Keeps (p.setSlot i slot) := by
  refine { Keeps.refl hp.colds.rooted with
    nodes := ?_
    slots := fun j t ht => ?_
    forms := fun j _ => ?_ }
  · exact Nat.le_of_eq (size_modify _ _ _).symm
  · rw [slot_setSlot]
    split
    · rename_i hij
      exact h t (hij.1 ▸ ht)
    · exact ht
  · exact form_setSlot p i slot j

theorem coherent_setSlot (ht : ∀ t, slot = .fixed t → p.types.Valid t) :
    (p.setSlot i slot).Coherent := by
  have hform := form_setSlot p i slot
  refine hp.renew (keeps_setSlot hp h) rfl rfl rfl rfl
    { Coherent.New.refl p with
      targets := fun j hj => by rwa [hform]
      forms := fun j => .inl (hform j)
      guards := fun j _ _ _ hj => (hform j).symm.trans hj
      nodes := fun j t hj => ?_ }
  rw [slot_setSlot] at hj
  split at hj
  · exact .inr (ht t hj)
  · exact .inl hj

end

end SetSlot

section SetForm

variable {i : NodeId} {form : Form}

theorem form_setForm (p : Program) (i : NodeId) (form : Form) (j : NodeId) :
    (p.setForm i form).form j = if i = j ∧ p.nodes.Valid i then form else p.form j := by
  simp only [Program.form, setForm, get_modify]
  split <;> rfl

theorem slot_setForm (p : Program) (i : NodeId) (form : Form) (j : NodeId) :
    (p.setForm i form).slot j = p.slot j :=
  get_modify_eq Node.slot (fun _ => by rfl) j

theorem keeps_setForm (hp : p.Coherent) (h : ¬ p.Known i) (form : Form) :
    p.Keeps (p.setForm i form) := by
  refine { Keeps.refl hp.colds.rooted with
    nodes := ?_
    slots := fun j t ht => ?_
    forms := fun j hj => ?_ }
  · exact Nat.le_of_eq (size_modify _ _ _).symm
  · rwa [slot_setForm]
  · rw [form_setForm, if_neg]
    rintro ⟨rfl, _⟩
    exact h hj

/-- The forms that come from types are neither guards nor types, and nothing that a jump can leave
becomes one. -/
theorem coherent_setForm (hp : p.Coherent) (h : ¬ p.Known i) (hform : p.Admits form)
    (hguard : ∀ c y b, form ≠ .guard c y b) (htype : form.isType = false)
    (htarget : (p.form i).isTarget = false) : (p.setForm i form).Coherent := by
  refine hp.renew (keeps_setForm hp h form) rfl rfl rfl rfl
    { Coherent.New.refl p with
      targets := fun j hj => ?_
      forms := fun j => ?_
      guards := fun j c y b hj => ?_
      nodes := fun j t hj => .inl ((slot_setForm p i form j).symm.trans hj) }
  · rw [form_setForm]
    split
    · rename_i hij
      rw [← hij.1, htarget] at hj
      cases hj
    · exact hj
  · rw [form_setForm]
    split
    · exact .inr ⟨hform, fun he => nomatch htype.symm.trans he⟩
    · exact .inl rfl
  · rw [form_setForm] at hj
    split at hj
    · exact absurd hj (hguard c y b)
    · exact hj

end SetForm

section AddNode

variable {value : NodeId} {loc : Location}

def addWeak (p : Program) (value : NodeId) (loc : Location) : Program :=
  (Write.add { form := .toWeak value, loc }).apply p

theorem form_addWeak (p : Program) (value : NodeId) (loc : Location) (j : NodeId) :
    (p.addWeak value loc).form j = if j = ⟨p.nodes.size⟩ then .toWeak value else p.form j := by
  simp only [Program.form, addWeak, Write.apply, get_push]
  split <;> rfl

theorem slot_addWeak (p : Program) (value : NodeId) (loc : Location) (j : NodeId) :
    (p.addWeak value loc).slot j = p.slot j := by
  simp only [Program.slot, addWeak, Write.apply, get_push]
  split
  · rename_i hj
    rw [hj, get_of_not_valid (not_valid_size _)]
    rfl
  · rfl

theorem valid_of_known {i : NodeId} (h : p.Known i) : p.nodes.Valid i := by
  obtain ⟨t, ht⟩ := h
  refine valid_of_get_ne fun he => ?_
  rw [Program.slot, he] at ht
  cases ht

theorem form_addWeak_of_valid {j : NodeId} (hj : p.nodes.Valid j) :
    (p.addWeak value loc).form j = p.form j := by
  rw [form_addWeak, if_neg]
  rintro rfl
  exact not_valid_size _ hj

theorem keeps_addWeak (hp : p.Coherent) (value : NodeId) (loc : Location) :
    p.Keeps (p.addWeak value loc) := by
  refine { Keeps.refl hp.colds.rooted with
    nodes := ?_
    slots := fun j t ht => ?_
    forms := fun j hj => ?_ }
  · exact Nat.le_trans (Nat.le_succ _) (Nat.le_of_eq (size_push _ _).symm)
  · rwa [slot_addWeak]
  · exact form_addWeak_of_valid (valid_of_known hj)

theorem coherent_addWeak (hp : p.Coherent) (hv : p.nodes.Valid value) :
    (p.addWeak value loc).Coherent := by
  refine hp.renew (keeps_addWeak hp value loc) rfl rfl rfl rfl
    { Coherent.New.refl p with
      targets := fun j hj => by rwa [form_addWeak_of_valid (valid_of_isTarget hj)]
      forms := fun j => ?_
      guards := fun j c y b hj => ?_
      nodes := fun j t hj => .inl ((slot_addWeak p value loc j).symm.trans hj) }
  · rw [form_addWeak]
    split
    · rename_i hnew
      refine .inr ⟨⟨forall_mem_singleton.2 hv, trivial⟩, fun _ => ?_⟩
      rw [hnew]
      exact forall_mem_singleton.2 hv
    · exact .inl rfl
  · rw [form_addWeak] at hj
    split at hj
    · cases hj
    · exact hj

end AddNode

section SetVarSlot

variable {v : VarId} {slot : Slot}

theorem slot_setVarSlot (p : Program) (v : VarId) (slot : Slot) (u : VarId) :
    ((p.setVarSlot v slot).vars.get u).slot = if v = u ∧
      p.vars.Valid v then slot else (p.vars.get u).slot := by
  simp only [setVarSlot, get_modify]
  split <;> rfl

theorem alike_setVarSlot (p : Program) (v : VarId) (slot : Slot) :
    p.Alike (p.setVarSlot v slot) := by
  simp only [Alike, outline, setVarSlot]
  rw [map_modify_eq]
  exact fun _ => rfl

section

variable (hp : p.Coherent) (h : p.VarKnown v → ∃ t, slot = .fixed t)
include hp h

theorem keeps_setVarSlot : p.Keeps (p.setVarSlot v slot) := by
  refine { Keeps.refl hp.colds.rooted with
    alike := alike_setVarSlot p v slot
    vars := fun u hu => ?_ }
  rw [VarKnown, slot_setVarSlot]
  split
  · rename_i hvu
    exact h (hvu.1 ▸ hu)
  · exact hu

theorem coherent_setVarSlot (ht : ∀ t, slot = .fixed t → p.types.Valid t ∧ p.VarTyped v t) :
    (p.setVarSlot v slot).Coherent := by
  refine hp.renew (keeps_setVarSlot hp h) rfl rfl rfl rfl
    { Coherent.New.refl p with vars := fun u t hu => ?_ }
  rw [slot_setVarSlot] at hu
  split at hu
  · rename_i hvu
    exact .inr (hvu.1 ▸ ht t hu)
  · exact .inl hu

end

end SetVarSlot

section Declarations

variable {m : MethodId} {d : FunctionId}

theorem alike_modifyMethod {g : Method → Method} (hg : ∀ x, (g x).outline = x.outline) (p : Program)
    (m : MethodId) : p.Alike (p.modifyMethod m g) := by
  simp only [Alike, outline, modifyMethod]
  rw [map_modify_eq _ hg]

theorem alike_modifyFunction {g : Function → Function} (hg : ∀ x, (g x).outline = x.outline)
    (p : Program) (d : FunctionId) : p.Alike (p.modifyFunction d g) := by
  simp only [Alike, outline, modifyFunction]
  rw [map_modify_eq _ hg]

theorem alike_modifyClass {g : ClassDef → ClassDef} (hg : ∀ x, (g x).outline = x.outline)
    (p : Program) (c : ClassId) : p.Alike (p.modifyClass c g) := by
  simp only [Alike, outline, modifyClass]
  rw [map_modify_eq _ hg]

abbrev fixMethod (p : Program) (m : MethodId) (t : TypeId) : Program :=
  p.modifyMethod m fun d => { d with slot := .fixed t }

abbrev fixFunction (p : Program) (d : FunctionId) (t : TypeId) : Program :=
  p.modifyFunction d fun d => { d with slot := .fixed t }

section

variable (hp : p.Coherent)
include hp

theorem keeps_modifyMethod {g : Method → Method} (hg : ∀ x, (g x).outline = x.outline)
    (hs : ∀ x t, x.slot = .fixed t → ∃ u, (g x).slot = .fixed u) (m : MethodId) :
    p.Keeps (p.modifyMethod m g) := by
  refine { Keeps.refl hp.colds.rooted with
    alike := alike_modifyMethod hg p m
    methods := fun n hn => ?_ }
  obtain ⟨t, ht⟩ := hn
  simp only [MethodKnown, modifyMethod, get_modify]
  split
  · exact hs _ t ht
  · exact ⟨t, ht⟩

theorem keeps_modifyFunction {g : Function → Function} (hg : ∀ x, (g x).outline = x.outline)
    (hs : ∀ x t, x.slot = .fixed t → ∃ u, (g x).slot = .fixed u) (d : FunctionId) :
    p.Keeps (p.modifyFunction d g) := by
  refine { Keeps.refl hp.colds.rooted with
    alike := alike_modifyFunction hg p d
    functions := fun n hn => ?_ }
  obtain ⟨t, ht⟩ := hn
  simp only [FunctionKnown, modifyFunction, get_modify]
  split
  · exact hs _ t ht
  · exact ⟨t, ht⟩

theorem keeps_fixMethod {t : TypeId} : p.Keeps (p.fixMethod m t) :=
  keeps_modifyMethod hp (fun _ => by rfl) (fun _ _ _ => ⟨t, by rfl⟩) m

theorem keeps_fixFunction {t : TypeId} : p.Keeps (p.fixFunction d t) :=
  keeps_modifyFunction hp (fun _ => by rfl) (fun _ _ _ => ⟨t, by rfl⟩) d

theorem keeps_modifyClass {g : ClassDef → ClassDef} (hg : ∀ x, (g x).outline = x.outline)
    (c : ClassId) : p.Keeps (p.modifyClass c g) :=
  { Keeps.refl hp.colds.rooted with alike := alike_modifyClass hg p c }

theorem coherent_modifyMethod {g : Method → Method} (hk : p.Keeps (p.modifyMethod m g))
    (hb : ∀ x b, (g x).body = some b → x.body = some b ∨ p.nodes.Valid b)
    (hs : ∀ x t, (g x).slot = .fixed t → x.slot = .fixed t ∨ p.types.Valid t ∧
      p.Spelled (p.methods.get m).params (p.methods.get m).result) :
    (p.modifyMethod m g).Coherent := by
  refine hp.renew hk rfl rfl rfl rfl { Coherent.New.refl p with
    methodBodies := fun n b hn => ?_
    methods := fun n t hn => ?_ } <;> rw [modifyMethod, get_modify] at hn <;> split at hn
  · exact hb _ b hn
  · exact .inl hn
  · rename_i hmn
    obtain ⟨rfl, _⟩ := hmn
    exact hs _ t hn
  · exact .inl hn

theorem coherent_modifyFunction {g : Function → Function} (hk : p.Keeps (p.modifyFunction d g))
    (hb : ∀ x b, (g x).body = some b → x.body = some b ∨ p.nodes.Valid b)
    (hs : ∀ x t, (g x).slot = .fixed t → x.slot = .fixed t ∨ p.types.Valid t ∧
      p.Spelled (p.functions.get d).params (p.functions.get d).result) :
    (p.modifyFunction d g).Coherent := by
  refine hp.renew hk rfl rfl rfl rfl { Coherent.New.refl p with
    functionBodies := fun n b hn => ?_
    functions := fun n t hn => ?_ } <;> rw [modifyFunction, get_modify] at hn <;> split at hn
  · exact hb _ b hn
  · exact .inl hn
  · rename_i hdn
    obtain ⟨rfl, _⟩ := hdn
    exact hs _ t hn
  · exact .inl hn

theorem coherent_modifyClass {g : ClassDef → ClassDef} (hg : ∀ x, (g x).outline = x.outline)
    (c : ClassId) : (p.modifyClass c g).Coherent :=
  hp.renew (keeps_modifyClass hp hg c) rfl rfl rfl rfl { Coherent.New.refl p with }

end

end Declarations

section Placeholders

variable {c : ColdId} {l : LambdaId} {x y : ColdId}

section Update

variable {g : Cold → Cold}

def updateCold (p : Program) (c : ColdId) (g : Cold → Cold) : Program :=
  { p with colds := p.colds.update c g }

theorem get_updateCold (p : Program) (c d : ColdId) (g : Cold → Cold) :
    (p.updateCold c g).colds.get d = if p.colds.find c = d ∧ p.colds.Valid (p.colds.find c) then g
      (p.colds.get d) else p.colds.get d :=
  ColdTable.get_update p.colds c d

theorem keeps_updateCold (hp : p.Coherent) (hf : ∀ x, (g x).forward = x.forward) (c : ColdId) :
    p.Keeps (p.updateCold c g) := by
  refine { Keeps.refl hp.colds.rooted with colds := ?_, finds := fun d => ?_ }
  · exact Nat.le_of_eq (size_modify _ _ _).symm
  · simp only [updateCold, ColdTable.find_update hf, hp.colds.rooted.find_find]

theorem coherent_updateCold (hp : p.Coherent) (hf : ∀ x, (g x).forward = x.forward)
    (hs : ∀ x, (g x).sites = x.sites)
    (ht : ∀ x t, (g x).signature = some t → x.signature = some t ∨
      ∃ params result, p.types.get t = .lambda params result) (c : ColdId) :
    (p.updateCold c g).Coherent := by
  have hsites (d : ColdId) : ((p.updateCold c g).colds.get d).sites = (p.colds.get d).sites := by
    rw [get_updateCold]
    split
    · exact hs _
    · rfl
  have hfind (d : ColdId) : (p.updateCold c g).colds.find d = p.colds.find d :=
    ColdTable.find_update hf c d
  refine hp.of_colds (keeps_updateCold hp hf c)
    (show ColdsSound (p.updateCold c g) from ⟨hp.colds.rooted.update hf c, fun l d hd => ?_,
      fun r l hl => ?_, fun r => ?_, fun d t hd => ?_, fun d hd =>
      hp.colds.filled d (valid_modify.1 hd)⟩)
  · obtain ⟨hv, hl⟩ := hp.colds.placed l d hd
    refine ⟨valid_modify.2 hv, ?_⟩
    rw [ColdTable.lookup, hfind, hsites]
    exact hl
  · rw [hsites] at hl
    obtain ⟨d, hd, hr⟩ := hp.colds.sites r l hl
    exact ⟨d, hd, (hfind d).trans hr⟩
  · rw [hsites]
    exact hp.colds.nodup r
  · rw [get_updateCold] at hd
    split at hd
    · exact (ht _ t hd).elim (hp.colds.signatures d t) id
    · exact hp.colds.signatures d t hd

end Update

theorem cold_place (hv : p.lambdas.Valid l) (l' : LambdaId) :
    (((Write.place l).apply p).lambdas.get l').cold = if l = l' then some ⟨p.colds.size⟩ else
      (p.lambdas.get l').cold := by
  simp only [Write.apply, get_modify, hv, and_true]
  split <;> rfl

theorem coherent_place (hp : p.Coherent) (hv : p.lambdas.Valid l)
    (hl : (p.lambdas.get l).cold = none) :
    p.Keeps ((Write.place l).apply p) ∧ ((Write.place l).apply p).Coherent := by
  have hcold := cold_place hv
  have hroot := hp.colds.rooted.create l
  have hfind (c : ColdId) : ((Write.place l).apply p).colds.find c = p.colds.find c := hroot.2 c
  have hget (c : ColdId) : ((Write.place l).apply p).colds.get c = if c = ⟨p.colds.size⟩
    then { sites := [l] } else p.colds.get c := ColdTable.get_create p.colds l c
  have hnew : p.colds.find ⟨p.colds.size⟩ = ⟨p.colds.size⟩ := by
    apply ColdTable.find_of_forward
    rw [get_of_not_valid (not_valid_size _)]
    rfl
  have halike : p.Alike ((Write.place l).apply p) := by
    simp only [Alike, outline, Write.apply]
    rw [map_modify_eq]
    exact fun _ => rfl
  have hk : p.Keeps ((Write.place l).apply p) := by
    refine { Keeps.refl hp.colds.rooted with
      alike := halike
      lambdas := fun l' c hc => ?_
      colds := ?_
      finds := fun c => ?_ }
    · rw [hcold, if_neg]
      · exact hc
      · rintro rfl
        cases hl.symm.trans hc
    · exact Nat.le_trans (Nat.le_succ _) (Nat.le_of_eq (size_push _ _).symm)
    · rw [hfind, hfind, hp.colds.rooted.find_find]
  refine ⟨hk, hp.of_colds hk
    (show ColdsSound ((Write.place l).apply p) from ⟨hroot.1, fun l' c hc => ?_, fun r l' hl' => ?_,
      fun r => ?_, fun c t hc => ?_, fun c hc => ?_⟩)⟩
  · rw [hcold] at hc
    split at hc
    · cases hc
      refine ⟨valid_push.2 (.inr rfl), ?_⟩
      rw [ColdTable.lookup, hfind, hnew, hget, if_pos rfl, ‹l = l'›]
      exact mem_singleton_self l'
    · obtain ⟨hcv, hsite⟩ := hp.colds.placed l' c hc
      have hne : p.colds.find c ≠ ⟨p.colds.size⟩ := fun he =>
        not_valid_size p.colds (he ▸ hp.colds.rooted.valid_find hcv)
      refine ⟨valid_push.2 (.inl hcv), ?_⟩
      rw [ColdTable.lookup, hfind, hget, if_neg hne]
      exact hsite
  · rw [hget] at hl'
    split at hl'
    · rename_i hr
      cases mem_singleton.1 hl'
      exact ⟨r, by rw [hcold, if_pos rfl, hr], by rw [hfind, hr, hnew]⟩
    · obtain ⟨c, hc, hr⟩ := hp.colds.sites r l' hl'
      refine ⟨c, ?_, (hfind c).trans hr⟩
      rw [hcold, if_neg]
      · exact hc
      · rintro rfl
        cases hl.symm.trans hc
  · rw [hget]
    split
    · exact nodup_singleton l
    · exact hp.colds.nodup r
  · rw [hget] at hc
    split at hc
    · cases hc
    · exact hp.colds.signatures c t hc
  · obtain hc | rfl := valid_push.1 hc
    · obtain ⟨l', hl'⟩ := hp.colds.filled c hc
      exact ⟨l', hk.lambdas l' c hl'⟩
    · exact ⟨l, by rw [hcold, if_pos rfl]⟩

theorem coherent_merge (hp : p.Coherent) (hx : p.colds.Valid x) (hy : p.colds.Valid y)
    (hne : p.colds.find x ≠ p.colds.find y) :
    p.Keeps ((Write.merge x y).apply p) ∧ ((Write.merge x y).apply p).Coherent := by
  obtain ⟨hroot, hfind⟩ := hp.colds.rooted.merge hx hy hne
  have hget := hp.colds.rooted.get_merge hx hy hne
  have hsize : ((Write.merge x y).apply p).colds.size = p.colds.size := by
    simp [Write.apply, ColdTable.merge, hne]
  have hk : p.Keeps ((Write.merge x y).apply p) :=
    { Keeps.refl hp.colds.rooted with
      colds := Nat.le_of_eq hsize.symm
      finds := fun c => by
        show (p.colds.merge x y).2.find c = (p.colds.merge x y).2.find (p.colds.find c)
        rw [hfind, hfind, hp.colds.rooted.find_find] }
  refine ⟨hk, hp.of_colds hk ⟨hroot, fun l c hc => ?_, fun r l hl => ?_, fun r => ?_,
    fun c t hc => ?_, fun c hc => hp.colds.filled c (Nat.lt_of_lt_of_eq hc hsize)⟩⟩
  · obtain ⟨hv, hl⟩ := hp.colds.placed l c hc
    refine ⟨Nat.lt_of_lt_of_eq hv hsize.symm, ?_⟩
    show l ∈ ((p.colds.merge x y).2.get ((p.colds.merge x y).2.find c)).sites
    rw [hfind]
    split
    · rename_i hcy
      rw [hget, if_pos rfl]
      exact mem_append_right _ (by rwa [ColdTable.lookup, ← hcy])
    · rename_i hcy
      rw [hget]
      split
      · rename_i hcx
        exact mem_append_left _ (by rwa [ColdTable.lookup, ← hcx])
      · exact hl
  · show ∃ c, (p.lambdas.get l).cold = some c ∧ (p.colds.merge x y).2.find c = r
    change l ∈ ((p.colds.merge x y).2.get r).sites at hl
    rw [hget] at hl
    split at hl
    · rename_i hr
      obtain hl | hl := mem_append.1 hl
      · obtain ⟨c, hc, hcx⟩ := hp.colds.sites _ l hl
        exact ⟨c, hc, by rw [hfind, hcx, if_neg hne, hr]⟩
      · obtain ⟨c, hc, hcy⟩ := hp.colds.sites _ l hl
        exact ⟨c, hc, by rw [hfind, hcy, if_pos rfl, hr]⟩
    · split at hl
      · cases hl
      · rename_i hry
        obtain ⟨c, hc, hcr⟩ := hp.colds.sites r l hl
        exact ⟨c, hc, by rw [hfind, hcr, if_neg hry]⟩
  · show ((p.colds.merge x y).2.get r).sites.Nodup
    rw [hget]
    split
    · refine nodup_append.2 ⟨hp.colds.nodup _, hp.colds.nodup _, fun l hl l' hl' he => ?_⟩
      obtain ⟨c, hc, hcx⟩ := hp.colds.sites _ l hl
      obtain ⟨c', hc', hcy⟩ := hp.colds.sites _ l' hl'
      cases (he ▸ hc).symm.trans hc'
      exact hne (hcx.symm.trans hcy)
    · split
      · exact nodup_nil
      · exact hp.colds.nodup r
  · change ((p.colds.merge x y).2.get c).signature = some t at hc
    rw [hget] at hc
    split at hc
    · exact hp.colds.signatures _ t hc
    · split at hc
      · exact hp.colds.signatures _ t hc
      · exact hp.colds.signatures c t hc

end Placeholders

end Program

end ClassLang
