import ClassLang.Proofs.Forest

namespace ClassLang.Program

open Arena List

variable {p q r : Program} {O : NodeId → Prop} {j : NodeId} {s : Root} {ts : List NodeId}

def Unbound (p : Program) (b : VarId) : Prop := ∀ i c y, p.form i ≠ .guard c y b

def Unclaimed (p : Program) (v : VarId) : Prop := ∀ l, v ∉ (p.lambdas.get l).params

/-- `q` is what `p` becomes by reading text: nothing there is taken for what is new. -/
structure Built (O : NodeId → Prop) (p q : Program) : Prop where
  shaped : q.Shaped
  untyped : q.Untyped
  sown : q.Sown O
  ext : p.Extends q
  kept : p.Retains q
  classes : p.classes.size ≤ q.classes.size
  guards : ∀ b, p.vars.Valid b → p.Unbound b → q.Unbound b
  owners : ∀ v, p.vars.Valid v → p.Unclaimed v → q.Unclaimed v

theorem Built.refl (hp : p.Shaped) (hu : p.Untyped) (hs : p.Sown O) : p.Built O p :=
  ⟨hp, hu, hs, .refl p, .refl p, Nat.le_refl _, fun _ _ => id, fun _ _ => id⟩

theorem Built.trans {O' : NodeId → Prop} (h : p.Built O q) (h' : q.Built O' r) : p.Built O' r where
  shaped := h'.shaped
  untyped := h'.untyped
  sown := h'.sown
  ext := h.ext.trans h'.ext
  kept := h.kept.trans h'.kept
  classes := Nat.le_trans h.classes h'.classes
  guards b hb hp := h'.guards b (h.ext.vars b hb) (h.guards b hb hp)
  owners v hv hp := h'.owners v (h.ext.vars v hv) (h.owners v hv hp)

theorem Built.open {i : NodeId} (h : p.Built O q) (hi : q.nodes.Valid i) (hfree : ¬ q.Taken i) :
    p.Built (fun t => O t ∨ t = i) q :=
  { h with sown := { h.sown with forest := h.sown.forest.open hi hfree } }

theorem Shaped.unbound (hp : p.Shaped) {b : VarId} (hb : ¬ p.vars.Valid b) : p.Unbound b := by
  intro i c y hi
  have hform := (hp.forms i).2
  rw [hi] at hform
  exact hb (valid_of_role hform (by simp))

theorem Shaped.unclaimed (hp : p.Shaped) {v : VarId} (hv : ¬ p.vars.Valid v) : p.Unclaimed v :=
  fun l hl => hv (valid_of_role ((hp.params l).2 v hl) (by simp))

section Text

variable {x : NodeId}

theorem Shaped.inner_of_grows (hp : p.Shaped) (hvars : p.vars.Grows q.vars)
    (hlambdas : p.lambdas.Grows q.lambdas) (i : NodeId) :
    q.inner (p.form i) = p.inner (p.form i) := by
  have hform := (hp.forms i).2
  unfold inner
  split
  · rename_i heq
    rw [heq] at hform
    rw [hvars.get_eq (valid_of_role hform (by simp))]
  · rename_i l heq
    rw [heq] at hform
    rw [hlambdas.get_eq hform, paramTypes_of_grows hvars (hp.params l).2]
  · rfl

theorem Shaped.valid_of_admits (hp : p.Shaped) {form : Form} (hform : p.Admits form)
    (hx : x ∈ p.inner form) : p.nodes.Valid x := by
  unfold inner at hx
  split at hx
  · rename_i v body
    rcases mem_append.1 hx with hx | hx
    · exact hp.inits v x (Option.mem_toList.1 hx)
    · exact hform.1 x hx
  · rename_i l
    rcases mem_append.1 hx with hx | hx
    · obtain ⟨v, _, hv⟩ := mem_filterMap.1 hx
      exact hp.inits v x hv
    · rw [mem_singleton.1 hx]
      exact hp.bodies l hform.2
  · exact hform.1 x hx

theorem Shaped.valid_of_inner (hp : p.Shaped) {i : NodeId} (hx : x ∈ p.inner (p.form i)) :
    p.nodes.Valid x :=
  hp.valid_of_admits (hp.forms i) hx

theorem Shaped.valid_of_taken (hp : p.Shaped) (hf : p.Forest O) (hj : p.Taken j) :
    p.nodes.Valid j := by
  obtain ⟨r, x, hx, hj⟩ := hj
  rcases Relation.ReflTransGen.cases_tail hj with rfl | ⟨k, _, hk⟩
  · exact hf.valid r _ hx
  · exact hp.valid_of_inner hk

variable (q' : Program) (h : p.Built O q) (hnodes : q.nodes.size ≤ q'.nodes.size)
  (hforms : ∀ i, q.nodes.Valid i → q'.form i = q.form i) (hvars : q.vars.Grows q'.vars)
  (hlambdas : q.lambdas.Grows q'.lambdas)
include h hnodes hforms hvars hlambdas

theorem Built.retains (htaken : ∀ j, q'.Taken j → q.Taken j ∨ p.nodes.size ≤ j.index) :
    p.Retains q' where
  nodes := Nat.le_trans h.kept.nodes hnodes
  forms i hi := (hforms i (h.kept.valid hi)).trans (h.kept.forms i hi)
  vars := h.kept.vars.trans hvars
  lambdas := h.kept.lambdas.trans hlambdas
  taken j hj := (htaken j hj).elim (h.kept.taken j) fun hle => .inr (Nat.not_lt.2 hle)

/-- More text, but no more of it in declarations. -/
theorem Built.spread (hroots : ∀ r, q'.rootParts r = q.rootParts r)
    (howners : ∀ r, q.rootParts r ≠ [] → q'.rootOwner r = q.rootOwner r)
    (hbodies : ∀ f, (q'.functions.get f).body = (q.functions.get f).body) :
    p.Retains q' ∧ q'.Forest O := by
  have hsame (j : NodeId) (hj : q.Taken j) : q'.form j = q.form j :=
    hforms j (h.shaped.valid_of_taken h.sown.forest hj)
  refine ⟨h.retains q' hnodes hforms hvars hlambdas fun j hj => .inl ?_, ?_⟩
  · refine hj.of_same (fun r x hx => hroots r ▸ hx) fun k hk => ?_
    rw [hsame k hk]
    exact h.shaped.inner_of_grows hvars hlambdas k
  · exact h.sown.forest.congr hvars hlambdas
      (fun j hj => (hforms j (valid_of_isTarget hj)).symm ▸ hj) hnodes hsame hroots howners hbodies

omit hnodes hforms in
/-- Trees that were read since `p` come to a declaration. -/
theorem Built.plant (hsame : q'.nodes = q.nodes) {xs : List NodeId}
    (hs : q'.rootParts s = q.rootParts s ++ xs)
    (hother : ∀ s', s' ≠ s → q'.rootParts s' = q.rootParts s')
    (hxs : q.Sprouts p.nodes.size (xs.map (⟨q'.rootOwner s, ts⟩, ·)))
    (hts : ∀ t ∈ ts, s.isField ∧ O t)
    (howners : ∀ s', q.rootParts s' ≠ [] → q'.rootOwner s' = q.rootOwner s')
    (hbodies : ∀ f b, (q.functions.get f).body = some b → (q'.functions.get f).body = some b)
    (hopen : ∀ t, O t → ∀ x ∈ xs, q.Below x t → x = t ∧ ∃ f, s = .function f ∧
      (q'.functions.get f).body = some t) : p.Retains q' ∧ q'.Forest O := by
  refine ⟨h.retains q' ?_ (fun i _ => ?_) hvars hlambdas fun j hj => ?_, ?_⟩
  · exact Nat.le_of_eq (by rw [hsame])
  · simp only [form, hsame]
  · exact taken_of_plant hvars hlambdas hsame hs hother hxs h.sown.forest hj
  · exact h.sown.forest.plant hvars hlambdas hsame hs hother hxs hts howners hbodies hopen

end Text

section Nodes

variable {form : Form} {loc : Location} {i : NodeId} {g : Node → Node}

def addNode (p : Program) (form : Form) (loc : Location) : Program :=
  { p with nodes := (p.nodes.push { form, loc }).2 }

theorem form_addNode (p : Program) (form : Form) (loc : Location) (j : NodeId) :
    (p.addNode form loc).form j = if j = ⟨p.nodes.size⟩ then form else p.form j := by
  simp only [Program.form, addNode, get_push]
  split <;> rfl

theorem slot_addNode (p : Program) (form : Form) (loc : Location) (j : NodeId) :
    (p.addNode form loc).slot j = p.slot j :=
  get_push_eq (a := p.nodes) (x := { form, loc }) Node.slot rfl j

theorem form_addNode_of_valid (hj : p.nodes.Valid j) : (p.addNode form loc).form j = p.form j := by
  rw [form_addNode, if_neg]
  rintro rfl
  exact not_valid_size _ hj

theorem extends_addNode (p : Program) (form : Form) (loc : Location) :
    p.Extends (p.addNode form loc) :=
  { Extends.refl p with
    nodes := fun j hj => valid_push.2 (.inl hj)
    targets := fun j hj => by rwa [form_addNode_of_valid (valid_of_isTarget hj)] }

theorem Shaped.addNode (hp : p.Shaped) (hform : p.Admits form)
    (hguard : ∀ c y b, form = .guard c y b → p.Unbound b) : (p.addNode form loc).Shaped := by
  have hext := extends_addNode p form loc
  refine
    { hp with
      forms := fun j => ?_
      inits := fun v d hd => hext.nodes d (hp.inits v d hd)
      guards := fun j k c y c' y' b hj hk => ?_
      bodies := fun l hl => hext.nodes _ (hp.bodies l hl)
      methods := fun m => (hp.methods m).mono hext
      functions := fun d => (hp.functions d).mono hext }
  · rw [form_addNode]
    split
    · exact hform.mono hext
    · exact (hp.forms j).mono hext
  · rw [form_addNode] at hj hk
    split at hj <;> split at hk
    · cases hj.symm.trans hk
      rfl
    · exact absurd hk (hguard c y b hj k c' y')
    · exact absurd hj (hguard c' y' b hk j c y)
    · exact hp.guards j k c y c' y' b hj hk

theorem Untyped.addNode (hu : p.Untyped) (hform : ∀ c ∈ form.children, p.nodes.Valid c) :
    (p.addNode form loc).Untyped := by
  refine { hu with
    ordered := fun j hj c hc => ?_
    nodes := fun j => (slot_addNode ..).trans (hu.nodes j) }
  rw [form_addNode] at hj hc
  split at hc
  · rename_i hnew
    subst hnew
    exact hform c hc
  · rw [if_neg ‹_›] at hj
    exact hu.ordered j hj c hc

theorem taken_addNode (hp : p.Shaped) (hf : p.Forest O) (hj : (p.addNode form loc).Taken j) :
    p.Taken j := by
  refine hj.of_same (fun r x hx => by cases r <;> exact hx) fun k hk => ?_
  rw [form_addNode_of_valid (hp.valid_of_taken hf hk)]
  rfl

theorem Nested.addNode (h : p.Nested) (hp : p.Shaped) (hform : p.Admits form) :
    (p.addNode form loc).Nested := by
  refine h.extend (fun i x hx => hp.valid_of_inner hx) (fun i hi => ?_) fun i hi x hx => ?_
  · rw [form_addNode_of_valid hi]
    rfl
  · rw [form_addNode] at hx
    refine Nat.lt_of_lt_of_le ?_ (Nat.not_lt.1 hi)
    split at hx
    · exact hp.valid_of_admits hform hx
    · exact hp.valid_of_inner (i := i) hx

theorem Built.addNode (h : p.Built O q) (hform : q.Admits form)
    (hguard : ∀ c y b, form = .guard c y b → q.Unbound b ∧ ¬ p.vars.Valid b) :
    p.Built O (q.addNode form loc) := by
  have hspread := h.spread (q.addNode form loc) (by simp [Program.addNode])
    (fun j hj => form_addNode_of_valid hj) (.refl _) (.refl _) (fun r => by cases r <;> rfl)
    (fun r _ => by cases r <;> rfl) fun _ => rfl
  refine
    { shaped := h.shaped.addNode hform fun c y b hf => (hguard c y b hf).1
      untyped := h.untyped.addNode hform.1
      sown := ⟨hspread.2, { h.sown.owned with }, { h.sown.unlinked with },
        h.sown.nested.addNode h.shaped hform⟩
      ext := h.ext.trans (extends_addNode ..)
      kept := hspread.1
      classes := h.classes
      guards := fun b hb hp j c y hj => ?_
      owners := h.owners }
  rw [form_addNode] at hj
  split at hj
  · exact (hguard c y b hj).2 hb
  · exact h.guards b hb hp j c y hj

theorem form_modifyNode (p : Program) (hg : ∀ n, (g n).form = form) (j : NodeId) :
    ({ p with nodes := p.nodes.modify i g } : Program).form j = if i = j ∧
      p.nodes.Valid i then form else p.form j := by
  simp only [Program.form, get_modify]
  split
  · exact hg _
  · rfl

section

variable (hg : ∀ n, (g n).form = form) (hkind : form.isTarget = (p.form i).isTarget)
include hg hkind

theorem isTarget_modifyNode (j : NodeId) :
    (({ p with nodes := p.nodes.modify i g } : Program).form j).isTarget = (p.form j).isTarget := by
  rw [form_modifyNode p hg]
  split
  · rename_i h
    rw [hkind, h.1]
  · rfl

theorem extends_modifyNode : p.Extends { p with nodes := p.nodes.modify i g } :=
  { Extends.refl p with
    nodes := fun _ => valid_modify.2
    targets := fun j hj => (isTarget_modifyNode hg hkind j).trans hj }

end

theorem Shaped.modifyNode (hp : p.Shaped) (hg : ∀ n, (g n).form = form)
    (hkind : form.isTarget = (p.form i).isTarget) (hform : p.Admits form)
    (hguard : ∀ c y b, form ≠ .guard c y b) :
    ({ p with nodes := p.nodes.modify i g } : Program).Shaped := by
  have hext := extends_modifyNode hg hkind
  have old : ∀ j c y b, ({ p with nodes := p.nodes.modify i g } : Program).form j = .guard c y b →
      p.form j = .guard c y b := by
    intro j c y b hj
    rw [form_modifyNode p hg] at hj
    split at hj
    · exact absurd hj (hguard c y b)
    · exact hj
  refine
    { hp with
      forms := fun j => ?_
      inits := fun v d hd => hext.nodes d (hp.inits v d hd)
      guards := fun j k c y c' y' b hj hk => hp.guards j k c y c' y' b (old j c y b hj)
        (old k c' y' b hk)
      bodies := fun l hl => hext.nodes _ (hp.bodies l hl)
      methods := fun m => (hp.methods m).mono hext
      functions := fun d => (hp.functions d).mono hext }
  rw [form_modifyNode p hg]
  split
  · exact hform.mono hext
  · exact (hp.forms j).mono hext

theorem Untyped.modifyNode (hu : p.Untyped) (hg : ∀ n, (g n).form = form)
    (hslot : ∀ n, (g n).slot = n.slot)
    (horder : form.isTarget = false → ∀ c ∈ form.children, c.index < i.index) :
    ({ p with nodes := p.nodes.modify i g } : Program).Untyped := by
  refine { hu with
    ordered := fun j hj c hc => ?_
    nodes := fun j => (get_modify_eq _ hslot j).trans (hu.nodes j) }
  rw [form_modifyNode p hg] at hj hc
  split at hc
  · rename_i h
    rw [if_pos h] at hj
    exact h.1 ▸ horder hj c hc
  · rw [if_neg ‹_›] at hj
    exact hu.ordered j hj c hc

theorem taken_modifyNode (hg : ∀ n, (g n).form = form) (hfree : ¬ p.Taken i)
    (hj : ({ p with nodes := p.nodes.modify i g } : Program).Taken j) : p.Taken j := by
  refine hj.of_same (fun r x hx => by cases r <;> exact hx) fun k hk => ?_
  have hne : ¬ (i = k ∧ p.nodes.Valid i) := fun h => hfree (h.1 ▸ hk)
  rw [form_modifyNode p hg, if_neg hne]
  rfl

theorem Made.modifyNode {z : Zone} {body : List NodeId} (hg : ∀ n, (g n).form = form)
    (hi : (p.form i).isTarget) (hfree : ¬ p.Taken i)
    (hform : form = .block body ∨ form = .loop body)
    (hparts : p.Sprouts (i.index + 1) (body.map (z.entering i, ·))) :
    ({ p with nodes := p.nodes.modify i g } : Program).Made i.index z i := by
  refine .finish (p := p) ?_ (fun j hj => ?_) (by simp) rfl rfl hi
    (fun j => taken_modifyNode hg hfree) hparts hfree
  · rwa [form_modifyNode p hg, if_pos ⟨rfl, valid_of_isTarget hi⟩]
  · have hne : ¬ (i = j ∧ p.nodes.Valid i) := fun h => hj h.1.symm
    rw [form_modifyNode p hg, if_neg hne]

theorem Built.finishNode (h : p.Built O q) (hg : ∀ n, (g n).form = form)
    (hslot : ∀ n, (g n).slot = n.slot) (hi : (q.form i).isTarget) (hform : form.isTarget)
    (hparts : ∀ c ∈ form.children, q.nodes.Valid c)
    (hafter : ∀ c ∈ form.children, ∀ j, q.Below c j → i.index < j.index)
    (hfresh : ¬ p.nodes.Valid i) (hfree : ¬ q.Taken i) :
    p.Built O { q with nodes := q.nodes.modify i g } := by
  have hforms (j : NodeId) (hj : i ≠ j) : ({ q with nodes := q.nodes.modify i g } : Program).form
      j = q.form j := by
    rw [form_modifyNode q hg, if_neg fun h => hj h.1]
  have hsame (j : NodeId) (hj : q.Taken j) : ({ q with nodes := q.nodes.modify i g } : Program).form
    j = q.form j := hforms j fun he => hfree (he ▸ hj)
  have hkind := hform.trans hi.symm
  have hguard (c y : NodeId) (b : VarId) : form ≠ .guard c y b := by
    rintro rfl
    cases hform
  refine
    { shaped := h.shaped.modifyNode hg hkind ⟨hparts, by cases form <;> trivial⟩ hguard
      untyped := h.untyped.modifyNode hg hslot fun hno => nomatch hform.symm.trans hno
      sown := ⟨?_, { h.sown.owned with }, { h.sown.unlinked with },
        h.sown.nested.finish (i := i) (fun j hj => ?_) ?_⟩
      ext := h.ext.trans (extends_modifyNode hg hkind)
      kept := ?_
      classes := h.classes
      guards := fun b hb hp j c y hj => ?_
      owners := h.owners }
  · exact h.sown.forest.congr (p := q) (.refl _) (.refl _) (extends_modifyNode hg hkind).targets
      (by simp) hsame (fun r => by cases r <;> rfl) (fun r _ => by cases r <;> rfl) fun _ => rfl
  · rw [hforms j hj.symm]
    rfl
  · rw [form_modifyNode q hg, if_pos ⟨rfl, valid_of_isTarget hi⟩]
    cases form <;> first | exact hafter | cases hform
  · refine ⟨by simpa using h.kept.nodes, fun j hj => ?_, h.kept.vars, h.kept.lambdas,
      fun j hj => ?_⟩
    · exact (hforms j fun he => hfresh (he ▸ hj)).trans (h.kept.forms j hj)
    · exact h.kept.taken j (taken_modifyNode hg hfree hj)
  · rw [form_modifyNode q hg] at hj
    split at hj
    · exact hguard c y b hj
    · exact h.guards b hb hp j c y hj

end Nodes

section Declarations

variable {var : Var} {lambda : Lambda} {method : Method} {function : Function}

theorem extends_addVar (p : Program) (var : Var) :
    p.Extends { p with vars := (p.vars.push var).2 } :=
  { Extends.refl p with
    vars := fun v hv => valid_push.2 (.inl hv)
    roles := fun v hv => by simp only [get_push_of_valid hv]
    inits := fun v hv => by simp only [get_push_of_valid hv] }

theorem rootParts_addVar (hp : p.Shaped) (var : Var) (hs : s ≠ .field ⟨p.vars.size⟩) :
    ({ p with vars := (p.vars.push var).2 } : Program).rootParts s = p.rootParts s := by
  have htypes {params : List VarId} {result body : Option NodeId}
    (h : p.Declares params result body) :
    ({ p with vars := (p.vars.push var).2 } : Program).paramTypes params = p.paramTypes params :=
    paramTypes_of_grows (q := { p with vars := (p.vars.push var).2 }) (.push _ _) fun v hv =>
    (h.params v hv).1
  cases s with
  | field v => simp only [rootParts, get_push, if_neg fun he => hs (congrArg Root.field he)]
  | method m => simp only [rootParts, htypes (hp.methods m)]
  | function f => simp only [rootParts, htypes (hp.functions f)]
  | param _ | bases _ => rfl

theorem rootOwner_addVar (p : Program) (var : Var) (hs : p.rootParts s ≠ []) :
    ({ p with vars := (p.vars.push var).2 } : Program).rootOwner s = p.rootOwner s := by
  cases s with
  | field v =>
    have hv : p.vars.Valid v := valid_of_get_ne fun he => hs (by rw [rootParts, he]; rfl)
    simp only [rootOwner, get_push_of_valid hv]
  | _ => rfl

section

variable (h : p.Built O q)
include h

/-- The first value of a field is the text of a declaration from then on. -/
theorem Built.addVar (hinit : ∀ d, var.init = some d → q.nodes.Valid d)
    (hbinding : var.role = .binding → var.init = none) (hslot : var.slot = .empty)
    (hfield : q.Sprouts p.nodes.size (var.fieldInit.map (⟨var.owner?, ts⟩, ·)))
    (hts : ∀ t ∈ ts, O t) (hclear : q.Clear O var.fieldInit) :
    p.Built O { q with vars := (q.vars.push var).2 } := by
  have hext := extends_addVar q var
  have hgrows : q.vars.Grows (q.vars.push var).2 := .push _ _
  have hroot : ({ q with vars := (q.vars.push var).2 } : Program).rootParts (.field ⟨q.vars.size⟩) =
      q.rootParts (.field ⟨q.vars.size⟩) ++ var.fieldInit := by
    simp [rootParts, get_push, get_of_not_valid (not_valid_size _)]
    rfl
  have hplant := h.plant { q with vars := (q.vars.push var).2 } hgrows (.refl _) rfl hroot
    (fun s hs => rootParts_addVar h.shaped var hs) (by simpa [rootOwner, get_push] using hfield)
    (fun t ht => ⟨rfl, hts t ht⟩) (fun s hs => rootOwner_addVar q var hs) (fun _ _ => id)
    fun t ht x hx hb => absurd hb (hclear t ht x hx)
  refine { h with
    shaped := ?_, untyped :=
      { h.untyped with vars := fun v => (get_push_eq Var.slot hslot v).trans (h.untyped.vars v) },
    sown := ⟨hplant.2, ?_, { h.sown.unlinked with },
      h.sown.nested.congr (h.shaped.inner_of_grows hgrows (.refl _))⟩,
    ext := h.ext.trans hext, kept := hplant.1 }
  · refine
      { h.shaped with
        forms := fun i => (h.shaped.forms i).mono hext
        inits := fun v d => ?_
        bindings := fun v => ?_
        params := fun l => ⟨(h.shaped.params l).1, fun v hv =>
          hext.role ((h.shaped.params l).2 v hv) (by simp)⟩
        methods := fun m => (h.shaped.methods m).mono hext
        functions := fun f => (h.shaped.functions f).mono hext }
    · simp only [get_push]
      split
      · exact hinit d
      · exact h.shaped.inits v d
    · simp only [get_push]
      split
      · exact hbinding
      · exact h.shaped.bindings v
  · refine { h.sown.owned with fields := fun c f hf => ?_ }
    obtain ⟨hv, hrest⟩ := h.sown.owned.fields c f hf
    refine ⟨hgrows.valid hv, ?_⟩
    simp only [get_push_of_valid hv]
    exact hrest

theorem Built.addLambda (hbody : q.nodes.Valid lambda.body) (hnodup : lambda.params.Nodup)
    (hparams : ∀ v ∈ lambda.params, (q.vars.get v).role = .param ∧ q.Unclaimed v ∧ ¬ p.vars.Valid v)
    (hcold : lambda.cold = none) : p.Built O { q with lambdas := (q.lambdas.push lambda).2 } := by
  have hext : q.Extends { q with lambdas := (q.lambdas.push lambda).2 } :=
    { Extends.refl q with lambdas := fun l hl => valid_push.2 (.inl hl) }
  have hspread := h.spread { q with lambdas := (q.lambdas.push lambda).2 } (Nat.le_refl _)
    (fun _ _ => rfl) (.refl _) (.push _ _) (fun r => by cases r <;> rfl)
    (fun r _ => by cases r <;> rfl) fun _ => rfl
  refine
    { h with
      shaped := ?_
      untyped := { h.untyped with
        lambdas := fun l => (get_push_eq Lambda.cold hcold l).trans (h.untyped.lambdas l) }
      sown := ⟨hspread.2, { h.sown.owned with }, { h.sown.unlinked with },
        h.sown.nested.congr (h.shaped.inner_of_grows (.refl _) (.push _ _))⟩
      ext := h.ext.trans hext
      kept := hspread.1
      owners := fun v hv hp l => ?_ }
  · refine
      { h.shaped with
        forms := fun i => (h.shaped.forms i).mono hext
        bodies := fun l hl => ?_
        params := fun l => ?_
        owners := fun l l' v hl hl' => ?_
        methods := fun m => (h.shaped.methods m).mono hext
        functions := fun f => (h.shaped.functions f).mono hext }
    · simp only [get_push]
      split
      · exact hbody
      · exact h.shaped.bodies l ((valid_push.1 hl).resolve_right ‹_›)
    · simp only [get_push]
      split
      · exact ⟨hnodup, fun v hv => (hparams v hv).1⟩
      · exact h.shaped.params l
    · simp only [get_push] at hl hl'
      split at hl <;> split at hl'
      · exact ‹l = _›.trans ‹l' = _›.symm
      · exact absurd hl' ((hparams v hl).2.1 l')
      · exact absurd hl ((hparams v hl').2.1 l)
      · exact h.shaped.owners l l' v hl hl'
  · simp only [get_push]
    split
    · exact fun hmem => (hparams v hmem).2.2 hv
    · exact h.owners v hv hp l

theorem Built.retains_addLambda (lambda : Lambda) :
    q.Retains { q with lambdas := (q.lambdas.push lambda).2 } :=
  And.left <| Built.spread _ (.refl h.shaped h.untyped h.sown) (Nat.le_refl _) (fun _ _ => rfl)
    (.refl _) (.push _ _) (fun r => by cases r <;> rfl) (fun r _ => by cases r <;> rfl) fun _ => rfl

theorem Built.addMethod (hm : q.Declares method.params method.result method.body)
    (hslot : method.slot = .empty) (hoverrides : method.overrides = none)
    (htext : q.Sprouts p.nodes.size
      ((q.paramTypes method.params ++ method.result.toList ++ method.body.toList).map
        (⟨some method.owner, []⟩, ·)))
    (hclear : q.Clear O
      (q.paramTypes method.params ++ method.result.toList ++ method.body.toList)) :
    p.Built O { q with methods := (q.methods.push method).2 } := by
  have hext : q.Extends { q with methods := (q.methods.push method).2 } := { Extends.refl q with }
  have hgrows : q.methods.Grows (q.methods.push method).2 := .push _ _
  have howner : ({ q with methods := (q.methods.push method).2 } : Program).rootOwner
      (.method ⟨q.methods.size⟩) = some method.owner := by
    simp [rootOwner, get_push]
  rw [← howner] at htext
  have hplant := h.plant { q with methods := (q.methods.push method).2 } (.refl _)
    (.refl _) rfl ?_ ?_ htext nofun ?_ (fun _ _ => id) fun t ht x hx hb =>
    absurd hb (hclear t ht x hx)
  · refine { h with
      shaped := ?_
      untyped := { h.untyped with
        methods := fun m => (get_push_eq Method.slot hslot m).trans (h.untyped.methods m) }
      sown := ⟨hplant.2, ?_, { h.sown.unlinked with overrides := fun m => ?_ }, h.sown.nested⟩
      ext := h.ext.trans hext
      kept := hplant.1 }
    · refine
        { h.shaped with
          methods := fun m => ?_
          functions := fun f => (h.shaped.functions f).mono hext }
      simp only [get_push]
      split
      · exact hm.mono hext
      · exact (h.shaped.methods m).mono hext
    · refine { h.sown.owned with methods := fun c m hm => ?_, overloads := fun c k b hb m hm => ?_ }
      · obtain ⟨hv, hrest⟩ := h.sown.owned.methods c m hm
        refine ⟨hgrows.valid hv, ?_⟩
        simp only [get_push_of_valid hv]
        exact hrest
      · obtain ⟨hv, hrest⟩ := h.sown.owned.overloads c k b hb m hm
        refine ⟨hgrows.valid hv, ?_⟩
        simp only [get_push_of_valid hv]
        exact hrest
    · exact (get_push_eq Method.overrides hoverrides m).trans (h.sown.unlinked.overrides m)
  · simp [rootParts, get_push, get_of_not_valid (not_valid_size _), paramTypes]
    rfl
  · intro s hs
    cases s with
    | method m =>
      simp only [rootParts, get_push, if_neg fun he => hs (congrArg Root.method he), paramTypes]
    | _ => rfl
  · intro s hs
    cases s with
    | method m =>
      have hv : q.methods.Valid m := valid_of_get_ne fun he => hs (by rw [rootParts, he]; rfl)
      simp only [rootOwner, get_push_of_valid hv]
    | _ => rfl

theorem Built.addFunction (hf : q.Declares function.params function.result function.body)
    (hslot : function.slot = .empty)
    (htext : q.Sprouts p.nodes.size
      ((q.paramTypes function.params ++ function.result.toList ++ function.body.toList).map
        (⟨none, []⟩, ·)))
    (hopen : ∀ t, O t → ∀ x ∈ q.paramTypes function.params ++ function.result.toList ++
      function.body.toList, q.Below x t → x = t ∧ function.body = some t) :
    p.Built O { q with functions := (q.functions.push function).2 } := by
  have hext : q.Extends { q with functions := (q.functions.push function).2 } :=
    { Extends.refl q with }
  have hplant := h.plant { q with functions := (q.functions.push function).2 }
    (s := .function ⟨q.functions.size⟩) (.refl _) (.refl _) rfl ?_ ?_ htext nofun
    (fun s _ => by cases s <;> rfl) (fun f b hb => ?_) fun t ht x hx hb => ?_
  · refine { h with
      shaped := ?_,
      untyped := { h.untyped with
        functions := fun f => (get_push_eq Function.slot hslot f).trans (h.untyped.functions f) },
      sown := ⟨hplant.2, { h.sown.owned with }, { h.sown.unlinked with }, h.sown.nested⟩, ext :=
        h.ext.trans hext, kept := hplant.1 }
    · refine
        { h.shaped with
          methods := fun m => (h.shaped.methods m).mono hext
          functions := fun f => ?_
          entries := fun m f hm => ?_
          listed := fun f hl => valid_push.2 (.inl (h.shaped.listed f hl)) }
      · simp only [get_push]
        split
        · exact hf.mono hext
        · exact (h.shaped.functions f).mono hext
      · obtain ⟨hv, hrest⟩ := h.shaped.entries m f hm
        refine ⟨valid_push.2 (.inl hv), ?_⟩
        simp only [get_push_of_valid hv]
        exact hrest
  · simp [rootParts, get_push, get_of_not_valid (not_valid_size _), paramTypes]
    rfl
  · intro s hs
    cases s with
    | function f =>
      simp only [rootParts, get_push, if_neg fun he => hs (congrArg Root.function he), paramTypes]
    | _ => rfl
  · have hv : q.functions.Valid f := valid_of_get_ne fun he => by rw [he] at hb; cases hb
    rw [get_push_of_valid hv]
    exact hb
  · obtain ⟨hxt, hbody⟩ := hopen t ht x hx hb
    refine ⟨hxt, _, rfl, ?_⟩
    rw [get_push, if_pos rfl]
    exact hbody

theorem Built.declare {classes : Arena .classDef ClassDef} {params : Arena .classParam ClassParam}
    (hclasses : q.classes.size ≤ classes.size)
    (hbases : ∀ c, ∀ b ∈ (classes.get c).bases, ∀ i, b.inst = some i → q.insts.Valid i)
    (howned : ({ q with classes, params } : Program).Owned)
    (hunlinked : ({ q with classes, params } : Program).Unlinked)
    (hforest : p.Retains { q with classes, params } ∧
      ({ q with classes, params } : Program).Forest O) : p.Built O { q with classes, params } := by
  have hext : q.Extends { q with classes, params } := { Extends.refl q with }
  exact
    { h with
      shaped :=
        { h.shaped with
          bases := hbases
          methods := fun m => (h.shaped.methods m).mono hext
          functions := fun f => (h.shaped.functions f).mono hext }
      untyped := { h.untyped with }
      sown := ⟨hforest.2, howned, hunlinked, h.sown.nested⟩
      ext := h.ext.trans hext
      kept := hforest.1
      classes := Nat.le_trans h.classes hclasses }

theorem Built.modules {modules : Arena .moduleDef Module} {names : NameTable}
    (hlisted : ∀ f, q.Listed f → ({ q with modules } : Program).Listed f)
    (hvalid : ∀ f, ({ q with modules } : Program).Listed f → q.functions.Valid f)
    (hclasses : ∀ m, ∀ c ∈ (modules.get m).classes, q.classes.Valid c)
    (hentries : ∀ m f, (modules.get m).entry = some f → q.functions.Valid f ∧
      ¬ ({ q with modules } : Program).Listed f ∧ (q.functions.get f).params = [] ∧
      (q.functions.get f).result = none) : p.Built O { q with modules, names } := by
  have hext : q.Extends { q with modules, names } := { Extends.refl q with listed := hlisted }
  have hspread := h.spread { q with modules, names } (Nat.le_refl _) (fun _ _ => rfl) (.refl _)
    (.refl _) (fun r => by cases r <;> rfl) (fun r _ => by cases r <;> rfl) fun _ => rfl
  exact
    { h with
      shaped :=
        { h.shaped with
          forms := fun i => (h.shaped.forms i).mono hext
          methods := fun m => (h.shaped.methods m).mono hext
          functions := fun f => (h.shaped.functions f).mono hext
          entries := hentries
          listed := hvalid
          globals := fun n f hn => hlisted f (h.shaped.globals n f hn) }
      untyped := { h.untyped with }
      sown := ⟨hspread.2, { h.sown.owned with classes := hclasses }, { h.sown.unlinked with },
        h.sown.nested⟩
      ext := h.ext.trans hext
      kept := hspread.1 }

theorem Built.names (names : NameTable) : p.Built O { q with names } :=
  h.modules (fun _ => id) h.shaped.listed h.sown.owned.classes h.shaped.entries

end

theorem exists_of_mem_modify {bases : List Base} {n : Nat} {g : Base → Base} {b : Base}
    (h : b ∈ bases.modify n g) : ∃ b' ∈ bases, b = b' ∨ b = g b' := by
  obtain ⟨j, hj⟩ := mem_iff_getElem?.1 h
  rw [getElem?_modify] at hj
  obtain ⟨a, ha, hb⟩ := Option.map_eq_some_iff.1 hj
  refine ⟨a, mem_of_getElem? ha, ?_⟩
  split at hb
  · exact .inr hb.symm
  · exact .inl hb.symm

section Modules

variable {d : ModuleId} {f : FunctionId} {g : Module → Module}

theorem listed_modifyModule (hg : ∀ m, (g m).functions = m.functions) {f : FunctionId} :
    (p.modifyModule d g).Listed f ↔ p.Listed f := by
  simp only [Listed, modifyModule, get_modify_eq Module.functions hg]

theorem Owned.classes_modify (h : p.Owned)
    (hg : ∀ m, ∀ c ∈ (g m).classes, c ∈ m.classes ∨ p.classes.Valid c) (m : ModuleId) :
    ∀ c ∈ ((p.modules.modify d g).get m).classes, p.classes.Valid c := by
  intro c hc
  rw [get_modify] at hc
  split at hc
  · exact (hg _ c hc).elim (h.classes _ c) id
  · exact h.classes m c hc

theorem Built.modifyModule (h : p.Built O q) (hfunctions : ∀ m, (g m).functions = m.functions)
    (hentry : ∀ m, (g m).entry = m.entry)
    (hclasses : ∀ m, ∀ c ∈ (g m).classes, c ∈ m.classes ∨ q.classes.Valid c) (d : ModuleId) :
    p.Built O (q.modifyModule d g) := by
  refine h.modules (fun f => (listed_modifyModule hfunctions).2)
    (fun f hf => h.shaped.listed f ((listed_modifyModule hfunctions).1 hf))
    (h.sown.owned.classes_modify hclasses) fun m f hm => ?_
  rw [get_modify_eq Module.entry hentry] at hm
  obtain ⟨hv, hl, hrest⟩ := h.shaped.entries m f hm
  exact ⟨hv, fun hf => hl ((listed_modifyModule hfunctions).1 hf), hrest⟩

theorem Built.addModule (h : p.Built O q) {m : Module} (hfunctions : m.functions = [])
    (hentry : m.entry = none) (hclasses : m.classes = []) :
    p.Built O { q with modules := (q.modules.push m).2 } := by
  have hlisted : ∀ f, ({ q with modules := (q.modules.push m).2 } : Program).Listed f →
      q.Listed f := by
    rintro f ⟨d, hd⟩
    simp only [get_push] at hd
    split at hd
    · rw [hfunctions] at hd
      cases hd
    · exact ⟨d, hd⟩
  refine h.modules ?_ (fun f hf => h.shaped.listed f (hlisted f hf)) (fun d c hc => ?_)
    fun d f hd => ?_
  · rintro f ⟨d, hd⟩
    have hv : q.modules.Valid d := valid_of_get_ne fun he => by
      rw [he] at hd
      cases hd
    exact ⟨d, by simpa only [get_push_of_valid hv] using hd⟩
  · rw [get_push] at hc
    split at hc
    · rw [hclasses] at hc
      cases hc
    · exact h.sown.owned.classes d c hc
  · rw [get_push] at hd
    split at hd
    · cases hentry.symm.trans hd
    · obtain ⟨hv, hl, hrest⟩ := h.shaped.entries d f hd
      exact ⟨hv, fun hf => hl (hlisted f hf), hrest⟩

theorem Built.listFunction (h : p.Built O q) (hf : q.functions.Valid f)
    (hentry : ∀ m, (q.modules.get m).entry ≠ some f) (d : ModuleId) :
    p.Built O (q.modifyModule d fun m => { m with functions := m.functions ++ [f] }) := by
  have hlisted : ∀ e, (q.modifyModule d fun m => { m with functions := m.functions ++ [f] }).Listed
      e → q.Listed e ∨ e = f := by
    rintro e ⟨m, hm⟩
    simp only [Program.modifyModule, get_modify] at hm
    split at hm
    · rcases mem_append.1 hm with hm | hm
      · exact .inl ⟨m, hm⟩
      · exact .inr (mem_singleton.1 hm)
    · exact .inl ⟨m, hm⟩
  refine h.modules ?_ (fun e he => ?_) (h.sown.owned.classes_modify fun m c hc => .inl hc)
    fun m e hm => ?_
  · rintro e ⟨m, hm⟩
    refine ⟨m, ?_⟩
    simp only [get_modify]
    split
    · exact mem_append_left _ hm
    · exact hm
  · rcases hlisted e he with he | rfl
    · exact h.shaped.listed e he
    · exact hf
  · rw [get_modify_eq Module.entry fun _ => by rfl] at hm
    obtain ⟨hv, hl, hrest⟩ := h.shaped.entries m e hm
    refine ⟨hv, fun he => ?_, hrest⟩
    rcases hlisted e he with he | rfl
    · exact hl he
    · exact hentry m hm

theorem Built.setEntry (h : p.Built O q) (hf : q.functions.Valid f) (hl : ¬ q.Listed f)
    (hparams : (q.functions.get f).params = []) (hresult : (q.functions.get f).result = none)
    (d : ModuleId) : p.Built O (q.modifyModule d fun m => { m with entry := some f }) := by
  have hlisted : ∀ e, (q.modifyModule d fun m => { m with entry := some f }).Listed e ↔
      q.Listed e :=
    fun e => listed_modifyModule fun _ => by rfl
  refine h.modules (fun e => (hlisted e).2) (fun e he => h.shaped.listed e ((hlisted e).1 he))
    (h.sown.owned.classes_modify fun m c hc => .inl hc) fun m e hm => ?_
  rw [get_modify] at hm
  split at hm
  · cases hm
    exact ⟨hf, fun he => hl ((hlisted f).1 he), hparams, hresult⟩
  · obtain ⟨hv, hl, hrest⟩ := h.shaped.entries m e hm
    exact ⟨hv, fun he => hl ((hlisted e).1 he), hrest⟩

end Modules

end Declarations

section Classes

variable {d : ClassId} {g : ClassDef → ClassDef} {m : MethodId}

structure Loose (p : Program) (owner : ClassId) (base : Option Nat) (m : MethodId) : Prop where
  valid : p.methods.Valid m
  owner : (p.methods.get m).owner = owner
  base : (p.methods.get m).base = base
  unlisted : ∀ c, m ∉ (p.classes.get c).allMethods

theorem Owned.modifyClass (h : p.Owned)
    (hmethods : ∀ m ∈ (g (p.classes.get d)).methods, m ∈ (p.classes.get d).methods ∨
      p.Loose d none m)
    (hoverloads : ∀ k b, (g (p.classes.get d)).bases[k]? = some b →
      ∀ m ∈ b.overloads, (∃ b', (p.classes.get d).bases[k]? = some b' ∧ m ∈ b'.overloads) ∨
      p.Loose d (some k) m) (hdistinct : (g (p.classes.get d)).allMethods.Nodup)
    (hfields : ∀ f ∈ (g (p.classes.get d)).fields, f ∈ (p.classes.get d).fields ∨ p.vars.Valid f ∧
      (p.vars.get f).role = .field d ∧ (p.vars.get f).init.isSome)
    (hdistinctFields : (g (p.classes.get d)).fields.Nodup)
    (hparams : ∀ x, (g x).params = x.params) :
    ({ p with classes := p.classes.modify d g } : Program).Owned := by
  have hget (c : ClassId) : (p.classes.modify d g).get c = p.classes.get c ∨
      c = d ∧ (p.classes.modify d g).get c = g (p.classes.get d) := by
    rw [get_modify]
    split
    · rename_i hd
      exact .inr ⟨hd.1.symm, by rw [hd.1]⟩
    · exact .inl rfl
  refine
    { classes := fun m c hc => valid_modify.2 (h.classes m c hc)
      methods := fun c m hm => ?_
      overloads := fun c k b hb m hm => ?_
      distinctMethods := fun c => ?_
      fields := fun c f hf => ?_
      distinctFields := fun c => ?_
      params := fun c k q hq => ?_
      indices := fun q hq => ?_ }
  · rcases hget c with he | ⟨rfl, he⟩
    · exact h.methods c m (he ▸ hm)
    · exact (hmethods m (he ▸ hm)).elim (h.methods c m) fun hm => ⟨hm.valid, hm.owner, hm.base⟩
  · rcases hget c with he | ⟨rfl, he⟩
    · exact h.overloads c k b (he ▸ hb) m hm
    · rcases hoverloads k b (he ▸ hb) m hm with ⟨b', hb', hm'⟩ | hm
      · exact h.overloads c k b' hb' m hm'
      · exact ⟨hm.valid, hm.owner, hm.base⟩
  · rcases hget c with he | ⟨rfl, he⟩
    · exact he ▸ h.distinctMethods c
    · exact he ▸ hdistinct
  · rcases hget c with he | ⟨rfl, he⟩
    · exact h.fields c f (he ▸ hf)
    · exact (hfields f (he ▸ hf)).elim (h.fields c f) id
  · rcases hget c with he | ⟨rfl, he⟩
    · exact he ▸ h.distinctFields c
    · exact he ▸ hdistinctFields
  · rw [get_modify_eq ClassDef.params hparams] at hq
    exact h.params c k q hq
  · rw [get_modify_eq ClassDef.params hparams]
    exact h.indices q hq

theorem Unlinked.modifyClass (h : p.Unlinked) (hflattened : ∀ x, (g x).flattened = x.flattened)
    (hdispatch : ∀ x, (g x).dispatch = x.dispatch)
    (hbases : ∀ x, (∀ b ∈ x.bases, b.inst = none) → ∀ b ∈ (g x).bases, b.inst = none) :
    ({ p with classes := p.classes.modify d g } : Program).Unlinked := by
  refine
    { h with
      flattened := fun c => (get_modify_eq _ hflattened c).trans (h.flattened c)
      bases := fun c b hb => ?_
      dispatch := fun c => (get_modify_eq _ hdispatch c).trans (h.dispatch c) }
  rw [get_modify] at hb
  split at hb
  · exact hbases _ (h.bases c) b hb
  · exact h.bases c b hb

theorem Built.modifyClass (h : p.Built O q)
    (howned : ({ q with classes := q.classes.modify d g } : Program).Owned)
    (hflattened : ∀ x, (g x).flattened = x.flattened) (hdispatch : ∀ x, (g x).dispatch = x.dispatch)
    (hbases : ∀ x, (∀ b ∈ x.bases, b.inst = none) → ∀ b ∈ (g x).bases, b.inst = none)
    {refs : List NodeId}
    (hrefs : ∀ x, (g x).bases.map Base.reference = x.bases.map Base.reference ++ refs)
    (hmade : q.Sprouts p.nodes.size (refs.map (⟨some d, []⟩, ·))) (hclear : q.Clear O refs) :
    p.Built O (q.modifyClass d g) := by
  have hunlinked := h.sown.unlinked.modifyClass (d := d) hflattened hdispatch hbases
  refine h.declare (Nat.le_of_eq (size_modify ..).symm) (fun c b hb i hi => ?_) howned hunlinked ?_
  · cases (hunlinked.bases c b hb).symm.trans hi
  · by_cases hd : q.classes.Valid d
    · refine h.plant { q with classes := q.classes.modify d g } (s := .bases d) (.refl _)
        (.refl _) rfl ?_ ?_ hmade nofun (fun s _ => by cases s <;> rfl) (fun _ _ => id)
        fun t ht x hx hb => absurd hb (hclear t ht x hx)
      · simp only [rootParts, get_modify_self hd]
        exact hrefs _
      · intro s hs
        cases s with
        | bases c =>
          simp only [rootParts, get_modify_of_ne fun he => hs (congrArg Root.bases he.symm)]
        | _ => rfl
    · refine h.spread { q with classes := q.classes.modify d g } (Nat.le_refl _) (fun _ _ => rfl)
        (.refl _) (.refl _) (fun s => ?_) (fun s _ => by cases s <;> rfl) fun _ => rfl
      cases s with
      | bases c => simp only [rootParts, get_modify, hd, and_false, if_false]
      | _ => rfl

theorem Built.addClass (h : p.Built O q) {c : ClassDef} (hparams : c.params = [])
    (hbases : c.bases = []) (hfields : c.fields = []) (hmethods : c.methods = [])
    (hflattened : c.flattened = false) (hdispatch : c.dispatch = []) :
    p.Built O { q with classes := (q.classes.push c).2 } := by
  have hsame {β : Type} (f : ClassDef → β) (hf : f c = f default) (e : ClassId) :
      f ((q.classes.push c).2.get e) = f (q.classes.get e) := get_push_eq f hf e
  have hall : c.allMethods = (default : ClassDef).allMethods := by
    rw [ClassDef.allMethods, hbases, hmethods]
    rfl
  refine h.declare (Arena.Grows.push _ _).size_le
    (fun e b hb => h.shaped.bases e b (hsame ClassDef.bases hbases e ▸ hb)) ?_ ?_ ?_
  · refine
      { classes := fun m e he => valid_push.2 (.inl (h.sown.owned.classes m e he))
        methods := fun e m hm => h.sown.owned.methods e m (hsame ClassDef.methods hmethods e ▸ hm)
        overloads := fun e k b hb =>
          h.sown.owned.overloads e k b (hsame ClassDef.bases hbases e ▸ hb)
        distinctMethods := fun e =>
          hsame ClassDef.allMethods hall e ▸ h.sown.owned.distinctMethods e
        fields := fun e f hf => h.sown.owned.fields e f (hsame ClassDef.fields hfields e ▸ hf)
        distinctFields := fun e => hsame ClassDef.fields hfields e ▸ h.sown.owned.distinctFields e
        params := fun e k a ha => h.sown.owned.params e k a (hsame ClassDef.params hparams e ▸ ha)
        indices := fun a ha => ?_ }
    simp only [hsame ClassDef.params hparams]
    exact h.sown.owned.indices a ha
  · exact
      { h.sown.unlinked with
        flattened := fun e => (hsame ClassDef.flattened hflattened e).trans
          (h.sown.unlinked.flattened e)
        bases := fun e b hb => h.sown.unlinked.bases e b (hsame ClassDef.bases hbases e ▸ hb)
        dispatch := fun e => (hsame ClassDef.dispatch hdispatch e).trans
          (h.sown.unlinked.dispatch e) }
  · refine h.spread { q with classes := (q.classes.push c).2 } (Nat.le_refl _) (fun _ _ => rfl)
      (.refl _) (.refl _) (fun s => ?_) (fun s _ => by cases s <;> rfl) fun _ => rfl
    cases s with
    | bases e => simp only [rootParts, hsame ClassDef.bases hbases]
    | _ => rfl

theorem Built.addParam (h : p.Built O q) {a : ClassParam} (howner : a.owner = d)
    (hd : q.classes.Valid d) (hindex : a.index = (q.classes.get d).params.length)
    (hbound : a.bound = none)
    (hmade : q.Sprouts p.nodes.size (a.boundRef.toList.map (⟨none, []⟩, ·)))
    (hclear : q.Clear O a.boundRef.toList) :
    p.Built O (({ q with params := (q.params.push a).2 } : Program).modifyClass d fun c =>
      { c with params := c.params ++ [⟨q.params.size⟩] }) := by
  have hsame {β : Type} (f : ClassDef → β)
    (hf : ∀ c : ClassDef, f { c with params := c.params ++ [⟨q.params.size⟩] } = f c)
    (c : ClassId) : f ((q.classes.modify d fun c =>
      { c with params := c.params ++ [⟨q.params.size⟩] }).get c) = f (q.classes.get c) :=
    get_modify_eq f hf c
  refine h.declare (Nat.le_of_eq (size_modify ..).symm) (fun e b hb i hi => ?_) ?_ ?_ ?_
  · rw [hsame ClassDef.bases fun _ => rfl] at hb
    exact h.shaped.bases e b hb i hi
  · refine
      { classes := fun m e he => valid_modify.2 (h.sown.owned.classes m e he)
        methods := fun e m hm =>
          h.sown.owned.methods e m (hsame ClassDef.methods (fun _ => rfl) e ▸ hm)
        overloads := fun e k b hb =>
          h.sown.owned.overloads e k b (hsame ClassDef.bases (fun _ => rfl) e ▸ hb)
        distinctMethods := fun e => hsame ClassDef.allMethods (fun _ => rfl) e ▸
          h.sown.owned.distinctMethods e
        fields := fun e f hf =>
          h.sown.owned.fields e f (hsame ClassDef.fields (fun _ => rfl) e ▸ hf)
        distinctFields := fun e =>
          hsame ClassDef.fields (fun _ => rfl) e ▸ h.sown.owned.distinctFields e
        params := fun e k b hb => ?_
        indices := fun b hb => ?_ }
    · have hold {k : Nat} {b : ParamId} (hb : (q.classes.get e).params[k]? = some b) :
          (q.params.push a).2.Valid b ∧ ((q.params.push a).2.get b).owner = e ∧
          ((q.params.push a).2.get b).index = k := by
        obtain ⟨hv, hrest⟩ := h.sown.owned.params e k b hb
        rw [get_push_of_valid hv]
        exact ⟨valid_push.2 (.inl hv), hrest⟩
      simp only [get_modify] at hb
      split at hb
      · rename_i he
        rw [getElem?_append] at hb
        split at hb
        · exact hold hb
        · have hk : k - (q.classes.get e).params.length = 0 := by
            have hlt := (List.getElem?_eq_some_iff.1 hb).1
            simpa using hlt
          rw [hk] at hb
          obtain rfl : ⟨q.params.size⟩ = b := by simpa using hb
          simp only [get_push, if_pos]
          refine ⟨valid_push.2 (.inr rfl), howner.trans he.1, ?_⟩
          rw [hindex, he.1]
          omega
      · exact hold hb
    · simp only [get_push]
      split
      · rw [howner, hindex, get_modify_self hd]
        subst_vars
        simp
      · rename_i hne
        have hv := (valid_push.1 hb).resolve_right hne
        have hold := h.sown.owned.indices b hv
        simp only [get_modify]
        split
        · rename_i he
          rw [← he.1] at hold ⊢
          rw [getElem?_append_left (List.getElem?_eq_some_iff.1 hold).1]
          exact hold
        · exact hold
  · exact
      { h.sown.unlinked with
        flattened := fun e => (hsame ClassDef.flattened (fun _ => rfl) e).trans
          (h.sown.unlinked.flattened e)
        bases := fun e b hb =>
          h.sown.unlinked.bases e b (hsame ClassDef.bases (fun _ => rfl) e ▸ hb)
        dispatch := fun e => (hsame ClassDef.dispatch (fun _ => rfl) e).trans
          (h.sown.unlinked.dispatch e)
        bounds := fun b => (get_push_eq ClassParam.bound hbound b).trans
          (h.sown.unlinked.bounds b) }
  · refine h.plant (({ q with params := (q.params.push a).2 } : Program).modifyClass d fun c =>
      { c with params := c.params ++ [⟨q.params.size⟩] }) (s := .param ⟨q.params.size⟩) (.refl _)
      (.refl _) rfl ?_ ?_ hmade nofun (fun s _ => by cases s <;> rfl) (fun _ _ => id)
      fun t ht x hx hb => absurd hb (hclear t ht x hx)
    · simp only [rootParts, Program.modifyClass, get_push, if_pos,
        get_of_not_valid (not_valid_size _)]
      rfl
    · intro s hs
      cases s with
      | param b =>
        simp only [rootParts, Program.modifyClass, get_push, if_neg fun he =>
          hs (congrArg Root.param he)]
      | bases e => simp only [rootParts, Program.modifyClass, hsame ClassDef.bases fun _ => rfl]
      | _ => rfl

end Classes

end ClassLang.Program
