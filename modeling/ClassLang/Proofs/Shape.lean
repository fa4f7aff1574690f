import ClassLang.Program.Basic
import ClassLang.Proofs.Types

namespace ClassLang

def Form.isTarget : Form → Bool
  | .block _ | .loop _ => true
  | _ => false

def Form.isType : Form → Bool
  | .int _ | .double _ | .bool _ | .classRef _ _ _ _ | .toWeak _ | .noneOf _ | .arrayOf _
  | .signature _ _ =>
    true
  | _ => false

namespace Program

/-- Whether a module declares a function under a name of its own, which the entry of a module has
not. -/
def Listed (p : Program) (f : FunctionId) : Prop := ∃ m, f ∈ (p.modules.get m).functions

/-- Whether all that a form refers to is there, and is what it has to be. -/
def Admits (p : Program) (form : Form) : Prop :=
  (∀ c ∈ form.children, p.nodes.Valid c) ∧
    match form with
    | .letIn v _ => (p.vars.get v).role = .localVar
    | .leave target _ => (p.form target).isTarget
    | .guard _ _ b => (p.vars.get b).role = .binding
    | .lambda l => p.lambdas.Valid l
    | .classRef _ _ _ (some inst) => p.insts.Valid inst
    | .callFunction f _ | .functionRef f => p.Listed f
    | _ => True

structure Declares (p : Program) (params : List VarId) (result body : Option NodeId) : Prop where
  params : ∀ v ∈ params, (p.vars.get v).role = .param ∧ (p.vars.get v).init.isSome
  result : ∀ r, result = some r → p.nodes.Valid r
  body : ∀ b, body = some b → p.nodes.Valid b

structure Extends (p q : Program) : Prop where
  nodes : ∀ i, p.nodes.Valid i → q.nodes.Valid i
  targets : ∀ i, (p.form i).isTarget → (q.form i).isTarget
  vars : ∀ v, p.vars.Valid v → q.vars.Valid v
  roles : ∀ v, p.vars.Valid v → (q.vars.get v).role = (p.vars.get v).role
  inits : ∀ v, p.vars.Valid v → (q.vars.get v).init = (p.vars.get v).init
  lambdas : ∀ l, p.lambdas.Valid l → q.lambdas.Valid l
  insts : ∀ i, p.insts.Valid i → q.insts.Valid i
  listed : ∀ f, p.Listed f → q.Listed f

structure Shaped (p : Program) : Prop where
  forms : ∀ i, p.Admits (p.form i)
  inits : ∀ v d, (p.vars.get v).init = some d → p.nodes.Valid d
  bindings : ∀ v, (p.vars.get v).role = .binding → (p.vars.get v).init = none
  /-- A guard has a binding of its own. -/
  guards : ∀ i j c y c' y' b, p.form i = .guard c y b → p.form j = .guard c' y' b → c = c'
  bodies : ∀ l, p.lambdas.Valid l → p.nodes.Valid (p.lambdas.get l).body
  params : ∀ l, (p.lambdas.get l).params.Nodup ∧ ∀ v ∈ (p.lambdas.get l).params,
    (p.vars.get v).role = .param
  /-- A lambda has parameters of its own. -/
  owners : ∀ l l' v, v ∈ (p.lambdas.get l).params → v ∈ (p.lambdas.get l').params → l = l'
  methods : ∀ m, p.Declares (p.methods.get m).params (p.methods.get m).result (p.methods.get m).body
  functions : ∀ f, p.Declares (p.functions.get f).params (p.functions.get f).result
    (p.functions.get f).body
  entries : ∀ m f, (p.modules.get m).entry = some f → p.functions.Valid f ∧ ¬ p.Listed f ∧
    (p.functions.get f).params = [] ∧ (p.functions.get f).result = none
  listed : ∀ f, p.Listed f → p.functions.Valid f
  globals : ∀ n f, (n, Global.function f) ∈ p.globals → p.Listed f
  bases : ∀ c, ∀ b ∈ (p.classes.get c).bases, ∀ i, b.inst = some i → p.insts.Valid i
  insts : ∀ i, ∀ a ∈ (p.insts.get i).args, a.index < i.index

structure Untyped (p : Program) : Prop where
  /-- Only what a jump can leave is made before its parts. -/
  ordered : ∀ i, (p.form i).isTarget = false → ∀ c ∈ (p.form i).children, c.index < i.index
  nodes : ∀ i, p.slot i = .empty
  vars : ∀ v, (p.vars.get v).slot = .empty
  methods : ∀ m, (p.methods.get m).slot = .empty
  functions : ∀ f, (p.functions.get f).slot = .empty
  lambdas : ∀ l, (p.lambdas.get l).cold = none
  colds : p.colds = {}
  types : p.types = TypeTable.basic

variable {p q r : Program}

@[refl] theorem Extends.refl (p : Program) : p.Extends p :=
  ⟨fun _ => id, fun _ => id, fun _ => id, fun _ _ => rfl, fun _ _ => rfl, fun _ => id, fun _ =>
    id, fun _ => id⟩

theorem valid_of_role {v : VarId} {role : VarRole} (h : (p.vars.get v).role = role)
    (hr : ∀ c, role ≠ .field c) : p.vars.Valid v := by
  apply Arena.valid_of_get_ne
  intro he
  rw [he] at h
  exact hr _ h.symm

theorem valid_of_form {i : NodeId} {form : Form} (hi : p.form i = form) (hform : form ≠ .int 0) :
    p.nodes.Valid i :=
  Arena.valid_of_get_ne fun he => hform (hi.symm.trans (congrArg Node.form he))

theorem valid_of_isTarget {i : NodeId} (h : (p.form i).isTarget) : p.nodes.Valid i := by
  apply Arena.valid_of_get_ne
  intro he
  rw [form, he] at h
  cases h

theorem Extends.role (h : p.Extends q) {v : VarId} {role : VarRole}
    (hv : (p.vars.get v).role = role) (hr : ∀ c, role ≠ .field c) : (q.vars.get v).role = role :=
  (h.roles v (valid_of_role hv hr)).trans hv

theorem Admits.mono {form : Form} (h : p.Admits form) (hpq : p.Extends q) : q.Admits form := by
  refine ⟨fun c hc => hpq.nodes c (h.1 c hc), ?_⟩
  have h2 := h.2
  split at h2
  · exact hpq.role h2 (by simp)
  · exact hpq.targets _ h2
  · exact hpq.role h2 (by simp)
  · exact hpq.lambdas _ h2
  · exact hpq.insts _ h2
  · exact hpq.listed _ h2
  · exact hpq.listed _ h2
  · trivial

theorem Declares.mono {params : List VarId} {result body : Option NodeId}
    (h : p.Declares params result body) (hpq : p.Extends q) : q.Declares params result body := by
  refine ⟨fun v hv => ?_, fun r hr => hpq.nodes r (h.result r hr), fun b hb =>
    hpq.nodes b (h.body b hb)⟩
  obtain ⟨hrole, hinit⟩ := h.params v hv
  have hval := valid_of_role hrole (by simp)
  exact ⟨hpq.role hrole (by simp), (hpq.inits v hval).symm ▸ hinit⟩

theorem Extends.trans (h : p.Extends q) (h' : q.Extends r) : p.Extends r where
  nodes i hi := h'.nodes i (h.nodes i hi)
  targets i hi := h'.targets i (h.targets i hi)
  vars v hv := h'.vars v (h.vars v hv)
  roles v hv := (h'.roles v (h.vars v hv)).trans (h.roles v hv)
  inits v hv := (h'.inits v (h.vars v hv)).trans (h.inits v hv)
  lambdas l hl := h'.lambdas l (h.lambdas l hl)
  insts i hi := h'.insts i (h.insts i hi)
  listed f hf := h'.listed f (h.listed f hf)

theorem args_intern {T : InstTable} (h : ∀ i, ∀ a ∈ (T.get i).args, a.index < i.index) {inst : Inst}
    (ha : ∀ a ∈ inst.args, T.Valid a) :
    ∀ i, ∀ a ∈ ((T.intern inst).2.get i).args, a.index < i.index := by
  intro i a hi
  obtain he | ⟨rfl, he⟩ := Pool.get_intern T inst i
  · exact h i a (he ▸ hi)
  · exact ha a (he ▸ hi)

theorem Shaped.body_valid (h : p.Shaped) {i : NodeId} {l : LambdaId} (hl : p.form i = .lambda l) :
    p.nodes.Valid (p.lambdas.get l).body := by
  have hi := (h.forms i).2
  rw [hl] at hi
  exact h.bodies l hi

end Program

end ClassLang
