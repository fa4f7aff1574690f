import ClassLang.Proofs.Build
import ClassLang.Proofs.Leads
import ClassLang.Scope.Resolve

namespace ClassLang

def Method.bare (m : Method) : Method := { m with overrides := none }

namespace Program

variable {p q r : Program} {i : NodeId} {form : Form}

/-- `q` is what `p` becomes by binding names: what a jump can leave stays that, and nothing else
becomes it. -/
structure Linked (p q : Program) : Prop where
  shaped : q.Shaped
  untyped : q.Untyped
  ext : p.Extends q
  kinds : ∀ i, (q.form i).isTarget = (p.form i).isTarget

theorem Linked.refl (hp : p.Shaped) (hu : p.Untyped) : p.Linked p := ⟨hp, hu, .refl p, fun _ => rfl⟩

theorem Linked.trans (h : p.Linked q) (h' : q.Linked r) : p.Linked r :=
  ⟨h'.shaped, h'.untyped, h.ext.trans h'.ext, fun i => (h'.kinds i).trans (h.kinds i)⟩

structure Fits (p : Program) (i : NodeId) (form : Form) : Prop where
  admits : p.Admits form
  kind : form.isTarget = false
  guard : ∀ c y b, form ≠ .guard c y b
  order : ∀ c ∈ form.children, c.index < i.index

theorem Linked.setForm (h : p.Linked q) (hi : (q.form i).isTarget = false) (hform : q.Fits i form) :
    p.Linked (q.setForm i form) := by
  have hg : ∀ n : Node, ({ n with form } : Node).form = form := fun _ => rfl
  have hkind := hform.kind.trans hi.symm
  exact
    { shaped := h.shaped.modifyNode hg hkind hform.admits hform.guard
      untyped := h.untyped.modifyNode hg (fun _ => rfl) fun _ => hform.order
      ext := h.ext.trans (extends_modifyNode hg hkind)
      kinds := fun j => (isTarget_modifyNode hg hkind j).trans (h.kinds j) }

theorem Linked.declare (h : p.Linked q) {globals : List (NameId × Global)}
    {classes : Arena .classDef ClassDef} {params : Arena .classParam ClassParam}
    (hglobals : ∀ n f, (n, Global.function f) ∈ globals → q.Listed f)
    (hbases : ∀ c, ∀ b ∈ (classes.get c).bases, ∀ i, b.inst = some i → q.insts.Valid i) :
    p.Linked { q with globals, classes, params } := by
  have hext : q.Extends { q with globals, classes, params } := { Extends.refl q with }
  exact
    { shaped :=
        { h.shaped with
          globals := hglobals
          bases := hbases
          methods := fun m => (h.shaped.methods m).mono hext
          functions := fun f => (h.shaped.functions f).mono hext }
      untyped := { h.untyped with }
      ext := h.ext.trans hext
      kinds := h.kinds }

theorem Linked.overrides (h : p.Linked q) {methods : Arena .method Method}
    (hm : ∀ m, (methods.get m).bare = (q.methods.get m).bare) : p.Linked { q with methods } := by
  have hext : q.Extends { q with methods } := { Extends.refl q with }
  refine
    { shaped := { h.shaped with
        methods := fun m => ?_
        functions := fun f => (h.shaped.functions f).mono hext }
      untyped := { h.untyped with
        methods := fun m => (congrArg Method.slot (hm m) :).trans (h.untyped.methods m) }
      ext := h.ext.trans hext
      kinds := h.kinds }
  have hold := (h.shaped.methods m).mono hext
  have hparams : (methods.get m).params = (q.methods.get m).params :=
    (congrArg Method.params (hm m) :)
  have hresult : (methods.get m).result = (q.methods.get m).result :=
    (congrArg Method.result (hm m) :)
  have hbody : (methods.get m).body = (q.methods.get m).body := (congrArg Method.body (hm m) :)
  rwa [← hparams, ← hresult, ← hbody] at hold

theorem Linked.internInst (h : p.Linked q) {inst : Inst} (ha : ∀ a ∈ inst.args, q.insts.Valid a) :
    p.Linked { q with insts := (q.insts.intern inst).2 } := by
  have hgrow := Pool.grows_intern q.insts inst
  have hext : q.Extends { q with insts := (q.insts.intern inst).2 } :=
    { Extends.refl q with insts := fun _ => hgrow.valid }
  exact
    { shaped :=
        { h.shaped with
          forms := fun i => (h.shaped.forms i).mono hext
          methods := fun m => (h.shaped.methods m).mono hext
          functions := fun f => (h.shaped.functions f).mono hext
          bases := fun c b hb i hi => hgrow.valid (h.shaped.bases c b hb i hi)
          insts := args_intern h.shaped.insts ha }
      untyped := { h.untyped with }
      ext := h.ext.trans hext
      kinds := h.kinds }

end Program

end ClassLang
