import ClassLang.Proofs.Shape

namespace ClassLang

open Arena

def Var.outline (v : Var) : Var := { v with slot := .empty }

def Method.outline (m : Method) : Method := { m with slot := .empty, body := none }

def Function.outline (f : Function) : Function := { f with slot := .empty, body := none }

def Lambda.outline (l : Lambda) : Lambda := { l with cold := none }

def ClassDef.outline (c : ClassDef) : ClassDef := { c with dispatch := [] }

namespace Program

/-- What the search for types leaves as it is, apart from nodes. -/
def outline (p : Program) : Program :=
  { p with
    vars := p.vars.map Var.outline
    methods := p.methods.map Method.outline
    functions := p.functions.map Function.outline
    lambdas := p.lambdas.map Lambda.outline
    classes := p.classes.map ClassDef.outline
    nodes := {}
    types := {}
    insts := {}
    colds := {} }

def Alike (p q : Program) : Prop := q.outline = p.outline

namespace Alike

variable {p q r : Program}

@[refl] theorem refl (p : Program) : p.Alike p := rfl

theorem trans (h : p.Alike q) (h' : q.Alike r) : p.Alike r := Eq.trans h' h

variable {f : FunctionId} (h : p.Alike q)
include h

theorem var (v : VarId) : (q.vars.get v).outline = (p.vars.get v).outline :=
  get_of_map_eq rfl (congrArg vars h) v

theorem method (m : MethodId) : (q.methods.get m).outline = (p.methods.get m).outline :=
  get_of_map_eq rfl (congrArg methods h) m

theorem function (f : FunctionId) : (q.functions.get f).outline = (p.functions.get f).outline :=
  get_of_map_eq rfl (congrArg functions h) f

theorem lambda (l : LambdaId) : (q.lambdas.get l).outline = (p.lambdas.get l).outline :=
  get_of_map_eq rfl (congrArg lambdas h) l

theorem cls (c : ClassId) : (q.classes.get c).outline = (p.classes.get c).outline :=
  get_of_map_eq rfl (congrArg classes h) c

theorem role (v : VarId) : (q.vars.get v).role = (p.vars.get v).role :=
  (congrArg Var.role (h.var v) :)

theorem init (v : VarId) : (q.vars.get v).init = (p.vars.get v).init :=
  (congrArg Var.init (h.var v) :)

theorem lambdaParams (l : LambdaId) : (q.lambdas.get l).params = (p.lambdas.get l).params :=
  (congrArg Lambda.params (h.lambda l) :)

theorem lambdaBody (l : LambdaId) : (q.lambdas.get l).body = (p.lambdas.get l).body :=
  (congrArg Lambda.body (h.lambda l) :)

theorem methodParams (m : MethodId) : (q.methods.get m).params = (p.methods.get m).params :=
  (congrArg Method.params (h.method m) :)

theorem methodResult (m : MethodId) : (q.methods.get m).result = (p.methods.get m).result :=
  (congrArg Method.result (h.method m) :)

theorem functionParams (f : FunctionId) : (q.functions.get f).params = (p.functions.get f).params :=
  (congrArg Function.params (h.function f) :)

theorem functionResult (f : FunctionId) : (q.functions.get f).result = (p.functions.get f).result :=
  (congrArg Function.result (h.function f) :)

theorem modules : q.modules = p.modules := (congrArg Program.modules h :)

theorem params : q.params = p.params := (congrArg Program.params h :)

theorem globals : q.globals = p.globals := (congrArg Program.globals h :)

theorem bases (c : ClassId) : (q.classes.get c).bases = (p.classes.get c).bases :=
  (congrArg ClassDef.bases (h.cls c) :)

theorem fields (c : ClassId) : (q.classes.get c).fields = (p.classes.get c).fields :=
  (congrArg ClassDef.fields (h.cls c) :)

theorem allMethods (c : ClassId) : (q.classes.get c).allMethods = (p.classes.get c).allMethods :=
  (congrArg ClassDef.allMethods (h.cls c) :)

theorem ancestors (c : ClassId) : (q.classes.get c).ancestors = (p.classes.get c).ancestors :=
  (congrArg ClassDef.ancestors (h.cls c) :)

theorem classParams (c : ClassId) : (q.classes.get c).params = (p.classes.get c).params :=
  (congrArg ClassDef.params (h.cls c) :)

theorem varsValid {v : VarId} : q.vars.Valid v ↔ p.vars.Valid v := by
  rw [Valid, size_of_map_eq (congrArg Program.vars h), Valid]

theorem lambdasValid {l : LambdaId} : q.lambdas.Valid l ↔ p.lambdas.Valid l := by
  rw [Valid, size_of_map_eq (congrArg Program.lambdas h), Valid]

theorem methodsValid {m : MethodId} : q.methods.Valid m ↔ p.methods.Valid m := by
  rw [Valid, size_of_map_eq (congrArg Program.methods h), Valid]

theorem functionsValid : q.functions.Valid f ↔ p.functions.Valid f := by
  rw [Valid, size_of_map_eq (congrArg Program.functions h), Valid]

theorem classesSize : q.classes.size = p.classes.size := size_of_map_eq (congrArg Program.classes h)

theorem listed : q.Listed f ↔ p.Listed f := by
  rw [Listed, h.modules, Listed]

theorem isAnnotated (l : LambdaId) :
    q.isAnnotated (q.lambdas.get l) = p.isAnnotated (p.lambdas.get l) := by
  simp only [Program.isAnnotated, h.lambdaParams, h.init]

end Alike

end Program

end ClassLang
