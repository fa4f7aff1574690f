import ClassLang.Assoc
import ClassLang.Scope.Lookup

namespace ClassLang.Program

abbrev Resolve := ReaderT Scope (Pass NameCause)

namespace Resolve

open Pass

def failAt {α : Type} (cause : NameCause) (loc : Location) : Resolve α := throw ⟨cause, loc⟩

def lookup (name : NameId) (loc : Location) : Resolve Binding := do
  match (← read).lookup (← program) name with
  | .ok b => return b
  | .error cause => failAt cause loc

/-- A class takes as many arguments as it has parameters, and a class parameter takes none. -/
def instantiate (target : Target) (args : List InstId) (loc : Location) : Resolve InstId := do
  if let .cls c := target then
    let expected := ((← program).classes.get c).params.length
    if expected ≠ args.length then
      failAt (.arityMismatch c expected args.length) loc
  match (← program).insts.instantiate? target args with
  | some (i, insts) =>
    edit ({ · with insts })
    return i
  | none => failAt .parameterizedParam loc

/-- Binds a class reference where a type is written, arguments after the name itself. -/
def typeRefUpTo : Nat → NodeId → Resolve InstId
  | 0, i => do failAt .expectedTypeName ((← program).loc i)
  | n + 1, i => do
    let loc := (← program).loc i
    match (← program).form i with
    | .classRef _ _ _ (some inst) => return inst
    | .classRef name _ params none =>
      match (← read).lookupType (← program) name with
      | .error cause => failAt cause loc
      | .ok target =>
        let args ← params.mapM (typeRefUpTo n)
        let inst ← instantiate target args loc
        edit (·.setForm i (.classRef name (some target) params (some inst)))
        return inst
    | _ => failAt .expectedTypeName loc

def typeRef (i : NodeId) : Resolve InstId := do typeRefUpTo (← program).nodes.size i

def readForm (name : NameId) (loc : Location) : Binding → Resolve Form
  | .var v => return .getVar v
  | .field f => return .getField none name (some f)
  | .method m => return .delegate none m
  | .function f => return .functionRef f
  | .cls c => return .classRef name (some (.cls c)) [] (some (← instantiate (.cls c) [] loc))
  | .classParam q => do
    let inst ← onProgram fun p =>
      let (i, insts) := p.insts.plain (.param q)
      (i, { p with insts })
    return .classRef name (some (.param q)) [] (some inst)

def writeForm (name : NameId) (value : NodeId) (loc : Location) : Binding → Resolve Form
  | .var v => return .setVar v value
  | .field f => return .setField none name (some f) value
  | other => failAt (.conflictingRole name other.role .var) loc

def typeArg (i : NodeId) : Resolve InstId := do
  match (← program).form i with
  | .classRef _ _ _ (some inst) => return inst
  | _ => failAt .expectedTypeName ((← program).loc i)

/-- Binds the name that a call starts with. A class takes the arguments as types. -/
def callByName (i callee : NodeId) (name : NameId) (args : List NodeId) : Resolve Unit := do
  let loc := (← program).loc i
  let calleeLoc := (← program).loc callee
  match ← lookup name calleeLoc with
  | .cls c =>
    let params ← args.mapM typeArg
    let inst ← instantiate (.cls c) params loc
    edit (·.setForm i (.classRef name (some (.cls c)) args (some inst)))
  | .classParam _ => failAt .parameterizedParam loc
  | .method m => edit (·.setForm i (.callMethod none m args .unresolved))
  | .function f => edit (·.setForm i (.callFunction f args))
  | other =>
    let form ← readForm name calleeLoc other
    edit (·.setForm callee form)

def seeing {α : Type} (vars : List VarId) (m : Resolve α) : Resolve α :=
  withReader (fun s => { s with locals := vars.reverse ++ s.locals }) m

def optional (visit : NodeId → Resolve Unit) : Option NodeId → Resolve Unit
  | some i => visit i
  | none => return

/-- Each parameter is in scope from the next one on. -/
def lambdaParams (visit : NodeId → Resolve Unit) (body : Resolve Unit) : List VarId → Resolve Unit
  | [] => body
  | v :: vs => do
    optional visit ((← program).vars.get v).init
    seeing [v] (lambdaParams visit body vs)

/-- Binds all names in the tree below a node, its own last. -/
def visitUpTo : Nat → NodeId → Resolve Unit
  | 0, _ => return
  | n + 1, i => do
    let visit := visitUpTo n
    let loc := (← program).loc i
    match (← program).form i with
    | .name name =>
      let form ← readForm name loc (← lookup name loc)
      edit (·.setForm i form)
    | .setName name value =>
      visit value
      let form ← writeForm name value loc (← lookup name loc)
      edit (·.setForm i form)
    | .call callee args =>
      args.forM visit
      match (← program).form callee with
      | .name name => callByName i callee name args
      | _ => visit callee
    | .classRef _ _ _ _ =>
      let _ ← typeRef i
    | .letIn v body =>
      optional visit ((← program).vars.get v).init
      seeing [v] (body.forM visit)
    | .guard cond yes binding =>
      visit cond
      seeing [binding] (visit yes)
    | .lambda l =>
      let decl := (← program).lambdas.get l
      lambdaParams visit (visit decl.body) decl.params
    | .this => if (← read).owner.isNone then failAt .thisOutsideClass loc
    | form => form.children.forM visit

/-- A tree has no more levels than there are nodes. -/
def visit (i : NodeId) : Resolve Unit := do visitUpTo (← program).nodes.size i

def callable (result body : Option NodeId) : List VarId → Resolve Unit
  | [] => do
    optional visit result
    optional visit body
  | v :: vs => do
    let var := (← program).vars.get v
    optional visit var.init
    if ((← read).localNamed? (← program) var.name).isSome then
      failAt (.duplicate var.name) var.loc
    seeing [v] (callable result body vs)

def inClass {α : Type} (c : ClassId) (m : Resolve α) : Resolve α := do
  let module := ((← program).classes.get c).module
  withReader (fun _ => { module, owner := some c }) m

/-- A global that is registered again as the same thing does no harm. -/
def register (name : NameId) (g : Global) (loc : Location) : Resolve Unit := do
  let previous := (← program).globals.lookup name
  edit fun p => { p with globals := Assoc.put name g p.globals }
  if previous.any (· ≠ g) then
    failAt (.duplicate name) loc

def registerModule (m : ModuleId) : Resolve Unit := do
  let decl := (← program).modules.get m
  decl.classes.forM fun c => do
    let d := (← program).classes.get c
    register d.name (.cls c) d.loc
  decl.functions.forM fun f => do
    let d := (← program).functions.get f
    register d.name (.function f) d.loc

def bound (param : ParamId) : Resolve Unit := do
  let decl := (← program).params.get param
  let some reference := decl.boundRef | return
  let invalid : Fault NameCause := ⟨.invalidBound param, decl.loc⟩
  let inst ← tryCatch (typeRef reference) fun e =>
    match e.cause with
    | .arityMismatch _ _ _ => throw invalid
    | _ => throw e
  match (← program).insts.get inst with
  | ⟨.cls c, []⟩ =>
    if ((← program).classes.get c).params.isEmpty then
      edit fun p => { p with params := p.params.modify param fun d => { d with bound := some c } }
    else throw invalid
  | _ => throw invalid

def setBaseInst (index : Nat) (inst : InstId) (c : ClassDef) : ClassDef :=
  { c with bases := c.bases.modify index fun b => { b with inst := some inst } }

def header (c : ClassId) : Resolve Unit := inClass c do
  ((← program).classes.get c).params.forM bound
  ((← program).classes.get c).bases.zipIdx.forM fun (b, index) => do
    let inst ← typeRef b.reference
    edit (·.modifyClass c (setBaseInst index inst))

def override (c base : ClassId) (m : MethodId) : Resolve Unit := do
  let { name, loc, .. } := (← program).methods.get m
  match ((← program).classes.get base).members.lookup name with
  | .none => failAt (.unresolved name) loc
  | .many _ => failAt (.ambiguousInheritance c base) loc
  | .one entry =>
    match entry.member with
    | .method target => edit (·.modifyMethod m fun d => { d with overrides := some target })
    | .field _ => failAt (.conflictingRole name .field .method) loc

def overrides (c : ClassId) : Resolve Unit := do
  ((← program).classes.get c).bases.forM fun b => do
    match b.inst.bind (← program).classOf? with
    | none => return
    | some base => b.overloads.forM (override c base)

def classBodies (c : ClassId) : Resolve Unit := inClass c do
  ((← program).classes.get c).fields.forM fun f => do
    optional visit ((← program).vars.get f).init
  ((← program).classes.get c).allMethods.forM fun m => do
    let { params, result, body, .. } := (← program).methods.get m
    callable result body params

def functionBody (f : FunctionId) : Resolve Unit := do
  let { module, params, result, body, .. } := (← program).functions.get f
  withReader (fun _ => { module }) (callable result body params)

def all : Resolve Unit := do
  (← program).modules.ids.forM registerModule
  (← program).classes.ids.forM header
  Flatten.classes (← program).classes.ids
  (← program).classes.ids.forM overrides
  (← program).classes.ids.forM classBodies
  (← program).functions.ids.forM functionBody
  emit (.namesResolved (← program).classes.size (← program).functions.size)

end Resolve

def resolve (p : Program) : Outcome NameCause Unit := (Resolve.all.run {}).outcome p

end ClassLang.Program
