import ClassLang.Assoc
import ClassLang.Typing.Rule

namespace ClassLang.Typing

def checkBody (e : Engine) (body : NodeId) (signature : TypeId) (loc : Location) : Check NodeId :=
  do
  let (_, result) ← signatureOf signature .signatureNotCallable loc
  let _ ← e.find body
  if result = TypeId.void then return body else coerce e body result

def checkMethod (e : Engine) (m : MethodId) : Check Unit := do
  let loc := ((← program).methods.get m).loc
  let signature ← methodType e m loc
  if let some body := ((← program).methods.get m).body then
    let body ← checkBody e body signature loc
    edit (·.modifyMethod m fun d => { d with body := some body })

def checkClass (e : Engine) (c : ClassId) : Check Unit :=
  within (some c) do
    let decl := (← program).classes.get c
    decl.fields.forM fun f => discard (varType e f decl.loc)
    decl.allMethods.forM (checkMethod e)

/-- The entry of a module has whatever result its statements have. -/
def checkFunction (e : Engine) (isEntry : Bool) (f : FunctionId) : Check Unit :=
  within none do
    let decl := (← program).functions.get f
    if isEntry then
      if let some body := decl.body then
        let result ← e.find body
        let t ← intern (.function [] result)
        write (.function f t)
    else
      let signature ← functionType e f decl.loc
      if let some body := decl.body then
        let body ← checkBody e body signature decl.loc
        edit (·.modifyFunction f fun d => { d with body := some body })

def checkOverride (e : Engine) (base this : InstId) (target overload : MethodId) (loc : Location) :
    Check Unit := do
  match (← program).classOf? base with
  | none => broken .overrideOfParam loc
  | some c =>
    match ((← program).classes.get c).members.lookup ((← program).methods.get target).name with
    | .one entry =>
      let declared ← methodType e target loc
      let expected ← editing loc (Program.stripPath declared (base :: entry.path) this)
      let actual ← methodType e overload loc
      expectType expected actual loc
    | _ => broken .overrideMissing loc

/-- From here on `overload` runs for `target`, and for all that `target` ran for. -/
def redirect (target overload : MethodId) (table : List (MethodId × MethodId)) :
    List (MethodId × MethodId) :=
  Assoc.put target overload
    (table.map fun (m, impl) => (m, if impl = target then overload else impl))

def addOverloads (e : Engine) (this : InstId) (table : List (MethodId × MethodId)) (b : Base) :
    Check (List (MethodId × MethodId)) := do
  match b.inst with
  | none => return table
  | some inst =>
    b.overloads.foldlM (fun table overload => do
      let decl := (← program).methods.get overload
      match decl.overrides with
      | none => broken .overloadWithoutTarget decl.loc
      | some target =>
        checkOverride e inst this target overload decl.loc
        return redirect target overload table) table

def unimplemented (p : Program) (c : ClassId) (table : List (MethodId × MethodId)) :
    List MethodId :=
  (p.classes.get c).ancestors.flatMap fun a =>
    (p.classes.get a).methods.filter fun m =>
      (p.methods.get m).body.isNone && (table.lookup m).isNone

/-- Builds the dispatch table of a class, after those of its bases. `built` are the classes begun.
-/
def dispatchUpTo (e : Engine) : Nat → List ClassId → ClassId → Check (List ClassId)
  | 0, built, _ => return built
  | n + 1, built, c => do
    if c ∈ built then return built
    let bases := ((← program).classes.get c).bases
    let (built, table) ← bases.foldlM (fun (built, table) b => do
      match b.inst.bind (← program).classOf? with
      | none => return (built, table)
      | some base =>
        let built ← dispatchUpTo e n built base
        return (built, Assoc.merge table ((← program).classes.get base).dispatch)) (c :: built, [])
    let this ← onProgram (·.thisInst c)
    let table ← bases.foldlM (addOverloads e this) table
    let p ← program
    let decl := p.classes.get c
    if !decl.isInterface then
      if let m :: _ := unimplemented p c table then
        failAt (.missingImplementation c m) decl.loc
    emit (.dispatchBuilt (p.className c) table.length)
    edit (·.modifyClass c fun d => { d with dispatch := table })
    return built

def buildDispatch (e : Engine) : Check Unit := do
  let n := (← program).classes.size + 1
  discard ((← program).classes.ids.foldlM (dispatchUpTo e n) [])

def checkColds : Check Unit := do
  let p ← program
  p.colds.ids.forM fun c => do
    let cold := p.colds.lookup c
    match cold.signature, cold.sites with
    | none, site :: _ => failAt (.unsupported .neverCalled) (p.loc (p.lambdas.get site).body)
    | _, _ => return

def all : Check Unit := do
  let p ← program
  let e := engine (p.nodes.size + 2 * p.lambdas.size + 1)
  p.classes.ids.forM (checkClass e)
  buildDispatch e
  let entries := p.modules.items.toList.filterMap Module.entry
  p.functions.ids.forM fun f => checkFunction e (f ∈ entries) f
  checkColds
  let p ← program
  emit (.typesChecked p.types.size p.insts.size p.colds.size)

end ClassLang.Typing

def ClassLang.Program.check (p : Program) : Outcome TypeCause Unit := (Typing.all.run {}).outcome p
