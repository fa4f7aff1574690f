import ClassLang.Typing.Basic

namespace ClassLang.Typing

/-- The type that a type expression denotes; there the name of a class is an owning reference. In
parameters and results it is a pinned one. -/
def typeExprUpTo : Nat → NodeId → Check TypeId
  | 0, i => do failAt (.unsupported .expressionAsType) (← locOf i)
  | n + 1, i => do
    let node := (← program).nodes.get i
    if let some t := node.slot.fixed? then return t
    let signature (i : NodeId) : Check TypeId := do
      let t ← typeExprUpTo n i
      onTypes (·.pinned t)
    let t ←
      match node.form with
      | .int _ => pure TypeId.int
      | .double _ => pure TypeId.double
      | .bool _ => pure TypeId.bool
      | .classRef _ _ args (some inst) => do
        args.forM fun a => discard (typeExprUpTo n a)
        intern (.ref .own inst)
      | .toWeak inner => do
        let t ← typeExprUpTo n inner
        match ← ref? t with
        | some (_, inst) => intern (.ref .weak inst)
        | none => failAt (.mismatch .classRef t) node.loc
      | .noneOf inner => do
        let t ← typeExprUpTo n inner
        onTypes (·.optional t)
      | .arrayOf element => do intern (.array (← typeExprUpTo n element))
      | .signature params result => do
        let params ← params.mapM signature
        let result ←
          match result with
          | some r => signature r
          | none => pure TypeId.void
        intern (.lambda params result)
      | _ => failAt (.unsupported .expressionAsType) node.loc
    write (.node i (.fixed t))
    return t

def typeExpr (i : NodeId) : Check TypeId := do typeExprUpTo (← program).nodes.size i

def signatureType (i : NodeId) : Check TypeId := do
  let t ← typeExpr i
  onTypes (·.pinned t)

/-- A field has the type of its first value, which has to be one that can be kept. -/
def fieldType (e : Engine) (v : VarId) (var : Var) (owner : ClassId) : Check TypeId := do
  let some init := var.init | broken .fieldWithoutInit var.loc
  write (.var v .inProgress)
  let t ← within (some owner) (e.find init)
  if (← program).types.isTemporary t then
    failAt (.temporary t) var.loc
  return t

def varType (e : Engine) (v : VarId) (loc : Location) : Check TypeId := do
  let var := (← program).vars.get v
  match var.slot with
  | .fixed t => return t
  | .inProgress => failAt .circular var.loc
  | .empty =>
    let t ←
      match var.role, var.init with
      | .field owner, _ => fieldType e v var owner
      | .param, some declared => signatureType declared
      | .param, none => broken .paramBeforeLambda loc
      | .localVar, some init => e.find init
      | .localVar, none => broken .localWithoutInit var.loc
      | .binding, _ => broken .bindingOutsideGuard loc
    write (.var v (.fixed t))
    return t

def callableType (e : Engine) (params : List VarId) (result : Option NodeId) (loc : Location) :
    Check TypeId := do
  let params ← params.mapM fun v => varType e v loc
  let result ←
    match result with
    | some r => signatureType r
    | none => pure TypeId.void
  intern (.function params result)

def methodType (e : Engine) (m : MethodId) (loc : Location) : Check TypeId := do
  let decl := (← program).methods.get m
  if let some t := decl.slot.fixed? then return t
  let t ← callableType e decl.params decl.result loc
  write (.method m t)
  return t

def functionType (e : Engine) (f : FunctionId) (loc : Location) : Check TypeId := do
  let decl := (← program).functions.get f
  if let some t := decl.slot.fixed? then return t
  let t ← callableType e decl.params decl.result loc
  write (.function f t)
  return t

end ClassLang.Typing
