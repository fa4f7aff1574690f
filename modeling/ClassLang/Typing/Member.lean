import ClassLang.Typing.Lambda

namespace ClassLang.Typing

structure Access where
  receiver : InstId
  entry : MemberEntry
deriving DecidableEq, Repr, Inhabited

/-- The instance that a base refers to; without a base it is the enclosing one. A weak reference has
to be read first. -/
def receiverOf (e : Engine) (base : Option NodeId) (loc : Location) : Check InstId := do
  match base with
  | none => thisInst loc
  | some base =>
    let t ← e.find base
    match ← ref? t with
    | some (.own, inst) | some (.pin, inst) => return inst
    | _ => failAt (.mismatch .classRef t) (← locOf base)

def access (e : Engine) (base : Option NodeId) (name : NameId) (loc : Location) : Check Access := do
  let receiver ← receiverOf e base loc
  match (← program).classOf? receiver with
  | none => failAt (.noMembers receiver name) loc
  | some c =>
    match ((← program).classes.get c).members.lookup name with
    | .none => failAt (.unknownMember c name) loc
    | .many _ => failAt (.ambiguousMember name) loc
    | .one entry => return { receiver, entry }

def Access.view (a : Access) (declared : TypeId) (loc : Location) : Check TypeId :=
  editing loc (Program.stripPath declared a.entry.path a.receiver)

def methodSignature (e : Engine) (a : Access) (m : MethodId) (loc : Location) :
    Check (List TypeId × TypeId) := do
  let declared ← methodType e m loc
  let t ← a.view declared loc
  signatureOf t .methodNotCallable loc

def delegateType (e : Engine) (a : Access) (m : MethodId) (loc : Location) : Check TypeId := do
  let (params, result) ← methodSignature e a m loc
  intern (.lambda params result)

/-- A method that is not called becomes a delegate. -/
def getField (e : Engine) (i : NodeId) (base : Option NodeId) (name : NameId) (loc : Location) :
    Check TypeId := do
  let a ← access e base name loc
  match a.entry.member with
  | .field f =>
    let declared ← varType e f loc
    let t ← a.view declared loc
    edit (·.setForm i (.getField base name (some f)))
    onTypes (·.read t)
  | .method m =>
    edit (·.setForm i (.delegate base m))
    delegateType e a m loc

def setField (e : Engine) (i : NodeId) (base : Option NodeId) (name : NameId) (value : NodeId)
    (loc : Location) : Check TypeId := do
  let a ← access e base name loc
  match a.entry.member with
  | .method _ => failAt .methodAsField loc
  | .field f =>
    let declared ← varType e f loc
    let t ← a.view declared loc
    let value ← coerce e value t
    edit (·.setForm i (.setField base name (some f) value))
    return TypeId.void

def callMethod (e : Engine) (i : NodeId) (receiver : Option NodeId) (m : MethodId)
    (args : List NodeId) (loc : Location) : Check TypeId := do
  let a ← access e receiver ((← program).methods.get m).name loc
  if a.entry.member ≠ .method m then
    broken .methodOfAnotherMember loc
  let (params, result) ← methodSignature e a m loc
  let args ← arguments e params args loc
  let p ← program
  let owner := (p.methods.get m).owner
  let dispatch : Dispatch := if (p.classes.get owner).isInterface then .interface owner
    else .virtual
  edit (·.setForm i (.callMethod receiver m args dispatch))
  return result

def callValue (e : Engine) (i callee : NodeId) (args : List NodeId) (loc : Location) :
    Check TypeId := do
  let t ← e.find callee
  let (args, result) ←
    match ← typeOf t with
    | .lambda params result | .function params result =>
      do pure (← arguments e params args loc, result)
    | .cold c => callCold e c args loc
    | _ => failAt (.notCallable t) loc
  edit (·.setForm i (.call callee args))
  return result

/-- `o.m(…)` is a call of the method, and not of a delegate for it. -/
def call (e : Engine) (i callee : NodeId) (args : List NodeId) (loc : Location) : Check TypeId := do
  match (← program).form callee with
  | .getField base name none =>
    let a ← access e base name loc
    match a.entry.member with
    | .method m =>
      edit (·.setForm i (.callMethod base m args .unresolved))
      callMethod e i base m args loc
    | .field _ => callValue e i callee args loc
  | _ => callValue e i callee args loc

def callFunction (e : Engine) (i : NodeId) (f : FunctionId) (args : List NodeId) (loc : Location) :
    Check TypeId := do
  let t ← functionType e f loc
  let (params, result) ← signatureOf t .functionNotCallable loc
  let args ← arguments e params args loc
  edit (·.setForm i (.callFunction f args))
  return result

end ClassLang.Typing
