import ClassLang.Typing.Member

namespace ClassLang.Typing

def expectType (expected actual : TypeId) (loc : Location) : Check Unit :=
  if expected = actual then return else mismatch expected actual loc

def expectNumber (actual : TypeId) (loc : Location) : Check Unit :=
  if actual.isNumeric then return else failAt (.expectedNumber actual) loc

/-- Objects compare by identity, so for them only the class has to be the same. -/
def comparable (types : TypeTable) (l r : TypeId) : Bool :=
  l = r ||
    match types.ref? l, types.ref? r with
    | some (_, a), some (_, b) => a = b
    | _, _ => false

def binary (e : Engine) (op : BinaryOp) (lhs rhs : NodeId) (loc : Location) : Check TypeId := do
  let l ← e.find lhs
  let r ← e.find rhs
  let lhsLoc ← locOf lhs
  let rhsLoc ← locOf rhs
  match op with
  | .add | .sub | .mul | .div =>
    expectNumber l lhsLoc
    expectType l r rhsLoc
    return l
  | .mod | .bitAnd | .bitOr | .bitXor | .shl | .shr =>
    expectType TypeId.int l lhsLoc
    expectType TypeId.int r rhsLoc
    return TypeId.int
  | .lt =>
    expectNumber l lhsLoc
    expectType l r rhsLoc
    return TypeId.bool
  | .eq => if comparable (← program).types l r then return TypeId.bool else mismatch l r loc
  | .and | .or =>
    expectType TypeId.bool l lhsLoc
    expectType TypeId.bool r rhsLoc
    return TypeId.bool

def unary (e : Engine) (op : UnaryOp) (operand : NodeId) (loc : Location) : Check TypeId := do
  let t ← e.find operand
  match op with
  | .not =>
    expectType TypeId.bool t loc
    return TypeId.bool
  | .neg =>
    expectNumber t loc
    return t
  | .toInt =>
    expectType TypeId.double t loc
    return TypeId.int
  | .toDouble =>
    expectType TypeId.int t loc
    return TypeId.double

def sequence (e : Engine) (body : List NodeId) : Check TypeId :=
  body.foldlM (fun _ stmt => e.find stmt) TypeId.void

/-- A block of its own starts with no variables of its own. -/
def statements (e : Engine) (body : List NodeId) : Check TypeId :=
  withReader (fun c => { c with chain := [] }) (sequence e body)

def handedBack? (p : Program) (chain : List VarId) (body : List NodeId) : Option VarId :=
  match body.getLast?.map p.form with
  | some (.getVar v) => if v ∈ chain then some v else none
  | _ => none

/-- A block that ends in a variable of its own gives it away with its declared type. -/
def letIn (e : Engine) (v : VarId) (body : List NodeId) (loc : Location) : Check TypeId := do
  let some init := ((← program).vars.get v).init | broken .localWithoutInit loc
  let t ← e.find init
  write (.var v (.fixed t))
  withReader (fun c => { c with chain := v :: c.chain }) do
    let last ← sequence e body
    match handedBack? (← program) (← read).chain body with
    | some read => varType e read loc
    | none => return last

/-- Whether a block or loop of type `existing` can also end with a value of type `t`. Only a block
without a value drops those that come later. -/
def accepts (target : NodeId) (existing t : TypeId) (loc : Location) : Check Bool := do
  if existing = t ∨ t = TypeId.noReturn then return true
  let isLoop :=
    match (← program).form target with
    | .loop _ => true
    | _ => false
  if existing = TypeId.void && !isLoop then return true
  match ← ref? existing, ← ref? t with
  | some want, some given =>
    if keepsKind want.1 given.1 then editing loc (Program.isSubinst given.2 want.2)
      else return false
  | _, _ => return false

def leaveTo (target : NodeId) (t : TypeId) (loc : Location) : Check Unit := do
  match (← program).slot target with
  | .fixed existing =>
    if !(← accepts target existing t loc) then failAt (.incompatible existing t) loc
  | .inProgress => write (.node target (.fixed t))
  | .empty => broken .leaveOutsideTarget loc

/-- Records the type of a node. A block or loop that was left before may have one already. -/
def unite (i : NodeId) (t : TypeId) : Check TypeId := do
  let loc ← locOf i
  match (← program).slot i with
  | .fixed existing =>
    if ← accepts i existing t loc then return existing else failAt (.incompatible existing t) loc
  | _ =>
    write (.node i (.fixed t))
    return t

def presentType (e : Engine) (i : NodeId) : Check TypeId := do
  let t ← e.find i
  match ← onTypes (·.unwrap t) with
  | some inner => return inner
  | none => failAt (.mismatch .optional t) (← locOf i)

def guard (e : Engine) (cond yes : NodeId) (binding : VarId) : Check TypeId := do
  let inner ← presentType e cond
  write (.var binding (.fixed inner))
  let t ← e.find yes
  if t = TypeId.noReturn then return TypeId.bool else onTypes (·.optional t)

def orElse (e : Engine) (lhs rhs : NodeId) (loc : Location) : Check TypeId := do
  let inner ← presentType e lhs
  let t ← e.find rhs
  unify e inner t loc

def checkBounds (c : ClassId) (inst : InstId) (loc : Location) : Check Unit := do
  let p ← program
  ((p.classes.get c).params.zip (p.insts.get inst).args).forM fun (formal, arg) => do
    if let some bound := (p.params.get formal).bound then
      if (← editing loc (Program.upcast arg bound)).isNone then
        failAt (.outOfBound bound arg) loc

def newObject (target : Option Target) (args : List NodeId) (inst : Option InstId)
    (loc : Location) : Check TypeId := do
  match target, inst with
  | some (.cls c), some inst =>
    if ((← program).classes.get c).isInterface then
      failAt (.unsupported (.objectOfInterface inst)) loc
    args.forM fun a => discard (typeExpr a)
    checkBounds c inst loc
    intern (.ref .own inst)
  | some (.param _), some _ => failAt (.unsupported .objectOfParam) loc
  | _, _ => broken .unresolvedClassRef loc

def arrayItem (e : Engine) (element : Option TypeId) (item : NodeId) : Check (Option TypeId) := do
  let t ← e.find item
  let loc ← locOf item
  if (← program).types.isTemporary t then
    failAt (.temporary t) loc
  match element with
  | none => return some t
  | some first =>
    expectType first t loc
    return some first

def array (e : Engine) (items : List NodeId) (loc : Location) : Check TypeId := do
  match ← items.foldlM (arrayItem e) none with
  | some element => intern (.array element)
  | none => broken .emptyArray loc

def elementType (e : Engine) (array index : NodeId) : Check TypeId := do
  let t ← e.find array
  match ← typeOf t with
  | .array element =>
    let indexType ← e.find index
    expectType TypeId.int indexType (← locOf index)
    return element
  | _ => failAt (.mismatch .array t) (← locOf array)

/-- A cast to what the operand is anyway is safe; any other gives an optional. -/
def cast (e : Engine) (i operand target : NodeId) (loc : Location) : Check TypeId := do
  let inst ← receiverOf e (some operand) loc
  let _ ← typeExpr target
  match (← program).form target with
  | .classRef _ _ _ (some wanted) =>
    match (← program).classOf? wanted with
    | none => failAt (.unsupported (.castToParam wanted)) loc
    | some c =>
      let safe := decide ((← editing loc (Program.upcast inst c)) = some wanted)
      edit (·.setForm i (.cast operand target (!safe)))
      let pin ← intern (.ref .pin wanted)
      if safe then return pin else onTypes (·.optional pin)
  | _ => broken .castTarget loc

def toWeak (e : Engine) (value : NodeId) (loc : Location) : Check TypeId := do
  let t ← e.find value
  match ← ref? t with
  | some (_, inst) => intern (.ref .weak inst)
  | none => failAt (.mismatch .classRef t) loc

def toOwn (e : Engine) (value : NodeId) (loc : Location) : Check TypeId := do
  let t ← e.find value
  match ← ref? t with
  | some (.pin, inst) => intern (.ref .own inst)
  | _ => failAt (.mismatch .pinnedRef t) loc

def copyOf (e : Engine) (value : NodeId) (loc : Location) : Check TypeId := do
  let t ← e.find value
  match ← typeOf t with
  | .ref _ inst => intern (.ref .own inst)
  | .array _ => return t
  | _ => failAt (.mismatch .classRefOrArray t) loc

def rule (e : Engine) (i : NodeId) : Form → Location → Check TypeId
  | .int _, _ => return TypeId.int
  | .double _, _ => return TypeId.double
  | .bool _, _ => return TypeId.bool
  | .atom _, _ => return TypeId.atom
  | .void, _ => return TypeId.void
  | .name _, loc | .setName _ _, loc => broken .unresolvedName loc
  | .getVar v, loc => do
    let declared ← varType e v loc
    onTypes (·.read declared)
  | .setVar v value, loc => do
    let declared ← varType e v loc
    let value ← coerce e value declared
    edit (·.setForm i (.setVar v value))
    return TypeId.void
  | .this, loc => do intern (.ref .pin (← thisInst loc))
  | .getField base name _, loc => getField e i base name loc
  | .setField base name _ value, loc => setField e i base name value loc
  | .binary op lhs rhs, loc => binary e op lhs rhs loc
  | .unary op operand, loc => unary e op operand loc
  | .block body, _ => statements e body
  | .letIn v body, loc => letIn e v body loc
  | .loop body, _ => do
    let _ ← statements e body
    return ((← program).slot i).fixed?.getD TypeId.noReturn
  | .leave target result, loc => do
    let t ←
      match result with
      | some r => e.find r
      | none => pure TypeId.void
    leaveTo target t loc
    return TypeId.noReturn
  | .guard cond yes binding, _ => guard e cond yes binding
  | .orElse lhs rhs, loc => orElse e lhs rhs loc
  | .just value, _ => do
    let t ← e.find value
    onTypes (·.optional t)
  | .noneOf type, _ => do
    let t ← typeExpr type
    onTypes (·.optional t)
  | .classRef _ target args inst, loc => newObject target args inst loc
  | .array items, loc => array e items loc
  | .arrayOf _, loc | .signature _ _, loc => failAt (.unsupported .typeAsValue) loc
  | .getAt array index, _ => do
    let element ← elementType e array index
    onTypes (·.read element)
  | .setAt array index value, _ => do
    let element ← elementType e array index
    let value ← coerce e value element
    edit (·.setForm i (.setAt array index value))
    return TypeId.void
  | .call callee args, loc => call e i callee args loc
  | .callMethod receiver m args _, loc => callMethod e i receiver m args loc
  | .callFunction f args, loc => callFunction e i f args loc
  | .functionRef f, loc => functionType e f loc
  | .delegate receiver m, loc => do
    let a ← access e receiver ((← program).methods.get m).name loc
    delegateType e a m loc
  | .lambda l, loc => lambdaType e l loc
  | .cast operand target _, loc => cast e i operand target loc
  | .toWeak value, loc => toWeak e value loc
  | .toOwn value, loc => toOwn e value loc
  | .copyOf value, loc => copyOf e value loc

/-- The type of a node, by its rule if it has none yet. A node that its own type depends on has
none. -/
def find (e : Engine) (i : NodeId) : Check TypeId := do
  let node := (← program).nodes.get i
  match node.slot with
  | .fixed t => return t
  | .inProgress => failAt .circular node.loc
  | .empty =>
    write (.node i .inProgress)
    emit (.typing i.index node.form.label)
    unite i (← rule e i node.form node.loc)

/-- Typing to a depth of `n`. A step further in starts a node, fixes a placeholder or has just fixed
one, so where no depth is left nothing is left to start. -/
def engine : Nat → Engine
  | 0 =>
    { find := fun i => do
        let node := (← program).nodes.get i
        match node.slot with
        | .fixed t => return t
        | _ => failAt .circular node.loc
      fix := fun _ _ loc => failAt .circular loc
      assign := fun actual target loc => mismatch target actual loc }
  | n + 1 =>
    { find := fun i c => find (engine n) i c
      fix := fun cold params loc c => fixCold (engine n) cold params loc c
      assign := fun actual target loc c => assign (engine n) actual target loc c }

end ClassLang.Typing
