import ClassLang.Grammar.Body

namespace ClassLang.Grammar

def addBinary (op : BinaryOp) (lhs rhs : NodeId) : Parse NodeId := do
  addNode (.binary op lhs rhs) ((← spanOf lhs).cover (← spanOf rhs))

def addNot (operand : NodeId) : Parse NodeId := do
  addNode (.unary .not operand) (← spanOf operand)

inductive Assignment
  | plain
  | compound (op : BinaryOp)
deriving DecidableEq, Repr

def Assignment.ofToken? : Token → Option Assignment
  | .symbol .colonEq => some plain
  | .symbol .plusEq => some (compound .add)
  | .symbol .minusEq => some (compound .sub)
  | .symbol .starEq => some (compound .mul)
  | .symbol .slashEq => some (compound .div)
  | .symbol .percentEq => some (compound .mod)
  | .symbol .ampEq => some (compound .bitAnd)
  | .symbol .pipeEq => some (compound .bitOr)
  | .symbol .caretEq => some (compound .bitXor)
  | .symbol .shlEq => some (compound .shl)
  | .symbol .shrEq => some (compound .shr)
  | _ => none

def assignment? : Parse (Option Assignment) := do
  match Assignment.ofToken? (← peek) with
  | none => return none
  | some a =>
    let _ ← advance
    return some a

def assignName (r : Rules) (start : Span) (target : NodeId) (a : Assignment) : Parse NodeId := do
  match (← get).program.form target with
  | .name name =>
    let rhs ← r.expression
    let value ←
      match a with
      | .plain => pure rhs
      | .compound op => addBinary op (← addNode (.name name) (← spanOf target)) rhs
    addNode (.setName name value) (← spanFrom start)
  | _ => failAt .notAssignable (← spanOf target)

/-- `o.f op= v` is `{ t = o; t.f := t.f op v }` for a hidden `t`, so that `o` runs once. -/
def assignField (r : Rules) (start : Span) (base : NodeId) (name : NameId) (a : Assignment) :
    Parse NodeId := do
  match a with
  | .plain =>
    let value ← r.expression
    addNode (.setField (some base) name none value) (← spanFrom start)
  | .compound op =>
    let (temp, tempName) ← addTemp base
    let span ← spanOf base
    let rhs ← r.expression
    let read ← addNode (.name tempName) span
    let value ← addBinary op (← addNode (.getField (some read) name none) span) rhs
    let object ← addNode (.name tempName) span
    let full ← spanFrom start
    let set ← addNode (.setField (some object) name none value) full
    addNode (.letIn temp [set]) full

/-- `a[i] op= v` is `{ t = a; u = i; t[u] := t[u] op v }` for hidden `t` and `u`. -/
def assignAt (r : Rules) (start : Span) (array index : NodeId) (a : Assignment) : Parse NodeId := do
  match a with
  | .plain =>
    let value ← r.expression
    addNode (.setAt array index value) (← spanFrom start)
  | .compound op =>
    let (arrayTemp, arrayName) ← addTemp array
    let (indexTemp, indexName) ← addTemp index
    let span ← spanOf array
    let rhs ← r.expression
    let readArray ← addNode (.name arrayName) span
    let readIndex ← addNode (.name indexName) span
    let value ← addBinary op (← addNode (.getAt readArray readIndex) span) rhs
    let setArray ← addNode (.name arrayName) span
    let setIndex ← addNode (.name indexName) span
    let full ← spanFrom start
    let set ← addNode (.setAt setArray setIndex value) full
    let inner ← addNode (.letIn indexTemp [set]) full
    addNode (.letIn arrayTemp [inner]) full

def conversion (r : Rules) (start : Span) (op : UnaryOp) : Parse NodeId := do
  let _ ← advance
  let _ ← expect Symbol.lParen
  let operand ← r.expression
  let _ ← expect Symbol.rParen
  addNode (.unary op operand) (← spanFrom start)

def arrayLiteral (r : Rules) (start : Span) : Parse NodeId := do
  let _ ← advance
  let first ← r.expression
  let items ← repeatFrom (fun items => do
    if ← eat Symbol.comma then return .yield (items ++ [← r.expression]) else return .done items)
      [first]
  let _ ← expect Symbol.rBracket
  addNode (.array items) (← spanFrom start)

def parenthesized (r : Rules) : Parse NodeId := do
  let _ ← advance
  let inner ← r.expression
  let _ ← expect Symbol.rParen
  return inner

def primary (r : Rules) : Parse NodeId := do
  let start ← peekSpan
  let literal (form : Form) : Parse NodeId := do
    let _ ← advance
    addNode form start
  match ← peek with
  | .int v => literal (.int v)
  | .double v => literal (.double v)
  | .keyword .kTrue => literal (.bool true)
  | .keyword .kFalse => literal (.bool false)
  | .keyword .kThis => literal .this
  | .symbol .dot =>
    let _ ← advance
    let (name, _) ← expectIdent
    let name ← rootName name
    addNode (.atom name) (← spanFrom start)
  | .ident _ =>
    let name ← qualifiedName
    addNode (.name name) (← spanFrom start)
  | .keyword .kInt =>
    if (← peekSecond) = .symbol .lParen then conversion r start .toInt else typeExpr r
  | .keyword .kDouble =>
    if (← peekSecond) = .symbol .lParen then conversion r start .toDouble else typeExpr r
  | .keyword .kBool | .keyword .kFn => typeExpr r
  | .symbol .lParen => if ← lambdaAhead then lambda r else parenthesized r
  | .symbol .lBrace =>
    let body ← braced r
    addNode (.block body) (← spanFrom start)
  | .symbol .lBracket => arrayLiteral r start
  | .keyword .kLoop => loopBody r
  | .keyword .kWhile => whileLoop r
  | .keyword .kBreak => jump r Context.loop .breakOutsideLoop
  | .keyword .kReturn => jump r Context.body .returnOutsideBody
  | _ => failWanting .expression

/-- One step of what can follow an expression. An assignment to a field or an element ends the
expression, which the flag says. -/
def postfixStep (r : Rules) (start : Span) : NodeId × Bool → Parse (ForInStep (NodeId × Bool))
  | (expr, assigned) => do
    match ← peek with
    | .symbol .lParen =>
      let _ ← advance
      let args ← listUntil .rParen r.expression
      return .yield (← addNode (.call expr args) (← spanFrom start), assigned)
    | .symbol .dot =>
      let _ ← advance
      let (name, _) ← expectIdent
      let name ← rootName name
      match ← assignment? with
      | some a => return .done (← assignField r start expr name a, true)
      | none =>
        return .yield (← addNode (.getField (some expr) name none) (← spanFrom start), assigned)
    | .symbol .lBracket =>
      let _ ← advance
      let index ← r.expression
      let _ ← expect Symbol.rBracket
      match ← assignment? with
      | some a => return .done (← assignAt r start expr index a, true)
      | none => return .yield (← addNode (.getAt expr index) (← spanFrom start), assigned)
    | .symbol .tilde =>
      let _ ← advance
      let target ← classRef r
      return .yield (← addNode (.cast expr target false) (← spanFrom start), assigned)
    | _ => return .done (expr, assigned)

def suffixed (r : Rules) : Parse NodeId := do
  let start ← peekSpan
  let (expr, assigned) ← repeatFrom (postfixStep r start) (← primary r, false)
  if assigned then return expr
  match ← assignment? with
  | some a => assignName r start expr a
  | none => return expr

def unary (r : Rules) : Parse NodeId := do
  let start ← peekSpan
  let wrap (form : NodeId → Form) : Parse NodeId := do
    let _ ← advance
    let operand ← r.unary
    addNode (form operand) (← spanFrom start)
  match ← peek with
  | .symbol .minus => wrap (.unary .neg)
  | .symbol .not => wrap (.unary .not)
  | .symbol .plus => wrap .just
  | .symbol .amp => wrap .toWeak
  | .symbol .star => wrap .toOwn
  | .symbol .atSign => wrap .copyOf
  | .symbol .question =>
    let _ ← advance
    let type ← r.type
    addNode (.noneOf type) (← spanFrom start)
  | .symbol .tilde =>
    let _ ← advance
    let operand ← r.unary
    let mask ← addNode (.int (-1)) start
    addBinary .bitXor operand mask
  | _ => suffixed r

def leftAssoc (op? : Token → Option BinaryOp) (operand : Parse NodeId) : Parse NodeId := do
  repeatFrom (fun lhs => do
    match op? (← peek) with
    | none => return .done lhs
    | some op =>
      let _ ← advance
      let rhs ← operand
      return .yield (← addBinary op lhs rhs)) (← operand)

def productOp? : Token → Option BinaryOp
  | .symbol .star => some .mul
  | .symbol .slash => some .div
  | .symbol .percent => some .mod
  | .symbol .amp => some .bitAnd
  | .symbol .shl => some .shl
  | .symbol .shr => some .shr
  | _ => none

def sumOp? : Token → Option BinaryOp
  | .symbol .plus => some .add
  | .symbol .minus => some .sub
  | .symbol .pipe => some .bitOr
  | .symbol .caret => some .bitXor
  | _ => none

def andOp? : Token → Option BinaryOp
  | .symbol .andAnd => some .and
  | _ => none

def orOp? : Token → Option BinaryOp
  | .symbol .orOr => some .or
  | _ => none

def sum (r : Rules) : Parse NodeId := leftAssoc sumOp? (leftAssoc productOp? (unary r))

/-- All comparisons are made of `==`, `<` and `!`. -/
def compare? : Token → Option (NodeId → NodeId → Parse NodeId)
  | .symbol .eqEq => some fun lhs rhs => addBinary .eq lhs rhs
  | .symbol .notEq => some fun lhs rhs => do addNot (← addBinary .eq lhs rhs)
  | .symbol .lt => some fun lhs rhs => addBinary .lt lhs rhs
  | .symbol .gt => some fun lhs rhs => addBinary .lt rhs lhs
  | .symbol .ltEq => some fun lhs rhs => do addNot (← addBinary .lt rhs lhs)
  | .symbol .gtEq => some fun lhs rhs => do addNot (← addBinary .lt lhs rhs)
  | _ => none

def comparison (r : Rules) : Parse NodeId := do
  let lhs ← sum r
  match compare? (← peek) with
  | none => return lhs
  | some build =>
    let _ ← advance
    build lhs (← sum r)

def disjunction (r : Rules) : Parse NodeId := leftAssoc orOp? (leftAssoc andOp? (comparison r))

def guarded (r : Rules) : Parse NodeId := do
  let cond ← disjunction r
  if ← eat Symbol.question then
    let binding ← addBinding cond
    let yes ← r.guarded
    addNode (.guard cond yes binding) ((← spanOf cond).cover (← spanOf yes))
  else
    return cond

def expression (r : Rules) : Parse NodeId := do
  let lhs ← guarded r
  if ← eat Symbol.colon then
    let rhs ← r.expression
    addNode (.orElse lhs rhs) ((← spanOf lhs).cover (← spanOf rhs))
  else
    return lhs

end ClassLang.Grammar
