import ClassLang.Grammar.TypeExpr

namespace ClassLang.Grammar

/-- A statement ends with `;`, before `}` or the end of the text, or behind a `}`. -/
def endStatement : Parse Unit := do
  let afterBrace := (← get).last.any (·.token = .symbol .rBrace)
  if ← eat Symbol.semi then return
  if afterBrace then return
  match ← peek with
  | .symbol .rBrace | .eof => return
  | _ => failWanting (.token Symbol.semi)

def braced (r : Rules) : Parse (List NodeId) := do
  let _ ← expect Symbol.lBrace
  let body ← r.statements false
  let _ ← expect Symbol.rBrace
  return body

/-- The body of a method, function or lambda: `return` leaves it, and no `break` passes it. -/
def callableBody (r : Rules) : Parse NodeId := do
  let start ← peekSpan
  let id ← addNode (.block []) start
  let body ← withReader (fun c => { c with body := some id, loop := none }) (braced r)
  finishNode id (.block body) start
  return id

def typedParam (r : Rules) : Parse VarId := do
  let start ← peekSpan
  let declared ← r.type
  let (name, _) ← expectIdent
  addVar { name := ← rootName name, role := .param, init := some declared, loc := ← locate start }

def lambdaParam (r : Rules) : Parse VarId := do
  let bare :=
    match ← peek, ← peekSecond with
    | .ident _, .symbol .comma | .ident _, .symbol .rParen => true
    | _, _ => false
  if bare then
    let start ← peekSpan
    let (name, _) ← expectIdent
    addVar { name := ← rootName name, role := .param, init := none, loc := ← locate start }
  else
    typedParam r

def closesBeforeBrace : Nat → List Lexeme → Bool
  | _, [] => false
  | depth, l :: rest =>
    match l.token with
    | .symbol .lParen => closesBeforeBrace (depth + 1) rest
    | .symbol .rParen =>
      if depth ≤ 1 then tokenAt 0 rest = .symbol .lBrace else closesBeforeBrace (depth - 1) rest
    | .eof => false
    | _ => closesBeforeBrace depth rest

def lambdaAhead : Parse Bool := do
  if (← read).inCondition then return false
  return closesBeforeBrace 0 (← get).rest

def lambda (r : Rules) : Parse NodeId := do
  let start ← expect Symbol.lParen
  let params ← listUntil .rParen (lambdaParam r)
  let body ← callableBody r
  let owner := (← read).owner
  let id ← onProgram fun p =>
    let (i, lambdas) := p.lambdas.push { params, body, owner }
    (i, { p with lambdas })
  addNode (.lambda id) (← spanFrom start)

def loopBody (r : Rules) : Parse NodeId := do
  let start ← advance
  let id ← addNode (.loop []) start
  let body ← withReader (fun c => { c with loop := some id }) (braced r)
  finishNode id (.loop body) start
  return id

/-- `while c { … }` is a loop that goes on as long as `c` is present and is left otherwise. -/
def whileLoop (r : Rules) : Parse NodeId := do
  let start ← advance
  let id ← addNode (.loop []) start
  let cond ← withReader (fun c => { c with inCondition := true }) r.expression
  let bodyStart ← peekSpan
  let stmts ← withReader (fun c => { c with loop := some id }) (braced r)
  let body ← addNode (.block stmts) (← spanFrom bodyStart)
  let binding ← addBinding cond
  let span ← spanFrom start
  let guarded ← addNode (.guard cond body binding) span
  let exit ← addNode (.leave id none) span
  let step ← addNode (.orElse guarded exit) span
  finishNode id (.loop [step]) start
  return id

def endsJump : Token → Bool
  | .symbol .semi | .symbol .rBrace | .symbol .rParen | .symbol .comma | .symbol .colon | .eof =>
    true
  | _ => false

def jump (r : Rules) (target : Context → Option NodeId) (outside : ParseCause) : Parse NodeId := do
  let start ← advance
  match target (← read) with
  | none => failAt outside start
  | some target =>
    let result ← if endsJump (← peek) then pure none else some <$> r.expression
    addNode (.leave target result) (← spanFrom start)

end ClassLang.Grammar
