import ClassLang.Grammar.Expression

namespace ClassLang.Grammar

def typedParams (r : Rules) : Parse (List VarId) := do
  let _ ← expect Symbol.lParen
  listUntil .rParen (typedParam r)

def resultType (r : Rules) : Parse (Option NodeId) := do
  match ← peek with
  | .symbol .lBrace | .symbol .semi | .symbol .rBrace => return none
  | _ => some <$> r.type

/-- Only an interface may leave a method without a body, and not one that is given for a base. -/
def method (r : Rules) (owner : ClassId) (name : String) (span : Span) (base : Option Nat) :
    Parse MethodId := do
  let params ← typedParams r
  let result ← resultType r
  let body ←
    if ← looking Symbol.lBrace then some <$> callableBody r
    else if ((← get).program.classes.get owner).isInterface && base.isNone then do
      endStatement
      pure none
    else failAt (.missingBody name) span
  let name ← rootName name
  let loc ← locate span
  onProgram fun p =>
    let (i, methods) := p.methods.push { name, owner, params, result, body, base, loc }
    (i, { p with methods })

def editClass (c : ClassId) (f : ClassDef → ClassDef) : Parse Unit := edit (·.modifyClass c f)

def classParam (r : Rules) (owner : ClassId) : Parse Unit := do
  let (name, span) ← expectIdent
  let boundRef ← if ← eat Symbol.colon then some <$> classRef r else pure none
  let name ← rootName name
  let loc ← locate span
  edit fun p =>
    let index := (p.classes.get owner).params.length
    let (i, params) := p.params.push { name, owner, index, boundRef, loc }
    ({ p with params } : Program).modifyClass owner fun c => { c with params := c.params ++ [i] }

def addOverload (index : Nat) (m : MethodId) (c : ClassDef) : ClassDef :=
  { c with bases := c.bases.modify index fun b => { b with overloads := b.overloads ++ [m] } }

def base (r : Rules) (owner : ClassId) : Parse Unit := do
  let _ ← advance
  let reference ← classRef r
  let index := ((← get).program.classes.get owner).bases.length
  editClass owner fun c => { c with bases := c.bases ++ [{ reference }] }
  if ← eat Symbol.lBrace then
    repeatFrom (fun () => do
      if ← looking Symbol.rBrace then return .done ()
      if ← eat Symbol.semi then return .yield ()
      let (name, span) ← expectIdent
      let m ← method r owner name span (some index)
      editClass owner (addOverload index m)
      return .yield ()) ()
    let _ ← expect Symbol.rBrace

def member (r : Rules) (owner : ClassId) : Parse Unit := do
  let (name, span) ← expectIdent
  if ← eat Symbol.eq then
    let init ← r.expression
    endStatement
    let name ← rootName name
    let field ← addVar { name, role := .field owner, init := some init, loc := ← locate span }
    editClass owner fun c => { c with fields := c.fields ++ [field] }
  else
    let m ← method r owner name span none
    editClass owner fun c => { c with methods := c.methods ++ [m] }

def classMembers (r : Rules) (owner : ClassId) : Parse Unit := do
  let _ ← expect Symbol.lBrace
  repeatFrom (fun () => do
    match ← peek with
    | .symbol .rBrace => return .done ()
    | .symbol .semi =>
      let _ ← advance
      return .yield ()
    | .symbol .plus =>
      base r owner
      return .yield ()
    | _ =>
      member r owner
      return .yield ()) ()
  let _ ← expect Symbol.rBrace

def classDecl (r : Rules) (isInterface : Bool) : Parse Unit := do
  let _ ← advance
  let (name, span) ← expectIdent
  let { module, moduleName, .. } ← read
  let name ← childName moduleName name
  let loc ← locate span
  let owner ← onProgram fun p =>
    let (i, classes) := p.classes.push { name, module, isInterface, loc }
    (i, { p with classes }.modifyModule module fun m => { m with classes := m.classes ++ [i] })
  if ← eat Symbol.lParen then
    let _ ← listUntil .rParen (classParam r owner)
  withReader (fun c => { c with owner := some owner }) (classMembers r owner)

def addFunction (f : Function) : Parse FunctionId :=
  onProgram fun p =>
    let (i, functions) := p.functions.push f
    (i, { p with functions })

def functionDecl (r : Rules) : Parse Unit := do
  let _ ← advance
  let (name, span) ← expectIdent
  let { module, moduleName, .. } ← read
  let name ← childName moduleName name
  let params ← typedParams r
  let result ← resultType r
  let body ←
    if ← looking Symbol.lBrace then some <$> callableBody r
    else do
      endStatement
      pure none
  let loc ← locate span
  let i ← addFunction { name, module, params, result, body, isPlatform := body.isNone, loc }
  edit (·.modifyModule module fun m => { m with functions := m.functions ++ [i] })

/-- `name = value` and the statements behind it, which see the variable. -/
def localDecl (r : Rules) (topLevel : Bool) (name : String) : Parse NodeId := do
  let start ← advance
  let _ ← advance
  let init ← r.expression
  endStatement
  let name ← rootName name
  let var ← addVar { name, role := .localVar, init := some init, loc := ← locate start }
  let body ← r.statements topLevel
  addNode (.letIn var body) (← spanFrom start)

/-- Whether the statements end here; at the wrong end they do not. -/
def statementsEnd (topLevel : Bool) : Parse Bool := do
  match ← peek with
  | .eof => if topLevel then return true else failWanting (.token Symbol.rBrace)
  | .symbol .rBrace => if topLevel then failWanting .statement else return true
  | _ => return false

def statement (r : Rules) (topLevel : Bool) (stmts : List NodeId) :
    Parse (ForInStep (List NodeId)) := do
  if ← statementsEnd topLevel then return .done stmts
  match ← peek, ← peekSecond with
  | .symbol .semi, _ =>
    let _ ← advance
    return .yield stmts
  | .ident name, .symbol .eq => return .done (stmts ++ [← localDecl r topLevel name])
  | next, second =>
    if topLevel && (next = .keyword .kClass || next = .keyword .kInterface) then
      classDecl r (next = .keyword .kInterface)
      return .yield stmts
    else if topLevel && next = .keyword .kFn && isIdent second then
      functionDecl r
      return .yield stmts
    else
      let stmt ← expression r
      endStatement
      return .yield (stmts ++ [stmt])

/-- Statements up to a closing brace, or at top level, with declarations among them, up to the end
of the text. -/
def statements (r : Rules) (topLevel : Bool) : Parse (List NodeId) :=
  repeatFrom (statement r topLevel) []

end ClassLang.Grammar
