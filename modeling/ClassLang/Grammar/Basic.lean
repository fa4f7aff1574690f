import ClassLang.Grammar.Error

namespace ClassLang.Grammar

structure Context where
  module : ModuleId
  moduleName : NameId
  /-- The class whose body this is. -/
  owner : Option ClassId := none
  /-- What `break` leaves. -/
  loop : Option NodeId := none
  /-- What `return` leaves. -/
  body : Option NodeId := none
  /-- In the condition of a `while` a brace opens the body, so no lambda starts there. -/
  inCondition : Bool := false
deriving Repr, Inhabited

structure State where
  /-- The lexeme read last. -/
  last : Option Lexeme := none
  rest : List Lexeme
  /-- How many hidden variables there are. -/
  temps : Nat := 0
  program : Program
deriving Repr, Inhabited

abbrev Parse := ReaderT Context (EStateM ParseFault State)

instance : Coe Symbol Token := ⟨.symbol⟩

instance : Coe Keyword Token := ⟨.keyword⟩

def tokenAt (n : Nat) (rest : List Lexeme) : Token := (rest[n]?.map Lexeme.token).getD .eof

def peek : Parse Token := return tokenAt 0 (← get).rest

def peekSecond : Parse Token := return tokenAt 1 (← get).rest

def peekSpan : Parse Span := return (((← get).rest.head?).map Lexeme.span).getD ⟨0, 0⟩

def lastSpan : Parse Span := return ((← get).last.map Lexeme.span).getD ⟨0, 0⟩

def spanFrom (start : Span) : Parse Span := return start.cover (← lastSpan)

def advance : Parse Span :=
  modifyGet fun s =>
    match s.rest with
    | [] => (⟨0, 0⟩, s)
    | l :: rest => (l.span, { s with last := some l, rest })

def locate (span : Span) : Parse Location := return ⟨some (← read).module, span⟩

def failAt {α : Type} (cause : ParseCause) (span : Span) : Parse α := do
  throw ⟨cause, ← locate span⟩

def failWanting {α : Type} (wanted : Wanted) : Parse α := do
  failAt (.expected wanted (← peek)) (← peekSpan)

def looking (t : Token) : Parse Bool := return decide ((← peek) = t)

def eat (t : Token) : Parse Bool := do
  if ← looking t then
    let _ ← advance
    return true
  else
    return false

def expect (t : Token) : Parse Span := do
  if ← looking t then advance else failWanting (.token t)

def isIdent : Token → Bool
  | .ident _ => true
  | _ => false

def expectIdent : Parse (String × Span) := do
  match ← peek with
  | .ident name => return (name, ← advance)
  | _ => failWanting .identifier

def repeatUpTo {σ : Type} (step : σ → Parse (ForInStep σ)) : Nat → σ → Parse σ
  | 0, s => pure s
  | n + 1, s => do
    match ← step s with
    | .done s => pure s
    | .yield s => repeatUpTo step n s

def repeatFrom {σ : Type} (step : σ → Parse (ForInStep σ)) (s : σ) : Parse σ := do
  repeatUpTo step ((← get).rest.length + 1) s

def listUntil {α : Type} (close : Symbol) (item : Parse α) : Parse (List α) := do
  let items ← repeatFrom (fun items => do
    if ← looking close then return .done items
    let items := items ++ [← item]
    if ← eat Symbol.comma then return .yield items else return .done items) []
  let _ ← expect close
  return items

def onProgram {α : Type} (f : Program → α × Program) : Parse α :=
  modifyGet fun s =>
    let (a, program) := f s.program
    (a, { s with program })

def edit (f : Program → Program) : Parse Unit := modify fun s => { s with program := f s.program }

def rootName (segment : String) : Parse NameId :=
  onProgram fun p =>
    let (i, names) := p.names.root segment
    (i, { p with names })

def childName (parent : NameId) (segment : String) : Parse NameId :=
  onProgram fun p =>
    let (i, names) := p.names.child parent segment
    (i, { p with names })

def addNode (form : Form) (span : Span) : Parse NodeId := do
  let loc ← locate span
  onProgram fun p =>
    let (i, nodes) := p.nodes.push { form, loc }
    (i, { p with nodes })

/-- Fills a node that was made before its parts, so that jumps in them could name it. -/
def finishNode (i : NodeId) (form : Form) (start : Span) : Parse Unit := do
  let span ← spanFrom start
  edit fun p => { p with nodes := p.nodes.modify i fun n =>
    { n with form, loc := { n.loc with span } } }

def spanOf (i : NodeId) : Parse Span := return (← get).program.span i

def addVar (var : Var) : Parse VarId :=
  onProgram fun p =>
    let (i, vars) := p.vars.push var
    (i, { p with vars })

def addBinding (cond : NodeId) : Parse VarId := do
  let name ← rootName "_"
  addVar { name, role := .binding, init := none, loc := ← locate (← spanOf cond) }

/-- A variable that no text can name. -/
def addTemp (init : NodeId) : Parse (VarId × NameId) := do
  let name ← rootName ("$" ++ toString (← get).temps)
  modify fun s => { s with temps := s.temps + 1 }
  let loc := (← get).program.loc init
  return (← addVar { name, role := .localVar, init := some init, loc }, name)

/-- The constructs that contain each other, as they stand one level further in. -/
structure Rules where
  expression : Parse NodeId
  guarded : Parse NodeId
  unary : Parse NodeId
  type : Parse NodeId
  statements : Bool → Parse (List NodeId)

end ClassLang.Grammar
