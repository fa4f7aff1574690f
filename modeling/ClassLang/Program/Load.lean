import ClassLang.Grammar.Module

namespace ClassLang.Program

abbrev Load := Pass ParseCause

namespace Load

open Pass

def parsing {α : Type} (module : ModuleId) (last : Option Lexeme) (rest : List Lexeme)
    (rule : Grammar.Parse α) : Load (α × Option Lexeme × List Lexeme) := fun s =>
  let context : Grammar.Context := { module, moduleName := (s.program.modules.get module).name }
  match rule.run context |>.run { last, rest, program := s.program } with
  | .ok a t => .ok (a, t.last, t.rest) { s with program := t.program }
  | .error e t => .error e { s with program := t.program }

def rootName (segment : String) : Load NameId :=
  onProgram fun p =>
    let (i, names) := p.names.root segment
    (i, { p with names })

def addModule (m : Module) : Load ModuleId :=
  onProgram fun p =>
    let (i, modules) := p.modules.push m
    (i, { p with modules })

def editModule (i : ModuleId) (f : Module → Module) : Load Unit := edit (·.modifyModule i f)

/-- A module that is loaded already is not loaded again, but its version has to be new enough each
time. -/
def bindImport (load : String → Location → Load ModuleId) (module : ModuleId)
    (active : List String) : String × Nat × Span → Load Import
  | (name, required, span) => do
    let loc : Location := ⟨some module, span⟩
    if name ∈ active then
      throw ⟨.importCycle (active.dropWhile (· ≠ name) ++ [name]), loc⟩
    let nameId ← rootName name
    let imported ←
      match (← program).moduleByName? nameId with
      | some existing => pure existing
      | none => load name loc
    let actual := ((← program).modules.get imported).version
    if actual < required then
      throw ⟨.outdated name required actual, loc⟩
    return { name := nameId, version := required, module? := some imported, span }

/-- Loads a module after `load` has loaded all that it imports. `active` are the modules whose
imports are being loaded, outermost first. -/
def moduleStep (provide : String → Option String)
    (load : List String → String → Location → Load ModuleId) (active : List String) (name : String)
    (requestedAt : Location) : Load ModuleId := do
  emit (.requested name)
  let some text := provide name | throw ⟨.missingModule name, requestedAt⟩
  let nameId ← rootName name
  let id ← addModule { name := nameId }
  let lexemes ←
    match tokenize text with
    | .ok lexemes => pure lexemes
    | .error e => throw ⟨.lex e, ⟨some id, e.span⟩⟩
  let (header, last, rest) ← parsing id none lexemes Grammar.header
  if let some (declared, span) := header.name then
    if declared ≠ name then
      throw ⟨.nameMismatch name declared, ⟨some id, span⟩⟩
  editModule id fun m => { m with version := header.version }
  let active := active ++ [name]
  let imports ← header.imports.mapM (bindImport (load active) id active)
  editModule id fun m => { m with imports }
  let _ ← parsing id last rest Grammar.moduleBody
  emit (.moduleLoaded name header.version ((← program).modules.get id).classes.length)
  return id

/-- Loads a module with all that it imports. Each active module has a text, so `depth` has to be at
least the number of texts there are. -/
def module (provide : String → Option String) :
    Nat → List String → String → Location → Load ModuleId
  | 0, _, name, requestedAt => throw ⟨.missingModule name, requestedAt⟩
  | depth + 1, active, name, requestedAt =>
    moduleStep provide (module provide depth) active name requestedAt

end Load

/-- Loads a module with all that it imports into a program. `texts` is at least the number of names
for which `provide` has a text. -/
def load (p : Program) (provide : String → Option String) (texts : Nat) (root : String) :
    Outcome ParseCause ModuleId :=
  (Load.module provide (texts + 1) [] root {}).outcome p

def loadText (p : Program) (name text : String) : Outcome ParseCause ModuleId :=
  p.load (fun requested => if requested = name then some text else none) 1 name

end ClassLang.Program
