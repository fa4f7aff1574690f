import ClassLang.Log
import ClassLang.Program.Listing
import ClassLang.Program.Load
import ClassLang.Scope.Resolve
import ClassLang.Typing.Check

namespace ClassLang

inductive Command
  /-- Shows the tokens of one file. -/
  | lex (file : String)
  /-- Shows what a module and its imports declare. -/
  | parse (file : String)
  /-- Shows the same with names bound and members inherited. -/
  | resolve (file : String)
  /-- Shows what the statements of each module give, and with `dump` all types. -/
  | check (file : String) (dump : Bool)
deriving DecidableEq, Repr, Inhabited

namespace Command

/-- Options start with `-`, which on its own is an operand. -/
def isOption (arg : String) : Bool := arg.startsWith "-" && arg ≠ "-"

/-- The options, and the operands, among which is all that follows `--`. -/
def sortArgs (args : List String) : List String × List String :=
  let (before, after) := (args.takeWhile (· ≠ "--"), (args.dropWhile (· ≠ "--")).drop 1)
  (before.filter isOption, before.filter (!isOption ·) ++ after)

def ofArgs? : List String → Option Command
  | [] => none
  | name :: args =>
    match name, sortArgs args with
    | _, (_, [""]) => none
    | "lex", ([], [file]) => some (lex file)
    | "parse", ([], [file]) => some (parse file)
    | "resolve", ([], [file]) => some (resolve file)
    | "check", ([], [file]) => some (check file false)
    | "check", (["--dump"], [file]) => some (check file true)
    | _, _ => none

def usage : String := "usage: quill (lex|parse|resolve) FILE | check FILE [--dump]"

def file : Command → String
  | lex file | parse file | resolve file | check file _ => file

abbrev Run := EStateM String (List Event)

def spanText (s : Span) : String := toString s.start ++ ".." ++ toString s.stop

def placedText (stage source : String) (span : Span) (message : String) : String :=
  Text.unlines ["Error: " ++ stage ++ " error",
    "  " ++ source ++ ":" ++ spanText span ++ ": " ++ message]

def faultText (p : Program) (stage message : String) (loc : Location) : String :=
  match loc.module? with
  | none => Text.unlines [stage ++ " error: " ++ message]
  | some m => placedText stage (p.displayName (p.modules.get m).name) loc.span message

def pass {κ α : Type} (stage : String) (message : Program → κ → String) (o : Outcome κ α) :
    Run (α × Program) := do
  modify (· ++ o.events)
  match o.result with
  | .ok a => return (a, o.program)
  | .error fault => throw (faultText o.program stage (message o.program fault.cause) fault.loc)

def modulePath (file name : String) : String := Path.join (Path.parent file) (name ++ ".q")

def loaded (files : Files) (file : String) : Run (ModuleId × Program) := do
  let some name := Path.stem? file
    | throw (Text.unlines ["error: '" ++ file ++ "' does not name a module"])
  let provide := fun name => (files.read (modulePath file name)).toOption
  pass "parse" (fun _ => ParseCause.message) (Program.load {} provide files.count name)

def resolved (p : Program) : Run Program := return (← pass "name" NameCause.message p.resolve).2

def checked (p : Program) : Run Program := return (← pass "type" TypeCause.message p.check).2

def padded (width : Nat) (s : String) : String := s.pushn ' ' (width - s.length)

def lexemeLine (l : Lexeme) : String :=
  padded 10 (spanText l.span) ++ " " ++ l.token.text

def lexemeText (files : Files) (file : String) : Run String := do
  match files.read file with
  | .error e => throw (Text.unlines ["error: cannot read '" ++ file ++ "': " ++ e.text])
  | .ok text =>
    match tokenize text with
    | .error e => throw (placedText "lex" file e.span e.message)
    | .ok lexemes =>
      return Text.unlines (lexemes.map lexemeLine ++ [toString lexemes.length ++ " tokens"])

def output (files : Files) : Command → Run String
  | lex file => lexemeText files file
  | parse file => do
    let (_, p) ← loaded files file
    return p.listing false
  | resolve file => do
    let (_, p) ← loaded files file
    return (← resolved p).listing false
  | check file dump => do
    let (root, p) ← loaded files file
    let p ← checked (← resolved p)
    modify (· ++ [.finished (p.displayName (p.modules.get root).name)])
    return (if dump then p.listing true else "") ++ p.entryText

def reads : Command → List Event → List String
  | lex file, _ => [file]
  | command, events => (Event.requests events).map (modulePath command.file)

structure Report where
  success : Bool
  out : String
  err : String
  log : List LogLine
  reads : List String
deriving Repr, Inhabited

def run (files : Files) (command : Command) : Report :=
  let report (success : Bool) (out err : String) (events : List Event) : Report :=
    { success, out, err, reads := command.reads events
      log := Log.start :: events.map (Log.line files (modulePath command.file)) }
  match (command.output files).run [] with
  | .ok out events => report true out "" events
  | .error err events => report false "" err events

def Report.diagnostics (r : Report) (level : Option Level) : String :=
  let shown := r.log.filter fun l => level.any (·.shows l.level)
  Text.unlines (shown.map LogLine.render) ++ r.err

end Command

end ClassLang
