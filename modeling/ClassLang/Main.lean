import ClassLang.Command

namespace ClassLang.Main

def hasNumber (code number : UInt32) : Bool := code = number || -code = number

def readError : IO.Error → ReadError
  | .noFileOrDirectory _ _ _ | .noSuchThing _ _ _ => .notFound
  | .inappropriateType _ code details =>
    if hasNumber code 20 then .notDirectory
    else if hasNumber code 21 then .isDirectory
    else .other details
  | .invalidArgument _ code details => if hasNumber code 36 then .nameTooLong else .other details
  | e => .other (toString e)

def readText (path : String) : IO (Except ReadError String) := do
  match ← (IO.FS.readFile path).toBaseIO with
  | .ok text => return .ok text
  | .error e => return .error (readError e)

def known (texts : List (String × Except ReadError String)) : Files :=
  ⟨fun path => (texts.lookup path).getD (.error .notFound), texts.length⟩

/-- Runs a command again with each text that it turns out to read, until all of them are known. -/
partial def settle (command : Command) (texts : List (String × Except ReadError String)) :
    IO Command.Report := do
  let report := command.run (known texts)
  match report.reads.find? fun path => (texts.lookup path).isNone with
  | none => return report
  | some path => settle command (texts ++ [(path, ← readText path)])

end ClassLang.Main

open ClassLang

def main (args : List String) : IO UInt32 := do
  match Command.ofArgs? args with
  | none =>
    IO.eprintln Command.usage
    return 2
  | some command =>
    let report ← Main.settle command []
    let level := (← IO.getEnv "QUILL_LOG").bind Level.ofString?
    IO.eprint (report.diagnostics level)
    IO.print report.out
    return if report.success then 0 else 1
