import ClassLang.Event
import ClassLang.Program.Write

namespace ClassLang

structure Fault (κ : Type) where
  cause : κ
  loc : Location
deriving DecidableEq, Repr, Inhabited

structure PassState where
  program : Program
  events : List Event := []
  /-- What became known about types, latest first. -/
  writes : List Write := []
deriving Repr, Inhabited

/-- Work on a program that can fail. What was done up to the failure stays done. -/
abbrev Pass (κ : Type) := EStateM (Fault κ) PassState

structure Outcome (κ α : Type) where
  result : Except (Fault κ) α
  program : Program
  events : List Event
  writes : List Write

namespace Pass

section

variable {m : Type → Type} [Monad m] [MonadStateOf PassState m]

def emit (e : Event) : m Unit := modifyThe PassState fun s => { s with events := s.events ++ [e] }

def program : m Program := return (← getThe PassState).program

def edit (f : Program → Program) : m Unit :=
  modifyThe PassState fun s => { s with program := f s.program }

def write (w : Write) : m Unit :=
  modifyThe PassState fun s => { s with program := w.apply s.program, writes := w :: s.writes }

def onProgram {α : Type} (f : Program → α × Program) : m α :=
  modifyGetThe PassState fun s =>
    let (a, program) := f s.program
    (a, { s with program })

end

def outcome {κ α : Type} (pass : Pass κ α) (p : Program) : Outcome κ α :=
  match pass.run { program := p } with
  | .ok a s => ⟨.ok a, s.program, s.events, s.writes⟩
  | .error e s => ⟨.error e, s.program, s.events, s.writes⟩

end Pass

end ClassLang
