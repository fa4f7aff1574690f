import ClassLang.Typing.Subst

namespace ClassLang.Typing

structure Context where
  /-- The enclosing class applied to its own parameters. -/
  this : Option InstId := none
  /-- The variables that the innermost block introduced so far. -/
  chain : List VarId := []
deriving DecidableEq, Repr, Inhabited

abbrev Check := ReaderT Context (Pass TypeCause)

export Pass (program edit onProgram emit write)

variable {α : Type}

def failAt (cause : TypeCause) (loc : Location) : Check α := throw ⟨cause, loc⟩

def broken (what : Broken) (loc : Location) : Check α := failAt (.internal what) loc

def mismatch (expected actual : TypeId) (loc : Location) : Check α :=
  failAt (.mismatch (.type expected) actual) loc

def editing (loc : Location) (m : Program.Edit α) : Check α := fun _ s =>
  match m s.program with
  | .ok a p => .ok a { s with program := p }
  | .error cause p => .error ⟨cause, loc⟩ { s with program := p }

def onTypes (f : TypeTable → α × TypeTable) : Check α :=
  onProgram fun p =>
    let (a, types) := f p.types
    (a, { p with types })

def intern (t : Ty) : Check TypeId := onTypes (·.intern t)

def locOf (i : NodeId) : Check Location := return (← program).loc i

def typeOf (t : TypeId) : Check Ty := return (← program).types.get t

def ref? (t : TypeId) : Check (Option (RefKind × InstId)) := return (← program).types.ref? t

def signatureOf (t : TypeId) (otherwise : Broken) (loc : Location) : Check (List TypeId × TypeId) :=
  do
  match (← program).types.signature? t with
  | some s => return s
  | none => broken otherwise loc

def within (owner : Option ClassId) (m : Check α) : Check α := do
  let this ← owner.mapM fun c => onProgram (·.thisInst c)
  withReader (fun _ => { this }) m

def thisInst (loc : Location) : Check InstId := do
  match (← read).this with
  | some i => return i
  | none => broken .thisOutsideClass loc

inductive Storing
  | direct
  /-- A reference that owns or pins becomes weak. -/
  | weaken (inst : InstId)
deriving DecidableEq, Repr, Inhabited

/-- What the typing of one node can ask for: the type of another node, a signature for lambdas that
have none, and whether a value can be stored. -/
structure Engine where
  find : NodeId → Check TypeId
  fix : ColdId → List TypeId → Location → Check TypeId
  assign : TypeId → TypeId → Location → Check Storing

end ClassLang.Typing
