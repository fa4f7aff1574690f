import ClassLang.Arena

namespace ClassLang

inductive RefKind
  | own | pin | weak
deriving DecidableEq, Repr, Inhabited

inductive Ty
  | int
  | double
  | void
  | atom
  /-- The type of what never completes, such as a jump out of a loop. -/
  | noReturn
  /-- A value under `depth` levels of absence; a truth value is an optional `void`. -/
  | optional (wrapped : TypeId) (depth : Nat)
  | function (params : List TypeId) (result : TypeId)
  | lambda (params : List TypeId) (result : TypeId)
  /-- A lambda whose signature is not known before its first application. -/
  | cold (placeholder : ColdId)
  | classOf (inst : InstId)
  | ref (kind : RefKind) (inst : InstId)
  | array (element : TypeId)
deriving DecidableEq, Repr, Inhabited

inductive Slot
  | empty
  | inProgress
  | fixed (type : TypeId)
deriving DecidableEq, Repr, Inhabited

def Slot.fixed? : Slot → Option TypeId
  | .fixed t => some t
  | _ => none

abbrev TypeTable := Pool .type Ty

def TypeId.int : TypeId := ⟨0⟩
def TypeId.double : TypeId := ⟨1⟩
def TypeId.void : TypeId := ⟨2⟩
def TypeId.atom : TypeId := ⟨3⟩
def TypeId.noReturn : TypeId := ⟨4⟩
def TypeId.bool : TypeId := ⟨5⟩

def TypeId.isNumeric (t : TypeId) : Bool := t = TypeId.int ∨ t = TypeId.double

namespace TypeTable

/-- The basic types have the same ids in every table. -/
def basic : TypeTable :=
  [Ty.int, .double, .void, .atom, .noReturn, .optional TypeId.void 1].foldl
    (fun t x => (t.intern x).2) {}

/-- One more level of absence. An optional is never wrapped again: its depth grows. -/
def optional (t : TypeTable) (i : TypeId) : TypeId × TypeTable :=
  match t.get i with
  | .optional wrapped depth => t.intern (.optional wrapped (depth + 1))
  | _ => t.intern (.optional i 1)

def unwrap (t : TypeTable) (i : TypeId) : Option TypeId × TypeTable :=
  match t.get i with
  | .optional wrapped 1 => (some wrapped, t)
  | .optional wrapped depth =>
    let (j, t) := t.intern (.optional wrapped (depth - 1))
    (some j, t)
  | _ => (none, t)

def ref? (t : TypeTable) (i : TypeId) : Option (RefKind × InstId) :=
  match t.get i with
  | .ref kind inst => some (kind, inst)
  | _ => none

def isOptional (t : TypeTable) (i : TypeId) : Bool :=
  match t.get i with
  | .optional _ _ => true
  | _ => false

def signature? (t : TypeTable) (i : TypeId) : Option (List TypeId × TypeId) :=
  match t.get i with
  | .function params result | .lambda params result => some (params, result)
  | _ => none

def pinned (t : TypeTable) (i : TypeId) : TypeId × TypeTable :=
  match t.get i with
  | .ref .own inst => t.intern (.ref .pin inst)
  | .optional wrapped depth =>
    match t.get wrapped with
    | .ref .own inst =>
      let (pin, t) := t.intern (.ref .pin inst)
      t.intern (.optional pin depth)
    | _ => (i, t)
  | _ => (i, t)

/-- What reading a place of type `i` gives: an owner lends its object, and a weak reference may
have lost it. -/
def read (t : TypeTable) (i : TypeId) : TypeId × TypeTable :=
  match t.get i with
  | .ref .weak inst =>
    let (pin, t) := t.intern (.ref .pin inst)
    TypeTable.optional t pin
  | _ => t.pinned i

/-- A pinned reference does not outlive the expression that made it. -/
def isTemporary (t : TypeTable) (i : TypeId) : Bool :=
  match t.get i with
  | .ref .pin _ => true
  | .optional wrapped _ =>
    match t.get wrapped with
    | .ref .pin _ => true
    | _ => false
  | _ => false

end TypeTable

end ClassLang
