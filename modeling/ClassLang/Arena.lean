namespace ClassLang

inductive Entity
  | name | moduleDef | classDef | classParam | var | method | function | lambda | node | type
      | inst | cold
deriving DecidableEq, Repr

/-- A number that only makes sense for one sort of entity. -/
structure Id (e : Entity) where
  index : Nat
deriving DecidableEq, Repr, Inhabited

instance (e : Entity) : LawfulBEq (Id e) := inferInstance

abbrev NameId := Id .name
abbrev ModuleId := Id .moduleDef
abbrev ClassId := Id .classDef
abbrev ParamId := Id .classParam
abbrev VarId := Id .var
abbrev MethodId := Id .method
abbrev FunctionId := Id .function
abbrev LambdaId := Id .lambda
abbrev NodeId := Id .node
abbrev TypeId := Id .type
abbrev InstId := Id .inst
abbrev ColdId := Id .cold

/-- Entries are only ever added at the end, so an id keeps its meaning. -/
structure Arena (e : Entity) (α : Type) where
  items : Array α := #[]
deriving DecidableEq, Repr, Inhabited

namespace Arena

variable {e : Entity} {α : Type}

def size (a : Arena e α) : Nat := a.items.size

def ids (a : Arena e α) : List (Id e) := (List.range a.size).map Id.mk

def get? (a : Arena e α) (i : Id e) : Option α := a.items[i.index]?

def get [Inhabited α] (a : Arena e α) (i : Id e) : α := (a.get? i).getD default

def push (a : Arena e α) (x : α) : Id e × Arena e α := (⟨a.items.size⟩, ⟨a.items.push x⟩)

def modify (a : Arena e α) (i : Id e) (f : α → α) : Arena e α := ⟨a.items.modify i.index f⟩

end Arena

theorem inverse_empty {e : Entity} {α : Type} [DecidableEq α] (x : α) (i : Id e) :
    ([] : List (α × Id e)).lookup x = some i ↔ (#[] : Array α)[i.index]? = some x := by
  simp

@[ext] structure Pool (e : Entity) (α : Type) [DecidableEq α] extends Arena e α where
  index : List (α × Id e) := []
  /-- The index gives the place of each entry and of nothing else, so no entry occurs twice. -/
  inverse : ∀ x i, index.lookup x = some i ↔ items[i.index]? = some x := by
    exact inverse_empty
deriving Repr

namespace Pool

variable {e : Entity} {α : Type} [DecidableEq α]

instance : CoeOut (Pool e α) (Arena e α) := ⟨toArena⟩

instance : Inhabited (Pool e α) := ⟨{}⟩

instance : DecidableEq (Pool e α) := fun _ _ => decidable_of_iff _ Pool.ext_iff.symm

def find? (t : Pool e α) (x : α) : Option (Id e) := t.index.lookup x

theorem inverse_add (t : Pool e α) {x : α} (h : t.find? x = none) (y : α) (i : Id e) :
    ((x, ⟨t.size⟩) :: t.index).lookup y = some i ↔ (t.items.push x)[i.index]? = some y := by
  have hnew : t.items[i.index]? ≠ some x := by
    rw [Ne, ← t.inverse, ← find?, h]
    nofun
  rw [List.lookup_cons, Array.getElem?_push]
  by_cases hi : i.index = t.items.size
  · have hid : (⟨t.size⟩ : Id e) = i := congrArg Id.mk hi.symm
    have hold : t.index.lookup y ≠ some i := by
      rw [Ne, t.inverse, hi, Array.getElem?_size]
      nofun
    by_cases hy : y = x
    · simp [hy, hi, hid]
    · simp [beq_false_of_ne hy, hi, hold, Ne.symm hy]
  · have hid : (⟨t.size⟩ : Id e) ≠ i := fun h => hi (congrArg Id.index h).symm
    by_cases hy : y = x
    · simp [hy, hi, hid, hnew]
    · simp [beq_false_of_ne hy, hi, t.inverse]

def add (t : Pool e α) (x : α) (h : t.find? x = none) : Pool e α where
  items := t.items.push x
  index := (x, ⟨t.size⟩) :: t.index
  inverse := t.inverse_add h

def intern (t : Pool e α) (x : α) : Id e × Pool e α :=
  match h : t.find? x with
  | some i => (i, t)
  | none => (⟨t.size⟩, t.add x h)

end Pool

end ClassLang
