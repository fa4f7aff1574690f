import ClassLang.Arena

namespace ClassLang

structure NameEntry where
  parent : Option NameId
  segment : String
deriving DecidableEq, Repr, Inhabited

abbrev NameTable := Pool .name NameEntry

namespace NameTable

def root (t : NameTable) (segment : String) : NameId × NameTable := t.intern ⟨none, segment⟩

def child (t : NameTable) (parent : NameId) (segment : String) : NameId × NameTable :=
  t.intern ⟨some parent, segment⟩

def peek (t : NameTable) (parent : Option NameId) (segment : String) : Option NameId :=
  t.find? ⟨parent, segment⟩

/-- The name with these segments; without any, the root name with an empty segment. -/
def path (t : NameTable) : List String → NameId × NameTable
  | [] => t.root ""
  | s :: rest => rest.foldl (fun (i, t) s => t.child i s) (t.root s)

def parent (t : NameTable) (i : NameId) : Option NameId := (t.get i).parent

def segment (t : NameTable) (i : NameId) : String := (t.get i).segment

def isQualified (t : NameTable) (i : NameId) : Bool := (t.parent i).isSome

def rebase (t : NameTable) (i parent : NameId) : NameId × NameTable := t.child parent (t.segment i)

def segmentsUpTo (t : NameTable) : Nat → NameId → List String
  | 0, _ => []
  | n + 1, i =>
    match t.parent i with
    | none => [t.segment i]
    | some p => segmentsUpTo t n p ++ [t.segment i]

/-- A name has fewer ancestors than the table has entries, so no segment is cut off. -/
def segments (t : NameTable) (i : NameId) : List String := t.segmentsUpTo t.size i

def display (t : NameTable) (i : NameId) : String := "::".intercalate (t.segments i)

end NameTable

end ClassLang
