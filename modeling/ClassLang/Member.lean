import ClassLang.Arena
import ClassLang.Assoc

namespace ClassLang

inductive Member
  | field (id : VarId)
  | method (id : MethodId)
deriving DecidableEq, Repr, Inhabited

/-- A member as seen from a class: `path` lists the base instances from that class down to the
declaring one, each in terms of the parameters of the class before it. -/
structure MemberEntry where
  member : Member
  path : List InstId
deriving DecidableEq, Repr, Inhabited

inductive MemberLookup
  | none
  | one (entry : MemberEntry)
  | many (entries : List MemberEntry)
deriving DecidableEq, Repr, Inhabited

structure MemberTable where
  order : List NameId := []
  entries : List (NameId × List MemberEntry) := []
deriving DecidableEq, Repr, Inhabited

namespace MemberTable

def size (t : MemberTable) : Nat := t.order.length

def get (t : MemberTable) (name : NameId) : List MemberEntry := (t.entries.lookup name).getD []

def contains (t : MemberTable) (name : NameId) : Bool := (t.entries.lookup name).isSome

def rows (t : MemberTable) : List (NameId × List MemberEntry) := t.order.map fun n => (n, t.get n)

def lookup (t : MemberTable) (name : NameId) : MemberLookup :=
  match t.get name with
  | [] => .none
  | [entry] => .one entry
  | entries => .many entries

/-- Adds a member that the class declares itself; `false` if the name is taken. -/
def insertOwn (t : MemberTable) (name : NameId) (member : Member) : Bool × MemberTable :=
  if t.contains name then (false, t)
  else (true, { order := t.order ++ [name], entries := Assoc.put name [⟨member, []⟩] t.entries })

/-- Adds an entry at the end, unless its member is there already by an earlier path. -/
def addEntry (entry : MemberEntry) (entries : List MemberEntry) : List MemberEntry :=
  if entries.any (·.member = entry.member) then entries else entries ++ [entry]

def inherit (t : MemberTable) (name : NameId) (entry : MemberEntry) : MemberTable where
  order := if t.contains name then t.order else t.order ++ [name]
  entries := Assoc.put name (addEntry entry (t.get name)) t.entries

def clear (_ : MemberTable) : MemberTable where
  order := []
  entries := []

end MemberTable

end ClassLang
