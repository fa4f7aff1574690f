import ClassLang.Arena

namespace ClassLang

inductive Target
  | cls (id : ClassId)
  | param (id : ParamId)
deriving DecidableEq, Repr, Inhabited

structure Inst where
  target : Target
  args : List InstId
deriving DecidableEq, Repr, Inhabited

abbrev InstTable := Pool .inst Inst

namespace InstTable

def plain (t : InstTable) (target : Target) : InstId × InstTable := t.intern ⟨target, []⟩

/-- Interns an instantiation; a class parameter takes no arguments. -/
def instantiate? (t : InstTable) : Target → List InstId → Option (InstId × InstTable)
  | .param _, _ :: _ => none
  | target, args => some (t.intern ⟨target, args⟩)

end InstTable

end ClassLang
