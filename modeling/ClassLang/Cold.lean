import ClassLang.Arena

namespace ClassLang

/-- A placeholder for the signature that some lambdas share before it is known. -/
structure Cold where
  sites : List LambdaId
  signature : Option TypeId := none
  /-- The placeholder that this one was merged into. -/
  forward : Option ColdId := none
  fixing : Bool := false
deriving DecidableEq, Repr, Inhabited

abbrev ColdTable := Arena .cold Cold

namespace ColdTable

def create (t : ColdTable) (site : LambdaId) : ColdId × ColdTable := t.push { sites := [site] }

def follow (t : ColdTable) : Nat → ColdId → ColdId
  | 0, c => c
  | n + 1, c =>
    match (t.get c).forward with
    | some next => follow t n next
    | none => c

/-- The placeholder that stands for `c` after all merges. -/
def find (t : ColdTable) (c : ColdId) : ColdId := t.follow t.size c

def lookup (t : ColdTable) (c : ColdId) : Cold := t.get (t.find c)

def update (t : ColdTable) (c : ColdId) (f : Cold → Cold) : ColdTable := t.modify (t.find c) f

/-- Moves the sites of `source` to `target`, which stands for both from then on. -/
def merge (t : ColdTable) (target source : ColdId) : ColdId × ColdTable :=
  let a := t.find target
  let b := t.find source
  if a = b then (a, t)
  else
    let moved := (t.get b).sites
    let t := t.modify b fun c => { c with sites := [], forward := some a }
    (a, t.modify a fun c => { c with sites := c.sites ++ moved })

end ColdTable

end ClassLang
