import ClassLang.Scope.Error

namespace ClassLang.Program

def ownMembers (p : Program) (c : ClassDef) : List (NameId × Member × Location) :=
  (c.fields.map fun f => ((p.vars.get f).name, .field f, (p.vars.get f).loc)) ++
    c.methods.map fun m => ((p.methods.get m).name, .method m, (p.methods.get m).loc)

def ownTable (own : List (NameId × Member × Location)) : Except (Fault NameCause) MemberTable :=
  own.foldlM (fun table (name, member, loc) =>
    let (isNew, table) := table.insertOwn name member
    if isNew then .ok table else .error ⟨.duplicate name, loc⟩) {}

def inheritFrom (own : MemberTable) (table : MemberTable) (inst : InstId) (base : MemberTable) :
    MemberTable :=
  base.rows.foldl (fun table (name, entries) =>
    if own.contains name then table
    else entries.foldl (fun table e => table.inherit name { e with path := inst :: e.path }) table)
      table

def memberTable (p : Program) (own : MemberTable) (bases : List (InstId × ClassId)) : MemberTable :=
  bases.foldl (fun table (inst, base) => inheritFrom own table inst (p.classes.get base).members)
    own

def ancestorsOver (p : Program) (bases : List (InstId × ClassId)) : List ClassId :=
  bases.foldl (fun acc (_, base) =>
    (base :: (p.classes.get base).ancestors).foldl
      (fun acc c => if acc.contains c then acc else acc ++ [c]) acc) []

namespace Flatten

open Pass

def checkBase (flatten : ClassId → Pass NameCause Unit) (c : ClassId) (decl : Base) :
    List (InstId × ClassId) × Nat → Pass NameCause (List (InstId × ClassId) × Nat)
  | (bases, concrete) => do
    let loc := (← program).loc decl.reference
    let some inst := decl.inst | throw ⟨.expectedTypeName, loc⟩
    let .cls base := ((← program).insts.get inst).target | throw ⟨.paramAsBase c, loc⟩
    if bases.any (·.2 = base) then
      throw ⟨.ambiguousInheritance c base, loc⟩
    flatten base
    let p ← program
    if (p.classes.get base).isInterface then
      return (bases ++ [(inst, base)], concrete)
    if (p.classes.get c).isInterface then
      throw ⟨.interfaceExtendsClass c base, loc⟩
    if concrete ≠ 0 then
      throw ⟨.multipleConcreteBases c, loc⟩
    return (bases ++ [(inst, base)], concrete + 1)

/-- Fills the member table of a class after `flatten` has filled those of its bases. `below` are the
classes for which this is being done; one of them again would inherit from itself. -/
def classStep (flatten : ClassId → Pass NameCause Unit) (below : List ClassId) (c : ClassId) :
    Pass NameCause Unit := do
  let decl := (← program).classes.get c
  if decl.flattened then return
  if c ∈ below then
    throw ⟨.selfInheritance c, decl.loc⟩
  let (bases, _) ← decl.bases.foldlM (fun acc b => checkBase flatten c b acc) ([], 0)
  let p ← program
  let own ← MonadExcept.ofExcept (ownTable (p.ownMembers decl))
  let members := p.memberTable own bases
  emit (.classFlattened (p.className c) members.size bases.length)
  edit (·.modifyClass c fun d =>
    { d with members, ancestors := p.ancestorsOver bases, flattened := true })

def classUpTo : Nat → List ClassId → ClassId → Pass NameCause Unit
  | 0, _, c => do throw ⟨.selfInheritance c, ((← program).classes.get c).loc⟩
  | n + 1, below, c => classStep (classUpTo n (c :: below)) below c

/-- A chain of bases without repetition is not longer than the list of all classes. -/
def classes (ids : List ClassId) : Pass NameCause Unit := do
  let n := (← program).classes.size + 1
  ids.forM (classUpTo n [])

end Flatten

def flatten (p : Program) (ids : List ClassId) : Outcome NameCause Unit :=
  (Flatten.classes ids).outcome p

def unflatten (p : Program) : Program :=
  p.classes.ids.foldl (fun p c => p.modifyClass c fun d =>
    { d with members := d.members.clear, ancestors := [], flattened := false }) p

end ClassLang.Program
