import ClassLang.Typing.Error

namespace ClassLang.Program

abbrev Edit := EStateM TypeCause Program

def internType (t : Ty) : Edit TypeId :=
  modifyGet fun p =>
    let (i, types) := p.types.intern t
    (i, { p with types })

def internInst (inst : Inst) : Edit InstId :=
  modifyGet fun p =>
    let (i, insts) := p.insts.intern inst
    (i, { p with insts })

structure Substitution where
  cls : ClassId
  args : List InstId

def substitution? (p : Program) (context : InstId) : Option Substitution :=
  match p.insts.get context with
  | ⟨.cls cls, args⟩ => some ⟨cls, args⟩
  | ⟨.param _, _⟩ => none

namespace Substitution

def instUpTo (s : Substitution) : Nat → InstId → Edit InstId
  | 0, i => return i
  | n + 1, i => do
    let p ← get
    match p.insts.get i with
    | ⟨.param q, _⟩ =>
      let param := p.params.get q
      if param.owner = s.cls then
        match s.args[param.index]? with
        | some arg => return arg
        | none => throw (.internal (.missingArgument param.index s.cls i))
      else return i
    | ⟨.cls c, args⟩ => do internInst ⟨.cls c, ← args.mapM (instUpTo s n)⟩

def inst (s : Substitution) (i : InstId) : Edit InstId := do s.instUpTo (← get).insts.size i

def typeUpTo (s : Substitution) : Nat → TypeId → Edit TypeId
  | 0, t => return t
  | n + 1, t => do
    match (← get).types.get t with
    | .ref kind i => internType (.ref kind (← s.inst i))
    | .classOf i => internType (.classOf (← s.inst i))
    | .optional wrapped depth => internType (.optional (← typeUpTo s n wrapped) depth)
    | .array element => internType (.array (← typeUpTo s n element))
    | .lambda params result => do
      let params ← params.mapM (typeUpTo s n)
      internType (.lambda params (← typeUpTo s n result))
    | .function params result => do
      let params ← params.mapM (typeUpTo s n)
      internType (.function params (← typeUpTo s n result))
    | _ => return t

def type (s : Substitution) (t : TypeId) : Edit TypeId := do s.typeUpTo (← get).types.size t

end Substitution

def strip (t : TypeId) (context : InstId) : Edit TypeId := do
  match (← get).substitution? context with
  | some s => s.type t
  | none => return t

def stripInst (i context : InstId) : Edit InstId := do
  match (← get).substitution? context with
  | some s => s.inst i
  | none => return i

/-- The type of an inherited member as seen from `receiver`: the innermost base comes first. -/
def stripPath (t : TypeId) (path : List InstId) (receiver : InstId) : Edit TypeId := do
  let t ← path.reverse.foldlM strip t
  strip t receiver

def firstSome {α β : Type} (f : α → Edit (Option β)) : List α → Edit (Option β)
  | [] => return none
  | a :: as => do
    match ← f a with
    | some b => return some b
    | none => firstSome f as

def upcastUpTo : Nat → InstId → ClassId → Edit (Option InstId)
  | 0, _, _ => return none
  | n + 1, i, ancestor => do
    let p ← get
    let some c := p.classOf? i | return none
    let i ←
      match (p.insts.get i).target with
      | .cls _ => pure i
      | .param _ => internInst ⟨.cls c, []⟩
    if c = ancestor then return some i
    if !p.derivesFrom c ancestor then return none
    firstSome (fun base => do upcastUpTo n (← stripInst base i) ancestor)
      ((p.classes.get c).bases.filterMap Base.inst)

/-- The instance of `ancestor` that an instance derives from. A chain of bases is not longer than
the list of classes. -/
def upcast (i : InstId) (ancestor : ClassId) : Edit (Option InstId) := do
  upcastUpTo ((← get).classes.size + 1) i ancestor

def isSubinst (i target : InstId) : Edit Bool := do
  if i = target then return true
  match ((← get).insts.get target).target with
  | .cls c => return decide ((← upcast i c) = some target)
  | .param _ => return false

end ClassLang.Program
