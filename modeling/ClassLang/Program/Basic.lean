import ClassLang.Cold
import ClassLang.Member
import ClassLang.Name
import ClassLang.Node

namespace ClassLang

structure Import where
  name : NameId
  /-- The least version that will do. -/
  version : Nat
  module? : Option ModuleId
  span : Span
deriving DecidableEq, Repr, Inhabited

structure Module where
  name : NameId
  version : Nat := 0
  imports : List Import := []
  classes : List ClassId := []
  functions : List FunctionId := []
  /-- The statements outside of all declarations, as a function without parameters. -/
  entry : Option FunctionId := none
deriving DecidableEq, Repr, Inhabited

inductive Global
  | cls (id : ClassId)
  | function (id : FunctionId)
deriving DecidableEq, Repr, Inhabited

inductive VarRole
  | field (owner : ClassId)
  | param
  | localVar
  /-- The value that a guard found present. -/
  | binding
deriving DecidableEq, Repr, Inhabited

structure Var where
  name : NameId
  role : VarRole
  /-- The first value of a field or local, the declared type of a parameter. -/
  init : Option NodeId
  loc : Location
  slot : Slot := .empty
deriving DecidableEq, Repr, Inhabited

structure Base where
  reference : NodeId
  inst : Option InstId := none
  overloads : List MethodId := []
deriving DecidableEq, Repr, Inhabited

structure ClassDef where
  name : NameId
  module : ModuleId
  isInterface : Bool
  loc : Location
  params : List ParamId := []
  bases : List Base := []
  fields : List VarId := []
  methods : List MethodId := []
  /-- Own and inherited members. -/
  members : MemberTable := {}
  flattened : Bool := false
  /-- All classes that are reached over bases. -/
  ancestors : List ClassId := []
  /-- For each overridden method the one that runs for objects of this class. -/
  dispatch : List (MethodId × MethodId) := []
deriving DecidableEq, Repr, Inhabited

def ClassDef.allMethods (c : ClassDef) : List MethodId :=
  c.methods ++ c.bases.flatMap Base.overloads

structure ClassParam where
  name : NameId
  owner : ClassId
  index : Nat
  boundRef : Option NodeId
  bound : Option ClassId := none
  loc : Location
deriving DecidableEq, Repr, Inhabited

structure Method where
  name : NameId
  owner : ClassId
  params : List VarId
  result : Option NodeId
  /-- An abstract method has no body. -/
  body : Option NodeId
  /-- Which base of the class the method is given for, if it is. -/
  base : Option Nat
  overrides : Option MethodId := none
  slot : Slot := .empty
  loc : Location
deriving DecidableEq, Repr, Inhabited

structure Function where
  name : NameId
  module : ModuleId
  params : List VarId
  result : Option NodeId
  body : Option NodeId
  /-- Declared without a body: the platform provides it. -/
  isPlatform : Bool
  slot : Slot := .empty
  loc : Location
deriving DecidableEq, Repr, Inhabited

structure Lambda where
  params : List VarId
  body : NodeId
  /-- The class whose object the body can use. -/
  owner : Option ClassId
  cold : Option ColdId := none
deriving DecidableEq, Repr, Inhabited

structure Program where
  names : NameTable := {}
  modules : Arena .moduleDef Module := {}
  classes : Arena .classDef ClassDef := {}
  params : Arena .classParam ClassParam := {}
  vars : Arena .var Var := {}
  methods : Arena .method Method := {}
  functions : Arena .function Function := {}
  lambdas : Arena .lambda Lambda := {}
  nodes : Arena .node Node := {}
  globals : List (NameId × Global) := []
  types : TypeTable := TypeTable.basic
  insts : InstTable := {}
  colds : ColdTable := {}
deriving DecidableEq, Repr, Inhabited

namespace Program

def form (p : Program) (i : NodeId) : Form := (p.nodes.get i).form

def loc (p : Program) (i : NodeId) : Location := (p.nodes.get i).loc

def span (p : Program) (i : NodeId) : Span := (p.loc i).span

def slot (p : Program) (i : NodeId) : Slot := (p.nodes.get i).slot

def setForm (p : Program) (i : NodeId) (form : Form) : Program :=
  { p with nodes := p.nodes.modify i fun n => { n with form } }

def setSlot (p : Program) (i : NodeId) (slot : Slot) : Program :=
  { p with nodes := p.nodes.modify i fun n => { n with slot } }

def setVarSlot (p : Program) (i : VarId) (slot : Slot) : Program :=
  { p with vars := p.vars.modify i fun v => { v with slot } }

def modifyModule (p : Program) (i : ModuleId) (f : Module → Module) : Program :=
  { p with modules := p.modules.modify i f }

def modifyClass (p : Program) (i : ClassId) (f : ClassDef → ClassDef) : Program :=
  { p with classes := p.classes.modify i f }

def modifyMethod (p : Program) (i : MethodId) (f : Method → Method) : Program :=
  { p with methods := p.methods.modify i f }

def modifyFunction (p : Program) (i : FunctionId) (f : Function → Function) : Program :=
  { p with functions := p.functions.modify i f }

def displayName (p : Program) (i : NameId) : String := p.names.display i

def className (p : Program) (i : ClassId) : String := p.displayName (p.classes.get i).name

def moduleByName? (p : Program) (name : NameId) : Option ModuleId :=
  p.modules.ids.find? fun i => (p.modules.get i).name = name

def classByName? (p : Program) (name : String) : Option ClassId :=
  p.classes.ids.find? fun i => p.className i = name

def thisInst (p : Program) (c : ClassId) : InstId × Program :=
  let (args, insts) := (p.classes.get c).params.foldl
    (fun (args, insts) param =>
      let (i, insts) := InstTable.plain insts (.param param)
      (args ++ [i], insts))
    (([] : List InstId), p.insts)
  let (i, insts) := insts.intern ⟨.cls c, args⟩
  (i, { p with insts })

/-- The class whose members an instance has: a class parameter has those of its bound. -/
def classOf? (p : Program) (i : InstId) : Option ClassId :=
  match (p.insts.get i).target with
  | .cls c => some c
  | .param q => (p.params.get q).bound

def derivesFrom (p : Program) (c ancestor : ClassId) : Bool :=
  c = ancestor ∨ (p.classes.get c).ancestors.contains ancestor

def isAnnotated (p : Program) (l : Lambda) : Bool :=
  l.params.all fun v => (p.vars.get v).init.isSome

end Program

end ClassLang
