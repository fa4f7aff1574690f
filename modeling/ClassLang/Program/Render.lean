import ClassLang.Program.Basic
import ClassLang.Text.Lines

namespace ClassLang

def commaList (items : List String) : String := ", ".intercalate items

namespace Program

def instNameUpTo (p : Program) : Nat → InstId → String
  | 0, _ => ""
  | n + 1, i =>
    let inst := p.insts.get i
    let base :=
      match inst.target with
      | .cls c => p.className c
      | .param q => p.displayName (p.params.get q).name
    match inst.args with
    | [] => base
    | args => base ++ "(" ++ commaList (args.map (p.instNameUpTo n)) ++ ")"

/-- An instance nests less deeply than the table is long. -/
def instName (p : Program) (i : InstId) : String := p.instNameUpTo p.insts.size i

def typeNameUpTo (p : Program) : Nat → TypeId → String
  | 0, _ => ""
  | n + 1, i =>
    match p.types.get i with
    | .int => "int"
    | .double => "double"
    | .void => "void"
    | .atom => "atom"
    | .noReturn => "noreturn"
    | .optional wrapped depth =>
      if wrapped = TypeId.void ∧ depth = 1 then "bool"
      else String.ofList (List.replicate depth '?') ++ p.typeNameUpTo n wrapped
    | .function params result =>
      "fn(" ++ commaList (params.map (p.typeNameUpTo n)) ++ ") " ++ p.typeNameUpTo n result
    | .lambda params result =>
      "(" ++ commaList (params.map (p.typeNameUpTo n)) ++ ") " ++ p.typeNameUpTo n result
    | .cold c =>
      match (p.colds.lookup c).signature with
      | some s => p.typeNameUpTo n s
      | none => "cold#" ++ toString (p.colds.find c).index
    | .classOf inst => "class " ++ p.instName inst
    | .ref .own inst => "*" ++ p.instName inst
    | .ref .pin inst => p.instName inst
    | .ref .weak inst => "&" ++ p.instName inst
    | .array element => "[" ++ p.typeNameUpTo n element ++ "]"

/-- A type nests less deeply than the table is long, unless a signature holds itself. -/
def typeName (p : Program) (i : TypeId) : String := p.typeNameUpTo p.types.size i

def slotSuffix (p : Program) : Slot → String
  | .empty => ""
  | .inProgress => " : <in progress>"
  | .fixed t => " : " ++ p.typeName t

def detail (p : Program) : Form → String
  | .int v => " " ++ toString v.toInt
  | .double v => " " ++ v.text
  | .bool v => if v then " true" else " false"
  | .atom n | .name n | .setName n _ | .getField _ n _ | .setField _ n _ _ | .classRef n _ _ _ =>
    " " ++ p.displayName n
  | .getVar v | .setVar v _ | .letIn v _ => " " ++ p.displayName (p.vars.get v).name
  | .binary op _ _ => " " ++ op.text
  | .unary op _ => " " ++ op.text
  | .leave target _ => " -> #" ++ toString target.index
  | .callMethod _ m _ dispatch =>
    " " ++ p.displayName (p.methods.get m).name ++ " " ++ dispatch.text
  | .delegate _ m => " " ++ p.displayName (p.methods.get m).name
  | .callFunction f _ | .functionRef f => " " ++ p.displayName (p.functions.get f).name
  | .cast _ _ checked => if checked then " checked" else ""
  | _ => ""

def nodeLine (p : Program) (i : NodeId) : String :=
  let n := p.nodes.get i
  "#" ++ toString i.index ++ " " ++ n.form.label ++ p.detail n.form ++ p.slotSuffix n.slot

def shownBelow (p : Program) : Form → List NodeId
  | .lambda l => [(p.lambdas.get l).body]
  | form => form.children

def indent (width : Nat) (line : String) : String :=
  String.ofList (List.replicate width ' ') ++ line

def treeUpTo (p : Program) : Nat → NodeId → List String
  | 0, _ => []
  | n + 1, i =>
    p.nodeLine i :: (p.shownBelow (p.form i)).flatMap fun c => (p.treeUpTo n c).map (indent 2)

/-- The tree below a node, one line for each node unless a name holds a line feed. -/
def treeText (p : Program) (i : NodeId) : String := Text.unlines (p.treeUpTo p.nodes.size i)

def treeLines (p : Program) (i : NodeId) : List String := Text.lines (p.treeText i)

def memberLine (p : Program) (name : NameId) (entry : MemberEntry) : String :=
  let what :=
    match entry.member with
    | .field v => "field" ++ p.slotSuffix (p.vars.get v).slot
    | .method m => "method of " ++ p.className (p.methods.get m).owner
  let via :=
    match entry.path with
    | [] => ""
    | path => " via " ++ " > ".intercalate (path.map p.instName)
  "  " ++ p.displayName name ++ ": " ++ what ++ via

def classText (p : Program) (i : ClassId) : String :=
  let c := p.classes.get i
  let params :=
    match c.params with
    | [] => ""
    | params => "(" ++ commaList (params.map fun q => p.displayName (p.params.get q).name) ++ ")"
  let head := (if c.isInterface then "interface " else "class ") ++ p.displayName c.name ++ params
  let bases := c.bases.filterMap fun b => b.inst.map fun inst => "  +" ++ p.instName inst
  let members := c.members.rows.flatMap fun (name, entries) => entries.map (p.memberLine name)
  Text.unlines (head :: (bases ++ members))

def classLines (p : Program) (i : ClassId) : List String := Text.lines (p.classText i)

end Program

end ClassLang
