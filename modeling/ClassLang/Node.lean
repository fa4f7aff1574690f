import ClassLang.Double
import ClassLang.Inst
import ClassLang.Span
import ClassLang.Ty

namespace ClassLang

/-- A span of the text of a module; errors about no text have no module. -/
structure Location where
  module? : Option ModuleId := none
  span : Span := ⟨0, 0⟩
deriving DecidableEq, Repr, Inhabited

inductive BinaryOp
  | add | sub | mul | div | mod | bitAnd | bitOr | bitXor | shl | shr | eq | lt | and | or
deriving DecidableEq, Repr, Inhabited

def BinaryOp.text : BinaryOp → String
  | add => "+"
  | sub => "-"
  | mul => "*"
  | div => "/"
  | mod => "%"
  | bitAnd => "&"
  | bitOr => "|"
  | bitXor => "^"
  | shl => "<<"
  | shr => ">>"
  | eq => "=="
  | lt => "<"
  | and => "&&"
  | or => "||"

inductive UnaryOp
  | not | neg | toInt | toDouble
deriving DecidableEq, Repr, Inhabited

def UnaryOp.text : UnaryOp → String
  | not => "Not"
  | neg => "Neg"
  | toInt => "ToInt"
  | toDouble => "ToFloat"

inductive Dispatch
  | unresolved
  | virtual
  | interface (id : ClassId)
deriving DecidableEq, Repr, Inhabited

def Dispatch.text : Dispatch → String
  | unresolved => "Unresolved"
  | virtual => "Virtual"
  | interface c => "Interface(ClassId(" ++ toString c.index ++ "))"

/-- What a node of the program is. Type expressions are nodes too: there a literal stands for its
type. -/
inductive Form
  | int (value : Int64)
  | double (value : Double)
  | bool (value : Bool)
  | atom (name : NameId)
  | void
  /-- A name that is not bound yet. -/
  | name (name : NameId)
  | setName (name : NameId) (value : NodeId)
  | getVar (var : VarId)
  | setVar (var : VarId) (value : NodeId)
  | this
  /-- Without a base, the field is one of `this`. -/
  | getField (base : Option NodeId) (name : NameId) (field : Option VarId)
  | setField (base : Option NodeId) (name : NameId) (field : Option VarId) (value : NodeId)
  | binary (op : BinaryOp) (lhs rhs : NodeId)
  | unary (op : UnaryOp) (operand : NodeId)
  | block (body : List NodeId)
  /-- A variable and the statements that see it. -/
  | letIn (var : VarId) (body : List NodeId)
  | loop (body : List NodeId)
  /-- Leaves the block or loop `target`. -/
  | leave (target : NodeId) (result : Option NodeId)
  /-- `yes` runs if `cond` is present, and sees its value as `binding`. -/
  | guard (cond yes : NodeId) (binding : VarId)
  | orElse (lhs rhs : NodeId)
  | just (value : NodeId)
  | noneOf (type : NodeId)
  /-- A class or a class parameter by name: as a value, a new object; as a type, a reference to one.
  -/
  | classRef (name : NameId) (target : Option Target) (args : List NodeId) (inst : Option InstId)
  | array (items : List NodeId)
  | arrayOf (element : NodeId)
  | getAt (array index : NodeId)
  | setAt (array index value : NodeId)
  | call (callee : NodeId) (args : List NodeId)
  | callMethod (receiver : Option NodeId) (method : MethodId) (args : List NodeId)
      (dispatch : Dispatch)
  | callFunction (function : FunctionId) (args : List NodeId)
  | functionRef (function : FunctionId)
  | delegate (receiver : Option NodeId) (method : MethodId)
  | lambda (id : LambdaId)
  | signature (params : List NodeId) (result : Option NodeId)
  /-- A checked cast can fail when it runs. -/
  | cast (operand target : NodeId) (checked : Bool)
  | toWeak (value : NodeId)
  | toOwn (value : NodeId)
  | copyOf (value : NodeId)
deriving DecidableEq, Repr, Inhabited

namespace Form

/-- The nodes directly below, in the order in which they run. The body of a lambda and the value of
a variable are not among them. -/
def children : Form → List NodeId
  | int _ | double _ | bool _ | atom _ | void | name _ | getVar _ | this | functionRef _
  | lambda _ =>
    []
  | setName _ value | setVar _ value => [value]
  | getField base _ _ => base.toList
  | setField base _ _ value => base.toList ++ [value]
  | binary _ lhs rhs | orElse lhs rhs => [lhs, rhs]
  | unary _ x | just x | noneOf x | arrayOf x | toWeak x | toOwn x | copyOf x => [x]
  | block body | loop body | letIn _ body | array body => body
  | leave _ result => result.toList
  | guard cond yes _ => [cond, yes]
  | classRef _ _ args _ => args
  | getAt a i => [a, i]
  | setAt a i value => [a, i, value]
  | call callee args => callee :: args
  | callMethod receiver _ args _ => receiver.toList ++ args
  | callFunction _ args => args
  | delegate receiver _ => receiver.toList
  | signature params result => params ++ result.toList
  | cast operand target _ => [operand, target]

def label : Form → String
  | int _ => "ConstInt64"
  | double _ => "ConstDouble"
  | bool _ => "ConstBool"
  | atom _ => "ConstAtom"
  | void => "ConstVoid"
  | name _ => "Name"
  | setName _ _ => "SetName"
  | getVar _ => "GetVar"
  | setVar _ _ => "SetVar"
  | this => "GetThis"
  | getField _ _ _ => "GetField"
  | setField _ _ _ _ => "SetField"
  | binary _ _ _ => "Binary"
  | unary _ _ => "Unary"
  | block _ => "Block"
  | letIn _ _ => "Local"
  | loop _ => "Loop"
  | leave _ _ => "Break"
  | guard _ _ _ => "If"
  | orElse _ _ => "Else"
  | just _ => "Just"
  | noneOf _ => "NoneOf"
  | classRef _ _ _ _ => "MakeInstance"
  | array _ => "MakeArray"
  | arrayOf _ => "ArrayOf"
  | getAt _ _ => "GetAt"
  | setAt _ _ _ => "SetAt"
  | call _ _ => "Call"
  | callMethod _ _ _ _ => "CallMethod"
  | callFunction _ _ => "CallFunction"
  | functionRef _ => "FunctionRef"
  | delegate _ _ => "MakeDelegate"
  | lambda _ => "Lambda"
  | signature _ _ => "LambdaSig"
  | cast _ _ _ => "Cast"
  | toWeak _ => "ToWeak"
  | toOwn _ => "ToOwn"
  | copyOf _ => "CopyOf"

end Form

structure Node where
  form : Form
  loc : Location
  slot : Slot := .empty
deriving DecidableEq, Repr, Inhabited

end ClassLang
