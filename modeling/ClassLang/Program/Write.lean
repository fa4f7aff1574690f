import ClassLang.Program.Basic

namespace ClassLang

inductive Write
  | node (i : NodeId) (slot : Slot)
  | var (v : VarId) (slot : Slot)
  /-- A parameter without a declared type gets one from an application of its lambda. -/
  | param (v : VarId) (type : TypeId)
  | method (m : MethodId) (type : TypeId)
  | function (f : FunctionId) (type : TypeId)
  /-- A node that no text stands for. -/
  | add (entry : Node)
  /-- A lambda gets a placeholder of its own. -/
  | place (l : LambdaId)
  | merge (target source : ColdId)
  | fixing (c : ColdId) (on : Bool)
  | signature (c : ColdId) (type : TypeId)
deriving DecidableEq, Repr, Inhabited

def Write.apply : Write → Program → Program
  | node i slot, p => p.setSlot i slot
  | var v slot, p => p.setVarSlot v slot
  | param v type, p => p.setVarSlot v (.fixed type)
  | method m type, p => p.modifyMethod m fun d => { d with slot := .fixed type }
  | function f type, p => p.modifyFunction f fun d => { d with slot := .fixed type }
  | add entry, p => { p with nodes := (p.nodes.push entry).2 }
  | place l, p =>
    let (c, colds) := p.colds.create l
    { p with colds, lambdas := p.lambdas.modify l fun d => { d with cold := some c } }
  | merge target source, p => { p with colds := (p.colds.merge target source).2 }
  | fixing c on, p => { p with colds := p.colds.update c ({ · with fixing := on }) }
  | signature c type, p => { p with colds := p.colds.update c ({ · with signature := some type }) }

end ClassLang
