import ClassLang.Scope.Inheritance

namespace ClassLang

structure Scope where
  module : ModuleId := ⟨0⟩
  owner : Option ClassId := none
  /-- Parameters, locals and bindings in scope, innermost first. -/
  locals : List VarId := []
deriving DecidableEq, Repr, Inhabited

inductive Binding
  | var (id : VarId)
  | field (id : VarId)
  | method (id : MethodId)
  | classParam (id : ParamId)
  | cls (id : ClassId)
  | function (id : FunctionId)
deriving DecidableEq, Repr, Inhabited

def Binding.role : Binding → Role
  | var _ => .var
  | field _ => .field
  | method _ => .method
  | classParam _ => .classParam
  | cls _ => .cls
  | function _ => .function

def Binding.ofGlobal : Global → Binding
  | .cls c => cls c
  | .function f => function f

namespace Scope

def localNamed? (s : Scope) (p : Program) (name : NameId) : Option VarId :=
  s.locals.find? fun v => (p.vars.get v).name = name

def classParam? (s : Scope) (p : Program) (name : NameId) : Option ParamId :=
  s.owner.bind fun c => (p.classes.get c).params.find? fun q => (p.params.get q).name = name

def visibleGlobals (s : Scope) (p : Program) (segment : String) : List (NameId × Global) :=
  let m := p.modules.get s.module
  (m.name :: m.imports.map Import.name).foldl (fun found scope =>
    match (p.names.peek (some scope) segment).bind fun q => (p.globals.lookup q).map (q, ·) with
    | some (q, g) => if found.any (·.2 = g) then found else found ++ [(q, g)]
    | none => found) []

/-- A qualified name is looked up as it stands, any other in the module and its imports. -/
def global (s : Scope) (p : Program) (name : NameId) : Except NameCause Global :=
  if p.names.isQualified name then
    match p.globals.lookup name with
    | some g => .ok g
    | none => .error (.unresolved name)
  else
    match s.visibleGlobals p (p.names.segment name) with
    | [] => .error (.unresolved name)
    | [(_, g)] => .ok g
    | many => .error (.ambiguous name (many.map Prod.fst))

def inClass (s : Scope) (p : Program) (name : NameId) : Except NameCause (Option Binding) :=
  match s.owner with
  | none => .ok none
  | some c =>
    match (p.classes.get c).members.lookup name with
    | .many _ => .error (.ambiguousMember name)
    | .one entry =>
      match s.classParam? p name, entry.member with
      | some _, _ => .error (.paramOrMember name)
      | none, .field f => .ok (some (.field f))
      | none, .method m => .ok (some (.method m))
    | .none => .ok ((s.classParam? p name).map .classParam)

/-- Locals come before the class, and the class before the globals. -/
def lookup (s : Scope) (p : Program) (name : NameId) : Except NameCause Binding :=
  if p.names.isQualified name then (s.global p name).map Binding.ofGlobal
  else
    match s.localNamed? p name with
    | some v => .ok (.var v)
    | none =>
      match s.inClass p name with
      | .error e => .error e
      | .ok (some b) => .ok b
      | .ok none => (s.global p name).map Binding.ofGlobal

def lookupType (s : Scope) (p : Program) (name : NameId) : Except NameCause Target :=
  match if p.names.isQualified name then none else s.classParam? p name with
  | some q => .ok (.param q)
  | none =>
    match s.global p name with
    | .ok (.cls c) => .ok (.cls c)
    | .ok (.function _) => .error (.conflictingRole name .function .cls)
    | .error e => .error e

end Scope

end ClassLang
