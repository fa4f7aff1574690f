import ClassLang.Program.Pass
import ClassLang.Program.Render

namespace ClassLang

inductive Role
  | var | field | method | classParam | cls | function
deriving DecidableEq, Repr, Inhabited

def Role.text : Role → String
  | var => "variable"
  | field => "field"
  | method => "method"
  | classParam => "class parameter"
  | cls => "class"
  | function => "function"

inductive NameCause
  | unresolved (name : NameId)
  | duplicate (name : NameId)
  | ambiguous (name : NameId) (candidates : List NameId)
  | paramOrMember (name : NameId)
  | ambiguousMember (name : NameId)
  | ambiguousInheritance (cls base : ClassId)
  | selfInheritance (cls : ClassId)
  | multipleConcreteBases (cls : ClassId)
  | interfaceExtendsClass (cls base : ClassId)
  | paramAsBase (cls : ClassId)
  | conflictingRole (name : NameId) (role expected : Role)
  | arityMismatch (cls : ClassId) (expected actual : Nat)
  | expectedTypeName
  | parameterizedParam
  | invalidBound (param : ParamId)
  | thisOutsideClass
deriving DecidableEq, Repr, Inhabited

def NameCause.message (p : Program) : NameCause → String
  | unresolved name => "unresolved name '" ++ p.displayName name ++ "'"
  | duplicate name => "duplicate member '" ++ p.displayName name ++ "'"
  | ambiguous name candidates =>
    "name '" ++ p.displayName name ++ "' is ambiguous between " ++ commaList
      (candidates.map p.displayName)
  | paramOrMember name =>
    "name '" ++ p.displayName name ++ "' is ambiguous between class parameter, member"
  | ambiguousMember name =>
    "member '" ++ p.displayName name ++ "' is reachable through several bases"
  | ambiguousInheritance cls base =>
    "class '" ++ p.className cls ++ "' composes '" ++ p.className base ++ "' ambiguously"
  | selfInheritance cls => "class '" ++ p.className cls ++ "' inherits from itself"
  | multipleConcreteBases cls => "class '" ++ p.className cls ++ "' has more than one concrete base"
  | interfaceExtendsClass cls base =>
    "interface '" ++ p.className cls ++ "' cannot extend class '" ++ p.className base ++ "'"
  | paramAsBase cls => "class '" ++ p.className cls ++ "' cannot inherit from a class parameter"
  | conflictingRole name role expected =>
    "'" ++ p.displayName name ++ "' is a " ++ role.text ++ ", expected " ++ expected.text
  | arityMismatch cls expected actual =>
    "class '" ++ p.className cls ++ "' expects " ++ toString expected ++ " parameters, got " ++
      toString actual
  | expectedTypeName => "expected a type name"
  | parameterizedParam => "class parameters cannot take parameters"
  | invalidBound param =>
    "bound of '" ++ p.names.segment (p.params.get param).name ++ "' must be a non-generic class"
  | thisOutsideClass => "'this' used outside of a class"

end ClassLang
