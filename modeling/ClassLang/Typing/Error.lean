import ClassLang.Program.Pass
import ClassLang.Program.Render

namespace ClassLang

inductive Expectation
  | type (t : TypeId)
  | optional
  | classRef
  | pinnedRef
  | classRefOrArray
  | array
deriving DecidableEq, Repr, Inhabited

def Expectation.text (p : Program) : Expectation → String
  | type t => p.typeName t
  | optional => "optional"
  | classRef => "class reference"
  | pinnedRef => "pinned reference"
  | classRefOrArray => "class reference or array"
  | array => "array"

inductive Unsupported
  | expressionAsType
  | typeAsValue
  | objectOfParam
  | objectOfInterface (inst : InstId)
  | castToParam (inst : InstId)
  | neverCalled
deriving DecidableEq, Repr, Inhabited

def Unsupported.text (p : Program) : Unsupported → String
  | expressionAsType => "expression used as a type"
  | typeAsValue => "type expression used as a value"
  | objectOfParam => "creating an instance of a class parameter"
  | objectOfInterface inst => "creating an instance of interface " ++ p.instName inst
  | castToParam inst => "casting to unbounded parameter " ++ p.instName inst
  | neverCalled => "lambda with untyped parameters that is never called"

/-- States that no resolved program leads to. -/
inductive Broken
  | thisOutsideClass
  | signatureNotCallable
  | functionNotCallable
  | methodNotCallable
  | coldNotLambda
  | fieldWithoutInit
  | localWithoutInit
  | paramBeforeLambda
  | bindingOutsideGuard
  | unresolvedName
  | leaveOutsideTarget
  | methodOfAnotherMember
  | unresolvedClassRef
  | emptyArray
  | castTarget
  | coldWithoutSites
  | overloadWithoutTarget
  | overrideOfParam
  | overrideMissing
  | missingArgument (index : Nat) (cls : ClassId) (inst : InstId)
deriving DecidableEq, Repr, Inhabited

def Broken.text (p : Program) : Broken → String
  | thisOutsideClass => "'this' outside of a class"
  | signatureNotCallable => "signature is not callable"
  | functionNotCallable => "function signature is not callable"
  | methodNotCallable => "method signature is not callable"
  | coldNotLambda => "cold signature is not a lambda"
  | fieldWithoutInit => "field without initializer"
  | localWithoutInit => "local without initializer"
  | paramBeforeLambda => "lambda parameter read before its lambda was fixed"
  | bindingOutsideGuard => "binding read outside of its guard"
  | unresolvedName => "unresolved name reached the type checker"
  | leaveOutsideTarget => "break outside of its target"
  | methodOfAnotherMember => "method call bound to another member"
  | unresolvedClassRef => "unresolved class reference"
  | emptyArray => "empty array literal"
  | castTarget => "cast target is not a class reference"
  | coldWithoutSites => "cold lambda without sites"
  | overloadWithoutTarget => "overload without a bound target"
  | overrideOfParam => "override of a parameter base"
  | overrideMissing => "override target missing from its base"
  | missingArgument index cls inst =>
    "parameter " ++ toString index ++ " of " ++ p.className cls ++ " has no argument in " ++
      p.instName inst

inductive TypeCause
  | expectedNumber (actual : TypeId)
  | mismatch (expected : Expectation) (actual : TypeId)
  | methodAsField
  | outOfBound (bound : ClassId) (actual : InstId)
  | incompatible (first second : TypeId)
  | ambiguousMember (name : NameId)
  | unknownMember (cls : ClassId) (name : NameId)
  | noMembers (receiver : InstId) (name : NameId)
  | notCallable (actual : TypeId)
  | argumentCount (expected actual : Nat)
  | temporary (actual : TypeId)
  | circular
  | ownership (expected actual : TypeId)
  | missingImplementation (cls : ClassId) (method : MethodId)
  | unsupported (what : Unsupported)
  | internal (what : Broken)
deriving DecidableEq, Repr, Inhabited

def mismatchText (expected actual : String) : String :=
  "type mismatch: expected " ++ expected ++ ", found " ++ actual

def unknownMemberText (owner name : String) : String :=
  "'" ++ owner ++ "' has no member '" ++ name ++ "'"

def TypeCause.message (p : Program) : TypeCause → String
  | expectedNumber actual => "expected int or double, found " ++ p.typeName actual
  | mismatch expected actual => mismatchText (expected.text p) (p.typeName actual)
  | methodAsField => mismatchText "field" "method"
  | outOfBound bound actual => mismatchText (p.className bound) (p.instName actual)
  | incompatible first second =>
    "incompatible types " ++ p.typeName first ++ " and " ++ p.typeName second
  | ambiguousMember name =>
    "member '" ++ p.displayName name ++ "' is reachable through several bases"
  | unknownMember cls name => unknownMemberText (p.className cls) (p.displayName name)
  | noMembers receiver name => unknownMemberText (p.instName receiver) (p.displayName name)
  | notCallable actual => p.typeName actual ++ " is not callable"
  | argumentCount expected actual =>
    "expected " ++ toString expected ++ " arguments, found " ++ toString actual
  | temporary actual => "temporary reference " ++ p.typeName actual ++ " cannot be stored"
  | circular => "circular dependency while inferring a type"
  | ownership expected actual =>
    "cannot take ownership: expected " ++ p.typeName expected ++ ", found " ++ p.typeName actual
  | missingImplementation cls method =>
    "class '" ++ p.className cls ++ "' does not implement '" ++ p.names.segment
      (p.methods.get method).name ++ "'"
  | unsupported what => "unsupported: " ++ what.text p
  | internal what => "internal error: " ++ what.text p

end ClassLang
