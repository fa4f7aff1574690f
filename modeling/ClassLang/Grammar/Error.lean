import ClassLang.Program.Pass
import ClassLang.Token.Scanner

namespace ClassLang

inductive Wanted
  | token (t : Token)
  | identifier
  | version
  | statement
  | expression
  | type
deriving DecidableEq, Repr, Inhabited

def Wanted.text : Wanted → String
  | token t => "'" ++ t.text ++ "'"
  | identifier => "identifier"
  | version => "version number"
  | statement => "declaration or statement"
  | expression => "expression"
  | type => "type"

inductive ParseCause
  | lex (e : LexError)
  | expected (wanted : Wanted) (found : Token)
  | missingModule (name : String)
  | nameMismatch (expected found : String)
  | importCycle (path : List String)
  | outdated (name : String) (required actual : Nat)
  | missingBody (name : String)
  | notAssignable
  | breakOutsideLoop
  | returnOutsideBody
deriving DecidableEq, Repr, Inhabited

def ParseCause.message : ParseCause → String
  | lex e => e.message
  | expected wanted found => "expected " ++ wanted.text ++ ", found '" ++ found.text ++ "'"
  | missingModule name => "module '" ++ name ++ "' not found"
  | nameMismatch name found => "module '" ++ name ++ "' declares itself as '" ++ found ++ "'"
  | importCycle path => "import cycle: " ++ " -> ".intercalate path
  | outdated name required actual =>
    "module '" ++ name ++ "' has version " ++ toString actual ++ ", but version " ++
      toString required ++
      " is required"
  | missingBody name => "method '" ++ name ++ "' needs a body"
  | notAssignable => "left side of assignment is not assignable"
  | breakOutsideLoop => "break outside of a loop"
  | returnOutsideBody => "return outside of a body"

abbrev ParseFault := Fault ParseCause

end ClassLang
