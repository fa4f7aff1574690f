import ClassLang.Main
import ClassLang.Proofs.Arrivals
import ClassLang.Proofs.Faults
import ClassLang.Proofs.Interning
import ClassLang.Proofs.Load.Modules
import ClassLang.Proofs.Scope.Complete
import ClassLang.Proofs.Scope.Failure
import ClassLang.Proofs.Scope.Imports
import ClassLang.Proofs.Scope.Lexical
import ClassLang.Proofs.Scope.Tables
import ClassLang.Proofs.Token.Display
import ClassLang.Proofs.Typing.Ancestry
import ClassLang.Proofs.Typing.Branches
import ClassLang.Proofs.Typing.Confined
import ClassLang.Proofs.Typing.Idempotent
import ClassLang.Proofs.Typing.Implemented
import ClassLang.Proofs.Typing.Joins
import ClassLang.Proofs.Typing.Jumps
import ClassLang.Proofs.Typing.Optionals
import ClassLang.Proofs.Typing.Passing
import ClassLang.Proofs.Typing.Rebinding
import ClassLang.Proofs.Typing.Returning
import ClassLang.Proofs.Typing.Substitutable
import ClassLang.Proofs.UnionFind
