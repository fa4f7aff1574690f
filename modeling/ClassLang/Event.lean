namespace ClassLang

inductive Event
  /-- The text of a module was asked for. -/
  | requested (name : String)
  | moduleLoaded (name : String) (version classes : Nat)
  | classFlattened (name : String) (members bases : Nat)
  | namesResolved (classes functions : Nat)
  /-- The rule for a node is entered. -/
  | typing (node : Nat) (label : String)
  | dispatchBuilt (name : String) (entries : Nat)
  | coldFixed (cold : Nat) (signature : String)
  | typesChecked (types insts colds : Nat)
  /-- All answers about a module and its imports are given. -/
  | finished (root : String)
deriving DecidableEq, Repr, Inhabited

def Event.requests (events : List Event) : List String :=
  events.filterMap fun
    | .requested name => some name
    | _ => none

end ClassLang
