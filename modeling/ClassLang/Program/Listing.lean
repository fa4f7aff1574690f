import ClassLang.Program.Render

namespace ClassLang.Program

def signatureSuffix (p : Program) (typed : Bool) (slot : Slot) : String :=
  match typed, slot with
  | true, .fixed t => " : " ++ p.typeName t
  | _, _ => ""

def bodyText (p : Program) (width : Nat) (body : Option NodeId) : String :=
  Text.unlines (body.toList.flatMap fun b => (p.treeLines b).map (indent width))

def methodText (p : Program) (typed : Bool) (m : MethodId) : String :=
  let decl := p.methods.get m
  "  " ++ p.displayName decl.name ++ p.signatureSuffix typed decl.slot ++ "\n" ++
    p.bodyText 4 decl.body

def functionText (p : Program) (typed : Bool) (f : FunctionId) : String :=
  let decl := p.functions.get f
  "fn " ++ p.displayName decl.name ++ p.signatureSuffix typed decl.slot ++ "\n" ++
    p.bodyText 2 decl.body

def coldText (p : Program) : String :=
  Text.unlines <| p.colds.ids.filterMap fun c =>
    if p.colds.find c = c then
      (p.colds.get c).signature.map fun t => "cold#" ++ toString c.index ++ " = " ++ p.typeName t
    else none

def listing (p : Program) (typed : Bool) : String :=
  String.join
    ((p.classes.ids.flatMap fun c => p.classText c :: (p.classes.get c).allMethods.map
      (p.methodText typed)) ++
      p.functions.ids.map (p.functionText typed) ++
      [if typed then p.coldText else ""])

def entryResult? (p : Program) (m : Module) : Option TypeId := do
  match p.types.get (← (p.functions.get (← m.entry)).slot.fixed?) with
  | .function _ result => some result
  | _ => none

def entryText (p : Program) : String :=
  Text.unlines <| (p.modules.items.toList.filter (·.entry.isSome)).map fun m =>
    p.displayName m.name ++ ": " ++ ((p.entryResult? m).map p.typeName).getD "?"

end ClassLang.Program
