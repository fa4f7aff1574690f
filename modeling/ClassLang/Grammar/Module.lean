import ClassLang.Grammar.Declaration

namespace ClassLang.Grammar

/-- The grammar for constructs nested at most `n` deep. Each level reads a lexeme before it goes one
level further in, so without a level left there is no lexeme left either. -/
def rules : Nat → Rules
  | 0 =>
    { expression := failWanting .expression
      guarded := failWanting .expression
      unary := failWanting .expression
      type := failWanting .type
      statements := fun topLevel =>
        failWanting (if topLevel then .statement else .token Symbol.rBrace) }
  | n + 1 =>
    { expression := fun c => expression (rules n) c
      guarded := fun c => guarded (rules n) c
      unary := fun c => unary (rules n) c
      type := fun c => typeExpr (rules n) c
      statements := fun topLevel c => statements (rules n) topLevel c }

structure Header where
  /-- The name that the module gives itself, and where. -/
  name : Option (String × Span)
  version : Nat
  imports : List (String × Nat × Span)
deriving Repr, Inhabited

/-- A version behind a dot; without one it is zero. -/
def version : Parse Nat := do
  if ← eat Symbol.dot then
    match ← peek with
    | .int v =>
      if 0 ≤ v.toInt then
        let _ ← advance
        return v.toInt.toNat
      else failWanting .version
    | _ => failWanting .version
  else return 0

def header : Parse Header := do
  let mut name := none
  let mut declared := 0
  if ← eat Keyword.kModule then
    name := some (← expectIdent)
    declared ← version
    let _ ← expect Symbol.semi
  let imports ← repeatFrom (fun imports => do
    if ← looking Keyword.kUsing then
      let start ← advance
      let (name, _) ← expectIdent
      let required ← version
      let _ ← expect Symbol.semi
      return .yield (imports ++ [(name, required, ← spanFrom start)])
    else return .done imports) []
  return { name, version := declared, imports }

/-- Reads the declarations of a module. Its statements, if it has any, become its entry function. -/
def moduleBody : Parse Unit := do
  let start ← peekSpan
  let block ← addNode (.block []) start
  let depth := (← get).rest.length
  let stmts ← withReader (fun c => { c with body := some block })
    ((rules (depth + 1)).statements true)
  if stmts.isEmpty then return
  finishNode block (.block stmts) start
  let { module, moduleName, .. } ← read
  let name ← childName moduleName "main"
  let loc := (← get).program.loc block
  let i ← addFunction
    { name, module, params := [], result := none, body := some block, isPlatform := false, loc }
  edit (·.modifyModule module fun m => { m with entry := some i })

end ClassLang.Grammar
