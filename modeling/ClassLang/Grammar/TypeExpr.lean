import ClassLang.Grammar.Basic

namespace ClassLang.Grammar

def qualifiedName : Parse NameId := do
  let (first, _) ← expectIdent
  repeatFrom (fun name => do
    if (← looking Symbol.colonColon) && isIdent (← peekSecond) then
      let _ ← advance
      let (segment, _) ← expectIdent
      return .yield (← childName name segment)
    else
      return .done name) (← rootName first)

def classRef (r : Rules) : Parse NodeId := do
  let start ← peekSpan
  let name ← qualifiedName
  let args ← if ← eat Symbol.lParen then listUntil .rParen r.type else pure []
  addNode (.classRef name none args none) (← spanFrom start)

/-- Whether a result type follows; an identifier may be the name of a parameter of this type
instead. -/
def resultFollows (next second : Token) : Bool :=
  match next with
  | .keyword .kInt | .keyword .kDouble | .keyword .kBool | .keyword .kFn | .symbol .amp
      | .symbol .question
  | .symbol .lBracket => true
  | .ident _ =>
    match second with
    | .symbol .comma | .symbol .rParen | .symbol .semi | .symbol .eq => false
    | _ => true
  | _ => false

def signatureType (r : Rules) : Parse NodeId := do
  let start ← advance
  let _ ← expect Symbol.lParen
  let params ← listUntil .rParen r.type
  let result ← if resultFollows (← peek) (← peekSecond) then some <$> r.type else pure none
  addNode (.signature params result) (← spanFrom start)

def typeExpr (r : Rules) : Parse NodeId := do
  let start ← peekSpan
  let finish (form : Form) : Parse NodeId := do addNode form (← spanFrom start)
  match ← peek with
  | .keyword .kInt =>
    let _ ← advance
    finish (.int 0)
  | .keyword .kDouble =>
    let _ ← advance
    finish (.double (.finite 0 (-1074)))
  | .keyword .kBool =>
    let _ ← advance
    finish (.bool false)
  | .symbol .amp =>
    let _ ← advance
    finish (.toWeak (← r.type))
  | .symbol .question =>
    let _ ← advance
    finish (.noneOf (← r.type))
  | .symbol .lBracket =>
    let _ ← advance
    let element ← r.type
    let _ ← expect Symbol.rBracket
    finish (.arrayOf element)
  | .keyword .kFn => signatureType r
  | .ident _ => classRef r
  | _ => failWanting .type

end ClassLang.Grammar
