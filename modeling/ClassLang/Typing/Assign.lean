import ClassLang.Typing.Declared

namespace ClassLang.Typing

def keepsKind : (want given : RefKind) → Bool
  | .own, .own | .pin, .own | .pin, .pin | .weak, .weak => true
  | _, _ => false

def assignRef (target actual : TypeId) (want given : RefKind × InstId) (loc : Location) :
    Check Storing := do
  if !(← editing loc (Program.isSubinst given.2 want.2)) then
    mismatch target actual loc
  else if keepsKind want.1 given.1 then return .direct
  else
    match want.1 with
    | .weak => return .weaken want.2
    | .own => failAt (.ownership target actual) loc
    | .pin => mismatch target actual loc

/-- Gives lambdas without a signature the one of a place they reach. Then their result has to fit,
unless the place has no use for it. -/
def fixColdTo (e : Engine) (assign : TypeId → TypeId → Location → Check Storing) (cold : ColdId)
    (params : List TypeId) (result : TypeId) (loc : Location) : Check Unit := do
  let fixed ←
    match ((← program).colds.lookup cold).signature with
    | some t => pure t
    | none => e.fix cold params loc
  let expected ← intern (.lambda params result)
  let (haveParams, haveResult) ← signatureOf fixed .coldNotLambda loc
  if haveParams ≠ params then
    mismatch expected fixed loc
  if result ≠ TypeId.void then
    tryCatch (discard (assign haveResult result loc)) fun _ => mismatch expected fixed loc

def unifyColds (e : Engine) (assign : TypeId → TypeId → Location → Check Storing) (x y : ColdId)
    (loc : Location) : Check TypeId := do
  let colds := (← program).colds
  match (colds.lookup x).signature, (colds.lookup y).signature with
  | none, none => do
    write (.merge x y)
    intern (.cold (colds.find x))
  | some fixed, none => fixOther y fixed
  | none, some fixed => fixOther x fixed
  | some a, some b => if a = b then return a else failAt (.incompatible a b) loc
where
  fixOther (other : ColdId) (fixed : TypeId) : Check TypeId := do
    let (params, result) ← signatureOf fixed .coldNotLambda loc
    fixColdTo e assign other params result loc
    return fixed

/-- Whether a value of type `actual` can be stored where `target` is declared. Each step goes to a
type inside `target`, which has a smaller id, or gives a placeholder its signature. -/
def assignUpTo (e : Engine) : Nat → TypeId → TypeId → Location → Check Storing
  | 0, actual, target, loc => mismatch target actual loc
  | n + 1, actual, target, loc => do
    if actual = target ∨ actual = TypeId.noReturn then return .direct
    match ← ref? target, ← ref? actual with
    | some want, some given => assignRef target actual want given loc
    | some _, none | none, some _ => mismatch target actual loc
    | none, none =>
      match ← typeOf target, ← typeOf actual with
      | .optional want d, .optional given d' =>
        if d = d' then
          match ← assignUpTo e n given want loc with
          | .direct => return .direct
          | .weaken _ => mismatch target actual loc
        else mismatch target actual loc
      | .cold want, .cold given =>
        let _ ← unifyColds e e.assign want given loc
        return .direct
      | .lambda params result, .cold given =>
        fixColdTo e (assignUpTo e n) given params result loc
        return .direct
      | .lambda params result, .lambda haveParams haveResult
      | .lambda params result, .function haveParams haveResult =>
        if haveParams ≠ params then
          mismatch target actual loc
        if result ≠ TypeId.void then
          tryCatch (discard (assignUpTo e n haveResult result loc)) fun _ =>
            mismatch target actual loc
        return .direct
      | _, _ => mismatch target actual loc

def assign (e : Engine) (actual target : TypeId) (loc : Location) : Check Storing :=
  assignUpTo e (target.index + 1) actual target loc

/-- Types a value and stores it where `target` is declared. The answer is the node to store, a new
one if the value is weakened. -/
def coerce (e : Engine) (value : NodeId) (target : TypeId) : Check NodeId := do
  let actual ← e.find value
  let loc ← locOf value
  match ← assign e actual target loc with
  | .direct => return value
  | .weaken inst =>
    let i : NodeId := ⟨(← program).nodes.size⟩
    write (.add { form := .toWeak value, loc })
    let t ← intern (.ref .weak inst)
    write (.node i (.fixed t))
    return i

def arguments (e : Engine) (params : List TypeId) (args : List NodeId) (loc : Location) :
    Check (List NodeId) := do
  if params.length ≠ args.length then
    failAt (.argumentCount params.length args.length) loc
  (params.zip args).mapM fun (param, arg) => coerce e arg param

def joinKinds : RefKind → RefKind → Option RefKind
  | .own, .own => some .own
  | .weak, .weak => some .weak
  | .weak, _ | _, .weak => none
  | _, _ => some .pin

def joinRefs (a b : TypeId) (x y : RefKind × InstId) (loc : Location) : Check TypeId := do
  let inst ←
    if ← editing loc (Program.isSubinst y.2 x.2) then pure x.2
    else do
      if ← editing loc (Program.isSubinst x.2 y.2) then pure y.2
      else failAt (.incompatible a b) loc
  match joinKinds x.1 y.1 with
  | some kind => intern (.ref kind inst)
  | none => failAt (.incompatible a b) loc

def unify (e : Engine) (a b : TypeId) (loc : Location) : Check TypeId := do
  if a = b ∨ b = TypeId.noReturn then return a
  if a = TypeId.noReturn then return b
  match ← typeOf a, ← typeOf b with
  | .cold x, .cold y => unifyColds e (assign e) x y loc
  | .cold cold, .lambda params result | .lambda params result, .cold cold =>
    fixColdTo e (assign e) cold params result loc
    intern (.lambda params result)
  | _, _ =>
    match ← ref? a, ← ref? b with
    | some x, some y => joinRefs a b x y loc
    | _, _ => failAt (.incompatible a b) loc

end ClassLang.Typing
