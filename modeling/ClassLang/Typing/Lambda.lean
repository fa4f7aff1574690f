import ClassLang.Typing.Assign

namespace ClassLang.Typing

/-- A lambda without all its types gets a placeholder, and its body waits for a signature. -/
def lambdaType (e : Engine) (l : LambdaId) (loc : Location) : Check TypeId := do
  let decl := (← program).lambdas.get l
  if (← program).isAnnotated decl then
    let params ← decl.params.mapM fun v => varType e v loc
    let result ← within decl.owner (e.find decl.body)
    intern (.lambda params result)
  else
    let cold ←
      match decl.cold with
      | some c => pure c
      | none => do
        let c : ColdId := ⟨(← program).colds.size⟩
        write (.place l)
        pure c
    intern (.cold cold)

def normalize (t : TypeId) : Check TypeId := do
  match ← typeOf t with
  | .cold c => return ((← program).colds.lookup c).signature.getD t
  | _ => return t

def fixParam (e : Engine) (siteLoc loc : Location) : VarId × TypeId → Check Unit
  | (v, arg) => do
    match ((← program).vars.get v).init with
    | some _ =>
      let declared ← varType e v siteLoc
      discard (assign e arg declared loc)
    | none => write (.param v arg)

def fixSite (e : Engine) (params : List TypeId) (loc : Location) (result : Option TypeId)
    (site : LambdaId) : Check (Option TypeId) := do
  let decl := (← program).lambdas.get site
  let siteLoc ← locOf decl.body
  if decl.params.length ≠ params.length then
    failAt (.argumentCount decl.params.length params.length) loc
  (decl.params.zip params).forM (fixParam e siteLoc loc)
  let body ← within decl.owner (e.find decl.body)
  match result with
  | none => return some body
  | some previous => return some (← unify e previous body siteLoc)

def fixSites (e : Engine) (cold : ColdId) (params : List TypeId) (loc : Location) : Check TypeId :=
  do
  let sites := ((← program).colds.lookup cold).sites
  match ← sites.foldlM (fixSite e params loc) none with
  | none => broken .coldWithoutSites loc
  | some result =>
    let result ← normalize result
    intern (.lambda (← params.mapM normalize) result)

def marking (cold : ColdId) (m : Check TypeId) : Check TypeId := do
  write (.fixing cold true)
  let t ← tryCatch m fun e => do
    write (.fixing cold false)
    throw e
  write (.fixing cold false)
  return t

def fixCold (e : Engine) (cold : ColdId) (params : List TypeId) (loc : Location) : Check TypeId :=
  do
  if ((← program).colds.lookup cold).fixing then
    failAt .circular loc
  let t ← marking cold (fixSites e cold params loc)
  write (.signature cold t)
  emit (.coldFixed ((← program).colds.find cold).index ((← program).typeName t))
  return t

def callCold (e : Engine) (cold : ColdId) (args : List NodeId) (loc : Location) :
    Check (List NodeId × TypeId) := do
  let t ←
    match ((← program).colds.lookup cold).signature with
    | some t => pure t
    | none => do
      let params ← args.mapM fun a => do
        let t ← e.find a
        onTypes (·.pinned t)
      e.fix cold params loc
  let (params, result) ← signatureOf t .coldNotLambda loc
  return (← arguments e params args loc, result)

end ClassLang.Typing
