import ClassLang.Proofs.Colds
import ClassLang.Proofs.Typing.Subst
import ClassLang.Typing.Check

namespace ClassLang

open TypeTable

def BinaryOp.Yields (types : TypeTable) (op : BinaryOp) (l r t : TypeId) : Prop :=
  match op with
  | .add | .sub | .mul | .div => l.isNumeric ∧ r = l ∧ t = l
  | .mod | .bitAnd | .bitOr | .bitXor | .shl | .shr =>
    l = TypeId.int ∧ r = TypeId.int ∧ t = TypeId.int
  | .lt => l.isNumeric ∧ r = l ∧ t = TypeId.bool
  | .eq => (l = r ∨ ∃ k k' i, types.get l = .ref k i ∧ types.get r = .ref k' i) ∧ t = TypeId.bool
  | .and | .or => l = TypeId.bool ∧ r = TypeId.bool ∧ t = TypeId.bool

def UnaryOp.Yields (op : UnaryOp) (x t : TypeId) : Prop :=
  match op with
  | .not => x = TypeId.bool ∧ t = TypeId.bool
  | .neg => x.isNumeric ∧ t = x
  | .toInt => x = TypeId.double ∧ t = TypeId.int
  | .toDouble => x = TypeId.int ∧ t = TypeId.double

def TypeTable.isCold (T : TypeTable) (t : TypeId) : Bool :=
  match T.get t with
  | .cold _ => true
  | _ => false

namespace Program

def Known (p : Program) (i : NodeId) : Prop := ∃ t, p.slot i = .fixed t

def VarKnown (p : Program) (v : VarId) : Prop := ∃ t, (p.vars.get v).slot = .fixed t

def MethodKnown (p : Program) (m : MethodId) : Prop := ∃ t, (p.methods.get m).slot = .fixed t

def FunctionKnown (p : Program) (f : FunctionId) : Prop := ∃ t, (p.functions.get f).slot = .fixed t

def LambdaKnown (p : Program) (l : LambdaId) : Prop :=
  (∀ v ∈ (p.lambdas.get l).params, p.VarKnown v) ∧ p.Known (p.lambdas.get l).body

/-- What has type `a` or type `b` has type `t`. To find this out changes nothing, whatever is added.
-/
def Unifies (p : Program) (a b t : TypeId) : Prop :=
  ∀ (e : Typing.Engine) (c : Typing.Context) (loc : Location) (s : PassState),
    p.Under s.program → p.types.Grows s.program.types → Typing.unify e a b loc c s = .ok t s

def Rule (p : Program) (t : TypeId) : Form → Prop
  | .binary op lhs rhs =>
    ∃ l r, p.slot lhs = .fixed l ∧ p.slot rhs = .fixed r ∧ op.Yields p.types l r t
  | .unary op operand => ∃ x, p.slot operand = .fixed x ∧ op.Yields x t
  | .guard cond yes _ =>
    ∃ a inner b, p.slot cond = .fixed a ∧ p.types.unwrap a = (some inner, p.types) ∧
      p.slot yes = .fixed b ∧ if b = TypeId.noReturn then t = TypeId.bool else p.types.optional
      b = (t, p.types)
  | .orElse lhs rhs =>
    ∃ a inner b, p.slot lhs = .fixed a ∧ p.types.unwrap a = (some inner, p.types) ∧
      p.slot rhs = .fixed b ∧
      (p.types.isCold inner = false → p.types.isCold b = false → p.Unifies inner b t)
  | .just x | .noneOf x => ∃ a, p.slot x = .fixed a ∧ p.types.optional a = (t, p.types)
  | .array items => ∃ e, p.types.get t = .array e ∧ p.types.isTemporary e = false ∧ items ≠ [] ∧
      ∀ x ∈ items, p.slot x = .fixed e
  | _ => True

def Brings (p : Program) (x : Option NodeId) (t : TypeId) : Prop :=
  x.elim (t = TypeId.void) fun r => p.slot r = .fixed t

/-- A block or loop of type `u` can end with a value of type `t`. Only a block without a value drops
others. -/
def Allows (p : Program) (target : NodeId) (u t : TypeId) : Prop :=
  t = u ∨ t = TypeId.noReturn ∨ (u = TypeId.void ∧ ∃ body, p.form target = .block body) ∨
    ∃ want given i j, p.types.get u = .ref want i ∧ p.types.get t = .ref given j ∧
    (want, given) ∈ [(RefKind.pin, RefKind.own), (.pin, .pin), (.own, .own), (.weak, .weak)] ∧
    p.Again (isSubinst j i) true

def Ends (p : Program) (i : NodeId) (u : TypeId) : Form → Prop
  | .block body => ∃ t, p.Brings body.getLast? t ∧ p.Allows i u t
  | _ => True

structure Closed (p : Program) (form : Form) : Prop where
  children : ∀ c ∈ form.children, p.Known c
  init : ∀ v body, form = .letIn v body → ∀ d, (p.vars.get v).init = some d → p.Known d
  annotated : ∀ l, form = .lambda l → p.isAnnotated (p.lambdas.get l) = true → p.LambdaKnown l
  waiting : ∀ l, form = .lambda l → p.isAnnotated (p.lambdas.get l) = false →
    ∃ c, (p.lambdas.get l).cold = some c

def Done (p : Program) (i : NodeId) : Prop :=
  ∃ t, p.slot i = .fixed t ∧ p.Closed (p.form i) ∧ p.Rule t (p.form i) ∧ p.Ends i t (p.form i)

def VarTyped (p : Program) (v : VarId) (t : TypeId) : Prop :=
  match (p.vars.get v).role, (p.vars.get v).init with
  | .param, some d => ∃ u, p.slot d = .fixed u ∧ p.types.pinned u = (t, p.types)
  | .field _, some d | .localVar, some d => p.slot d = .fixed t
  | .binding, _ =>
    ∀ i c y, p.form i = .guard c y v → ∃ u, p.slot c = .fixed u ∧
      p.types.unwrap u = (some t, p.types)
  | _, _ => True

theorem varTyped_local {p : Program} {v : VarId} {d : NodeId} {t : TypeId}
    (hrole : (p.vars.get v).role = .localVar) (hinit : (p.vars.get v).init = some d) :
    p.VarTyped v t ↔ p.slot d = .fixed t := by rw [VarTyped, hrole, hinit]

structure Spelled (p : Program) (params : List VarId) (result : Option NodeId) : Prop where
  params : ∀ v ∈ params, p.VarKnown v
  result : ∀ r, result = some r → p.Known r

structure Keeps (p q : Program) : Prop where
  alike : p.Alike q
  types : p.types.Grows q.types
  insts : p.insts.Grows q.insts
  nodes : p.nodes.size ≤ q.nodes.size
  slots : ∀ i t, p.slot i = .fixed t → q.slot i = .fixed t
  forms : ∀ i, p.Known i → q.form i = p.form i
  vars : ∀ v, p.VarKnown v → q.VarKnown v
  methods : ∀ m, p.MethodKnown m → q.MethodKnown m
  functions : ∀ f, p.FunctionKnown f → q.FunctionKnown f
  lambdas : ∀ l c, (p.lambdas.get l).cold = some c → (q.lambdas.get l).cold = some c
  colds : p.colds.size ≤ q.colds.size
  finds : ∀ c, q.colds.find c = q.colds.find (p.colds.find c)

structure ColdsSound (p : Program) : Prop where
  rooted : p.colds.Rooted
  placed : ∀ l c, (p.lambdas.get l).cold = some c → p.colds.Valid c ∧ l ∈ (p.colds.lookup c).sites
  sites : ∀ r l, l ∈ (p.colds.get r).sites → ∃ c, (p.lambdas.get l).cold = some c ∧
    p.colds.find c = r
  nodup : ∀ r, (p.colds.get r).sites.Nodup
  signatures : ∀ c t, (p.colds.get c).signature = some t →
    ∃ params result, p.types.get t = .lambda params result
  filled : ∀ c, p.colds.Valid c → ∃ l, (p.lambdas.get l).cold = some c

structure Coherent (p : Program) : Prop where
  shaped : p.Shaped
  ordered : ∀ i, (p.form i).isType → ∀ c ∈ (p.form i).children, c.index < i.index
  tables : p.Tables
  nodeTypes : ∀ i t, p.slot i = .fixed t → p.types.Valid t
  varTypes : ∀ v t, (p.vars.get v).slot = .fixed t → p.types.Valid t
  methodTypes : ∀ m t, (p.methods.get m).slot = .fixed t → p.types.Valid t
  functionTypes : ∀ f t, (p.functions.get f).slot = .fixed t → p.types.Valid t
  vars : ∀ v t, (p.vars.get v).slot = .fixed t → p.VarTyped v t
  methods : ∀ m, p.MethodKnown m → p.Spelled (p.methods.get m).params (p.methods.get m).result
  functions : ∀ f, p.FunctionKnown f →
    p.Spelled (p.functions.get f).params (p.functions.get f).result
  colds : p.ColdsSound

variable {p q r : Program} {i : NodeId} {t a : TypeId} {form : Form} {T U : TypeTable}

theorem Keeps.refl (h : p.colds.Rooted) : p.Keeps p where
  alike := .refl p
  types := .refl _
  insts := .refl _
  nodes := Nat.le_refl _
  slots _ _ := id
  forms _ _ := rfl
  vars _ := id
  methods _ := id
  functions _ := id
  lambdas _ _ := id
  colds := Nat.le_refl _
  finds c := (h.find_find c).symm

section

variable (h : p.Keeps q)
include h

theorem Keeps.known (hi : p.Known i) : q.Known i := by
  obtain ⟨t, ht⟩ := hi
  exact ⟨t, h.slots i t ht⟩

theorem Keeps.trans (h' : q.Keeps r) : p.Keeps r where
  alike := h.alike.trans h'.alike
  types := h.types.trans h'.types
  insts := h.insts.trans h'.insts
  nodes := Nat.le_trans h.nodes h'.nodes
  slots i t ht := h'.slots i t (h.slots i t ht)
  forms i hi := (h'.forms i (h.known hi)).trans (h.forms i hi)
  vars v hv := h'.vars v (h.vars v hv)
  methods m hm := h'.methods m (h.methods m hm)
  functions f hf := h'.functions f (h.functions f hf)
  lambdas l c hc := h'.lambdas l c (h.lambdas l c hc)
  colds := Nat.le_trans h.colds h'.colds
  finds c := by rw [h'.finds c, h.finds c, ← h'.finds]

theorem Keeps.valid (hi : p.nodes.Valid i) : q.nodes.Valid i :=
  Nat.lt_of_lt_of_le hi h.nodes

theorem Keeps.under : p.Under q := ⟨h.alike, h.insts⟩

theorem Keeps.lambdaKnown {l : LambdaId} (hl : p.LambdaKnown l) : q.LambdaKnown l := by
  refine ⟨fun v hv => h.vars v (hl.1 v ?_), ?_⟩
  · rwa [h.alike.lambdaParams] at hv
  · rw [h.alike.lambdaBody]
    exact h.known hl.2

theorem Keeps.spelled {params : List VarId} {result : Option NodeId}
    (hs : p.Spelled params result) : q.Spelled params result :=
  ⟨fun v hv => h.vars v (hs.params v hv), fun r hr => h.known (hs.result r hr)⟩

theorem Keeps.closed (hc : p.Closed form) : q.Closed form where
  children c hm := h.known (hc.children c hm)
  init v body hf d hd := h.known (hc.init v body hf d (by rwa [h.alike.init] at hd))
  annotated l hf ha := h.lambdaKnown (hc.annotated l hf (by rwa [h.alike.isAnnotated] at ha))
  waiting l hf ha := by
    obtain ⟨c, hl⟩ := hc.waiting l hf (by rwa [h.alike.isAnnotated] at ha)
    exact ⟨c, h.lambdas l c hl⟩

theorem Keeps.brings {x : Option NodeId} (hx : p.Brings x t) : q.Brings x t := by
  cases x with
  | none => exact hx
  | some r => exact h.slots r t hx

theorem Keeps.allows {u : TypeId} (hi : p.Known i) (ha : p.Allows i u t) : q.Allows i u t := by
  refine ha.imp_right (Or.imp_right (Or.imp (And.imp_right ?_) ?_))
  · rw [h.forms i hi]
    exact id
  · rintro ⟨want, given, x, y, hu, ht, hkinds, hsub⟩
    exact ⟨want, given, x, y, get_of_grows h.types hu nofun, get_of_grows h.types ht nofun, hkinds,
      hsub.mono h.under⟩

theorem Keeps.ends (hi : p.Known i) (he : p.Ends i t form) : q.Ends i t form := by
  cases form with
  | block body =>
    obtain ⟨u, hu, ha⟩ := he
    exact ⟨u, h.brings hu, h.allows hi ha⟩
  | _ => trivial

end

theorem Unifies.mono {b : TypeId} (hu : p.Unifies a b t) (h : p.Under q)
    (ht : p.types.Grows q.types) : q.Unifies a b t :=
  fun e c loc s hs hts => hu e c loc s (h.trans hs) (ht.trans hts)

theorem isCold_of_grows (h : T.Grows U) (ht : T.Valid t) :
    TypeTable.isCold U t = TypeTable.isCold T t := by
  rw [TypeTable.isCold, h.get_eq ht, TypeTable.isCold]

theorem valid_of_unwrap {inner : TypeId} (h : p.Tables) (ha : p.types.Valid a)
    (hu : p.types.unwrap a = (some inner, p.types)) : p.types.Valid inner := by
  have hy := unwrap_yields h.types ha (congrArg Prod.fst hu)
  rw [hu] at hy
  exact hy.valid

theorem yields_of_grows {op : BinaryOp} {l r : TypeId} (h : T.Grows U) (hl : T.Valid l)
    (hr : T.Valid r) (hop : op.Yields T l r t) : op.Yields U l r t := by
  cases op with
  | eq =>
    obtain ⟨he | ⟨k, k', i, hk, hk'⟩, ht⟩ := hop
    · exact ⟨.inl he, ht⟩
    · exact ⟨.inr ⟨k, k', i, (h.get_eq hl).trans hk, (h.get_eq hr).trans hk'⟩, ht⟩
  | _ => exact hop

section

variable (h : p.Keeps q) (hp : p.Coherent)
include h hp

theorem Keeps.rule (ht : p.types.Valid t) (hr : p.Rule t form) : q.Rule t form := by
  cases form with
  | binary op lhs rhs =>
    obtain ⟨l, r, hl, hr, hop⟩ := hr
    exact ⟨l, r, h.slots _ _ hl, h.slots _ _ hr,
      yields_of_grows h.types (hp.nodeTypes _ _ hl) (hp.nodeTypes _ _ hr) hop⟩
  | unary op operand =>
    obtain ⟨x, hx, hop⟩ := hr
    exact ⟨x, h.slots _ _ hx, hop⟩
  | guard cond yes binding =>
    obtain ⟨a, inner, b, ha, hinner, hb, hif⟩ := hr
    refine ⟨a, inner, b, h.slots _ _ ha, unwrap_of_grows (hp.nodeTypes _ _ ha) hinner h.types,
      h.slots _ _ hb, ?_⟩
    split at hif
    · rwa [if_pos ‹_›]
    · rw [if_neg ‹_›]
      exact optional_of_grows (hp.nodeTypes _ _ hb) hif h.types
  | orElse lhs rhs =>
    obtain ⟨a, inner, b, ha, hinner, hb, hu⟩ := hr
    refine ⟨a, inner, b, h.slots _ _ ha, unwrap_of_grows (hp.nodeTypes _ _ ha) hinner h.types,
      h.slots _ _ hb, fun hci hcb => ?_⟩
    rw [isCold_of_grows h.types (valid_of_unwrap hp.tables (hp.nodeTypes _ _ ha) hinner)] at hci
    rw [isCold_of_grows h.types (hp.nodeTypes _ _ hb)] at hcb
    exact (hu hci hcb).mono h.under h.types
  | just x | noneOf x =>
    obtain ⟨a, ha, ho⟩ := hr
    exact ⟨a, h.slots _ _ ha, optional_of_grows (hp.nodeTypes _ _ ha) ho h.types⟩
  | array items =>
    obtain ⟨e, he, htemp, hne, hitems⟩ := hr
    have hv : p.types.Valid e := holds_array.1 (he ▸ hp.tables.holds ht)
    refine ⟨e, (h.types.get_eq ht).trans he, ?_, hne, fun x hx => h.slots _ _ (hitems x hx)⟩
    rwa [isTemporary_of_grows hp.tables.types h.types hv]
  | _ => trivial

theorem Keeps.done (hi : p.Done i) : q.Done i := by
  obtain ⟨t, ht, hc, hr, he⟩ := hi
  refine ⟨t, h.slots i t ht, ?_, ?_, ?_⟩ <;> rw [h.forms i ⟨t, ht⟩]
  · exact h.closed hc
  · exact h.rule hp (hp.nodeTypes i t ht) hr
  · exact h.ends ⟨t, ht⟩ he

theorem Keeps.varTyped {v : VarId} (hv : p.VarTyped v t)
    (hg : ∀ i c y b, q.form i = .guard c y b → p.form i = .guard c y b) : q.VarTyped v t := by
  unfold VarTyped at hv ⊢
  rw [h.alike.role, h.alike.init]
  split
  · rename_i d hrole hinit
    rw [hrole, hinit] at hv
    obtain ⟨u, hu, hpin⟩ := hv
    exact ⟨u, h.slots d u hu, pinned_of_grows hp.tables.types (hp.nodeTypes d u hu) hpin h.types⟩
  · rename_i d hrole hinit
    rw [hrole, hinit] at hv
    exact h.slots d t hv
  · rename_i d hrole hinit
    rw [hrole, hinit] at hv
    exact h.slots d t hv
  · rename_i hrole
    rw [hrole] at hv
    intro i c y hi
    obtain ⟨u, hu, hw⟩ := hv i c y (hg i c y v hi)
    exact ⟨u, h.slots c u hu, unwrap_of_grows (hp.nodeTypes c u hu) hw h.types⟩
  · trivial

end

end Program

end ClassLang
