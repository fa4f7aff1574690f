import ClassLang.Proofs.Typing.Flat
import ClassLang.Proofs.Grammar.Places
import ClassLang.Proofs.Typing.Steps
import ClassLang.Proofs.Typing.Upcasts

namespace ClassLang

open List TypeTable

def Form.given : Form → List NodeId
  | .setField _ _ _ value | .setAt _ _ value => [value]
  | .call _ args | .callMethod _ _ args _ | .callFunction _ args => args
  | _ => []

def Form.Rebound : Form → Form → Prop
  | .getField none n field, form => form = .getField none n field
  | .setField none n field _, form => ∃ value, form = .setField none n field value
  | .delegate none m, form => form = .delegate none m
  | .callMethod none m _ _, form => ∃ args dispatch, form = .callMethod none m args dispatch
  | _, _ => True

def Typing.isReform : Form → Bool
  | .setVar _ _ | .getField _ _ _ | .setField _ _ _ _ | .setAt _ _ _ | .call _ _ | .callMethod _ _ _
      _ | .callFunction _ _
  | .delegate _ _ | .cast _ _ _ => true
  | _ => false

namespace Program

variable {p0 p q : Program} {G : Atlas} {a : List ParamId} {o : Option ClassId} {i : NodeId}
  {t u : TypeId} {x : InstId} {base : Option NodeId} {c d : ClassId}

theorem Alike.members (h : p.Alike q) (c : ClassId) :
    (q.classes.get c).members = (p.classes.get c).members :=
  (congrArg ClassDef.members (h.cls c) :)

theorem Alike.formals (h : p.Alike q) (o : Option ClassId) : q.formals o = p.formals o := by
  cases o with
  | none => rfl
  | some c => exact h.classParams c

theorem Alike.lambdaOwner (h : p.Alike q) (l : LambdaId) :
    (q.lambdas.get l).owner = (p.lambdas.get l).owner :=
  (congrArg Lambda.owner (h.lambda l) :)

theorem classOf?_of_grows (halike : p.Alike q) (hinsts : p.insts.Grows q.insts)
    (hx : p.insts.Valid x) : q.classOf? x = p.classOf? x := by
  rw [classOf?, hinsts.get_eq hx, halike.params, classOf?]

def Receives (p : Program) (o : Option ClassId) (base : Option NodeId) (d : ClassId) : Prop :=
  match base with
  | none => o = some d
  | some b =>
    ∃ t kind x, p.slot b = .fixed t ∧ p.types.ref? t = some (kind, x) ∧ p.classOf? x = some d

def Accesses (p0 p : Program) (o : Option ClassId) (i : NodeId) (f : VarId) : Prop :=
  ∃ base name d path, ((∃ x, p0.form i = .getField base name x) ∨
    ∃ x v, p0.form i = .setField base name x v) ∧ p.Receives o base d ∧
    (p0.classes.get d).members.lookup name = .one ⟨.field f, path⟩

def Sealed (p0 : Program) (G : Atlas) (p : Program) : Prop :=
  ∀ g i f d t, G g i → p0.Accesses p g.owner i f → (p0.vars.get f).init = some d →
    p.slot d = .fixed t → Plain p.types t ∨ p0.formals (p0.vars.get f).owner? = p0.formals g.owner

def Passed (p0 p : Program) (x y : NodeId) : Prop :=
  y = x ∨ ¬ p0.nodes.Valid y ∧ p.Known y ∧ p.form y = .toWeak x

/-- What a node can be left with: its parts, or those that are left when it takes the place of a
member access. -/
inductive Carries (p : Program) (i : NodeId) : List NodeId → Prop
  | all : Carries p i (p.form i).children
  | member {callee : NodeId} {base : Option NodeId} {name : NameId} {args : List NodeId} :
      p.form i = .call callee args →
      p.form callee = .getField base name none → Carries p i (base.toList ++ args)

def Regrown (p0 p : Program) (i : NodeId) (form : Form) : Prop :=
  ∃ xs, p0.Carries i xs ∧ Forall₂ (p0.Passed p) xs form.children

inductive Reformed (p0 p : Program) (i : NodeId) : Prop
  | same : p.form i = p0.form i → Reformed p0 p i
  | other : Typing.isReform (p0.form i) → Typing.isReform (p.form i) →
      (∀ base name, p.form i ≠ .getField base name none) →
      p0.Regrown p i (p.form i) → Reformed p0 p i

/-- The parts of a form with the variables that the block around them introduced so far, the last
one first, where `vs` are those at the form itself. -/
def openings (p : Program) (vs : List VarId) : Form → List (List VarId × NodeId)
  | .block body | .loop body => body.map ([], ·)
  | .letIn v body => (p.vars.get v).init.toList.map (vs, ·) ++ body.map (v :: vs, ·)
  | .lambda l => (p.paramTypes (p.lambdas.get l).params ++ [(p.lambdas.get l).body]).map ([], ·)
  | form => form.children.map (vs, ·)

inductive Opens (p : Program) : List VarId → NodeId → Prop
  | start {r : Root} {i : NodeId} : i ∈ p.rootParts r → Opens p [] i
  | inside {vs ws : List VarId} {i x : NodeId} : Opens p vs i →
      (ws, x) ∈ p.openings vs (p.form i) → Opens p ws x

structure Awaits (p0 : Program) (G : Atlas) (p : Program) (e : Setting) (l : LambdaId) : Prop where
  owner : (p0.lambdas.get l).owner = e.owner
  valid : ∀ d, e.owner = some d → p0.classes.Valid d
  declared : ∀ d ∈ p0.paramTypes (p0.lambdas.get l).params, (p0.form d).isType
  types : ∀ v ∈ (p0.lambdas.get l).params, ∀ d ∈ (p0.vars.get v).init,
    p0.Scoped (G ⟨e.owner, false⟩) (e.seeing (p0.lambdas.get l).params).closed d
  body : p0.Scoped (G ⟨e.owner, false⟩) (e.seeing (p0.lambdas.get l).params).closed
    (p0.lambdas.get l).body
  opens : p0.Opens [] (p0.lambdas.get l).body
  seen : ∀ v ∈ e.vars, p.VarKnown v ∧ ∃ b, p0.Home G ⟨e.owner, b⟩ v

structure ScopedAt (p : Program) (G : Atlas) (vs : List VarId) (z : Setting) (i : NodeId) :
    Prop where
  named : p.Scoped (G ⟨z.owner, false⟩) z i
  opens : p.Opens vs i

theorem ScopedAt.mem {vs : List VarId} {z : Setting} (h : p.ScopedAt G vs z i) :
    G ⟨z.owner, false⟩ i := h.named.mem

def IsEntry (p : Program) (f : FunctionId) : Prop := ∃ m, (p.modules.get m).entry = some f

/-- What is to be known of placeholders in the region `g`. There are none where types are declared.
-/
def SealedIn (p0 : Program) (G : Atlas) (p : Program) (g : Region) : Prop :=
  g.declared = false → p0.Sealed G p

/-- A type mentions only what can be mentioned in the region `g`, if no placeholder gets there from
elsewhere. -/
def Says (p0 : Program) (G : Atlas) (p : Program) (g : Region) (t : TypeId) : Prop :=
  p0.SealedIn G p g → p.Speaks (p0.formals g.owner) g.declared t

structure Tame (p0 : Program) (G : Atlas) (p : Program) : Prop where
  nodes : ∀ g i t, G g i → p.slot i = .fixed t → p0.Says G p g t
  vars : ∀ g v t, p0.Home G g v → (p.vars.get v).slot = .fixed t → p0.Says G p g t
  methods : ∀ c m t, m ∈ (p0.classes.get c).allMethods → (p.methods.get m).slot = .fixed t →
    p0.Says G p ⟨some c, true⟩ t
  functions : ∀ f t, ¬ p0.IsEntry f → (p.functions.get f).slot = .fixed t →
    p0.Says G p ⟨none, true⟩ t
  sites : p0.Sealed G p → ∀ r, ∀ l ∈ (p.colds.get r).sites, ∀ l' ∈ (p.colds.get r).sites,
    p0.formals (p0.lambdas.get l).owner = p0.formals (p0.lambdas.get l').owner
  signatures : ∀ r t, (p.colds.get r).signature = some t → ∀ l ∈ (p.colds.get r).sites,
    p0.Says G p ⟨(p0.lambdas.get l).owner, false⟩ t
  weak : ∀ g x y t, ¬ p0.nodes.Valid x → p.form x = .toWeak y → G g y → p.slot x = .fixed t →
    p0.Says G p g t

inductive AsType (p : Program) : NodeId → Prop
  | param {v : VarId} {i : NodeId} : (p.vars.get v).role = .param →
      (p.vars.get v).init = some i → AsType p i
  | methodResult {m : MethodId} {i : NodeId} : (p.methods.get m).result = some i → AsType p i
  | functionResult {f : FunctionId} {i : NodeId} : (p.functions.get f).result = some i → AsType p i
  | noneOf {i j : NodeId} : p.form j = .noneOf i → AsType p i
  | target {i j operand : NodeId} {checked : Bool} : p.form j = .cast operand i checked → AsType p i
  | arg {i j : NodeId} {name : NameId} {target : Option Target} {args : List NodeId}
      {inst : Option InstId} :
      p.form j = .classRef name target args inst → i ∈ args → AsType p i
  | part {i j : NodeId} : AsType p j → i ∈ (p.form j).children → AsType p i

def InBounds (p : Program) (c : ClassId) (x : InstId) : Prop :=
  p.insts.Valid x ∧ ∀ y ∈ (p.classes.get c).params.zip (p.insts.get x).args,
    ∀ bound, (p.params.get y.1).bound = some bound → ∃ z, p.Again (upcast y.2 bound) (some z)

def Receiver (p : Program) (o : Option ClassId) (base : Option NodeId) (x : InstId) : Prop :=
  match base with
  | none => ∃ c, o = some c ∧ p.IsThis c x
  | some b => ∃ t kind, p.slot b = .fixed t ∧ p.types.ref? t = some (kind, x)

def Seen (p : Program) (o : Option ClassId) (base : Option NodeId) (name : NameId) (m : Member)
    (declared t : TypeId) : Prop :=
  ∃ x d path, p.Receiver o base x ∧ p.classOf? x = some d ∧ (p.classes.get d).members.lookup name =
    .one ⟨m, path⟩ ∧ (∀ j ∈ path, p.insts.Valid j) ∧ p.types.Valid t ∧
    p.StrippedAlong (path.reverse ++ [x]) declared t

/-- If `t` is a reference, `u` is one to the same class or to one that derives from it. An owner can
be pinned. -/
def Suits (p : Program) (u t : TypeId) : Prop :=
  ∀ kind x, p.types.get t = .ref kind x → ∃ kind' x', p.types.get u = .ref kind' x' ∧
    (kind' = kind ∨ kind = .pin ∧ kind' = .own) ∧ p.Again (isSubinst x' x) true

/-- A value of type `u` can be in a place for references of type `t`, or for such references under
some levels of absence. -/
structure Fills (p : Program) (u t : TypeId) : Prop where
  valid : p.types.Valid t
  ref : u ≠ TypeId.noReturn → p.Suits u t
  optional : u ≠ TypeId.noReturn → ∀ w depth kind x, p.types.get t = .optional w depth →
    p.types.get w = .ref kind x → ∃ v, p.types.get u = .optional v depth ∧
    (v = TypeId.noReturn ∨ p.Suits v w)

def Takes (p : Program) (t : TypeId) (x : NodeId) : Prop := ∃ u, p.slot x = .fixed u ∧ p.Fills u t

theorem Takes.known {x : NodeId} (h : p.Takes t x) : p.Known x := by
  obtain ⟨u, hu, _⟩ := h
  exact ⟨u, hu⟩

def Stored (p : Program) (o : Option ClassId) : Form → Prop
  | .setAt array _ value =>
    ∃ a element, p.slot array = .fixed a ∧ p.types.get a = .array element ∧ p.Takes element value
  | .setField base name field value =>
    ∃ f c declared t, field = some f ∧ (p.vars.get f).role = .field c ∧
      (p.vars.get f).slot = .fixed declared ∧ p.Seen o base name (.field f) declared t ∧
      p.Takes t value
  | .callFunction f args => ∃ t params result, (p.functions.get f).slot = .fixed t ∧
      p.types.signature? t = some (params, result) ∧ Forall₂ p.Takes params args
  | .callMethod base m args _ =>
    ∃ declared t params result, (p.methods.get m).slot = .fixed declared ∧
      p.Seen o base (p.methods.get m).name (.method m) declared t ∧
      p.types.signature? t = some (params, result) ∧ Forall₂ p.Takes params args
  | _ => True

def Covered (p0 p : Program) (i : NodeId) : Prop := ∀ x ∈ (p0.form i).children,
  p.Known x ∨ ∃ base name, p0.form x = .getField base name none ∧ ∀ b ∈ base, p.Known b

def Leaves (p : Program) (target : NodeId) (result : Option NodeId) : Prop :=
  ∃ t u, p.Brings result t ∧ p.slot target = .fixed u ∧ p.Allows target u t

def Left (p0 p : Program) (i : NodeId) (u : TypeId) : Prop :=
  ∃ j result, p0.form j = .leave i result ∧ p.slot j ≠ .empty ∧ p.Brings result u

structure Worked (p0 p : Program) (o : Option ClassId) (i : NodeId) : Prop where
  left : ∀ target result, p0.form i = .leave target result → p.Leaves target result
  covered : Typing.isReform (p0.form i) → p0.Covered p i
  bounded : ¬ p0.AsType i → ∀ name c args x, p0.form i = .classRef name (some (.cls c)) args
    (some x) → p.InBounds c x
  stored : p.Stored o (p.form i)
  given : Forall₂ (p0.Passed p) (p0.form i).given (p.form i).given
  rebound : (p0.form i).Rebound (p.form i)

def Holding (p0 p : Program) (w : VarId) (t : TypeId) : Prop :=
  p.VarKnown w ∧ (p0.vars.get w).role = .localVar ∧ ∃ d, (p0.vars.get w).init = some d ∧
    p.slot d = .fixed t

/-- What a node that introduces `v` gives: a variable of the block around it that it ends in
reading, or else what its last statement brings. -/
def HandsBack (p0 p : Program) (i : NodeId) (v : VarId) (body : List NodeId) (t : TypeId) : Prop :=
  ∃ vs, p0.Opens vs i ∧ (∀ w ∈ v :: vs, body.getLast?.map p0.form = some (.getVar w) →
    p0.Holding p w t) ∧ ((∀ w ∈ v :: vs, body.getLast?.map p0.form ≠ some (.getVar w)) →
    p.Brings body.getLast? t)

structure Verdict (p0 p : Program) (i : NodeId) (t : TypeId) (form : Form) : Prop where
  declarable : form.isType → Declarable p.types t
  hands : ∀ v body, form = .letIn v body → p0.HandsBack p i v body t
  lends : ∀ v, form = .getVar v → ∀ x, p.types.get t ≠ .ref .own x

structure Finished (p0 p : Program) (o : Option ClassId) (i : NodeId) :
    Prop extends p0.Worked p o i where
  verdict : ∀ t, p.slot i = .fixed t → p0.Verdict p i t (p0.form i)
  looped : ∀ body, p0.form i = .loop body → ∀ u, p.slot i = .fixed u → u = TypeId.noReturn ∨
    p0.Left p i u

structure Lasting (p0 p : Program) : Prop where
  neat : p.Neat
  fields : ∀ v c t, (p0.vars.get v).role = .field c → (p.vars.get v).slot = .fixed t →
    TypeTable.isTemporary p.types t = false

structure Sound (p0 : Program) (G : Atlas) (p : Program) : Prop where
  neat : p.Neat
  nodes : ∀ i, p0.nodes.Valid i → p.nodes.Valid i
  grows : p0.insts.Grows p.insts
  fresh : ∀ i, p0.nodes.Valid i → p.slot i = .empty → p.form i = p0.form i
  forms : ∀ g i, G g i → p0.Reformed p i
  finished : ∀ g i, G g i → p.Known i → p0.Finished p g.owner i
  fields : ∀ v c t, (p0.vars.get v).role = .field c → (p.vars.get v).slot = .fixed t →
    TypeTable.isTemporary p.types t = false
  quiet : ∀ i, p0.nodes.Valid i → (∀ g, ¬ G g i) → p.slot i = .empty
  placed : ∀ l c, (p.lambdas.get l).cold = some c → ∃ e, p0.Awaits G p e l
  methods : ∀ m t, (p.methods.get m).slot = .fixed t →
    ∃ params result, p.types.get t = .function params result
  functions : ∀ f t, (p.functions.get f).slot = .fixed t →
    ∃ params result, p.types.get t = .function params result
  spots : ∀ i, p.nodes.Valid i → p0.Spot (p.loc i)
  wraps : ∀ i, p.nodes.Valid i → p0.nodes.Valid i ∨ ∃ x, p0.nodes.Valid x ∧ p.form i = .toWeak x
  methodBodies : ∀ m, Option.Rel (p0.Passed p) (p0.methods.get m).body (p.methods.get m).body
  functionBodies : ∀ f, Option.Rel (p0.Passed p) (p0.functions.get f).body (p.functions.get f).body
  tame : p0.Tame G p

theorem Sound.tidy (h : p0.Sound G p) : p.Tidy := h.neat.toTidy

theorem Sound.lasting (h : p0.Sound G p) : p0.Lasting p := ⟨h.neat, h.fields⟩

section Keeping

variable {form : Form} (hk : p.Keeps q)
include hk

theorem Waiting.keeps {c : ColdId} (h : p.Waiting a c) : q.Waiting a c := by
  obtain ⟨l, hc, ha⟩ := h
  refine ⟨l, hk.lambdas l c hc, ?_⟩
  rw [hk.alike.lambdaOwner, hk.alike.formals]
  exact ha

theorem Speaks.keeps {b : Bool} (h : p.Speaks a b t) : q.Speaks a b t :=
  Over.mono h hk.types (fun _ hi => hi.grows hk.insts) fun _ hc => ⟨hc.1, hc.2.keeps hk⟩

theorem Passed.keeps {x y : NodeId} (h : p0.Passed p x y) : p0.Passed q x y :=
  h.imp_right fun ⟨hy, hknown, hform⟩ => ⟨hy, hk.known hknown, (hk.forms y hknown).trans hform⟩

theorem passed_keeps {b b' : Option NodeId} (h : Option.Rel (p0.Passed p) b b') :
    Option.Rel (p0.Passed q) b b' := by
  cases h with
  | some h => exact .some (h.keeps hk)
  | none => exact .none

theorem Regrown.keeps (h : p0.Regrown p i form) : p0.Regrown q i form := by
  obtain ⟨xs, hxs, hpassed⟩ := h
  exact ⟨xs, hxs, hpassed.imp fun _ _ h => h.keeps hk⟩

theorem Covered.keeps (h : p0.Covered p i) : p0.Covered q i := fun x hx =>
  (h x hx).imp hk.known fun ⟨base, name, hform, hbase⟩ =>
    ⟨base, name, hform, fun b hb => hk.known (hbase b hb)⟩

theorem InBounds.keeps (h : p.InBounds c x) : q.InBounds c x := by
  obtain ⟨hx, hbounds⟩ := h
  refine ⟨hk.insts.valid hx, ?_⟩
  rw [hk.alike.classParams, hk.insts.get_eq hx, hk.alike.params]
  intro y hy bound hbound
  obtain ⟨z, hz⟩ := hbounds y hy bound hbound
  exact ⟨z, hz.mono hk.under⟩

theorem Suits.keeps (h : p.Suits u t) (hu : p.types.Valid u) (ht : p.types.Valid t) :
    q.Suits u t := by
  intro kind x hget
  rw [hk.types.get_eq ht] at hget
  obtain ⟨kind', x', hgetu, hkind, hsub⟩ := h kind x hget
  exact ⟨kind', x', (hk.types.get_eq hu).trans hgetu, hkind, hsub.mono hk.under⟩

theorem Reformed.keeps (h : p0.Reformed p i) (hform : q.form i = p.form i) : p0.Reformed q i := by
  cases h with
  | same h => exact .same (hform.trans h)
  | other h0 h hname hgrown =>
    refine .other h0 ?_ ?_ ?_ <;> rw [hform]
    · exact h
    · exact hname
    · exact hgrown.keeps hk

theorem Awaits.keeps {e : Setting} {l : LambdaId} (h : p0.Awaits G p e l) : p0.Awaits G q e l :=
  { h with seen := fun v hv => ⟨hk.vars v (h.seen v hv).1, (h.seen v hv).2⟩ }

variable (hp : p.Coherent)
include hp

theorem Receives.keeps (h : p.Receives o base d) : q.Receives o base d := by
  cases base with
  | none => exact h
  | some b =>
    obtain ⟨t, kind, x, hslot, href, hclass⟩ := h
    have ht := hp.nodeTypes b t hslot
    have hx : p.insts.Valid x := holds_ref.1 (ref?_eq_some.1 href ▸ hp.tables.holds ht)
    exact ⟨t, kind, x, hk.slots b t hslot, (TypeTable.Grows.ref? hk.types ht).trans href,
      (classOf?_of_grows hk.alike hk.insts hx).trans hclass⟩

omit hk in
theorem Receiver.valid (h : p.Receiver o base x) : p.insts.Valid x := by
  cases base with
  | none =>
    obtain ⟨c, _, hx, _⟩ := h
    exact hx
  | some b =>
    obtain ⟨t, kind, hslot, href⟩ := h
    exact holds_ref.1 (ref?_eq_some.1 href ▸ hp.tables.holds (hp.nodeTypes b t hslot))

theorem Receiver.keeps (h : p.Receiver o base x) : q.Receiver o base x := by
  cases base with
  | none =>
    obtain ⟨c, ho, hx⟩ := h
    exact ⟨c, ho, hx.grows hk.insts (hk.alike.classParams c)⟩
  | some b =>
    obtain ⟨t, kind, hslot, href⟩ := h
    exact ⟨t, kind, hk.slots b t hslot,
      (TypeTable.Grows.ref? hk.types (hp.nodeTypes b t hslot)).trans href⟩

theorem Seen.keeps {name : NameId} {m : Member} {declared : TypeId}
    (h : p.Seen o base name m declared t) : q.Seen o base name m declared t := by
  obtain ⟨x, d, path, hreceiver, hclass, hlookup, hpath, ht, hstripped⟩ := h
  have hx := hreceiver.valid hp
  refine ⟨x, d, path, hreceiver.keeps hk hp, (classOf?_of_grows hk.alike hk.insts hx).trans hclass,
    ?_, fun j hj => hk.insts.valid (hpath j hj), hk.types.valid ht, ?_⟩
  · rw [hk.alike.members]
    exact hlookup
  · refine hstripped.grows hk.insts hk.alike.params (fun j hj => ?_) hk.types
    rcases mem_append.1 hj with hj | hj
    · exact hpath j (mem_reverse.1 hj)
    · exact mem_singleton.1 hj ▸ hx

theorem Fills.keeps (h : p.Fills u t) (hu : p.types.Valid u) : q.Fills u t := by
  have hT := hp.tables.types
  refine ⟨hk.types.valid h.valid, fun hne => (h.ref hne).keeps hk hu h.valid,
    fun hne w depth kind x hget hw => ?_⟩
  rw [hk.types.get_eq h.valid] at hget
  have hvalid : p.types.Valid w := hT.valid_part h.valid (by simp [hget, Ty.parts])
  rw [hk.types.get_eq hvalid] at hw
  obtain ⟨v, hgetu, hv⟩ := h.optional hne w depth kind x hget hw
  refine ⟨v, (hk.types.get_eq hu).trans hgetu, hv.imp_right fun hv => hv.keeps hk ?_ hvalid⟩
  exact hT.valid_part hu (by simp [hgetu, Ty.parts])

theorem Takes.keeps {x : NodeId} (h : p.Takes t x) : q.Takes t x := by
  obtain ⟨u, hslot, hfills⟩ := h
  exact ⟨u, hk.slots x u hslot, hfills.keeps hk hp (hp.nodeTypes x u hslot)⟩

theorem Stored.keeps (h : p.Stored o form) (hl : p.Lasts q) : q.Stored o form := by
  have hargs {params : List TypeId} {args : List NodeId} (hargs : Forall₂ p.Takes params args) :
      Forall₂ q.Takes params args := hargs.imp fun _ _ h => h.keeps hk hp
  have hsignature {t : TypeId} {sig : List TypeId × TypeId} (ht : p.types.Valid t)
      (hsig : p.types.signature? t = some sig) : q.types.signature? t = some sig := by
    rw [← hsig, TypeTable.signature?, hk.types.get_eq ht, TypeTable.signature?]
  cases form with
  | setAt array index value =>
    obtain ⟨a, element, hslot, hget, hvalue⟩ := h
    exact ⟨a, element, hk.slots array a hslot,
      (hk.types.get_eq (hp.nodeTypes array a hslot)).trans hget, hvalue.keeps hk hp⟩
  | setField base name field value =>
    obtain ⟨f, c, declared, t, hf, hrole, hslot, hseen, hvalue⟩ := h
    exact ⟨f, c, declared, t, hf, (hk.alike.role f).trans hrole, hl.fields f c declared hrole hslot,
      hseen.keeps hk hp, hvalue.keeps hk hp⟩
  | callFunction f args =>
    obtain ⟨t, params, result, hslot, hsig, hvalues⟩ := h
    exact ⟨t, params, result, hl.functions f t hslot, hsignature (hp.functionTypes f t hslot) hsig,
      hargs hvalues⟩
  | callMethod base m args dispatch =>
    obtain ⟨declared, t, params, result, hslot, hseen, hsig, hvalues⟩ := h
    have hname : (q.methods.get m).name = (p.methods.get m).name :=
      (congrArg Method.name (hk.alike.method m) :)
    have ht : p.types.Valid t := by
      obtain ⟨_, _, _, _, _, _, _, ht, _⟩ := hseen
      exact ht
    refine ⟨declared, t, params, result, hl.methods m declared hslot, ?_, hsignature ht hsig,
      hargs hvalues⟩
    rw [hname]
    exact hseen.keeps hk hp
  | _ => trivial

theorem Worked.keeps (h : p0.Worked p o i) (hform : q.form i = p.form i) (hl : p.Lasts q) :
    p0.Worked q o i where
  left target result hform := by
    obtain ⟨t, u, ht, hu, hallows⟩ := h.left target result hform
    exact ⟨t, u, hk.brings ht, hk.slots target u hu, hk.allows ⟨u, hu⟩ hallows⟩
  covered hre := (h.covered hre).keeps hk
  bounded hvalue name c args x hform := (h.bounded hvalue name c args x hform).keeps hk
  stored := by
    rw [hform]
    exact h.stored.keeps hk hp hl
  given := by
    rw [hform]
    exact h.given.imp fun _ _ hpassed => hpassed.keeps hk
  rebound := hform ▸ h.rebound

theorem Verdict.keeps (h : p0.Verdict p i t form) (ht : p.types.Valid t) :
    p0.Verdict q i t form where
  declarable htype := (h.declarable htype).grows hp.tables.types hk.types
  hands v body hform := by
    obtain ⟨vs, hopens, hread, hlast⟩ := h.hands v body hform
    refine ⟨vs, hopens, fun w hw hget => ?_, fun hne => hk.brings (hlast hne)⟩
    obtain ⟨hknown, hrole, d, hd, hslot⟩ := hread w hw hget
    exact ⟨hk.vars w hknown, hrole, d, hd, hk.slots d t hslot⟩
  lends v hform x := by
    rw [hk.types.get_eq ht]
    exact h.lends v hform x

theorem Finished.keeps (h : p0.Finished p o i) (hi : p.Known i) (hl : p.Lasts q)
    (hempty : ∀ j, q.slot j = .empty → p.slot j = .empty) : p0.Finished q o i where
  toWorked := h.toWorked.keeps hk hp (hk.forms i hi) hl
  verdict t ht := by
    obtain ⟨u, hu⟩ := hi
    cases (hk.slots i u hu).symm.trans ht
    exact (h.verdict t hu).keeps hk hp (hp.nodeTypes i t hu)
  looped body hform t ht := by
    obtain ⟨u, hu⟩ := hi
    cases (hk.slots i u hu).symm.trans ht
    refine (h.looped body hform t hu).imp_right fun ⟨j, result, hj, hslot, hbrings⟩ =>
      ⟨j, result, hj, fun he => ?_, hk.brings hbrings⟩
    exact hslot (hempty j he)

/-- If no placeholder gets elsewhere later on, none has got there before. -/
theorem Sealed.back (h : p0.Sealed G q) : p0.Sealed G p := by
  intro g i f d t hi ⟨base, name, c, path, hform, hreceives, hlookup⟩ hd ht
  refine (h g i f d t hi ⟨base, name, c, path, hform, hreceives.keeps hk hp, hlookup⟩ hd
    (hk.slots d t ht)).imp_left fun hplain => ?_
  exact Over.restrict hplain hk.types hp.tables.types (hp.nodeTypes d t ht)

theorem SealedIn.back {g : Region} (h : p0.SealedIn G q g) : p0.SealedIn G p g :=
  fun hg => (h hg).back hk hp

theorem Says.keeps {g : Region} (h : p0.Says G p g t) : p0.Says G q g t :=
  fun hsealed => (h (hsealed.back hk hp)).keeps hk

end Keeping

theorem Receives.unique (h : p.Receives o base c) (h' : p.Receives o base d) : c = d := by
  cases base with
  | none => exact Option.some.inj (h.symm.trans h')
  | some b =>
    obtain ⟨t, kind, x, hslot, href, hclass⟩ := h
    obtain ⟨t', kind', x', hslot', href', hclass'⟩ := h'
    cases hslot.symm.trans hslot'
    cases href.symm.trans href'
    exact Option.some.inj (hclass.symm.trans hclass')

theorem Speaks.loosen {b : Bool} (h : p.Speaks a b t) : p.Speaks a false t :=
  Over.mono h (.refl _) (fun _ => id) fun _ hc => ⟨rfl, hc.2⟩

section Saying

variable {g : Region} {kind : RefKind}

theorem Says.loosen (h : p0.Says G p g t) : p0.Says G p ⟨g.owner, false⟩ t :=
  fun hsealed => (h fun _ => hsealed rfl).loosen

/-- What can be mentioned depends on the parameters alone. -/
theorem Says.along {o' : Option ClassId} (h : p0.Says G p ⟨o, false⟩ t)
    (ho : p0.Sealed G p → p0.formals o = p0.formals o') : p0.Says G p ⟨o', false⟩ t := by
  intro hsealed
  have hspeaks := h fun _ => hsealed rfl
  rwa [ho (hsealed rfl)] at hspeaks

/-- What is declared outside of classes can be mentioned anywhere. -/
theorem Says.global (h : p0.Says G p ⟨none, true⟩ t) : p0.Says G p ⟨o, false⟩ t :=
  fun _ => Over.mono (h nofun) (.refl _) (fun _ hx => hx.mono nofun) fun _ hx => nomatch hx.1

theorem Says.basic (hp : p.Coherent) (ht : TypeTable.basic.Valid t) : p0.Says G p g t :=
  fun _ => .basic hp.tables.types ht

theorem Says.part (h : p0.Says G p g t) (hu : u ∈ (p.types.get t).parts) : p0.Says G p g u :=
  fun hsealed => Over.part (h hsealed) hu

theorem Says.ref (h : p0.Says G p g t) (hx : p.types.ref? t = some (kind, x))
    (hsealed : p0.SealedIn G p g) : p.Within (p0.formals g.owner) x := Over.ref (h hsealed) hx

theorem Says.makeRef (ht : p.types.Valid t) (hget : p.types.get t = .ref kind x)
    (hx : p0.SealedIn G p g → p.Within (p0.formals g.owner) x) : p0.Says G p g t := by
  intro hsealed
  refine .node ht ?_ ?_ ?_ <;> rw [hget]
  · intro i hi
    cases hi
    exact hx hsealed
  · nofun
  · nofun

theorem Says.make {x : Ty} (ht : p.types.Valid t) (hget : p.types.get t = x)
    (hinst : x.inst? = none) (hcold : ∀ c, x ≠ .cold c) (hparts : ∀ u ∈ x.parts, p0.Says G p g u) :
    p0.Says G p g t := by
  intro hsealed
  refine .node ht ?_ ?_ ?_ <;> rw [hget]
  · rw [hinst]
    nofun
  · exact fun c hc => absurd hc (hcold c)
  · exact fun u hu => hparts u hu hsealed

theorem Says.optional (h : p0.Says G p g t) (hu : p.types.optional t = (u, p.types)) :
    p0.Says G p g u := by
  intro hsealed
  have hover := (h hsealed).optional
  rwa [hu] at hover

theorem Says.pinned (h : p0.Says G p g t) (hu : p.types.pinned t = (u, p.types)) :
    p0.Says G p g u := by
  intro hsealed
  have hover := (h hsealed).pinned
  rwa [hu] at hover

theorem Says.unwrap (h : p0.Says G p g t) (hu : p.types.unwrap t = (some u, p.types)) :
    p0.Says G p g u := by
  intro hsealed
  have hover := (h hsealed).unwrap (congrArg Prod.fst hu)
  rwa [hu] at hover

end Saying

structure Tame.New (p0 : Program) (G : Atlas) (p q : Program) : Prop where
  nodes : ∀ g i t, G g i → q.slot i = .fixed t → p.slot i = .fixed t ∨ p0.Says G q g t
  vars : ∀ g v t, p0.Home G g v → (q.vars.get v).slot = .fixed t → (p.vars.get v).slot = .fixed t ∨
    p0.Says G q g t
  methods : ∀ c m t, m ∈ (p0.classes.get c).allMethods → (q.methods.get m).slot = .fixed t →
    (p.methods.get m).slot = .fixed t ∨ p0.Says G q ⟨some c, true⟩ t
  functions : ∀ f t, ¬ p0.IsEntry f → (q.functions.get f).slot = .fixed t →
    (p.functions.get f).slot = .fixed t ∨ p0.Says G q ⟨none, true⟩ t
  sites : ∀ r, (q.colds.get r).sites = (p.colds.get r).sites ∨
    (p0.Sealed G q → ∀ l ∈ (q.colds.get r).sites, ∀ l' ∈ (q.colds.get r).sites,
      p0.formals (p0.lambdas.get l).owner = p0.formals (p0.lambdas.get l').owner)
  signatures : ∀ r t, (q.colds.get r).signature = some t → ∀ l ∈ (q.colds.get r).sites,
    (p.colds.get r).signature = some t ∧ l ∈ (p.colds.get r).sites ∨
    p0.Says G q ⟨(p0.lambdas.get l).owner, false⟩ t
  weak : ∀ g x y t, ¬ p0.nodes.Valid x → q.form x = .toWeak y → G g y → q.slot x = .fixed t →
    p.form x = .toWeak y ∧ p.slot x = .fixed t ∨ p0.Says G q g t

theorem Tame.New.refl (p0 : Program) (G : Atlas) (p : Program) : Tame.New p0 G p p :=
  ⟨fun _ _ _ _ => .inl, fun _ _ _ _ => .inl, fun _ _ _ _ => .inl, fun _ _ _ => .inl, fun _ =>
    .inl rfl, fun _ _ hr _ hl => .inl ⟨hr, hl⟩, fun _ _ _ _ _ hx _ ht => .inl ⟨hx, ht⟩⟩

structure Sound.New (p0 : Program) (G : Atlas) (p q : Program) : Prop where
  empty : ∀ i, q.slot i = .empty → p.slot i = .empty
  forms : ∀ i, p.nodes.Valid i → q.form i = p.form i
  nodes : ∀ i, q.nodes.Valid i → p.nodes.Valid i ∧ q.loc i = p.loc i ∨
    p0.Spot (q.loc i) ∧ ∃ x, p0.nodes.Valid x ∧ q.form i = .toWeak x
  lasts : p.Lasts q
  finished : ∀ g i, G g i → q.Known i → p.Known i ∨ p0.Finished q g.owner i
  fields : ∀ v c t, (p0.vars.get v).role = .field c → (q.vars.get v).slot = .fixed t →
    (p.vars.get v).slot = .fixed t ∨ TypeTable.isTemporary q.types t = false
  quiet : ∀ i, p0.nodes.Valid i → (∀ g, ¬ G g i) → q.slot i = p.slot i
  placed : ∀ l c, (q.lambdas.get l).cold = some c → (p.lambdas.get l).cold = some c ∨
    ∃ e, p0.Awaits G q e l
  methods : ∀ m t, (q.methods.get m).slot = .fixed t →
    (p.methods.get m).slot = .fixed t ∨ ∃ params result, q.types.get t = .function params result
  functions : ∀ f t, (q.functions.get f).slot = .fixed t →
    (p.functions.get f).slot = .fixed t ∨ ∃ params result, q.types.get t = .function params result
  methodBodies : ∀ m, (q.methods.get m).body = (p.methods.get m).body ∨
    Option.Rel (p0.Passed q) (p0.methods.get m).body (q.methods.get m).body
  functionBodies : ∀ f, (q.functions.get f).body = (p.functions.get f).body ∨
    Option.Rel (p0.Passed q) (p0.functions.get f).body (q.functions.get f).body
  tame : Tame.New p0 G p q

theorem Sound.New.refl (p0 : Program) (G : Atlas) (p : Program) : Sound.New p0 G p p :=
  ⟨fun _ => id, fun _ _ => rfl, fun _ hi => .inl ⟨hi, rfl⟩, .refl p, fun _ _ _ => .inl,
    fun _ _ _ _ => .inl, fun _ _ _ => rfl, fun _ _ => .inl, fun _ _ => .inl, fun _ _ => .inl,
    fun _ => .inl rfl, fun _ => .inl rfl, .refl p0 G p⟩

section Advancing

variable (hk : p.Keeps q) (hp : p.Coherent)
include hk hp

theorem Tame.advance (h : p0.Tame G p) (hnew : Tame.New p0 G p q) : p0.Tame G q where
  nodes g i t hi ht := (hnew.nodes g i t hi ht).elim
    (fun ht => (h.nodes g i t hi ht).keeps hk hp) id
  vars g v t hv ht := (hnew.vars g v t hv ht).elim (fun ht => (h.vars g v t hv ht).keeps hk hp) id
  methods c m t hm ht :=
    (hnew.methods c m t hm ht).elim (fun ht => (h.methods c m t hm ht).keeps hk hp) id
  functions f t hf ht :=
    (hnew.functions f t hf ht).elim (fun ht => (h.functions f t hf ht).keeps hk hp) id
  sites hsealed r := (hnew.sites r).elim
    (fun he => by rw [he]; exact h.sites (hsealed.back hk hp) r) fun hmeet => hmeet hsealed
  signatures r t ht l hl :=
    (hnew.signatures r t ht l hl).elim
    (fun hold => (h.signatures r t hold.1 l hold.2).keeps hk hp) id
  weak g x y t hx hform hy ht := (hnew.weak g x y t hx hform hy ht).elim
    (fun hold => (h.weak g x y t hx hold.1 hy hold.2).keeps hk hp) id

theorem Sound.advance (h : p0.Sound G p) (hneat : q.Neat) (hvalid : ∀ g i, G g i → p0.nodes.Valid i)
    (hnew : Sound.New p0 G p q) : p0.Sound G q where
  neat := hneat
  nodes i hi := hk.valid (h.nodes i hi)
  grows := h.grows.trans hk.insts
  fresh i hi he := (hnew.forms i (h.nodes i hi)).trans (h.fresh i hi (hnew.empty i he))
  forms g i hi := (h.forms g i hi).keeps hk (hnew.forms i (h.nodes i (hvalid g i hi)))
  finished g i hi hknown :=
    (hnew.finished g i hi hknown).elim
    (fun hknown => (h.finished g i hi hknown).keeps hk hp hknown hnew.lasts hnew.empty) id
  fields v c t hrole ht := by
    rcases hnew.fields v c t hrole ht with ht | hlast
    · rw [isTemporary_of_grows hp.tables.types hk.types (hp.varTypes v t ht)]
      exact h.fields v c t hrole ht
    · exact hlast
  quiet i hi hout := (hnew.quiet i hi hout).trans (h.quiet i hi hout)
  placed l c hc := (hnew.placed l c hc).elim
    (fun hc => (h.placed l c hc).imp fun _ he => he.keeps hk) id
  methods m t ht := by
    rcases hnew.methods m t ht with ht | hget
    · rw [hk.types.get_eq (hp.methodTypes m t ht)]
      exact h.methods m t ht
    · exact hget
  functions f t ht := by
    rcases hnew.functions f t ht with ht | hget
    · rw [hk.types.get_eq (hp.functionTypes f t ht)]
      exact h.functions f t ht
    · exact hget
  spots i hi := (hnew.nodes i hi).elim (fun ⟨hi, hloc⟩ => hloc ▸ h.spots i hi) And.left
  wraps i hi := by
    rcases hnew.nodes i hi with ⟨hi, _⟩ | ⟨_, hweak⟩
    · rw [hnew.forms i hi]
      exact h.wraps i hi
    · exact .inr hweak
  methodBodies m := (hnew.methodBodies m).elim
    (fun he => by rw [he]; exact passed_keeps hk (h.methodBodies m)) id
  functionBodies f := (hnew.functionBodies f).elim
    (fun he => by rw [he]; exact passed_keeps hk (h.functionBodies f)) id
  tame := h.tame.advance hk hp hnew.tame

end Advancing

end Program

end ClassLang
