import ClassLang.Proofs.Scope.Visit
import Mathlib.Data.List.Pairwise

namespace ClassLang

open Arena List

def Base.bare (b : Base) : Base := { b with inst := none }

def ClassDef.bare (c : ClassDef) : ClassDef := { c.unflattened with bases := c.bases.map Base.bare }

def ClassParam.bare (q : ClassParam) : ClassParam := { q with bound := none }

namespace Program

variable {p0 p q r : Program} {S : NodeId → Prop} {c : ClassId} {below : List ClassId}
  {classes : Arena .classDef ClassDef} {methods : Arena .method Method}
  {globals : List (NameId × Global)} {a : ParamId}

theorem bare_modify (bases : List Base) (k : Nat) (inst : InstId) :
    (bases.modify k fun b => { b with inst := some inst }).map Base.bare = bases.map Base.bare := by
  apply ext_getElem?
  intro n
  rw [getElem?_map, getElem?_map, getElem?_modify]
  cases bases[n]? with
  | none => rfl
  | some b =>
    by_cases hn : k = n
    · simp [hn, Base.bare]
    · simp [hn]

def bare (p : Program) : Program :=
  { p with
    classes := p.classes.map ClassDef.bare
    params := p.params.map ClassParam.bare
    methods := p.methods.map Method.bare
    nodes := {}
    insts := {}
    globals := [] }

structure Akin (p q : Program) : Prop where
  bare : q.bare = p.bare
  nodes : q.nodes.size = p.nodes.size

namespace Akin

@[refl] theorem refl (p : Program) : p.Akin p := ⟨rfl, rfl⟩

theorem trans (h : p.Akin q) (h' : q.Akin r) : p.Akin r :=
  ⟨h'.bare.trans h.bare, h'.nodes.trans h.nodes⟩

variable (h : p.Akin q)
include h

theorem vars : q.vars = p.vars := (congrArg Program.vars h.bare :)

theorem names : q.names = p.names := (congrArg Program.names h.bare :)

theorem lambdas : q.lambdas = p.lambdas := (congrArg Program.lambdas h.bare :)

theorem functions : q.functions = p.functions := (congrArg Program.functions h.bare :)

theorem modules : q.modules = p.modules := (congrArg Program.modules h.bare :)

theorem classIds : q.classes.ids = p.classes.ids := by
  rw [Arena.ids, size_of_map_eq (congrArg Program.classes h.bare), Arena.ids]

theorem cls (c : ClassId) : (q.classes.get c).bare = (p.classes.get c).bare :=
  get_of_map_eq rfl (congrArg Program.classes h.bare) c

theorem param (a : ParamId) : (q.params.get a).bare = (p.params.get a).bare :=
  get_of_map_eq rfl (congrArg Program.params h.bare) a

theorem method (m : MethodId) : (q.methods.get m).bare = (p.methods.get m).bare :=
  get_of_map_eq rfl (congrArg Program.methods h.bare) m

theorem methodParams (m : MethodId) : (q.methods.get m).params = (p.methods.get m).params :=
  (congrArg Method.params (h.method m) :)

theorem methodResult (m : MethodId) : (q.methods.get m).result = (p.methods.get m).result :=
  (congrArg Method.result (h.method m) :)

theorem methodBody (m : MethodId) : (q.methods.get m).body = (p.methods.get m).body :=
  (congrArg Method.body (h.method m) :)

theorem methodOwner (m : MethodId) : (q.methods.get m).owner = (p.methods.get m).owner :=
  (congrArg Method.owner (h.method m) :)

theorem methodBase (m : MethodId) : (q.methods.get m).base = (p.methods.get m).base :=
  (congrArg Method.base (h.method m) :)

theorem paramOwner (a : ParamId) : (q.params.get a).owner = (p.params.get a).owner :=
  (congrArg ClassParam.owner (h.param a) :)

theorem paramIndex (a : ParamId) : (q.params.get a).index = (p.params.get a).index :=
  (congrArg ClassParam.index (h.param a) :)

theorem classesValid : q.classes.Valid c ↔ p.classes.Valid c := by
  rw [Valid, size_of_map_eq (congrArg Program.classes h.bare), Valid]

theorem paramsValid : q.params.Valid a ↔ p.params.Valid a := by
  rw [Valid, size_of_map_eq (congrArg Program.params h.bare), Valid]

theorem methodsValid {m : MethodId} : q.methods.Valid m ↔ p.methods.Valid m := by
  rw [Valid, size_of_map_eq (congrArg Program.methods h.bare), Valid]

theorem params (c : ClassId) : (q.classes.get c).params = (p.classes.get c).params :=
  (congrArg ClassDef.params (h.cls c) :)

theorem fields (c : ClassId) : (q.classes.get c).fields = (p.classes.get c).fields :=
  (congrArg ClassDef.fields (h.cls c) :)

theorem ownMethods (c : ClassId) : (q.classes.get c).methods = (p.classes.get c).methods :=
  (congrArg ClassDef.methods (h.cls c) :)

theorem bases (c : ClassId) :
    (q.classes.get c).bases.map Base.bare = (p.classes.get c).bases.map Base.bare :=
  (congrArg ClassDef.bases (h.cls c) :)

theorem base {k : Nat} {b : Base} (hb : (q.classes.get c).bases[k]? = some b) :
    ∃ b', (p.classes.get c).bases[k]? = some b' ∧ b'.reference = b.reference ∧
      b'.overloads = b.overloads := by
  have hk := congrArg (·[k]?) (h.bases c)
  simp only [getElem?_map, hb, Option.map_some] at hk
  obtain ⟨b', hb', he⟩ := Option.map_eq_some_iff.1 hk.symm
  exact ⟨b', hb', (congrArg Base.reference he :), (congrArg Base.overloads he :)⟩

theorem allMethods (c : ClassId) : (q.classes.get c).allMethods = (p.classes.get c).allMethods := by
  have hover (bases : List Base) : bases.flatMap Base.overloads = (bases.map Base.bare).flatMap
      Base.overloads := by
    rw [flatMap_map]
    rfl
  rw [ClassDef.allMethods, h.ownMethods, hover, h.bases, ← hover, ClassDef.allMethods]

theorem rootParts (r : Root) : q.rootParts r = p.rootParts r := by
  have hrefs (bases : List Base) : bases.map Base.reference = (bases.map Base.bare).map
      Base.reference := by
    rw [map_map]
    rfl
  cases r with
  | field v => rw [Program.rootParts, h.vars, Program.rootParts]
  | method m =>
    simp only [Program.rootParts, paramTypes, h.methodParams, h.methodResult, h.methodBody, h.vars]
  | function f => simp only [Program.rootParts, paramTypes, h.vars, h.functions]
  | param a =>
    have ha : (q.params.get a).boundRef = (p.params.get a).boundRef :=
      (congrArg ClassParam.boundRef (h.param a) :)
    rw [Program.rootParts, ha, Program.rootParts]
  | bases c => rw [Program.rootParts, hrefs, h.bases, ← hrefs, Program.rootParts]

theorem rootOwner (r : Root) : q.rootOwner r = p.rootOwner r := by
  cases r with
  | field v => rw [Program.rootOwner, h.vars, Program.rootOwner]
  | method m => exact congrArg some (h.methodOwner m)
  | function f => rfl
  | param a => rfl
  | bases c => rfl

theorem owned (hp : p.Owned) : q.Owned where
  classes m c hc := h.classesValid.2 (hp.classes m c (h.modules ▸ hc))
  methods c m hm := by
    obtain ⟨hv, ho, hb⟩ := hp.methods c m (h.ownMethods c ▸ hm)
    exact ⟨h.methodsValid.2 hv, (h.methodOwner m).trans ho, (h.methodBase m).trans hb⟩
  overloads c k b hb m hm := by
    obtain ⟨b', hb', _, hover⟩ := h.base hb
    obtain ⟨hv, ho, hbase⟩ := hp.overloads c k b' hb' m (hover ▸ hm)
    exact ⟨h.methodsValid.2 hv, (h.methodOwner m).trans ho, (h.methodBase m).trans hbase⟩
  distinctMethods c := h.allMethods c ▸ hp.distinctMethods c
  fields c f hf := h.vars ▸ hp.fields c f (h.fields c ▸ hf)
  distinctFields c := h.fields c ▸ hp.distinctFields c
  params c k a ha := by
    obtain ⟨hv, ho, hi⟩ := hp.params c k a (h.params c ▸ ha)
    exact ⟨h.paramsValid.2 hv, (h.paramOwner a).trans ho, (h.paramIndex a).trans hi⟩
  indices a ha := by
    rw [h.params, h.paramOwner, h.paramIndex]
    exact hp.indices a (h.paramsValid.1 ha)

end Akin

theorem Binds.akin (h : p.Binds S q) : p.Akin q := by
  refine ⟨?_, h.size⟩
  rw [← h.rest]
  rfl

theorem Flattens.akin (h : p.Flattens below q) : p.Akin q := by
  have hclasses : q.classes.map ClassDef.bare = p.classes.map ClassDef.bare :=
    map_eq_of_get h.size fun c => by rw [ClassDef.bare, h.heads, h.bases, ClassDef.bare]
  refine ⟨?_, by rw [← h.rest]⟩
  rw [Program.bare, hclasses, ← h.rest]
  rfl

theorem Akin.formed (hq : p.Akin q) {inst : Inst} (hinst : p.Formed inst) : q.Formed inst := by
  unfold Formed at hinst ⊢
  split at hinst
  · exact ⟨hq.classesValid.2 hinst.1, hq.params _ ▸ hinst.2⟩
  · exact ⟨hq.paramsValid.2 hinst.1, hinst.2⟩

theorem akin_of_arenas {params : Arena .classParam ClassParam}
    (hclasses : classes.map ClassDef.bare = p.classes.map ClassDef.bare)
    (hparams : params.map ClassParam.bare = p.params.map ClassParam.bare)
    (hmethods : methods.map Method.bare = p.methods.map Method.bare) :
    p.Akin { p with classes, params, methods, globals } := by
  refine ⟨?_, rfl⟩
  simp only [Program.bare, hclasses, hparams, hmethods]

theorem akin_bound (a : ParamId) (c : ClassId) :
    p.Akin { p with params := p.params.modify a fun d => { d with bound := some c } } := by
  refine akin_of_arenas rfl (map_modify_eq ClassParam.bare (fun d => ?_) _ _) rfl
  rfl

theorem akin_baseInst (c : ClassId) (k : Nat) (inst : InstId) :
    p.Akin (p.modifyClass c (Resolve.setBaseInst k inst)) := by
  refine akin_of_arenas (map_modify_eq ClassDef.bare (fun d => ?_) _ _) rfl rfl
  simp only [ClassDef.bare, ClassDef.unflattened, Resolve.setBaseInst, bare_modify]

/-- What holds while names are being bound, beginning with `p0`. The text of the parts in `todo` is
what it was. -/
structure Stage (p0 : Program) (todo : NodeId → Prop) (p : Program) : Prop where
  linked : p0.Linked p
  akin : p0.Akin p
  instances : p.Instances
  globals : ∀ n c, (n, Global.cls c) ∈ p.globals → p.classes.Valid c
  texts : ∀ r, ∀ d ∈ p0.rootParts r, todo d → ∀ j, p0.Below d j → p.form j = p0.form j
  bounds : ∀ a c, (p.params.get a).bound = some c → p.classes.Valid c ∧
    (p.classes.get c).params = []
  bases : ∀ c, ∀ b ∈ (p.classes.get c).bases, ∀ i, b.inst = some i →
    p.Within (p.classes.get c).params i

section Stages

variable {todo todo' O : NodeId → Prop} {d : NodeId} {root : Root}

theorem Stage.mono (h : Stage p0 todo p) (htodo : ∀ d, todo' d → todo d) : Stage p0 todo' p :=
  { h with texts := fun r d hd ht => h.texts r d hd (htodo d ht) }

theorem Stage.indexed (h : Stage p0 todo p) (hs : p0.Owned) : p.Indexed where
  shaped := h.linked.shaped
  untyped := h.linked.untyped
  instances := h.instances
  globals := h.globals
  params c a ha := by
    obtain ⟨k, hk⟩ := mem_iff_getElem?.1 ha
    exact ((h.akin.owned hs).params c k a hk).1

/-- Different parts of declarations have no text in common. -/
theorem Forest.parts_apart (h : p.Forest O) {r s : Root} {x y : NodeId} (hx : x ∈ p.rootParts r)
    (hy : y ∈ p.rootParts s) (hxy : x ≠ y) : p.Apart x y := by
  by_cases hrs : r = s
  · subst hrs
    have : Std.Symm p.Apart := ⟨fun _ _ => Apart.symm⟩
    exact (h.apart r).forall hx hy hxy
  · exact h.disjoint r s hrs x hx y hy

theorem Forest.root_unique (h : p.Forest O) {r s : Root} (hr : d ∈ p.rootParts r)
    (hs : d ∈ p.rootParts s) : r = s := by
  by_contra hrs
  exact h.disjoint r s hrs d hr d hs d (.refl d) (.refl d)

section Parts

variable (h : Stage p0 todo p) (hf : p0.Forest O)
include h hf

theorem Stage.tree (hd : d ∈ p0.rootParts root) (ht : todo d) :
    (∃ ts, (∀ t ∈ ts, root.isField ∧ p0.Aloof t) ∧ p.Tree p.nodes.size ⟨p0.rootOwner root, ts⟩ d) ∧
      ∀ j, p.Below d j → p0.Below d j := by
  obtain ⟨ts, hts, htree⟩ := hf.trees root d hd
  obtain ⟨htree', hbelow⟩ :=
    htree.congr (h.akin.vars ▸ .refl _) (h.akin.lambdas ▸ .refl _) h.linked.ext.targets
    (h.texts root d hd ht)
  exact ⟨⟨ts, fun t ht => ⟨(hts t ht).1, (hf.aloof t (hts t ht).2).2⟩, h.akin.nodes ▸ htree'⟩,
    hbelow⟩

theorem Stage.apart {xs : List NodeId} (hxs : ∀ x ∈ xs, x ∈ p0.rootParts root ∧ todo x)
    (hapart : xs.Pairwise p0.Apart) : xs.Pairwise p.Apart :=
  hapart.imp_of_mem fun hx hy hxy j hjx hjy => hxy j ((h.tree hf (hxs _ hx).1 (hxs _ hx).2).2 j hjx)
    ((h.tree hf (hxs _ hy).1 (hxs _ hy).2).2 j hjy)

theorem Stage.binds {ds : List NodeId} (hds : ∀ d ∈ ds, ∃ r, d ∈ p0.rootParts r) (hq : p.Binds S q)
    (hS : ∀ j, S j → ∃ d ∈ ds, p0.Below d j) : Stage p0 (fun d => todo d ∧ d ∉ ds) q where
  linked := h.linked.trans hq.linked
  akin := h.akin.trans hq.akin
  instances := hq.instances
  globals := by
    rw [hq.globals, hq.classes]
    exact h.globals
  texts r d hd ht j hj := by
    refine (hq.forms j fun hs => ?_).trans (h.texts r d hd ht.1 j hj)
    obtain ⟨x, hx, hxj⟩ := hS j hs
    obtain ⟨s, hs⟩ := hds x hx
    exact hf.parts_apart hs hd (fun he => ht.2 (he ▸ hx)) j hxj hj
  bounds := by
    rw [hq.params, hq.classes]
    exact h.bounds
  bases c b hb i hi := by
    rw [hq.classes] at hb ⊢
    exact (h.bases c b hb i hi).grows hq.grows

end Parts

section Declarations

variable (h : Stage p0 todo p)
include h

theorem Stage.declare {params : Arena .classParam ClassParam}
    (hq : p.Akin { p with globals, classes, params })
    (hglobals : ∀ x ∈ globals, x ∈ p.globals ∨
      match x.2 with
      | .cls c => p.classes.Valid c
      | .function f => p.Listed f)
    (hbounds : ∀ a c, (params.get a).bound = some c → (p.params.get a).bound = some c ∨
      p.classes.Valid c ∧ (p.classes.get c).params = [])
    (hbases : ∀ c, ∀ b ∈ (classes.get c).bases, ∀ i, b.inst = some i →
      p.Within (p.classes.get c).params i) : Stage p0 todo { p with globals, classes, params } where
  linked := h.linked.declare (fun n f hf => (hglobals _ hf).elim (h.linked.shaped.globals n f) id)
    fun c b hb i hi => (hbases c b hb i hi).valid
  akin := h.akin.trans hq
  instances := ⟨fun i hi => hq.formed (h.instances.formed i hi)⟩
  globals n c hc := hq.classesValid.2 ((hglobals _ hc).elim (h.globals n c) id)
  texts := h.texts
  bounds a c hc := by
    have hold := (hbounds a c hc).elim (h.bounds a c) id
    exact ⟨hq.classesValid.2 hold.1, (hq.params c).trans hold.2⟩
  bases c b hb i hi := by
    rw [hq.params]
    exact (hbases c b hb i hi).grows (.refl _)

theorem Stage.register {name : NameId} {g : Global}
    (hg : match g with | .cls c => p.classes.Valid c | .function f => p.Listed f) :
    Stage p0 todo { p with globals := Assoc.put name g p.globals } := by
  refine h.declare ⟨rfl, rfl⟩ (fun x hx => ?_) (fun _ _ => .inl) h.bases
  rcases Assoc.mem_put hx with ⟨_, he⟩ | hx
  · exact .inr (he ▸ hg)
  · exact .inl hx

theorem Stage.bound (hc : p.classes.Valid c) (hparams : (p.classes.get c).params = []) :
    Stage p0 todo { p with params := p.params.modify a fun d => { d with bound := some c } } := by
  refine h.declare (akin_bound a c) (fun _ _ => .inl ‹_›) (fun b d hd => ?_) h.bases
  rw [get_modify] at hd
  split at hd
  · cases hd
    exact .inr ⟨hc, hparams⟩
  · exact .inl hd

theorem Stage.baseInst {k : Nat} {inst : InstId} (hinst : p.Within (p.classes.get c).params inst) :
    Stage p0 todo (p.modifyClass c (Resolve.setBaseInst k inst)) := by
  refine h.declare (akin_baseInst c k inst) (fun _ _ => .inl ‹_›) (fun _ _ => .inl)
    fun d b hb i hi => ?_
  rw [get_modify] at hb
  split at hb
  · rename_i hd
    obtain ⟨b', hb', rfl | rfl⟩ := exists_of_mem_modify hb
    · exact h.bases d b hb' i hi
    · cases hi
      exact hd.1 ▸ hinst
  · exact h.bases d b hb i hi

theorem Stage.flattens (hq : p.Flattens below q) : Stage p0 todo q := by
  have hakin := hq.akin
  rw [← hq.rest] at hakin ⊢
  refine h.declare hakin (fun _ => .inl) (fun _ _ => .inl) fun c b hb i hi => ?_
  rw [hq.bases] at hb
  exact h.bases c b hb i hi

theorem Stage.overrides (hsize : methods.size = p.methods.size)
    (hm : ∀ m, (methods.get m).bare = (p.methods.get m).bare) :
    Stage p0 todo { p with methods } := by
  have hakin : p.Akin { p with methods } := akin_of_arenas rfl rfl (map_eq_of_get hsize hm)
  exact
    { linked := h.linked.overrides hm
      akin := h.akin.trans hakin
      instances := ⟨fun i hi => hakin.formed (h.instances.formed i hi)⟩
      globals := h.globals
      texts := h.texts
      bounds := h.bounds
      bases := fun c b hb i hi => (h.bases c b hb i hi).grows (.refl _) }

end Declarations

end Stages

end Program

end ClassLang
