import ClassLang.Proofs.Scope.Basic
import Mathlib.Data.List.Forall2

namespace ClassLang

open List

structure Setting extends Zone where
  vars : List VarId := []

namespace Setting

def entering (e : Setting) (i : NodeId) : Setting := { e with toZone := e.toZone.entering i }

def closed (e : Setting) : Setting := { e with toZone := e.toZone.closed }

def seeing (e : Setting) (vs : List VarId) : Setting := { e with vars := vs ++ e.vars }

structure Le (e e' : Setting) : Prop where
  owner : e'.owner = e.owner
  targets : e.targets ⊆ e'.targets
  vars : e.vars ⊆ e'.vars

variable {e e' : Setting}

theorem Le.refl (e : Setting) : e.Le e := ⟨rfl, Subset.refl _, Subset.refl _⟩

theorem Le.entering (h : e.Le e') (i : NodeId) : (e.entering i).Le (e'.entering i) :=
  ⟨h.owner, cons_subset_cons i h.targets, h.vars⟩

theorem Le.closed (h : e.Le e') : e.closed.Le e'.closed := ⟨h.owner, Subset.refl _, h.vars⟩

theorem Le.seeing (h : e.Le e') (vs : List VarId) : (e.seeing vs).Le (e'.seeing vs) :=
  ⟨h.owner, h.targets, fun v hv => by
    rcases mem_append.1 hv with hv | hv
    · exact mem_append_left _ hv
    · exact mem_append_right _ (h.vars hv)⟩

end Setting

namespace Program

variable {p q r : Program} {e e' : Setting} {i : NodeId} {form : Form} {S T : NodeId → Prop}
  {x : Setting × NodeId} {a : List ParamId}

def formals (p : Program) : Option ClassId → List ParamId
  | none => []
  | some c => (p.classes.get c).params

inductive Within (p : Program) (a : List ParamId) : InstId → Prop
  | node {i : InstId} : p.insts.Valid i → (∀ q, (p.insts.get i).target = .param q → q ∈ a) →
      (∀ x ∈ (p.insts.get i).args, Within p a x) → Within p a i

def Formed (p : Program) (inst : Inst) : Prop :=
  match inst.target with
  | .cls c => p.classes.Valid c ∧ inst.args.length = (p.classes.get c).params.length
  | .param q => p.params.Valid q ∧ inst.args = []

theorem Formed.cls {p : Program} {inst : Inst} {c : ClassId} (h : p.Formed inst)
    (hc : inst.target = .cls c) :
    p.classes.Valid c ∧ inst.args.length = (p.classes.get c).params.length := by
  rwa [Formed, hc] at h

structure Instances (p : Program) : Prop where
  formed : ∀ i, p.insts.Valid i → p.Formed (p.insts.get i)

def Refers (p : Program) (i : NodeId) (inst : InstId) : Prop :=
  ∃ name target args, p.form i = .classRef name target args (some inst)

def Bound (p : Program) (e : Setting) : Form → Prop
  | .void | .name _ | .setName _ _ | .delegate (some _) _ | .callMethod (some _) _ _ _ => False
  | .getVar v | .setVar v _ => v ∈ e.vars
  | .this => e.owner.isSome
  | .getField none name field | .setField none name field _ => ∃ c f path, e.owner = some c ∧
      (p.classes.get c).members.lookup name = .one ⟨.field f, path⟩ ∧ field = some f
  | .getField (some _) _ field | .setField (some _) _ field _ => field = none
  | .delegate none m | .callMethod none m _ _ => ∃ c path, e.owner = some c ∧
      (p.classes.get c).members.lookup (p.methods.get m).name = .one ⟨.method m, path⟩
  | .letIn v _ => (p.vars.get v).init.isSome
  | .leave target _ => target ∈ e.targets
  | .classRef _ target args inst => ∃ i, inst = some i ∧ target = some (p.insts.get i).target ∧
      Forall₂ p.Refers args (p.insts.get i).args ∧ p.Within (p.formals e.owner) i
  | .array items => items ≠ []
  | .lambda l =>
    (p.lambdas.get l).owner = e.owner ∧ ∀ d ∈ p.paramTypes (p.lambdas.get l).params,
      (p.form d).isType
  | .cast _ target _ => ∃ name t args inst, p.form target = .classRef name t args (some inst)
  | .noneOf type | .arrayOf type => (p.form type).isType
  | .signature params result => ∀ x ∈ params ++ result.toList, (p.form x).isType
  | _ => True

/-- The parts of a node `i` at `e` with their own settings. A variable is seen behind its value, a
parameter in all of its lambda. -/
def places (p : Program) (e : Setting) (i : NodeId) : Form → List (Setting × NodeId)
  | .block body => body.map (e.entering i, ·)
  | .loop body => body.map (e.entering i, ·)
  | .letIn v body => (p.vars.get v).init.toList.map (e, ·) ++ body.map (e.seeing [v], ·)
  | .guard cond yes b => [(e, cond), (e.seeing [b], yes)]
  | .lambda l =>
    (p.paramTypes (p.lambdas.get l).params ++ [(p.lambdas.get l).body]).map
      ((e.seeing (p.lambdas.get l).params).closed, ·)
  | form => form.children.map (e, ·)

inductive Scoped (p : Program) (S : NodeId → Prop) : Setting → NodeId → Prop
  | node {e : Setting} {i : NodeId} : S i → p.Bound e (p.form i) →
      (∀ x ∈ p.places e i (p.form i), Scoped p S x.1 x.2) → Scoped p S e i

def Definite (p : Program) : Form → Prop
  | .name _ | .setName _ _ => False
  | .classRef _ target args inst =>
    ∃ i, inst = some i ∧ p.insts.Valid i ∧ target = some (p.insts.get i).target ∧
      Forall₂ p.Refers args (p.insts.get i).args
  | _ => True

inductive Explicit (p : Program) (S : NodeId → Prop) : NodeId → Prop
  | node {i : NodeId} : S i → p.Definite (p.form i) → (∀ x ∈ p.inner (p.form i), Explicit p S x) →
      Explicit p S i

structure Binds (p : Program) (S : NodeId → Prop) (q : Program) : Prop where
  linked : p.Linked q
  rest : { p with nodes := q.nodes, insts := q.insts } = q
  size : q.nodes.size = p.nodes.size
  forms : ∀ i, ¬ S i → q.form i = p.form i
  types : ∀ i, (p.form i).isType → (q.form i).isType
  grows : p.insts.Grows q.insts
  instances : q.Instances

theorem Within.grows {x : InstId} (h : p.Within a x) (hgrows : p.insts.Grows q.insts) :
    q.Within a x := by
  induction h with
  | node hv hparam _ ih =>
    have hget := hgrows.get_eq hv
    exact .node (hgrows.valid hv) (hget ▸ hparam) (hget ▸ ih)

theorem Within.valid {x : InstId} (h : p.Within a x) : p.insts.Valid x := by
  cases h
  assumption

theorem Bound.mono (h : p.Bound e form) (he : e.Le e') : p.Bound e' form := by
  obtain ⟨⟨o, ts⟩, vs⟩ := e
  obtain ⟨⟨o', ts'⟩, vs'⟩ := e'
  obtain ⟨rfl, htargets, hvars⟩ := he
  cases form with
  | getVar _ => exact hvars h
  | setVar _ _ => exact hvars h
  | leave _ _ => exact htargets h
  | getField base _ _ => cases base <;> exact h
  | setField base _ _ _ => cases base <;> exact h
  | delegate base _ => cases base <;> exact h
  | callMethod base _ _ _ => cases base <;> exact h
  | _ => exact h

theorem places_mono (he : e.Le e') (hx : x ∈ p.places e' i form) :
    ∃ d : Setting, (d, x.2) ∈ p.places e i form ∧ d.Le x.1 := by
  have hmap {d d' : Setting} (hd : d.Le d') {body : List NodeId} (hx : x ∈ body.map (d', ·)) :
      ∃ d0 : Setting, (d0, x.2) ∈ body.map (d, ·) ∧ d0.Le x.1 := by
    obtain ⟨y, hy, rfl⟩ := mem_map.1 hx
    exact ⟨d, mem_map_of_mem hy, hd⟩
  unfold places at hx ⊢
  split at hx
  · exact hmap (he.entering i) hx
  · exact hmap (he.entering i) hx
  · rcases mem_append.1 hx with hx | hx
    · obtain ⟨d, hd, hle⟩ := hmap he hx
      exact ⟨d, mem_append_left _ hd, hle⟩
    · obtain ⟨d, hd, hle⟩ := hmap (he.seeing _) hx
      exact ⟨d, mem_append_right _ hd, hle⟩
  · rcases mem_cons.1 hx with rfl | hx
    · exact ⟨e, mem_cons_self, he⟩
    · obtain rfl := mem_singleton.1 hx
      exact ⟨_, mem_cons_of_mem _ (mem_singleton_self _), he.seeing _⟩
  · exact hmap (he.seeing _).closed hx
  · exact hmap he hx

theorem Scoped.mono (h : p.Scoped S e i) (hST : ∀ j, S j → T j) (he : e.Le e') :
    p.Scoped T e' i := by
  induction h generalizing e' with
  | node hi hbound _ ih =>
    refine .node (hST _ hi) (hbound.mono he) fun x hx => ?_
    obtain ⟨d, hd, hle⟩ := places_mono he hx
    exact ih _ hd hle

theorem Scoped.bound (h : p.Scoped S e i) : p.Bound e (p.form i) := by
  cases h
  assumption

theorem Scoped.mem (h : p.Scoped S e i) : S i := by
  cases h
  assumption

theorem mem_places (hx : x ∈ p.places e i form) : x.2 ∈ p.inner form := by
  have hmap {d : Setting} {body : List NodeId} (hx : x ∈ body.map (d, ·)) : x.2 ∈ body := by
    obtain ⟨y, hy, rfl⟩ := mem_map.1 hx
    exact hy
  unfold places at hx
  split at hx
  · exact hmap hx
  · exact hmap hx
  · exact (mem_append.1 hx).elim (fun hx => mem_append_left _ (hmap hx)) fun hx =>
      mem_append_right _ (hmap hx)
  · rcases mem_cons.1 hx with rfl | hx
    · exact mem_cons_self
    · obtain rfl := mem_singleton.1 hx
      exact mem_cons_of_mem _ (mem_singleton_self _)
  · exact hmap hx
  · exact mem_inner_of_children (hmap hx)

theorem exists_place {x : NodeId} (hx : x ∈ p.inner form) (e : Setting) (i : NodeId) :
    ∃ d, (d, x) ∈ p.places e i form := by
  have hmap {body : List NodeId} (d : Setting) (hx : x ∈ body) : (d, x) ∈ body.map (d, ·) :=
    mem_map_of_mem hx
  unfold places
  split
  · exact ⟨_, hmap _ hx⟩
  · exact ⟨_, hmap _ hx⟩
  · exact (mem_append.1 hx).elim (fun hx => ⟨_, mem_append_left _ (hmap _ hx)⟩)
      fun hx => ⟨_, mem_append_right _ (hmap _ hx)⟩
  · rcases mem_cons.1 hx with rfl | hx
    · exact ⟨_, mem_cons_self⟩
    · obtain rfl := mem_singleton.1 hx
      exact ⟨_, mem_cons_of_mem _ (mem_singleton_self _)⟩
  · exact ⟨_, hmap _ hx⟩
  · rename_i hlet hguard hlam
    refine ⟨e, hmap e ?_⟩
    unfold inner at hx
    split at hx
    · exact absurd rfl (hlet _ _)
    · exact absurd rfl (hlam _)
    · exact hx

theorem exists_of_forall₂ {α β : Type} {R : α → β → Prop} {xs : List α} {ys : List β}
    (h : Forall₂ R xs ys) {y : β} (hy : y ∈ ys) : ∃ x ∈ xs, R x y := by
  induction h with
  | nil => cases hy
  | @cons x z xs ys hxz _ ih =>
    rcases mem_cons.1 hy with rfl | hy
    · exact ⟨x, mem_cons_self, hxz⟩
    · obtain ⟨x', hx', hr⟩ := ih hy
      exact ⟨x', mem_cons_of_mem x hx', hr⟩

theorem Refers.congr {x : NodeId} {inst : InstId} (h : p.Refers x inst)
    (hform : q.form x = p.form x) : q.Refers x inst := by
  rwa [Refers, hform]

theorem refers_congr {args : List NodeId} {insts : List InstId} (h : Forall₂ p.Refers args insts)
    (hforms : ∀ x ∈ args, q.form x = p.form x) : Forall₂ q.Refers args insts :=
  ((forall₂_and_left _ _).2 ⟨hforms, h⟩).imp fun _ _ hx => hx.2.congr hx.1

theorem Bound.definite (h : p.Bound e form) : p.Definite form := by
  cases form with
  | name _ | setName _ _ => exact h
  | classRef name target args inst =>
    obtain ⟨i, hi, htarget, hargs, hwithin⟩ := h
    exact ⟨i, hi, hwithin.valid, htarget, hargs⟩
  | _ => trivial

theorem Scoped.explicit (h : p.Scoped S e i) : p.Explicit S i := by
  induction h with
  | @node e i hi hbound _ ih =>
    refine .node hi hbound.definite fun x hx => ?_
    obtain ⟨d, hd⟩ := exists_place hx e i
    exact ih _ hd

section

variable (h : p.Explicit S i)
include h

theorem Explicit.mem : S i := by
  cases h
  assumption

theorem Explicit.mono (hST : ∀ j, S j → T j) : p.Explicit T i := by
  induction h with
  | node hi hform _ ih => exact .node (hST _ hi) hform ih

theorem Explicit.definite {j : NodeId} (hj : p.Below i j) : p.Definite (p.form j) := by
  induction h with
  | node _ hform _ ih =>
    rcases hj.cases with rfl | ⟨x, hx, hj⟩
    · exact hform
    · exact ih x hx hj

theorem Explicit.congr (hforms : ∀ j, S j → q.form j = p.form j) (hvars : q.vars = p.vars)
    (hlambdas : q.lambdas = p.lambdas) (hinsts : p.insts.Grows q.insts) : q.Explicit S i := by
  induction h with
  | @node i hi hform hparts ih =>
    have hinner : q.inner (p.form i) = p.inner (p.form i) := by
      simp only [inner, paramTypes, hvars, hlambdas]
    refine .node hi ?_ ?_
    · rw [hforms i hi]
      generalize p.form i = form at hform hparts ⊢
      cases form with
      | name _ | setName _ _ => exact hform
      | classRef name target args inst =>
        obtain ⟨x, hx, hv, htarget, hargs⟩ := hform
        have hget := hinsts.get_eq hv
        refine ⟨x, hx, hinsts.valid hv, by rw [hget, htarget], ?_⟩
        rw [hget]
        exact refers_congr hargs fun y hy => hforms y (hparts y hy).mem
      | _ => trivial
    · rw [hforms i hi, hinner]
      exact ih

end

section Binding

variable (h : p.Binds S q)
include h

theorem Binds.classes : q.classes = p.classes := (congrArg Program.classes h.rest).symm

theorem Binds.params : q.params = p.params := (congrArg Program.params h.rest).symm

theorem Binds.vars : q.vars = p.vars := (congrArg Program.vars h.rest).symm

theorem Binds.methods : q.methods = p.methods := (congrArg Program.methods h.rest).symm

theorem Binds.lambdas : q.lambdas = p.lambdas := (congrArg Program.lambdas h.rest).symm

theorem Binds.globals : q.globals = p.globals := (congrArg Program.globals h.rest).symm

theorem Binds.trans (h' : q.Binds T r) (hTS : ∀ j, T j → S j) : p.Binds S r where
  linked := h.linked.trans h'.linked
  rest := by rw [← h'.rest, ← h.rest]
  size := h'.size.trans h.size
  forms i hi := (h'.forms i fun ht => hi (hTS i ht)).trans (h.forms i hi)
  types i hi := h'.types i (h.types i hi)
  grows := h.grows.trans h'.grows
  instances := h'.instances

theorem Binds.mono (hST : ∀ j, S j → T j) : p.Binds T q :=
  { h with forms := fun i hi => h.forms i fun hs => hi (hST i hs) }

theorem Binds.inner (form : Form) : q.inner form = p.inner form := by
  simp only [Program.inner, paramTypes, h.vars, h.lambdas]

theorem Binds.places (e : Setting) (i : NodeId) (form : Form) :
    q.places e i form = p.places e i form := by
  simp only [Program.places, paramTypes, h.vars, h.lambdas]

theorem Binds.formals (o : Option ClassId) : q.formals o = p.formals o := by
  cases o with
  | none => rfl
  | some c => rw [Program.formals, h.classes, Program.formals]

theorem Binds.bound (hb : p.Bound e form) (hforms : ∀ x ∈ form.children, q.form x = p.form x) :
    q.Bound e form := by
  cases form with
  | getField base name field =>
    cases base with
    | none => simpa only [Bound, h.classes] using hb
    | some _ => exact hb
  | setField base name field value =>
    cases base with
    | none => simpa only [Bound, h.classes] using hb
    | some _ => exact hb
  | delegate base m =>
    cases base with
    | none => simpa only [Bound, h.classes, h.methods] using hb
    | some _ => exact hb
  | callMethod base m args dispatch =>
    cases base with
    | none => simpa only [Bound, h.classes, h.methods] using hb
    | some _ => exact hb
  | letIn v body => simpa only [Bound, h.vars] using hb
  | classRef name target args inst =>
    obtain ⟨x, hx, htarget, hargs, hwithin⟩ := hb
    have hget := h.grows.get_eq hwithin.valid
    refine ⟨x, hx, by rw [hget, htarget], ?_, ?_⟩
    · rw [hget]
      exact refers_congr hargs hforms
    · rw [h.formals]
      exact hwithin.grows h.grows
  | lambda l =>
    simp only [Bound, h.lambdas, paramTypes, h.vars]
    exact ⟨hb.1, fun d hd => h.types d (hb.2 d hd)⟩
  | cast operand target checked =>
    obtain ⟨name, t, args, inst, htarget⟩ := hb
    exact ⟨name, t, args, inst, (hforms target (by simp [Form.children])).trans htarget⟩
  | noneOf type | arrayOf type => exact h.types type hb
  | signature params result => exact fun x hx => h.types x (hb x hx)
  | _ => exact hb

/-- Names that are bound stay bound while names are bound elsewhere. -/
theorem Binds.scoped (hi : p.Scoped T e i) (hd : ∀ j, T j → ¬ S j) : q.Scoped T e i := by
  induction hi with
  | @node e i hi hbound hparts ih =>
    have hform := h.forms i (hd i hi)
    refine .node hi ?_ fun x hx => ?_
    · rw [hform]
      refine h.bound hbound fun x hx => h.forms x (hd x ?_)
      obtain ⟨d, hx⟩ := exists_place (mem_inner_of_children (p := p) hx) e i
      exact (hparts _ hx).mem
    · rw [hform, h.places] at hx
      exact ih x hx

theorem Binds.explicit (hi : p.Explicit T i) (hd : ∀ j, T j → ¬ S j) : q.Explicit T i :=
  hi.congr (fun j hj => h.forms j (hd j hj)) h.vars h.lambdas h.grows

end Binding

end Program

end ClassLang
