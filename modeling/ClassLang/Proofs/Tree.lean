import ClassLang.Proofs.Shape
import Mathlib.Logic.Relation

namespace ClassLang

open List

/-- Where a node stands in the text: in which class, and which blocks and loops a jump can leave
from there. -/
structure Zone where
  owner : Option ClassId
  targets : List NodeId := []

namespace Zone

def entering (z : Zone) (i : NodeId) : Zone := { z with targets := i :: z.targets }

def closed (z : Zone) : Zone := { z with targets := [] }

end Zone

inductive Root
  | field (v : VarId)
  | method (m : MethodId)
  | function (f : FunctionId)
  | param (q : ParamId)
  | bases (c : ClassId)
deriving DecidableEq

def Root.isField : Root → Bool
  | .field _ => true
  | _ => false

def Root.isHead : Root → Bool
  | .param _ | .bases _ => true
  | _ => false

def Var.fieldInit (v : Var) : List NodeId :=
  match v.role with
  | .field _ => v.init.toList
  | _ => []

theorem Var.mem_fieldInit {v : Var} {c : ClassId} {d : NodeId} (hrole : v.role = .field c)
    (hinit : v.init = some d) : d ∈ v.fieldInit := by
  rw [fieldInit, hrole, hinit]
  exact List.mem_singleton_self d

namespace Program

def paramTypes (p : Program) (params : List VarId) : List NodeId :=
  params.filterMap fun v => (p.vars.get v).init

/-- All nodes that a form is made of: besides its children, the value of a variable that it
introduces, and the inside of a lambda. -/
def inner (p : Program) : Form → List NodeId
  | .letIn v body => (p.vars.get v).init.toList ++ body
  | .lambda l => p.paramTypes (p.lambdas.get l).params ++ [(p.lambdas.get l).body]
  | form => form.children

def parts (p : Program) (z : Zone) (i : NodeId) : Form → List (Zone × NodeId)
  | .block body => body.map (z.entering i, ·)
  | .loop body => body.map (z.entering i, ·)
  | .lambda l =>
    (p.paramTypes (p.lambdas.get l).params ++ [(p.lambdas.get l).body]).map (z.closed, ·)
  | form => (p.inner form).map (z, ·)

def Below (p : Program) : NodeId → NodeId → Prop :=
  Relation.ReflTransGen fun i x => x ∈ p.inner (p.form i)

def Apart (p : Program) (x y : NodeId) : Prop := ∀ j, p.Below x j → ¬ p.Below y j

def TypeText (p : Program) (i : NodeId) : Prop := ∀ j, p.Below i j → (p.form j).isType

/-- What the grammar makes: no name is bound, and a jump leaves something around it. -/
def Raw (p : Program) (z : Zone) : Form → Prop
  | .void | .getVar _ | .setVar _ _ | .callMethod _ _ _ _ | .callFunction _ _ | .functionRef _
  | .delegate _ _ =>
    False
  | .getField base _ field | .setField base _ field _ => base.isSome ∧ field = none
  | .letIn v _ => (p.vars.get v).role = .localVar ∧ (p.vars.get v).init.isSome
  | .leave target _ => target ∈ z.targets ∧ (p.form target).isTarget
  | .guard _ _ b => (p.vars.get b).role = .binding
  | .classRef _ target _ inst => target = none ∧ inst = none
  | .array items => items ≠ []
  | .lambda l => p.lambdas.Valid l ∧ (p.lambdas.get l).owner = z.owner ∧
      (∀ v ∈ (p.lambdas.get l).params, (p.vars.get v).role = .param) ∧
      ∀ d ∈ p.paramTypes (p.lambdas.get l).params, p.TypeText d
  | .cast _ target _ => ∃ name args, p.form target = .classRef name none args none
  | .noneOf type | .arrayOf type => (p.form type).isType
  | .signature params result => ∀ x ∈ params ++ result.toList, (p.form x).isType
  | _ => True

inductive Tree (p : Program) : Nat → Zone → NodeId → Prop
  | node {n : Nat} {z : Zone} {i : NodeId} : p.Raw z (p.form i) →
      (p.inner (p.form i)).Pairwise p.Apart →
      (∀ x ∈ p.parts z i (p.form i), Tree p n x.1 x.2) → Tree p (n + 1) z i

def rootParts (p : Program) : Root → List NodeId
  | .field v => (p.vars.get v).fieldInit
  | .method m =>
    p.paramTypes (p.methods.get m).params ++ (p.methods.get m).result.toList ++
      (p.methods.get m).body.toList
  | .function f =>
    p.paramTypes (p.functions.get f).params ++ (p.functions.get f).result.toList ++
      (p.functions.get f).body.toList
  | .param q => (p.params.get q).boundRef.toList
  | .bases c => (p.classes.get c).bases.map Base.reference

def Taken (p : Program) (j : NodeId) : Prop := ∃ r, ∃ d ∈ p.rootParts r, p.Below d j

variable {p q r : Program} {z z' : Zone} {i j : NodeId} {n m lo lo' : Nat} {form : Form}
  {xs ys : List (Zone × NodeId)} {x : Zone × NodeId} {is : List NodeId}

theorem map_snd_parts (p : Program) (z : Zone) (i : NodeId) (form : Form) :
    (p.parts z i form).map Prod.snd = p.inner form := by
  unfold parts
  split <;> simp [inner, Form.children, Function.comp_def]

theorem exists_zone {x : NodeId} (hx : x ∈ p.inner form) (z : Zone) (i : NodeId) :
    ∃ z', (z', x) ∈ p.parts z i form := by
  rw [← map_snd_parts p z i form] at hx
  obtain ⟨⟨z', _⟩, hmem, rfl⟩ := mem_map.1 hx
  exact ⟨z', hmem⟩

theorem mem_inner (hx : x ∈ p.parts z i form) : x.2 ∈ p.inner form := by
  rw [← map_snd_parts p z i form]
  exact mem_map_of_mem hx

theorem Below.refl (i : NodeId) : p.Below i i := Relation.ReflTransGen.refl

theorem Below.head {x : NodeId} (hx : x ∈ p.inner (p.form i)) (h : p.Below x j) : p.Below i j :=
  Relation.ReflTransGen.head hx h

theorem Below.cases (h : p.Below i j) : i = j ∨ ∃ x ∈ p.inner (p.form i), p.Below x j :=
  Relation.ReflTransGen.cases_head h

theorem TypeText.isType (h : p.TypeText i) : (p.form i).isType := h i (.refl i)

theorem TypeText.node (hi : (p.form i).isType) (h : ∀ x ∈ p.inner (p.form i), p.TypeText x) :
    p.TypeText i := by
  intro j hj
  rcases hj.cases with rfl | ⟨x, hx, hj⟩
  · exact hi
  · exact h x hx j hj

theorem Below.of_same (h : ∀ j, p.Below i j → q.inner (q.form j) = p.inner (p.form j))
    (hj : q.Below i j) : p.Below i j := by
  induction hj with
  | refl => exact .refl i
  | @tail j k _ hk ih =>
    rw [h j ih] at hk
    exact Relation.ReflTransGen.tail ih hk

theorem Taken.of_same (hroots : ∀ r, ∀ x ∈ q.rootParts r, x ∈ p.rootParts r)
    (h : ∀ j, p.Taken j → q.inner (q.form j) = p.inner (p.form j)) (hj : q.Taken j) :
    p.Taken j := by
  obtain ⟨r, x, hx, hj⟩ := hj
  exact ⟨r, x, hroots r x hx, hj.of_same fun k hk => h k ⟨r, x, hroots r x hx, hk⟩⟩

theorem Apart.symm {x y : NodeId} (h : p.Apart x y) : p.Apart y x := fun j hy hx => h j hx hy

theorem Tree.mono (h : p.Tree n z i) (hnm : n ≤ m) : p.Tree m z i := by
  induction h generalizing m with
  | node hraw hapart _ ih =>
    cases m with
    | zero => cases hnm
    | succ m => exact .node hraw hapart fun x hx => ih x hx (Nat.le_of_succ_le_succ hnm)

theorem paramTypes_of_grows (hvars : p.vars.Grows q.vars) {params : List VarId}
    (h : ∀ v ∈ params, (p.vars.get v).role = .param) : q.paramTypes params = p.paramTypes params :=
  filterMap_congr fun v hv => by rw [hvars.get_eq (valid_of_role (h v hv) (by simp))]

theorem paramTypes_append (p : Program) (vs ws : List VarId) :
    p.paramTypes (vs ++ ws) = p.paramTypes vs ++ p.paramTypes ws :=
  filterMap_append

theorem parts_widen (howner : z'.owner = z.owner) (htargets : z.targets ⊆ z'.targets)
    (hx : x ∈ p.parts z' i form) :
    ∃ w : Zone, (w, x.2) ∈ p.parts z i form ∧ x.1.owner = w.owner ∧ w.targets ⊆ x.1.targets := by
  have henter {body : List NodeId} (hx : x ∈ body.map (z'.entering i, ·)) : ∃ w :
      Zone, (w, x.2) ∈ body.map (z.entering i, ·) ∧ x.1.owner = w.owner ∧
      w.targets ⊆ x.1.targets := by
    obtain ⟨y, hy, rfl⟩ := mem_map.1 hx
    exact ⟨_, mem_map_of_mem hy, howner, cons_subset_cons i htargets⟩
  have hsame {body : List NodeId} (hx : x ∈ body.map (z', ·)) :
      ∃ w : Zone, (w, x.2) ∈ body.map (z, ·) ∧ x.1.owner = w.owner ∧ w.targets ⊆ x.1.targets := by
    obtain ⟨y, hy, rfl⟩ := mem_map.1 hx
    exact ⟨_, mem_map_of_mem hy, howner, htargets⟩
  unfold parts at hx ⊢
  split at hx
  · exact henter hx
  · exact henter hx
  · obtain ⟨y, hy, rfl⟩ := mem_map.1 hx
    exact ⟨_, mem_map_of_mem hy, howner, Subset.refl _⟩
  · exact hsame hx

theorem Raw.widen (h : p.Raw z form) (howner : z'.owner = z.owner)
    (htargets : z.targets ⊆ z'.targets) : p.Raw z' form := by
  cases form with
  | leave target result => exact ⟨htargets h.1, h.2⟩
  | lambda l => exact ⟨h.1, h.2.1.trans howner.symm, h.2.2⟩
  | _ => exact h

theorem Tree.widen (h : p.Tree n z i) (howner : z'.owner = z.owner)
    (htargets : z.targets ⊆ z'.targets) : p.Tree n z' i := by
  induction h generalizing z' with
  | node hraw hapart _ ih =>
    refine .node (hraw.widen howner htargets) hapart fun x hx => ?_
    obtain ⟨w, hw, how, htw⟩ := parts_widen howner htargets hx
    exact ih _ hw how htw

theorem Tree.inside (h : p.Tree n z i) (hj : p.Below i j) : ∃ z', p.Tree n z' j := by
  induction hj with
  | refl => exact ⟨z, h⟩
  | tail _ hk ih =>
    obtain ⟨z', hz⟩ := ih
    cases hz with
    | node _ _ hparts =>
      obtain ⟨w, hw⟩ := exists_zone hk z' _
      exact ⟨w, (hparts _ hw).mono (Nat.le_succ _)⟩

/-- A node is not in the text of its own parts; the induction is on the levels. -/
theorem Tree.not_below (h : p.Tree n z i) {x : NodeId} (hx : x ∈ p.inner (p.form i)) :
    ¬ p.Below x i := by
  induction n generalizing z with
  | zero => cases h
  | succ n ih =>
    intro hi
    cases h with
    | node _ _ hparts =>
      obtain ⟨w, hw⟩ := exists_zone hx z i
      obtain ⟨z', hz⟩ := (hparts _ hw).inside hi
      exact ih hz hi

theorem mem_inner_of_children {x : NodeId} (hx : x ∈ form.children) : x ∈ p.inner form := by
  cases form with
  | letIn v body => exact mem_append_right _ hx
  | lambda l => cases hx
  | _ => exact hx

theorem Raw.admits (h : p.Raw z form) (hinner : ∀ x ∈ p.inner form, p.nodes.Valid x) :
    p.Admits form := by
  refine ⟨fun x hx => hinner x (mem_inner_of_children hx), ?_⟩
  cases form with
  | letIn v body => exact h.1
  | leave target result => exact h.2
  | guard c y b => exact h
  | lambda l => exact h.1
  | classRef name target args inst =>
    obtain ⟨-, rfl⟩ := h
    trivial
  | callFunction f args => exact h.elim
  | functionRef f => exact h.elim
  | _ => trivial

section Same

variable (hvars : p.vars.Grows q.vars) (hlambdas : p.lambdas.Grows q.lambdas)
include hvars hlambdas

theorem inner_of_grows (h : p.Raw z form) : q.inner form = p.inner form := by
  unfold inner
  split
  · rw [hvars.get_eq (valid_of_role h.1 (by simp))]
  · rw [hlambdas.get_eq h.1, paramTypes_of_grows hvars h.2.2.1]
  · rfl

theorem parts_of_grows (h : p.Raw z form) : q.parts z i form = p.parts z i form := by
  have hinner := inner_of_grows hvars hlambdas h
  unfold parts
  split
  · rfl
  · rfl
  · rw [hlambdas.get_eq h.1, paramTypes_of_grows hvars h.2.2.1]
  · rw [hinner]

theorem Raw.of_grows (h : p.Raw z form) (htargets : ∀ j, (p.form j).isTarget → (q.form j).isTarget)
    (hinner : ∀ c ∈ p.inner form, ∀ j, q.Below c j → p.Below c j ∧ q.form j = p.form j) :
    q.Raw z form := by
  have htypes {x : NodeId} (hx : x ∈ p.inner form) (htype : (p.form x).isType) :
    (q.form x).isType := (congrArg Form.isType (hinner x hx x (.refl x)).2).trans htype
  cases form with
  | letIn v body =>
    have hv := hvars.get_eq (valid_of_role h.1 (by simp))
    exact ⟨hv.symm ▸ h.1, hv.symm ▸ h.2⟩
  | leave target result => exact ⟨h.1, htargets _ h.2⟩
  | guard c y b =>
    have hb := hvars.get_eq (valid_of_role (show (p.vars.get b).role = .binding from h) (by simp))
    exact (congrArg Var.role hb).trans h
  | lambda l =>
    refine ⟨hlambdas.valid h.1, ?_⟩
    rw [hlambdas.get_eq h.1]
    refine ⟨h.2.1, fun v hv => ?_, fun d hd => ?_⟩
    · rw [hvars.get_eq (valid_of_role (h.2.2.1 v hv) (by simp))]
      exact h.2.2.1 v hv
    · rw [paramTypes_of_grows hvars h.2.2.1] at hd
      intro j hj
      obtain ⟨hbelow, hsame⟩ := hinner d (mem_append_left _ hd) j hj
      exact (congrArg Form.isType hsame).trans (h.2.2.2 d hd j hbelow)
  | cast operand target checked =>
    obtain ⟨name, args, htarget⟩ := h
    exact ⟨name, args, (hinner target (by simp [inner, Form.children]) target (.refl _)).2.trans
      htarget⟩
  | noneOf type | arrayOf type => exact htypes (mem_singleton_self _) h
  | signature params result => exact fun x hx => htypes hx (h x hx)
  | _ => exact h

theorem Tree.congr (h : p.Tree n z i) (htargets : ∀ j, (p.form j).isTarget → (q.form j).isTarget)
    (hforms : ∀ j, p.Below i j → q.form j = p.form j) :
    q.Tree n z i ∧ ∀ j, q.Below i j → p.Below i j := by
  induction h with
  | @node n z i hraw hapart _ ih =>
    have hform := hforms i (.refl i)
    have hinner : q.inner (q.form i) = p.inner (p.form i) := by
      rw [hform, inner_of_grows hvars hlambdas hraw]
    have hpart (x : Zone × NodeId) (hx : x ∈ p.parts z i (p.form i)) :=
      ih x hx fun j hj => hforms j (.head (mem_inner hx) hj)
    have hbelow (x : NodeId) (hx : x ∈ p.inner (p.form i)) (j : NodeId) (hj : q.Below x j) :
        p.Below x j := by
      obtain ⟨z', hz'⟩ := exists_zone hx z i
      exact (hpart _ hz').2 j hj
    refine ⟨.node ?_ ?_ fun x hx => ?_, fun j hj => ?_⟩
    · rw [hform]
      refine hraw.of_grows hvars hlambdas htargets fun c hc j hj => ?_
      have hj' := hbelow c hc j hj
      exact ⟨hj', hforms j (.head hc hj')⟩
    · rw [hinner]
      exact hapart.imp_of_mem fun hx hy hxy j hjx hjy =>
        hxy j (hbelow _ hx j hjx) (hbelow _ hy j hjy)
    · rw [hform, parts_of_grows hvars hlambdas hraw] at hx
      exact (hpart x hx).1
    · rcases hj.cases with rfl | ⟨x, hx, hj⟩
      · exact .refl _
      · exact .head (hinner ▸ hx) (hbelow x (hinner ▸ hx) j hj)

end Same

structure Retains (p q : Program) : Prop where
  nodes : p.nodes.size ≤ q.nodes.size
  forms : ∀ i, p.nodes.Valid i → q.form i = p.form i
  vars : p.vars.Grows q.vars
  lambdas : p.lambdas.Grows q.lambdas
  taken : ∀ j, q.Taken j → p.Taken j ∨ ¬ p.nodes.Valid j

/-- A tree at `z` that was read after there were `lo` nodes, and that no declaration has yet. -/
structure Made (p : Program) (lo : Nat) (z : Zone) (i : NodeId) : Prop where
  tree : p.Tree (p.nodes.size - lo) z i
  since : ∀ j, p.Below i j → lo ≤ j.index ∧ p.nodes.Valid j
  free : ∀ j, p.Below i j → ¬ p.Taken j

structure Sprouts (p : Program) (lo : Nat) (xs : List (Zone × NodeId)) : Prop where
  made : ∀ x ∈ xs, p.Made lo x.1 x.2
  apart : (xs.map Prod.snd).Pairwise p.Apart

theorem Retains.refl (p : Program) : p.Retains p :=
  ⟨Nat.le_refl _, fun _ _ => rfl, .refl _, .refl _, fun _ => .inl⟩

theorem Retains.valid (h : p.Retains q) (hi : p.nodes.Valid i) : q.nodes.Valid i :=
  Nat.lt_of_lt_of_le hi h.nodes

theorem Retains.trans (h : p.Retains q) (h' : q.Retains r) : p.Retains r where
  nodes := Nat.le_trans h.nodes h'.nodes
  forms i hi := (h'.forms i (h.valid hi)).trans (h.forms i hi)
  vars := h.vars.trans h'.vars
  lambdas := h.lambdas.trans h'.lambdas
  taken j hj := (h'.taken j hj).elim (h.taken j) fun hn => .inr fun hv => hn (h.valid hv)

theorem Retains.targets (h : p.Retains q) (hj : (p.form j).isTarget) : (q.form j).isTarget :=
  (h.forms j (valid_of_isTarget hj)).symm ▸ hj

theorem Retains.free (h : p.Retains q) (hi : p.nodes.Valid i) (hfree : ¬ p.Taken i) : ¬ q.Taken i :=
  fun ht =>
  (h.taken i ht).elim hfree fun hn => hn hi

section

variable (h : p.Made lo z i)
include h

theorem Made.valid : p.nodes.Valid i := (h.since i (.refl i)).2

theorem Made.le : lo ≤ p.nodes.size :=
  Nat.le_of_lt (Nat.lt_of_le_of_lt (h.since i (.refl i)).1 h.valid)

theorem Made.step (hpq : p.Retains q) : q.Made lo z i ∧ ∀ j, q.Below i j → p.Below i j := by
  obtain ⟨htree, hbelow⟩ := h.tree.congr hpq.vars hpq.lambdas (fun _ => hpq.targets)
    fun j hj => hpq.forms j (h.since j hj).2
  refine ⟨⟨htree.mono (Nat.sub_le_sub_right hpq.nodes _), fun j hj => ?_, fun j hj htaken => ?_⟩,
    hbelow⟩
  · obtain ⟨hlo, hvalid⟩ := h.since j (hbelow j hj)
    exact ⟨hlo, hpq.valid hvalid⟩
  · rcases hpq.taken j htaken with ht | hn
    · exact h.free j (hbelow j hj) ht
    · exact hn (h.since j (hbelow j hj)).2

theorem Made.typeText (hpq : p.Retains q) (hi : p.TypeText i) : q.TypeText i := by
  intro j hj
  have hj' := (h.step hpq).2 j hj
  rw [hpq.forms j (h.since j hj').2]
  exact hi j hj'

end

theorem Sprouts.typeText (h : p.Sprouts lo (is.map (z, ·))) (hpq : p.Retains q)
    (his : ∀ i ∈ is, p.TypeText i) : ∀ i ∈ is, q.TypeText i :=
  fun i hi => (h.made (z, i) (mem_map_of_mem hi)).typeText hpq (his i hi)

theorem Made.mono (h : p.Made lo z i) (hlo : lo' ≤ lo) : p.Made lo' z i :=
  { h with
    tree := h.tree.mono (Nat.sub_le_sub_left hlo _)
    since := fun j hj => ⟨Nat.le_trans hlo (h.since j hj).1, (h.since j hj).2⟩ }

theorem Made.widen (h : p.Made lo z i) (howner : z'.owner = z.owner)
    (htargets : z.targets ⊆ z'.targets) : p.Made lo z' i :=
  { h with tree := h.tree.widen howner htargets }

theorem Sprouts.nil (p : Program) (lo : Nat) : p.Sprouts lo [] := ⟨nofun, .nil⟩

theorem Sprouts.step (h : p.Sprouts lo xs) (hpq : p.Retains q) : q.Sprouts lo xs := by
  refine ⟨fun x hx => ((h.made x hx).step hpq).1, h.apart.imp_of_mem fun ha hb hab j hja hjb => ?_⟩
  obtain ⟨x, hx, rfl⟩ := mem_map.1 ha
  obtain ⟨y, hy, rfl⟩ := mem_map.1 hb
  exact hab j (((h.made x hx).step hpq).2 j hja) (((h.made y hy).step hpq).2 j hjb)

theorem Sprouts.mono (h : p.Sprouts lo xs) (hlo : lo' ≤ lo) : p.Sprouts lo' xs :=
  { h with made := fun x hx => (h.made x hx).mono hlo }

theorem Sprouts.widen (h : p.Sprouts lo (is.map (z, ·))) (howner : z'.owner = z.owner)
    (htargets : z.targets ⊆ z'.targets) : p.Sprouts lo (is.map (z', ·)) := by
  refine ⟨fun x hx => ?_, by simpa [Function.comp_def] using h.apart⟩
  obtain ⟨y, hy, rfl⟩ := mem_map.1 hx
  exact (h.made _ (mem_map_of_mem hy)).widen howner htargets

theorem Sprouts.perm (h : p.Sprouts lo xs) (hperm : xs.Perm ys) : p.Sprouts lo ys :=
  ⟨fun x hx => h.made x (hperm.mem_iff.2 hx), (hperm.map _).pairwise h.apart Apart.symm⟩

/-- What is read later is apart from what was there before. -/
theorem Sprouts.append (h : p.Sprouts lo xs) (hpq : p.Retains q) (hlo : lo ≤ p.nodes.size)
    (hys : q.Sprouts p.nodes.size ys) : q.Sprouts lo (xs ++ ys) := by
  refine ⟨forall_mem_append.2 ⟨(h.step hpq).made, fun y hy => (hys.made y hy).mono hlo⟩, ?_⟩
  rw [map_append, pairwise_append]
  refine ⟨(h.step hpq).apart, hys.apart, ?_⟩
  intro a ha b hb j hja hjb
  obtain ⟨x, hx, rfl⟩ := mem_map.1 ha
  obtain ⟨y, hy, rfl⟩ := mem_map.1 hb
  have hold := ((h.made x hx).since j (((h.made x hx).step hpq).2 j hja)).2
  exact Nat.not_lt.2 ((hys.made y hy).since j hjb).1 hold

theorem Sprouts.single (h : p.Made lo z i) : p.Sprouts lo [(z, i)] :=
  ⟨forall_mem_singleton.2 h, pairwise_singleton _ _⟩

theorem Sprouts.snoc (h : p.Sprouts lo xs) (hpq : p.Retains q) (hlo : lo ≤ p.nodes.size)
    (hi : q.Made p.nodes.size z i) : q.Sprouts lo (xs ++ [(z, i)]) :=
  h.append hpq hlo (.single hi)

theorem Sprouts.le (h : p.Sprouts lo (x :: xs)) : lo ≤ p.nodes.size := (h.made x mem_cons_self).le

theorem Sprouts.swap {y : Zone × NodeId} (h : p.Sprouts lo [x, y]) : p.Sprouts lo [y, x] :=
  h.perm (.swap ..)

theorem Sprouts.pair {k : NodeId} (hi : p.Made lo z i) (hpq : p.Retains q) (hlo : lo ≤ p.nodes.size)
    (hk : q.Made p.nodes.size z' k) : q.Sprouts lo [(z, i), (z', k)] :=
  (Sprouts.single hi).snoc hpq hlo hk

theorem Sprouts.valid (h : p.Sprouts lo (p.parts z i form)) :
    ∀ x ∈ p.inner form, p.nodes.Valid x := by
  intro x hx
  obtain ⟨z', hz'⟩ := exists_zone hx z i
  exact (h.made _ hz').valid

theorem Made.node (hpq : p.Retains q) (hraw : q.Raw z (q.form i)) (hraw' : p.Raw z (q.form i))
    (hparts : p.Sprouts lo (p.parts z i (q.form i))) (hlo : lo ≤ p.nodes.size)
    (hnew : ¬ p.nodes.Valid i) (hvalid : q.nodes.Valid i) (hfree : ¬ q.Taken i) :
    q.Made lo z i := by
  have hq := hparts.step hpq
  have hparts' := parts_of_grows (i := i) hpq.vars hpq.lambdas hraw'
  have hinner := inner_of_grows hpq.vars hpq.lambdas hraw'
  have hbelow {j : NodeId} (hj : q.Below i j) : i = j ∨ ∃ x ∈ p.parts z i (q.form i),
      q.Below x.2 j := by
    refine hj.cases.imp_right fun ⟨x, hx, hj⟩ => ?_
    obtain ⟨z', hz'⟩ := exists_zone (hinner ▸ hx) z i
    exact ⟨(z', x), hz', hj⟩
  refine ⟨?_, fun j hj => ?_, fun j hj => ?_⟩
  · have hlevels : p.nodes.size - lo + 1 ≤ q.nodes.size - lo := by
      have hlt : i.index < q.nodes.size := hvalid
      have hge : p.nodes.size ≤ i.index := Nat.not_lt.1 hnew
      omega
    refine Tree.mono (.node hraw ?_ fun x hx => ?_) hlevels
    · rw [hinner, ← map_snd_parts p z i]
      exact hq.apart
    · rw [hparts'] at hx
      have hx' := hparts.made x hx
      exact (hx'.tree.congr hpq.vars hpq.lambdas (fun _ => hpq.targets) fun j hj =>
        hpq.forms j (hx'.since j hj).2).1
  · rcases hbelow hj with rfl | ⟨x, hx, hj⟩
    · exact ⟨Nat.le_trans hlo (Nat.not_lt.1 hnew), hvalid⟩
    · exact (hq.made x hx).since j hj
  · rcases hbelow hj with rfl | ⟨x, hx, hj⟩
    · exact hfree
    · exact (hq.made x hx).free j hj

theorem Made.finish {body : List NodeId} (hform : q.form i = .block body ∨ q.form i = .loop body)
    (hforms : ∀ j, j ≠ i → q.form j = p.form j) (hnodes : q.nodes.size = p.nodes.size)
    (hvars : q.vars = p.vars) (hlambdas : q.lambdas = p.lambdas) (hi : (p.form i).isTarget)
    (htaken : ∀ j, q.Taken j → p.Taken j)
    (hparts : p.Sprouts (i.index + 1) (body.map (z.entering i, ·))) (hfree : ¬ p.Taken i) :
    q.Made i.index z i := by
  have hgv : p.vars.Grows q.vars := hvars ▸ .refl _
  have hgl : p.lambdas.Grows q.lambdas := hlambdas ▸ .refl _
  have htarget : (q.form i).isTarget := by rcases hform with h | h <;> rw [h] <;> rfl
  have htargets (j : NodeId) (hj : (p.form j).isTarget) : (q.form j).isTarget := by
    by_cases h : j = i
    · exact h ▸ htarget
    · exact (hforms j h).symm ▸ hj
  have hparts_eq : q.parts z i (q.form i) = body.map (z.entering i, ·) := by
    rcases hform with h | h <;> rw [h] <;> rfl
  have hinner : q.inner (q.form i) = body := by rcases hform with h | h <;> rw [h] <;> rfl
  have hraw : q.Raw z (q.form i) := by rcases hform with h | h <;> rw [h] <;> trivial
  have hvalid : p.nodes.Valid i := valid_of_isTarget hi
  have hkept {j : NodeId} (hj : p.nodes.Valid j) : q.nodes.Valid j :=
    Nat.lt_of_lt_of_eq hj hnodes.symm
  have hpart (x : NodeId) (hx : x ∈ body) :
      q.Tree (p.nodes.size - (i.index + 1)) (z.entering i) x ∧ ∀ j, q.Below x j → p.Below x j := by
    have hmade := hparts.made (z.entering i, x) (mem_map_of_mem hx)
    refine hmade.tree.congr hgv hgl htargets fun j hj => hforms j ?_
    rintro rfl
    exact Nat.lt_irrefl _ (hmade.since _ hj).1
  refine ⟨?_, fun j hj => ?_, fun j hj hj' => ?_⟩
  · have hlevels : q.nodes.size - i.index = p.nodes.size - (i.index + 1) + 1 := by
      have hlt : i.index < p.nodes.size := hvalid
      omega
    rw [hlevels]
    refine .node hraw ?_ fun x hx => ?_
    · rw [hinner]
      have hapart := hparts.apart
      simp only [map_map, Function.comp_def, map_id'] at hapart
      exact hapart.imp_of_mem fun hx hy hxy j hjx hjy =>
        hxy j ((hpart _ hx).2 j hjx) ((hpart _ hy).2 j hjy)
    · rw [hparts_eq] at hx
      obtain ⟨y, hy, rfl⟩ := mem_map.1 hx
      exact (hpart y hy).1
  · rcases hj.cases with rfl | ⟨x, hx, hj⟩
    · exact ⟨Nat.le_refl _, hkept hvalid⟩
    · rw [hinner] at hx
      obtain ⟨hlo, hv⟩ := (hparts.made (z.entering i, x) (mem_map_of_mem hx)).since j
        ((hpart x hx).2 j hj)
      exact ⟨Nat.le_of_succ_le hlo, hkept hv⟩
  · rcases hj.cases with rfl | ⟨x, hx, hj⟩
    · exact hfree (htaken _ hj')
    · rw [hinner] at hx
      exact (hparts.made (z.entering i, x) (mem_map_of_mem hx)).free j ((hpart x hx).2 j hj)
        (htaken j hj')

end Program

end ClassLang
