import ClassLang.Proofs.Scope.Idempotent
import ClassLang.Proofs.Typing.Sound.Program
import ClassLang.Proofs.Ways

namespace ClassLang

open List

namespace Program

variable {p q : Program} {W : List VarId → NodeId → Prop} {r : Root} {i j x y : NodeId}

section Names

/-- Where actions at most lose parts, ways stay unique. -/
theorem Parted.of_sublist (h : p.Parted)
    (hinner : ∀ i, (q.inner (q.form i)).Sublist (p.inner (p.form i)))
    (hroots : ∀ r, q.rootParts r = p.rootParts r) : q.Parted := by
  have hbelow {i j : NodeId} (hj : q.Below i j) : p.Below i j :=
    Relation.ReflTransGen.mono (fun k x hx => (hinner k).subset hx) _ _ hj
  have hapart {x y : NodeId} (hxy : p.Apart x y) : q.Apart x y :=
    fun j hx hy => hxy j (hbelow hx) (hbelow hy)
  refine ⟨fun i x hx hi => ?_, fun i hi => ?_, fun r => ?_, fun r s hrs x hx y hy => ?_⟩
  · exact h.acyclic i x ((hinner i).subset hx) (hbelow hi)
  · obtain ⟨r, d, hd, hi⟩ := hi
    have hparts := h.parts i ⟨r, d, hroots r ▸ hd, hbelow hi⟩
    exact (hparts.sublist (hinner i)).imp hapart
  · rw [hroots]
    exact (h.starts r).imp hapart
  · rw [hroots] at hx hy
    exact hapart (h.roots r s hrs x hx y hy)

/-- A call that turns into one of what it names loses the name, and nothing else loses a part. -/
theorem Parted.links (h : p.Parted) (hq : p.Links W q) : q.Parted := by
  refine h.of_sublist (fun i => ?_) hq.akin.rootParts
  rcases inner_of_turns hq.akin.vars hq.akin.lambdas (hq.forms i)
    with hsame | ⟨callee, args, hform, _, hargs⟩
  · rw [hsame]
  · rw [hargs, hform]
    exact sublist_cons_self callee args

end Names

section Types

variable {xs : List NodeId} {a b : NodeId}

theorem Alike.paramTypes (h : p.Alike q) (params : List VarId) :
    q.paramTypes params = p.paramTypes params := by
  simp only [Program.paramTypes, h.init]

theorem Alike.inner (h : p.Alike q) (form : Form) : q.inner form = p.inner form := by
  cases form <;> simp only [Program.inner, h.init, h.lambdaParams, h.lambdaBody, h.paramTypes]

theorem inner_of_isReform {form : Form} (h : Typing.isReform form) :
    p.inner form = form.children := by
  cases form <;> first | rfl | cases h

/-- An action that lost a part for a part of it still has parts from different places. -/
theorem Carries.inside (h : p.Carries i xs) (hre : Typing.isReform (p.form i)) :
    (∀ x ∈ xs, ∃ y ∈ p.inner (p.form i), p.Below y x) ∧
      ((p.inner (p.form i)).Pairwise p.Apart → xs.Pairwise p.Apart) := by
  cases h with
  | all =>
    rw [inner_of_isReform hre]
    exact ⟨fun x hx => ⟨x, hx, .refl x⟩, id⟩
  | @member callee base name args hform hcallee =>
    have hbase : ∀ b ∈ base.toList, p.Below callee b :=
      fun b hb => .child (by rw [hcallee]; exact hb)
    rw [hform]
    refine ⟨forall_mem_append.2 ⟨fun b hb => ?_, fun x hx => ?_⟩, fun hapart => ?_⟩
    · exact ⟨callee, mem_cons_self, hbase b hb⟩
    · exact ⟨x, mem_cons_of_mem _ hx, .refl x⟩
    · obtain ⟨hhead, hargs⟩ := pairwise_cons.1 hapart
      refine pairwise_append.2 ⟨?_, hargs, fun b hb x hx j hj => ?_⟩
      · cases base <;> simp
      · exact hhead x hx j ((hbase b hb).trans hj)

variable (h : p.Sound p.atlas q) (hp : p.Shaped) (hq : p.Alike q)
include h hp hq

omit hp in
/-- The parts of an action after types were found: they stand for actions in the text of its parts,
from different places. -/
theorem Sound.parts (hi : p.nodes.Valid i) :
    ∃ xs, (∀ x ∈ xs, ∃ y ∈ p.inner (p.form i), p.Below y x) ∧
      ((p.inner (p.form i)).Pairwise p.Apart → xs.Pairwise p.Apart) ∧
      Forall₂ (p.Passed q) xs (q.inner (q.form i)) := by
  have hsame (hform : q.form i = p.form i) :
      ∃ xs, (∀ x ∈ xs, ∃ y ∈ p.inner (p.form i), p.Below y x) ∧
      ((p.inner (p.form i)).Pairwise p.Apart → xs.Pairwise p.Apart) ∧
      Forall₂ (p.Passed q) xs (q.inner (q.form i)) := by
    rw [hform, hq.inner]
    exact ⟨_, fun x hx => ⟨x, hx, .refl x⟩, id, passed_refl _⟩
  by_cases hg : ∃ g, p.atlas g i
  · obtain ⟨g, hg⟩ := hg
    cases h.forms g i hg with
    | same hform => exact hsame hform
    | other h0 hre _ hgrown =>
      obtain ⟨xs, hcarries, hpassed⟩ := hgrown
      obtain ⟨hinside, hapart⟩ := hcarries.inside h0
      rw [inner_of_isReform hre]
      exact ⟨xs, hinside, hapart, hpassed⟩
  · exact hsame (h.fresh i hi (h.quiet i hi fun g hi => hg ⟨g, hi⟩))

/-- All that is in the text of an action then stands for something that was in its text before. -/
theorem Sound.origin (hx : p.nodes.Valid x) (hpassed : p.Passed q x y) (hj : q.Below y j) :
    ∃ i, p.Below x i ∧ p.Passed q i j := by
  induction hj with
  | refl => exact ⟨x, .refl x, hpassed⟩
  | @tail j k _ hk ih =>
    obtain ⟨i, hi, rfl | ⟨_, _, hform⟩⟩ := ih
    · obtain ⟨xs, hinside, _, hparts⟩ := h.parts hq (hi.valid hp hx)
      obtain ⟨k0, hk0, hpassed'⟩ := exists_of_forall₂ hparts hk
      obtain ⟨y0, hy0, hbelow⟩ := hinside k0 hk0
      exact ⟨k0, hi.trans (.head hy0 hbelow), hpassed'⟩
    · rw [hform] at hk
      exact ⟨i, hi, .inl (mem_singleton.1 hk)⟩

section

variable (ha : p.nodes.Valid a) (hb : p.nodes.Valid b) (hx : p.Passed q a x)
include ha hb hx

omit h hp hq in
theorem Passed.unique (hx' : p.Passed q b x) : a = b := by
  rcases hx with rfl | ⟨hnew, _, hform⟩
  · rcases hx' with hx' | ⟨hnew, _⟩
    · exact hx'
    · exact absurd ha hnew
  · rcases hx' with rfl | ⟨_, _, hform'⟩
    · exact absurd hb hnew
    · cases hform.symm.trans hform'
      rfl

theorem Sound.apart (hy : p.Passed q b y) (hapart : p.Apart a b) : q.Apart x y := by
  intro j hxj hyj
  obtain ⟨k, hak, hk⟩ := h.origin hp hq ha hx hxj
  obtain ⟨l, hbl, hl⟩ := h.origin hp hq hb hy hyj
  have hsame := Passed.unique (hak.valid hp ha) (hbl.valid hp hb) hk hl
  subst hsame
  exact hapart k hak hbl

end

theorem Sound.pairwise_apart {ys : List NodeId} (hxs : ∀ x ∈ xs, p.nodes.Valid x)
    (hys : Forall₂ (p.Passed q) xs ys) (hapart : xs.Pairwise p.Apart) : ys.Pairwise q.Apart := by
  induction hys with
  | nil => exact .nil
  | @cons a x xs ys hx hys ih =>
    obtain ⟨hhead, htail⟩ := pairwise_cons.1 hapart
    obtain ⟨ha, hxs⟩ := forall_mem_cons.1 hxs
    refine pairwise_cons.2 ⟨fun y hy => ?_, ih hxs htail⟩
    obtain ⟨b, hb, hpassed⟩ := exists_of_forall₂ hys hy
    exact h.apart hp hq ha (hxs b hb) hx hpassed (hhead b hb)

omit hp in
theorem Sound.rootParts (r : Root) : Forall₂ (p.Passed q) (p.rootParts r) (q.rootParts r) := by
  have hbody {b b' : Option NodeId} (hb : Option.Rel (p.Passed q) b b') :
      Forall₂ (p.Passed q) b.toList b'.toList := by
    cases hb with
    | some hb => exact .cons hb .nil
    | none => exact .nil
  cases r with
  | field v =>
    simp only [Program.rootParts, Var.fieldInit, hq.role, hq.init]
    exact passed_refl _
  | method m =>
    simp only [Program.rootParts, hq.methodParams, hq.methodResult, hq.paramTypes]
    exact rel_append (passed_refl _) (hbody (h.methodBodies m))
  | function f =>
    simp only [Program.rootParts, hq.functionParams, hq.functionResult, hq.paramTypes]
    exact rel_append (passed_refl _) (hbody (h.functionBodies f))
  | param a =>
    rw [Program.rootParts, Program.rootParts, hq.params]
    exact passed_refl _
  | bases c =>
    rw [Program.rootParts, Program.rootParts, hq.bases]
    exact passed_refl _

/-- An action that was there before is not in the text of its parts, as those stand for actions in
its text. -/
theorem Sound.acyclic_of_valid (hacyclic : ∀ i, ∀ x ∈ p.inner (p.form i), ¬ p.Below x i)
    (hi : p.nodes.Valid i) (hx : x ∈ q.inner (q.form i)) : ¬ q.Below x i := by
  intro hxi
  obtain ⟨xs, hinside, _, hparts⟩ := h.parts hq hi
  obtain ⟨a, ha, hpassed⟩ := exists_of_forall₂ hparts hx
  obtain ⟨y, hy, hya⟩ := hinside a ha
  have hvalid : p.nodes.Valid a := hya.valid hp (hp.valid_of_inner hy)
  obtain ⟨k, hak, hk⟩ := h.origin hp hq hvalid hpassed hxi
  have hsame := Passed.unique (hak.valid hp hvalid) hi hk (.inl rfl)
  subst hsame
  exact hacyclic k y hy (hya.trans hak)

/-- New actions weaken values, each at one place, and calls of methods lose the access to the
method. -/
theorem Parted.typed (hparted : p.Parted) (hvalid : ∀ r, ∀ x ∈ p.rootParts r, p.nodes.Valid x) :
    q.Parted := by
  refine ⟨fun i x hx hi => ?_, fun i hi => ?_, fun r => ?_, fun r s hrs x hx y hy => ?_⟩
  · have hv : q.nodes.Valid i := Arena.valid_of_get_ne fun hd => by
      rw [form, hd] at hx
      cases hx
    rcases h.wraps i hv with hv | ⟨a, ha, hform⟩
    · exact h.acyclic_of_valid hp hq hparted.acyclic hv hx hi
    · -- What is weakened was there before, and it would be in the text of its parts, too.
      have hxa : x = a := by
        rw [hform] at hx
        exact mem_singleton.1 hx
      subst hxa
      rcases hi.cases with rfl | ⟨y, hy, hyi⟩
      · exact h.acyclic_of_valid hp hq hparted.acyclic ha hx (.refl _)
      · exact h.acyclic_of_valid hp hq hparted.acyclic ha hy (hyi.tail hx)
  · obtain ⟨r, d, hd, hi⟩ := hi
    obtain ⟨a, ha, hpassed⟩ := exists_of_forall₂ (h.rootParts hq r) hd
    obtain ⟨k, hak, rfl | ⟨_, _, hform⟩⟩ := h.origin hp hq (hvalid r a ha) hpassed hi
    · have hk := hak.valid hp (hvalid r a ha)
      obtain ⟨xs, hinside, hapart, hparts⟩ := h.parts hq hk
      refine h.pairwise_apart hp hq (fun x hx => ?_) hparts
        (hapart (hparted.parts _ ⟨r, a, ha, hak⟩))
      obtain ⟨y, hy, hyx⟩ := hinside x hx
      exact hyx.valid hp (hp.valid_of_inner hy)
    · rw [hform]
      exact pairwise_singleton _ _
  · exact h.pairwise_apart hp hq (hvalid r) (h.rootParts hq r) (hparted.starts r)
  · obtain ⟨a, ha, hpassed⟩ := exists_of_forall₂ (h.rootParts hq r) hx
    obtain ⟨b, hb, hpassed'⟩ := exists_of_forall₂ (h.rootParts hq s) hy
    exact h.apart hp hq (hvalid r a ha) (hvalid s b hb) hpassed hpassed'
      (hparted.roots r s hrs a ha b hb)

end Types

/-- In each phase, the actions of a program are a forest: as they were read, after names were bound,
and after types were found. -/
theorem phases_branch (h : p.Loaded) :
    p.Branches ∧ (p.resolve.result = .ok () → p.resolve.program.Branches ∧
      (p.resolve.program.check.result = .ok () → p.resolve.program.check.program.Branches)) := by
  obtain ⟨O, hgrown⟩ := h.grown
  have hparted := hgrown.sown.parted
  refine ⟨hparted.branches, fun hok => ?_⟩
  obtain ⟨hlinks, _⟩ := resolve_links hgrown.ground hgrown.ground.spans hok
  have hresolved : p.resolve.program.Resolved := .resolve h hok
  have hparted' := hparted.links hlinks
  refine ⟨hparted'.branches, fun hok' => ?_⟩
  obtain ⟨s, hs, _, hstep, htyped, _⟩ := Typing.check_ok hresolved hok'
  have halike : p.resolve.program.Alike p.resolve.program.check.program := hs ▸ hstep.inv.alike
  refine (hparted'.typed (hs ▸ htyped.sound) hresolved.raw.1 halike fun r x hx => ?_).branches
  rw [hlinks.akin.rootParts] at hx
  rw [Arena.Valid, hlinks.akin.nodes]
  exact hgrown.sown.forest.valid r x hx

def storingText : String := "class P { } class C { p = &P; set(P x) { p := x; } } c = C; c.set(P)"

/-- One way leads to the action that weakens what is stored. -/
theorem phases_branch_storing :
    (ofText storingText).check.program.form ⟨14⟩ = .toWeak ⟨6⟩ ∧
      ∃! w, (ofText storingText).check.program.reach w = some ⟨14⟩ := by
  have hrun : resolves storingText = true ∧ (ofText storingText).check.result = .ok () ∧
      (ofText storingText).check.program.form ⟨14⟩ = .toWeak ⟨6⟩ ∧
      (ofText storingText).check.program.reach ⟨.method ⟨0⟩, 1, [0, 0]⟩ = some ⟨14⟩ := by
    decide +kernel
  obtain ⟨hresolves, hchecks, hform, hreach⟩ := hrun
  obtain ⟨hload, hok⟩ := loaded_of_resolves hresolves
  have hbranches := ((phases_branch hload).2 hok).2 hchecks
  obtain ⟨d, hd, hdescends⟩ := reach_eq_some.1 hreach
  exact ⟨hform, hbranches.unique _ ⟨_, d, List.mem_of_getElem? hd, below_of_descend hdescends⟩⟩

end Program

end ClassLang
