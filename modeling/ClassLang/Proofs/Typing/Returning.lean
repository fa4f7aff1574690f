import ClassLang.Proofs.Typing.Branches
import ClassLang.Proofs.Typing.Jumps

namespace ClassLang

open List

namespace Program

variable {p p0 : Program} {G : Atlas} {vs ws : List VarId} {w : VarId} {i : NodeId} {k : Nat}
  {ks : List Nat} {y z : List VarId × NodeId}

section Opens

theorem map_snd_openings (vs : List VarId) (form : Form) :
    (p.openings vs form).map Prod.snd = p.inner form := by
  cases form <;> simp [openings, inner, Form.children, Function.comp_def]

/-- Where the steps of a way lead from `i`, and what the block around the end introduced before it.
-/
def opened (p : Program) (vs : List VarId) (i : NodeId) : List Nat → Option (List VarId × NodeId)
  | [] => some (vs, i)
  | k :: ks => (p.openings vs (p.form i))[k]?.bind fun x => p.opened x.1 x.2 ks

theorem opened_cons : p.opened vs i (k :: ks) = some z ↔
    ∃ y, (p.openings vs (p.form i))[k]? = some y ∧ p.opened y.1 y.2 ks = some z := by
  simp [opened, Option.bind_eq_some_iff]

theorem descend_of_opened (h : p.opened vs i ks = some z) : p.descend i ks = some z.2 := by
  induction ks generalizing vs i with
  | nil =>
    cases h
    rfl
  | cons k ks ih =>
    obtain ⟨y, hy, hz⟩ := opened_cons.1 h
    refine descend_cons.2 ⟨y.2, ?_, ih hz⟩
    rw [← map_snd_openings vs, getElem?_map, hy]
    rfl

theorem opened_concat (h : p.opened vs i ks = some y)
    (hz : (p.openings y.1 (p.form y.2))[k]? = some z) : p.opened vs i (ks ++ [k]) = some z := by
  induction ks generalizing vs i with
  | nil =>
    cases h
    exact opened_cons.2 ⟨z, hz, rfl⟩
  | cons l ks ih =>
    obtain ⟨x, hx, hy⟩ := opened_cons.1 h
    exact opened_cons.2 ⟨x, hx, ih hy⟩

theorem Opens.way (h : p.Opens vs i) : ∃ w : Way, ∃ d, (p.rootParts w.root)[w.start]? = some d ∧
    p.opened [] d w.steps = some (vs, i) := by
  induction h with
  | @start r i hi =>
    obtain ⟨m, hm⟩ := mem_iff_getElem?.1 hi
    exact ⟨⟨r, m, []⟩, i, hm, rfl⟩
  | inside _ hx ih =>
    obtain ⟨⟨r, m, ks⟩, d, hd, hi⟩ := ih
    obtain ⟨k, hk⟩ := mem_iff_getElem?.1 hx
    exact ⟨⟨r, m, ks ++ [k]⟩, d, hd, opened_concat hi hk⟩

/-- Only one way leads to an action, so that the variables introduced in the block around it are
determined. -/
theorem Opens.unique (hp : p.Parted) (hvs : p.Opens vs i) (hws : p.Opens ws i) : vs = ws := by
  obtain ⟨a, d, hd, hi⟩ := hvs.way
  obtain ⟨b, e, he, hi'⟩ := hws.way
  have ha : p.reach a = some i := reach_eq_some.2 ⟨d, hd, descend_of_opened hi⟩
  have hb : p.reach b = some i := reach_eq_some.2 ⟨e, he, descend_of_opened hi'⟩
  cases hp.reach_unique ha hb
  cases hd.symm.trans he
  cases hi.symm.trans hi'
  rfl

theorem Resolved.parted (h : p.Resolved) : p.Parted := by
  cases h with
  | resolve hload hok =>
    obtain ⟨O, hgrown⟩ := hload.grown
    exact hgrown.sown.parted.links (resolve_links hgrown.ground hgrown.ground.spans hok).1

end Opens

theorem Sound.getVar_iff (h : p0.Sound G p) (hi : p.Known i) :
    p.form i = .getVar w ↔ p0.form i = .getVar w := by
  refine ⟨fun hform => ?_, fun hform => ?_⟩
  · obtain ⟨_, _, hsame⟩ := h.form_of_known hi (by rw [hform]; rfl) (by rw [hform]; nofun)
    exact hsame.trans hform
  · obtain ⟨g, hg⟩ := h.region hi (Program.valid_of_form hform nofun)
    cases h.forms g i hg with
    | same hsame => exact hsame.trans hform
    | other hre _ _ _ =>
      rw [hform] at hre
      cases hre

end Program

namespace Typing

variable {p : Program} {n : NodeId} {v : VarId} {body : List NodeId} {t : TypeId}

/-- What introduces a variable has the type of the variable that it ends in reading, if the block
around it introduced that variable, and else the type of its last statement. So no other variable is
given back as an owner. -/
theorem check_hands_back (h : p.Resolved) (hok : p.check.result = .ok ())
    (hform : p.check.program.form n = .letIn v body) (hslot : p.check.program.slot n = .fixed t) :
    ∃ vs, (∀ us, p.Opens us n ↔ us = vs) ∧
      (∀ w ∈ v :: vs, body.getLast?.map p.check.program.form = some (.getVar w) →
        (p.check.program.vars.get w).slot = .fixed t) ∧
      ((∀ w ∈ v :: vs, body.getLast?.map p.check.program.form ≠ some (.getVar w)) →
        p.check.program.Brings body.getLast? t) ∧
      ∀ w x, body.getLast?.map p.check.program.form = some (.getVar w) →
        p.check.program.types.get t = .ref .own x → w ∈ v :: vs := by
  obtain ⟨hcoherent, _, hdone⟩ := check_complete h hok
  obtain ⟨s, hprogram, _, hstep, _⟩ := check_ok h hok
  have hsound := (typed_of_check h hok).sound
  have halike : p.Alike p.check.program := hprogram ▸ hstep.keeps.alike
  obtain ⟨g, hg, hsame⟩ :=
    hsound.form_of_known ⟨t, hslot⟩ (by rw [hform]; rfl) (by rw [hform]; nofun)
  have hlast (w : VarId) : body.getLast?.map p.check.program.form = some (.getVar w) ↔
      body.getLast?.map p.form = some (.getVar w) := by
    obtain ⟨_, _, hclosed, _⟩ := hdone n ⟨t, hslot⟩
    simp only [Option.map_eq_some_iff]
    refine exists_congr fun x => and_congr_right fun hx => hsound.getVar_iff (hclosed.children x ?_)
    rw [hform]
    exact mem_of_getLast? hx
  simp only [hlast, ne_eq]
  obtain ⟨vs, hopens, hread, helse⟩ :=
    ((hsound.finished g n hg ⟨t, hslot⟩).verdict t hslot).hands v body (hsame.trans hform)
  refine ⟨vs, fun us => ⟨fun hus => hus.unique h.parted hopens, fun hus => hus ▸ hopens⟩,
    fun w hw hget => ?_, helse, fun w x hget hown => ?_⟩
  · obtain ⟨⟨u, hu⟩, hrole, d, hinit, hd⟩ := hread w hw hget
    have htyped := (Program.varTyped_local ((halike.role w).trans hrole)
      ((halike.init w).trans hinit)).1 (hcoherent.vars w u hu)
    exact hu.trans (htyped.symm.trans hd)
  · by_contra hw
    have hbrings := helse fun w' hw' hget' => hw (by cases hget.symm.trans hget'; exact hw')
    obtain ⟨x₀, hx₀, hread⟩ := Option.map_eq_some_iff.1 hget
    rw [hx₀] at hbrings
    obtain ⟨r, hr⟩ := hsound.region ⟨t, hbrings⟩ (Program.valid_of_form hread nofun)
    exact ((hsound.finished r x₀ hr ⟨t, hbrings⟩).verdict t hbrings).lends w hread x hown

def givingText : String :=
  "class P { } a = P; f = (P x) { y = P; x }; b = { c = P; d = a; c }; { e = a; a }"

/-- The one gives an owner, and the other does not. -/
theorem check_hands_back_giving :
    (Program.ofText givingText).check.program.types.get ⟨6⟩ = .ref .own ⟨0⟩ ∧
      (∃ vs, (∀ us, (Program.ofText givingText).Opens us ⟨11⟩ ↔ us = vs) ∧ ⟨4⟩ ∈ ⟨5⟩ :: vs) ∧
      ∃ vs, (∀ us, (Program.ofText givingText).Opens us ⟨16⟩ ↔ us = vs) ∧ ⟨0⟩ ∉ ⟨7⟩ :: vs := by
  have hrun : Program.resolves givingText = true ∧ (Program.ofText givingText).check.result = .ok
      () ∧ (Program.ofText givingText).check.program.types.get ⟨6⟩ = .ref .own ⟨0⟩ ∧
      (Program.ofText givingText).check.program.form ⟨11⟩ = .letIn ⟨5⟩ [⟨10⟩] ∧
      (Program.ofText givingText).check.program.slot ⟨11⟩ = .fixed ⟨6⟩ ∧
      (Program.ofText givingText).check.program.form ⟨10⟩ = .getVar ⟨4⟩ ∧
      (Program.ofText givingText).check.program.form ⟨16⟩ = .letIn ⟨7⟩ [⟨15⟩] ∧
      (Program.ofText givingText).check.program.slot ⟨16⟩ = .fixed ⟨7⟩ ∧
      (Program.ofText givingText).check.program.form ⟨15⟩ = .getVar ⟨0⟩ ∧
      ((Program.ofText givingText).check.program.vars.get ⟨0⟩).slot = .fixed ⟨6⟩ := by
    decide +kernel
  have h := Program.resolved_ofText givingText hrun.1
  generalize Program.ofText givingText = p at h hrun ⊢
  obtain ⟨_, hok, hown, hinner, hinner', hread, houter, houter', hread', hvar⟩ := hrun
  obtain ⟨vs, hopens, _, _, howner⟩ := check_hands_back h hok hinner hinner'
  obtain ⟨us, hopens', hlocal, _⟩ := check_hands_back h hok houter houter'
  refine ⟨hown, ⟨vs, hopens, howner _ _ (congrArg some hread) hown⟩, us, hopens', fun hmem => ?_⟩
  cases hvar.symm.trans (hlocal _ hmem (congrArg some hread'))

end Typing

end ClassLang
