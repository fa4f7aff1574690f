import ClassLang.Proofs.Typing.Sound.Program

namespace ClassLang

namespace Marks

structure KeptBesides (exempt : VarId → Prop) (m m' : Marks) : Prop where
  nodes : ∀ i t, m.nodes.get i = .fixed t → m'.nodes.get i = .fixed t
  vars : ∀ v t, ¬ exempt v → m.vars.get v = .fixed t → m'.vars.get v = .fixed t
  methods : ∀ d t, m.methods.get d = .fixed t → m'.methods.get d = .fixed t
  functions : ∀ d t, m.functions.get d = .fixed t → m'.functions.get d = .fixed t

variable {exempt : VarId → Prop} {m m' m'' : Marks} {w : Write} {ws : List Write}

theorem KeptBesides.refl (m : Marks) : m.KeptBesides exempt m :=
  ⟨fun _ _ => id, fun _ _ _ => id, fun _ _ => id, fun _ _ => id⟩

theorem KeptBesides.trans (h : m.KeptBesides exempt m') (h' : m'.KeptBesides exempt m'') :
    m.KeptBesides exempt m'' where
  nodes i t ht := h'.nodes i t (h.nodes i t ht)
  vars v t hv ht := h'.vars v t hv (h.vars v t hv ht)
  methods d t ht := h'.methods d t (h.methods d t ht)
  functions d t ht := h'.functions d t (h.functions d t ht)

theorem Kept.besides (h : m.Kept m') : m.KeptBesides exempt m' :=
  ⟨h.nodes, fun v t _ => h.vars v t, h.methods, h.functions⟩

/-- A second type can only go to a parameter or to a placeholder. -/
theorem keptBesides_of_refixes (h : m.Refixes w) (hw : ∀ v t, w = .param v t → exempt v) :
    m.KeptBesides exempt (w.mark m) := by
  have hm : m.KeptBesides exempt m := .refl m
  cases w with
  | param v t =>
    refine { hm with vars := fun u s hu hs => ?_ }
    have hne : v ≠ u := fun he => hu (he ▸ hw v t rfl)
    exact (Arena.get_modify_of_ne hne).trans hs
  | signature c t => exact { hm with }
  | _ => exact h.elim

theorem Throughout.of_mem {P : Write → Prop} (h : ∀ w ∈ ws, P w) :
    m.Throughout (fun _ w => P w) ws := by
  induction ws with
  | nil => trivial
  | cons w ws ih => exact ⟨h w List.mem_cons_self, ih fun x hx => h x (List.mem_cons_of_mem w hx)⟩

end Marks

def Program.Undeclared (p : Program) (v : VarId) : Prop :=
  (p.vars.get v).role = .param ∧ (p.vars.get v).init = none

namespace Typing

variable {p : Program} {s : PassState}

theorem Logged.keptBesides (h : Logged p s) :
    p.marks.Throughout (fun m w => m.KeptBesides p.Undeclared (w.mark m)) s.writes := by
  have hbare : p.marks.Throughout (fun _ w => ∀ v t, w = .param v t → p.Undeclared v) s.writes :=
    .of_mem fun w hw v t he => h.bare v t (he ▸ hw)
  refine (h.clean.and hbare).imp fun m w ⟨hclean, hw⟩ => ?_
  rcases hclean with hkept | hrefixes
  · exact hkept.besides
  · exact Marks.keptBesides_of_refixes hrefixes hw

/-- Nodes, methods, functions and all variables but parameters without declared types keep the types
they get, at every point of a check. Nothing else changes either exactly if no parameter and no
placeholder gets a second type, and so if no placeholder is merged while its lambdas are being typed
and none with a signature is applied again. -/
theorem check_history (h : p.Resolved) :
    p.marks.replay p.check.writes = p.check.program.marks ∧
    (p.marks.WriteOnce p.check.writes ↔
      p.marks.Throughout (fun m w => ¬ m.Refixes w) p.check.writes) ∧
    (p.marks.Calm p.check.writes → p.marks.Fresh p.check.writes →
      p.marks.WriteOnce p.check.writes) ∧
    ∀ earlier later, later <:+ p.check.writes → earlier <:+ later →
      (p.marks.replay earlier).KeptBesides p.Undeclared (p.marks.replay later) := by
  obtain ⟨s, hprogram, hwrites, hlog⟩ := check_logged h
  rw [← hprogram, ← hwrites]
  have hiff := Marks.writeOnce_iff_of_clean hlog.clean
  refine ⟨hlog.replay, hiff, fun hcalm hfresh => hiff.2 (hlog.once hcalm hfresh),
    fun earlier later hl he => ?_⟩
  exact Marks.kept_of_throughout Marks.KeptBesides.refl (fun _ _ _ => Marks.KeptBesides.trans)
    (hlog.keptBesides.of_suffix hl) he

def onceText : String := "f = (a) { a; 1.0 }; f(1)"

theorem check_history_of_once :
    (Program.ofText onceText).marks.WriteOnce (Program.ofText onceText).check.writes := by
  have hrun : Program.resolves onceText = true ∧ (Program.ofText onceText).marks.Calm
      (Program.ofText onceText).check.writes ∧ (Program.ofText onceText).marks.Fresh
      (Program.ofText onceText).check.writes := by
    decide +kernel
  have h := Program.resolved_ofText onceText hrun.1
  generalize Program.ofText onceText = p at h hrun ⊢
  exact (check_history h).2.2.1 hrun.2.1 hrun.2.2

def twiceText : String := "f = (a) { a; 1.0 }; f(f(1))"

/-- The parameter is an integer first and a double in the end. -/
theorem check_history_of_twice :
    (Program.ofText twiceText).Resolved ∧
      ¬ (Program.ofText twiceText).marks.WriteOnce (Program.ofText twiceText).check.writes := by
  have hrun : Program.resolves twiceText = true ∧
      ((Program.ofText twiceText).marks.replay
        ((Program.ofText twiceText).check.writes.drop 7)).vars.get ⟨0⟩ = .fixed TypeId.int ∧
      ((Program.ofText twiceText).marks.replay (Program.ofText twiceText).check.writes).vars.get
      ⟨0⟩ = .fixed TypeId.double := by
    decide +kernel
  have h := Program.resolved_ofText twiceText hrun.1
  generalize Program.ofText twiceText = p at h hrun ⊢
  obtain ⟨_, hint, hdouble⟩ := hrun
  refine ⟨h, fun honce => ?_⟩
  have hkept := (honce _ _ (List.suffix_refl _) (List.drop_suffix 7 _)).vars ⟨0⟩ TypeId.int hint
  exact nomatch hkept.symm.trans hdouble

end Typing

end ClassLang
