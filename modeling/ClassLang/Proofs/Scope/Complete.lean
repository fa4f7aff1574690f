import ClassLang.Proofs.Regions

namespace ClassLang.Program

variable {p0 p : Program} {r : Root} {d j : NodeId}

def roots (p : Program) : List Root :=
  p.bodyRoots ++ (p.params.ids.map .param ++ p.classes.ids.map .bases)

def arity (p : Program) : Target → Nat
  | .cls c => (p.classes.get c).params.length
  | .param _ => 0

theorem head_of_roots (h : r ∈ p.roots) : r ∈ p.bodyRoots ∨ r.isHead := by
  rcases List.mem_append.1 h with h | h
  · exact .inl h
  · right
    rcases List.mem_append.1 h with h | h <;> obtain ⟨x, _, rfl⟩ := List.mem_map.1 h <;> rfl

/-- Bodies are bound last, and bounds and bases keep what they were bound to before. -/
theorem Bindings.explicit (h : p0.Bindings p) (hr : r ∈ p.roots) (hd : d ∈ p.rootParts r) :
    p.Explicit (p0.Below d) d := by
  have hakin := h.stage.akin
  rw [hakin.rootParts] at hd
  rcases head_of_roots hr with hr | hr
  · obtain ⟨_, _, hscoped⟩ := h.settled r (hakin.bodyRoots ▸ hr) d hd
    exact hscoped.explicit
  · exact h.heads r hr d hd

theorem Formed.length_args {inst : Inst} (h : p.Formed inst) :
    inst.args.length = p.arity inst.target := by
  obtain ⟨target, args⟩ := inst
  cases target with
  | cls c => exact h.2
  | param a =>
    cases h.2
    rfl

/-- In the text of all declarations no name is left, and each class reference stands for the
instance of its target at the instances that its arguments stand for, as many as the target takes.
-/
theorem resolve_completes (h : p.Resolved) (hr : r ∈ p.roots) (hd : d ∈ p.rootParts r)
    (hj : p.Below d j) :
    (∀ name, p.form j ≠ .name name) ∧ (∀ name value, p.form j ≠ .setName name value) ∧
    ∀ name target args inst, p.form j = .classRef name target args inst →
      ∃ t i insts, target = some t ∧ inst = some i ∧ p.insts.Valid i ∧
        p.insts.get i = ⟨t, insts⟩ ∧ List.Forall₂ p.Refers args insts ∧
        args.length = p.arity t := by
  obtain ⟨p₀, _, _, hbindings⟩ := h.bindings
  have hj := (hbindings.explicit hr hd).definite hj
  refine ⟨fun name he => ?_, fun name value he => ?_, fun name target args inst he => ?_⟩
  · rw [he] at hj
    exact hj
  · rw [he] at hj
    exact hj
  · rw [he] at hj
    obtain ⟨i, hi, hv, htarget, hargs⟩ := hj
    refine ⟨_, i, _, htarget, hi, hv, rfl, hargs, ?_⟩
    rw [hargs.length_eq]
    exact (hbindings.stage.instances.formed i hv).length_args

def genericText : String := "class P { } class C(T: P) { } class D { +C(P) }"

theorem resolve_completes_base :
    (ofText genericText).form ⟨3⟩ = .classRef ⟨6⟩ (some (.cls ⟨1⟩)) [⟨2⟩] (some ⟨1⟩) ∧
      ∃ insts, (ofText genericText).insts.get ⟨1⟩ = ⟨.cls ⟨1⟩, insts⟩ ∧
      List.Forall₂ (ofText genericText).Refers [⟨2⟩] insts ∧
      1 = (ofText genericText).arity (.cls ⟨1⟩) := by
  have hrun : resolves genericText = true ∧ .bases ⟨2⟩ ∈ (ofText genericText).roots ∧
      ⟨3⟩ ∈ (ofText genericText).rootParts (.bases ⟨2⟩) ∧
      (ofText genericText).form ⟨3⟩ = .classRef ⟨6⟩ (some (.cls ⟨1⟩)) [⟨2⟩] (some ⟨1⟩) := by
    decide +kernel
  have h := resolved_ofText genericText hrun.1
  generalize ofText genericText = p at h hrun ⊢
  obtain ⟨_, hr, hd, hform⟩ := hrun
  obtain ⟨_, _, hrefs⟩ := resolve_completes h hr hd (.refl _)
  obtain ⟨_, _, insts, ⟨⟩, ⟨⟩, _, hget, hargs, harity⟩ := hrefs _ _ _ _ hform
  exact ⟨hform, insts, hget, hargs, harity⟩

end ClassLang.Program
