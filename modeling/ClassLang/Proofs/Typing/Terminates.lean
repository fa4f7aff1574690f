import ClassLang.Proofs.Typing.Sound.Program

namespace ClassLang

namespace Program

variable {p : Program}

/-- What the check goes down along without marking what it has seen has no infinite chains: from a
type expression to its parts, from types and instances to those they are made of, from placeholders
to those they were merged into. -/
structure Grounded (p : Program) : Prop where
  exprs : WellFounded fun x i => (p.form i).isType ∧ x ∈ (p.form i).children
  types : WellFounded fun u t => u ∈ (p.types.get t).parts
  insts : WellFounded fun a i => a ∈ (p.insts.get i).args
  merges : WellFounded fun d c => (p.colds.get c).forward = some d

theorem wellFounded_merges {t : ColdTable} (h : t.Rooted) :
    WellFounded fun d c => (t.get c).forward = some d := by
  refine ⟨fun c => ?_⟩
  obtain ⟨n, r, hleads⟩ := h.leads c
  induction hleads with
  | root hnone => exact ⟨_, fun d hd => nomatch hnone.symm.trans hd⟩
  | step hsome _ ih => exact ⟨_, fun d hd => Option.some.inj (hsome.symm.trans hd) ▸ ih⟩

/-- What is made of others comes after them. -/
theorem Coherent.grounded (h : p.Coherent) : p.Grounded where
  exprs := Subrelation.wf (fun hx => h.ordered _ hx.1 _ hx.2) (measure Id.index).wf
  types := Subrelation.wf (fun hu => h.tables.types.parts _ _ hu) (measure Id.index).wf
  insts := Subrelation.wf (fun ha => h.tables.insts _ _ ha) (measure Id.index).wf
  merges := wellFounded_merges h.colds.rooted

theorem Laid.acc {order : List ClassId} (h : p.Laid order) {c : ClassId} (hc : c ∈ order) :
    Acc (fun d c => p.HasBase c d) c := by
  induction order generalizing c with
  | nil => cases hc
  | cons d order ih =>
    obtain ⟨_, _, hbases, hrest⟩ := h
    rcases List.mem_cons.1 hc with rfl | hc
    · exact ⟨_, fun e ⟨i, he⟩ => ih hrest (hbases _ he)⟩
    · exact ih hrest hc

theorem Wired.wellFounded_bases (h : p.Wired) : WellFounded fun d c => p.HasBase c d := by
  obtain ⟨order, hlaid, horder⟩ := h.laid
  refine ⟨fun c => ⟨c, fun d ⟨i, hd⟩ => ?_⟩⟩
  exact (hlaid.acc ((horder c).2 (valid_of_mem_basesOf hd))).inv ⟨i, hd⟩

end Program

namespace Typing

variable {p : Program}

/-- A check that gives up at any depth does so with tables that are well-founded. -/
theorem allWith_grounded (h : p.Resolved) (n : Nat) :
    (((allWith (engine n)).run {}).outcome p).program.Grounded := by
  refine Yields.outcome_either (m := allWith (engine n) {}) (R := fun s => s.program.Grounded) ?_
  exact (allWith_yields h n).imp (fun _ _ h => h.1.inv.coherent.grounded) fun _ _ h =>
    h.coherent.grounded

/-- The check ends. It never goes deeper than there are nodes and lambdas, so what would happen
further down is all the same; and what it goes through at one depth is well-founded. The rule of a
node is entered once. -/
theorem check_terminates (h : p.Resolved) :
    (∀ (bottom : Engine) (n : Nat), p.nodes.size + 2 * p.lambdas.size < n →
      ((allWith (engineOver bottom n)).run {}).outcome p = p.check) ∧
    (Event.typings p.check.events).Nodup ∧ WellFounded (fun d c => p.HasBase c d) ∧
    ∀ n, (((allWith (engine n)).run {}).outcome p).program.Grounded := by
  refine ⟨fun bottom n hn => ?_, ?_, h.wired.wellFounded_bases, allWith_grounded h⟩
  · have hsame := allWith_eq_all h bottom hn
    unfold Program.check Pass.outcome EStateM.run ReaderT.run
    rw [hsame]
  · refine Yields.outcome_either (m := all {}) (R := fun s => (Event.typings s.events).Nodup) ?_
    exact (check_yields h).imp (fun _ _ hs => hs.2.1.once.nodup) fun _ _ hs => hs.entered

def reusedText : String := "class C { x = y; y = f(1); f = (a) { a }; } c = C(); c.f(2)"

def blindEngine : Engine where
  find _ := return TypeId.void
  fix _ _ _ := return TypeId.void
  assign _ _ _ := return .direct

theorem check_terminates_reused :
    ((allWith (engineOver blindEngine 18)).run {}).outcome (Program.ofText reusedText) =
      (Program.ofText reusedText).check ∧
    Event.typings (Program.ofText reusedText).check.events =
      [1, 4, 2, 7, 3, 5, 6, 0, 14, 9, 13, 10, 11, 12] ∧
    (Event.typings (Program.ofText reusedText).check.events).Nodup := by
  have hrun : Program.resolves reusedText = true ∧
      (Program.ofText reusedText).nodes.size + 2 * (Program.ofText reusedText).lambdas.size < 18 ∧
      Event.typings (Program.ofText reusedText).check.events =
      [1, 4, 2, 7, 3, 5, 6, 0, 14, 9, 13, 10, 11, 12] := by
    decide +kernel
  have h := Program.resolved_ofText reusedText hrun.1
  obtain ⟨_, hsize, htypings⟩ := hrun
  exact ⟨(check_terminates h).1 blindEngine 18 hsize, htypings, (check_terminates h).2.1⟩

end Typing

end ClassLang
