import ClassLang.Proofs.Load.Places
import ClassLang.Proofs.Typing.Dispatch

namespace ClassLang

namespace Program

variable {p q : Program} {c d : ClassId} {m n : MethodId} {built : List ClassId}

theorem Resolved.bodied (h : p.Resolved) : p.Bodied := by
  cases h with
  | @resolve p0 hload hok =>
    obtain ⟨O, hgrown⟩ := hload.grown
    have hakin := (resolve_bindings hgrown.sown hgrown.shaped hgrown.untyped hok).stage.akin
    intro m hm
    rw [hakin.methodBase] at hm
    rw [hakin.methodBody]
    exact hload.bodied m hm

theorem isSome_body (h : p.Sound p.atlas q) (m : MethodId) :
    (q.methods.get m).body.isSome = (p.methods.get m).body.isSome := by
  have hrel {b b' : Option NodeId} (hb : Option.Rel (p.Passed q) b b') : b'.isSome = b.isSome := by
    cases hb <;> rfl
  exact hrel (h.methodBodies m)

theorem Reimplements.alike (h : p.Reimplements c m n) (hq : p.Alike q) : q.Reimplements c m n := by
  obtain ⟨b, hb, hn, hm⟩ := h
  have hover : (q.methods.get n).overrides = (p.methods.get n).overrides :=
    (congrArg Method.overrides (hq.method n) :)
  exact ⟨b, by rwa [hq.bases], hn, by rwa [hover]⟩

theorem Reimplements.base (h : p.Reimplements c m n) (hw : p.Wired) :
    (p.methods.get n).base.isSome := by
  obtain ⟨b, hb, hn, _⟩ := h
  exact hw.overload_base (List.mem_flatMap.2 ⟨b, hb, hn⟩)

theorem line_alike (hq : p.Alike q) (c : ClassId) : q.line c = p.line c := by
  rw [line, hq.ancestors, line]

/-- All entries come from overrides in the class and its ancestors. -/
theorem mem_dispatch (hw : p.Wired) (hd : ∀ d, p.classes.Valid d → p.Dispatched built q d)
    (hc : p.classes.Valid c) (h : (m, n) ∈ (q.classes.get c).dispatch) :
    ∃ d ∈ p.line c, p.Reimplements d m n := by
  have hlookup := (orderly_dispatch hw hd hc).mem_iff.1 h
  obtain ⟨hline, hreimplements⟩ := (selects_of_lookup hw hd hc hlookup).owner hw hc
  exact ⟨_, hline, hreimplements⟩

/-- A class that is no interface has an entry for every method without a body above it. -/
theorem Dispatched.exists_entry (h : p.Dispatched built q c)
    (hclass : (p.classes.get c).isInterface = false) {a : ClassId}
    (ha : a ∈ (p.classes.get c).ancestors) (hm : m ∈ (p.classes.get a).methods)
    (hbody : (p.methods.get m).body = none) :
    ∃ n, (q.classes.get c).dispatch.lookup m = some n := by
  have hnone := h.implemented.resolve_left (by simp [hclass])
  cases hlookup : (q.classes.get c).dispatch.lookup m with
  | some n => exact ⟨n, rfl⟩
  | none =>
    have hmem : m ∈ Typing.unimplemented p c (q.classes.get c).dispatch :=
      List.mem_flatMap.2 ⟨a, ha, List.mem_filter.2 ⟨hm, by simp [hbody, hlookup]⟩⟩
    rw [hnone] at hmem
    cases hmem

end Program

namespace Typing

variable {p : Program}

/-- In a class that is no interface, each method without a body that comes from an ancestor has an
entry, with a body, which the class or an ancestor gives for a base. In any class, what has an entry
stands outside of all bases, and runs what is given for a base in place of it. -/
theorem check_implements (h : p.Resolved) (hok : p.check.result = .ok ()) (c : ClassId) :
    ((p.check.program.classes.get c).isInterface = false →
      ∀ a ∈ (p.check.program.classes.get c).ancestors,
      ∀ m ∈ (p.check.program.classes.get a).methods, (p.check.program.methods.get m).body = none →
        ∃ n, (p.check.program.classes.get c).dispatch.lookup m = some n ∧
          (p.check.program.methods.get n).body.isSome ∧
          ∃ d ∈ p.check.program.line c, p.check.program.Reimplements d m n) ∧
    ∀ m n, (m, n) ∈ (p.check.program.classes.get c).dispatch →
      (∃ e, m ∈ (p.check.program.classes.get e).methods) ∧
      (p.check.program.methods.get m).base = none ∧
      (p.check.program.methods.get n).base.isSome ∧
      ∃ d ∈ p.check.program.line c, p.check.program.Reimplements d m n := by
  have htyped := typed_of_check h hok
  obtain ⟨built, hbuilt⟩ := htyped.dispatched
  obtain ⟨s, hprogram, _, hstep, _⟩ := check_ok h hok
  have halike : p.Alike p.check.program := hprogram ▸ hstep.inv.alike
  have hmethods (e : ClassId) : (p.check.program.classes.get e).methods =
    (p.classes.get e).methods := (congrArg ClassDef.methods (halike.cls e) :)
  have hbase (m : MethodId) : (p.check.program.methods.get m).base = (p.methods.get m).base :=
    (congrArg Method.base (halike.method m) :)
  by_cases hc : p.classes.Valid c
  · refine ⟨fun hclass a ha m hm hbody => ?_, fun m n hmem => ?_⟩
    · have hclass' : (p.classes.get c).isInterface = false :=
        (congrArg ClassDef.isInterface (halike.cls c) :).symm.trans hclass
      have hbody' : (p.methods.get m).body = none := by
        rw [← Option.not_isSome_iff_eq_none, ← Program.isSome_body htyped.sound, hbody]
        simp
      obtain ⟨n, hn⟩ := (hbuilt c hc).exists_entry hclass' (halike.ancestors c ▸ ha)
        (hmethods a ▸ hm) hbody'
      have hmem := (Program.orderly_dispatch h.wired hbuilt hc).mem_iff.2 hn
      obtain ⟨d, hd, hreimplements⟩ := Program.mem_dispatch h.wired hbuilt hc hmem
      refine ⟨n, hn, ?_, d, Program.line_alike halike c ▸ hd, hreimplements.alike halike⟩
      rw [Program.isSome_body htyped.sound]
      exact h.bodied n (hreimplements.base h.wired)
    · obtain ⟨d, hd, hreimplements⟩ := Program.mem_dispatch h.wired hbuilt hc hmem
      obtain ⟨e, howns⟩ := h.wired.overridden hreimplements.choose_spec.2.2
      refine ⟨⟨e, hmethods e ▸ howns⟩, ?_, ?_, d, Program.line_alike halike c ▸ hd,
        hreimplements.alike halike⟩
      · rw [hbase]
        exact (h.wired.owned.methods e m howns).2.2
      · rw [hbase]
        exact hreimplements.base h.wired
  · have hdefault : p.check.program.classes.get c = default := by
      refine Arena.get_of_not_valid fun hv => hc ?_
      exact Nat.lt_of_lt_of_eq hv halike.classesSize
    rw [hdefault]
    exact ⟨fun _ _ ha => (nomatch ha), fun _ _ hm => (nomatch hm)⟩

def sharedText : String :=
  "interface I { m(); k(); } interface A { +I { m() {} } } class C { +A { k() {} } }"

/-- The class has an entry also for the method that it does not give. -/
theorem check_implements_shared :
    ∃ n, ((Program.ofText sharedText).check.program.classes.get ⟨2⟩).dispatch.lookup ⟨0⟩ = some n ∧
      ((Program.ofText sharedText).check.program.methods.get n).body.isSome ∧
      ∃ d ∈ (Program.ofText sharedText).check.program.line ⟨2⟩,
        (Program.ofText sharedText).check.program.Reimplements d ⟨0⟩ n := by
  have hrun : Program.resolves sharedText = true ∧ (Program.ofText sharedText).check.result = .ok
      () ∧ ((Program.ofText sharedText).check.program.classes.get ⟨2⟩).isInterface = false ∧
      ⟨0⟩ ∈ ((Program.ofText sharedText).check.program.classes.get ⟨2⟩).ancestors ∧
      ⟨0⟩ ∈ ((Program.ofText sharedText).check.program.classes.get ⟨0⟩).methods ∧
      ((Program.ofText sharedText).check.program.methods.get ⟨0⟩).body = none := by
    decide +kernel
  have h := Program.resolved_ofText sharedText hrun.1
  obtain ⟨_, hok, hclass, ha, hm, hbody⟩ := hrun
  exact (check_implements h hok ⟨2⟩).1 hclass ⟨0⟩ ha ⟨0⟩ hm hbody

end Typing

end ClassLang
