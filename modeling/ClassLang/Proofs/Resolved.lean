import ClassLang.Proofs.Load.Places
import ClassLang.Proofs.Scope.Resolve

namespace ClassLang.Program

variable {p : Program}

inductive Loaded : Program → Prop
  | empty : Loaded {}
  | load {p : Program} {provide : String → Option String} {texts : Nat} {root : String}
      {i : ModuleId} :
      Loaded p → (p.load provide texts root).result = .ok i →
        Loaded (p.load provide texts root).program

inductive Resolved : Program → Prop
  | resolve {p : Program} : Loaded p → p.resolve.result = .ok () → Resolved p.resolve.program

theorem Loaded.inscribed (h : Loaded p) : p.Inscribed fun _ _ => True := by
  induction h with
  | empty => exact ⟨placed_true _, bodied_empty, grown_empty⟩
  | load _ hok ih => exact load_inscribed ih _ _ hok

theorem Loaded.grown (h : Loaded p) : p.Grown := h.inscribed.grown

theorem Loaded.bodied (h : Loaded p) : p.Bodied := h.inscribed.bodied

theorem Resolved.bindings (h : Resolved p) :
    ∃ (p0 : Program) (O : NodeId → Prop), p0.Sown O ∧ p0.Bindings p := by
  cases h with
  | @resolve p0 hload hok =>
    obtain ⟨O, h⟩ := hload.grown
    exact ⟨p0, O, h.sown, resolve_bindings h.sown h.shaped h.untyped hok⟩

theorem Resolved.raw (h : Resolved p) : p.Shaped ∧ p.Untyped := by
  obtain ⟨_, _, _, hbind⟩ := h.bindings
  exact ⟨hbind.stage.linked.shaped, hbind.stage.linked.untyped⟩

def ofText (text : String) : Program := (loadText {} "test" text).program.resolve.program

def resolves (text : String) : Bool :=
  (loadText {} "test" text).result.toOption.isSome &&
    (loadText {} "test" text).program.resolve.result.toOption.isSome

theorem loaded_of_resolves {text : String} (h : resolves text = true) :
    (loadText {} "test" text).program.Loaded ∧
      (loadText {} "test" text).program.resolve.result = .ok () := by
  rw [resolves, Bool.and_eq_true] at h
  constructor
  · cases hr : (loadText {} "test" text).result with
    | ok i => exact .load .empty hr
    | error e =>
      rw [hr] at h
      cases h.1
  · cases hr : (loadText {} "test" text).program.resolve.result with
    | ok u => rfl
    | error e =>
      rw [hr] at h
      cases h.2

theorem resolved_ofText (text : String) (h : resolves text = true) : (ofText text).Resolved := by
  obtain ⟨hload, hok⟩ := loaded_of_resolves h
  exact .resolve hload hok

end ClassLang.Program
