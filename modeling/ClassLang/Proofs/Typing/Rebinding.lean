import ClassLang.Proofs.Scope.Idempotent
import ClassLang.Proofs.Typing.Safety

namespace ClassLang

namespace Program

variable {p : Program} {S : NodeId → Prop} {e : Setting} {o : Option ClassId} {i j : NodeId}

/-- All that is below a node is in the same class, lambdas included. -/
theorem Scoped.descend (h : p.Scoped S e i) (hj : p.Below i j) :
    ∃ d, d.owner = e.owner ∧ p.Scoped S d j := by
  induction hj with
  | refl => exact ⟨e, rfl, h⟩
  | tail _ hx ih =>
    obtain ⟨d, hd, hscoped⟩ := ih
    obtain ⟨d', hd', hscoped'⟩ := hscoped.part hx
    exact ⟨d', hd'.trans hd, hscoped'⟩

theorem Stands.bound (h : p.Resolved) (hi : p.Stands o i) :
    ∃ e : Setting, e.owner = o ∧ p.Bound e (p.form i) := by
  obtain ⟨p0, _, _, hbind⟩ := h.bindings
  obtain ⟨r, hr, rfl, d, hd, hbelow⟩ := hi
  have hakin := hbind.stage.akin
  obtain ⟨ts, _, hscoped⟩ := hbind.settled r (hakin.bodyRoots ▸ hr) d (hakin.rootParts r ▸ hd)
  rw [← hakin.rootOwner] at hscoped
  obtain ⟨e, he, hscoped⟩ := hscoped.descend hbelow
  exact ⟨e, he, hscoped.bound⟩

end Program

namespace Typing

variable {p : Program} {o : Option ClassId} {i : NodeId}

/-- A member that is named without receiver is the one of this name in the class around, and it is
still the same one when types have been found. -/
theorem check_rebinds (h : p.Resolved) (hok : p.check.result = .ok ()) (hi : p.Stands o i)
    (hknown : p.check.program.Known i) :
    (∀ name field, p.form i = .getField none name field →
      ∃ c f path, o = some c ∧ field = some f ∧
        (p.classes.get c).members.lookup name = .one ⟨.field f, path⟩ ∧
        p.check.program.form i = .getField none name (some f)) ∧
    (∀ name field value, p.form i = .setField none name field value →
      ∃ c f path value', o = some c ∧ field = some f ∧
        (p.classes.get c).members.lookup name = .one ⟨.field f, path⟩ ∧
        p.check.program.form i = .setField none name (some f) value') ∧
    (∀ m, p.form i = .delegate none m →
      ∃ c path, o = some c ∧
        (p.classes.get c).members.lookup (p.methods.get m).name = .one ⟨.method m, path⟩ ∧
        p.check.program.form i = .delegate none m) ∧
    ∀ m args d, p.form i = .callMethod none m args d →
      ∃ c path args' d', o = some c ∧
        (p.classes.get c).members.lookup (p.methods.get m).name = .one ⟨.method m, path⟩ ∧
        p.check.program.form i = .callMethod none m args' d' := by
  have htyped := typed_of_check h hok
  obtain ⟨b, hg⟩ := htyped.region hi
  have hsame := (htyped.sound.finished _ i hg hknown).rebound
  obtain ⟨e, rfl, hbound⟩ := hi.bound h
  refine ⟨fun name field hform => ?_, fun name field value hform => ?_, fun m hform => ?_,
    fun m args d hform => ?_⟩ <;> rw [hform] at hsame hbound
  · obtain ⟨c, f, path, ho, hlookup, rfl⟩ := hbound
    exact ⟨c, f, path, ho, rfl, hlookup, hsame⟩
  · obtain ⟨c, f, path, ho, hlookup, rfl⟩ := hbound
    obtain ⟨value', hvalue⟩ := hsame
    exact ⟨c, f, path, value', ho, rfl, hlookup, hvalue⟩
  · obtain ⟨c, path, ho, hlookup⟩ := hbound
    exact ⟨c, path, ho, hlookup, hsame⟩
  · obtain ⟨c, path, ho, hlookup⟩ := hbound
    obtain ⟨args', d', hcall⟩ := hsame
    exact ⟨c, path, args', d', ho, hlookup, hcall⟩

def closureText : String := "class A { x = 1; } class C { +A get() int { f = () { x }; f() } }"

theorem check_rebinds_closure :
    ∃ path,
      ((Program.ofText closureText).classes.get ⟨1⟩).members.lookup ⟨2⟩ =
        .one ⟨.field ⟨0⟩, path⟩ ∧
      (Program.ofText closureText).check.program.form ⟨6⟩ = .getField none ⟨2⟩ (some ⟨0⟩) := by
  have hrun : Program.resolves closureText = true ∧ (Program.ofText closureText).check.result = .ok
      () ∧ .method ⟨0⟩ ∈ (Program.ofText closureText).bodyRoots ∧
      (Program.ofText closureText).rootOwner (.method ⟨0⟩) = some ⟨1⟩ ∧
      ⟨4⟩ ∈ (Program.ofText closureText).rootParts (.method ⟨0⟩) ∧
      ⟨10⟩ ∈ (Program.ofText closureText).inner ((Program.ofText closureText).form ⟨4⟩) ∧
      ⟨7⟩ ∈ (Program.ofText closureText).inner ((Program.ofText closureText).form ⟨10⟩) ∧
      ⟨5⟩ ∈ (Program.ofText closureText).inner ((Program.ofText closureText).form ⟨7⟩) ∧
      ⟨6⟩ ∈ (Program.ofText closureText).inner ((Program.ofText closureText).form ⟨5⟩) ∧
      (Program.ofText closureText).check.program.slot ⟨6⟩ = .fixed ⟨0⟩ ∧
      (Program.ofText closureText).form ⟨6⟩ = .getField none ⟨2⟩ (some ⟨0⟩) := by
    decide +kernel
  have h := Program.resolved_ofText closureText hrun.1
  generalize Program.ofText closureText = p at h hrun ⊢
  obtain ⟨_, hok, hroot, howner, hbody, hlocal, hlambda, hblock, hread, hslot, hform⟩ := hrun
  have hstands : p.Stands (some ⟨1⟩) ⟨6⟩ :=
    ⟨_, hroot, howner, ⟨4⟩, hbody,
      .head hlocal (.head hlambda (.head hblock (.head hread (.refl _))))⟩
  obtain ⟨c, f, path, hc, hf, hlookup, hform⟩ :=
    (check_rebinds h hok hstands ⟨_, hslot⟩).1 _ _ hform
  cases hc
  cases hf
  exact ⟨path, hlookup, hform⟩

end Typing

end ClassLang
