import ClassLang.Proofs.Typing.Coverage
import ClassLang.Proofs.Typing.Safety

namespace ClassLang

open TypeTable

theorem TypeTable.plain_of_not_cold {T : TypeTable} {n : Nat} (hs : TypeTable.Sound T n)
    (hT : ∀ t c, T.get t ≠ .cold c) {t : TypeId} (ht : T.Valid t) : Plain T t := by
  induction h : t.index using Nat.strongRecOn generalizing t with
  | ind k ih =>
    subst h
    refine .node ht (fun _ _ => trivial) (fun c hc => hT t c hc) fun u hu => ?_
    exact ih u.index (hs.parts t u hu) (hs.valid_part ht hu) rfl

namespace Program

variable {p q : Program} {G : Atlas} {a : List ParamId} {t u : TypeId}

inductive Unfolds (p : Program) (t : TypeId) : TypeId → Prop
  | refl : Unfolds p t t
  | part {u w : TypeId} : Unfolds p t u → w ∈ (p.types.get u).parts → Unfolds p t w
  | signature {u w : TypeId} {c : ColdId} : Unfolds p t u → p.types.get u = .cold c →
      (p.colds.lookup c).signature = some w → Unfolds p t w

def Confined (p : Program) (a : List ParamId) (t : TypeId) : Prop :=
  ∀ u, p.Unfolds t u → ∀ i, (p.types.get u).inst? = some i → p.Within a i

/-- Where other parameters can be mentioned than in the class of a field, the field is used only if
its type has no placeholders. -/
def Discreet (p q : Program) : Prop :=
  ∀ o i f d t, p.Stands o i → p.Accesses q o i f → (p.vars.get f).init = some d →
    q.slot d = .fixed t → Plain q.types t ∨ p.formals (p.vars.get f).owner? = p.formals o

theorem Discreet.sealed (h : p.Discreet q) : p.Sealed p.atlas q := by
  rintro g i f d t ⟨r, hr, ho, _, x, hx, hbelow⟩
  exact h g.owner i f d t ⟨r, hr, ho, x, mem_rootParts_of_portion hx, hbelow⟩

theorem Discreet.of_not_cold {n : Nat} (hs : TypeTable.Sound q.types n)
    (hslots : ∀ i t, q.slot i = .fixed t → q.types.Valid t) (h : ∀ t c, q.types.get t ≠ .cold c) :
    p.Discreet q :=
  fun _ _ _ d t _ _ _ ht => .inl (plain_of_not_cold hs h (hslots d t ht))

section Unfolding

variable (htame : p.Tame G q) (hsealed : p.Sealed G q) (halike : p.Alike q) (hcolds : q.ColdsSound)
include htame hsealed halike hcolds

/-- The signature of a placeholder speaks as its lambdas do. -/
theorem Tame.unfolds (ht : q.Speaks a false t) (hu : q.Unfolds t u) : q.Speaks a false u := by
  induction hu with
  | refl => exact ht
  | part _ hw ih => exact Over.part ih hw
  | @signature u w c _ hget hw ih =>
    obtain ⟨_, l, hl, hformals⟩ := Over.cold ih hget
    have hspeaks := htame.signatures (q.colds.find c) w hw l (hcolds.placed l c hl).2
      fun _ => hsealed
    rw [← halike.lambdaOwner, ← halike.formals, hformals] at hspeaks
    exact hspeaks

theorem Tame.confined (ht : q.Speaks a false t) : q.Confined a t :=
  fun _ hu _ hi => Over.inst (htame.unfolds hsealed halike hcolds ht hu) hi

end Unfolding

end Program

namespace Typing

variable {p : Program}

/-- Types mention the parameters of the class around only, if placeholders do not get out of the
classes of their lambdas over fields. This goes for the nodes of the text and for those that weaken
one of them. -/
theorem check_confines (h : p.Resolved) (hok : p.check.result = .ok ())
    (hdiscreet : p.Discreet p.check.program) {o : Option ClassId} {i : NodeId} (hi : p.Stands o i) :
    (∀ t, p.check.program.slot i = .fixed t → p.check.program.Confined (p.formals o) t) ∧
    ∀ x t, ¬ p.nodes.Valid x → p.check.program.form x = .toWeak i →
      p.check.program.slot x = .fixed t → p.check.program.Confined (p.formals o) t := by
  have htyped := typed_of_check h hok
  have htame := htyped.sound.tame
  have hsealed := hdiscreet.sealed
  obtain ⟨s, hprogram, _, hstep, _⟩ := check_ok h hok
  have halike := hstep.inv.alike
  have hcolds := hstep.inv.coherent.colds
  rw [hprogram] at halike hcolds
  obtain ⟨b, hg⟩ := htyped.region hi
  refine ⟨fun t ht => ?_, fun x t hx hform ht => ?_⟩
  · exact htame.confined hsealed halike hcolds (htame.nodes _ i t hg ht fun _ => hsealed).loosen
  · exact htame.confined hsealed halike hcolds
      (htame.weak _ x i t hx hform hg ht fun _ => hsealed).loosen

def fieldText : String := "class P { } class B(T) { x = ?T; } b = B(P); b.x"

theorem check_confines_field : (Program.ofText fieldText).check.program.Confined [] ⟨13⟩ := by
  have hrun : Program.resolves fieldText = true ∧ (Program.ofText fieldText).check.result = .ok () ∧
      .function ⟨0⟩ ∈ (Program.ofText fieldText).bodyRoots ∧
      ⟨0⟩ ∈ (Program.ofText fieldText).rootParts (.function ⟨0⟩) ∧
      ⟨8⟩ ∈ (Program.ofText fieldText).inner ((Program.ofText fieldText).form ⟨0⟩) ∧
      ⟨7⟩ ∈ (Program.ofText fieldText).inner ((Program.ofText fieldText).form ⟨8⟩) ∧
      (Program.ofText fieldText).check.program.slot ⟨7⟩ = .fixed ⟨13⟩ ∧
      ∀ t ∈ (Program.ofText fieldText).check.program.types.ids,
      TypeTable.isCold (Program.ofText fieldText).check.program.types t = false := by
    decide +kernel
  have h := Program.resolved_ofText fieldText hrun.1
  generalize Program.ofText fieldText = p at h hrun ⊢
  obtain ⟨_, hok, hroot, hbody, hlocal, hread, hslot, hnone⟩ := hrun
  have hcoherent := (check_complete h hok).1
  have hdiscreet : p.Discreet p.check.program := by
    refine .of_not_cold hcoherent.tables.types hcoherent.nodeTypes fun t c hc => ?_
    exact nomatch (hnone t (Arena.mem_ids.2 (TypeTable.valid_of_get hc nofun))).symm.trans
      (isCold_of_get hc)
  have hstands : p.Stands none ⟨7⟩ :=
    ⟨_, hroot, rfl, ⟨0⟩, hbody, .head hlocal (.head hread (.refl _))⟩
  exact (check_confines h hok hdiscreet hstands).1 ⟨13⟩ hslot

def leakText : String := "class C(T) { x = ?T; f = (a) { x }; } class P { } c = C(P); c.f(1)"

/-- The application has the type of the lambda's body, which mentions the parameter. -/
theorem check_confines_leak :
    (Program.ofText leakText).Resolved ∧ (Program.ofText leakText).check.result = .ok () ∧
      (Program.ofText leakText).Stands none ⟨12⟩ ∧
      (Program.ofText leakText).check.program.slot ⟨12⟩ = .fixed ⟨13⟩ ∧
      ¬ (Program.ofText leakText).check.program.Confined [] ⟨13⟩ := by
  have hrun : Program.resolves leakText = true ∧ (Program.ofText leakText).check.result = .ok () ∧
      .function ⟨0⟩ ∈ (Program.ofText leakText).bodyRoots ∧
      ⟨0⟩ ∈ (Program.ofText leakText).rootParts (.function ⟨0⟩) ∧
      ⟨13⟩ ∈ (Program.ofText leakText).inner ((Program.ofText leakText).form ⟨0⟩) ∧
      ⟨12⟩ ∈ (Program.ofText leakText).inner ((Program.ofText leakText).form ⟨13⟩) ∧
      (Program.ofText leakText).check.program.slot ⟨12⟩ = .fixed ⟨13⟩ ∧
      ⟨12⟩ ∈ ((Program.ofText leakText).check.program.types.get ⟨13⟩).parts ∧
      ((Program.ofText leakText).check.program.types.get ⟨12⟩).inst? = some ⟨0⟩ ∧
      ((Program.ofText leakText).check.program.insts.get ⟨0⟩).target = .param ⟨0⟩ := by
    decide +kernel
  have h := Program.resolved_ofText leakText hrun.1
  generalize Program.ofText leakText = p at h hrun ⊢
  obtain ⟨_, hok, hroot, hbody, hlocal, hcall, hslot, hpart, hinst, htarget⟩ := hrun
  refine ⟨h, hok, ⟨_, hroot, rfl, ⟨0⟩, hbody, .head hlocal (.head hcall (.refl _))⟩, hslot,
    fun hconfined => ?_⟩
  obtain ⟨_, hparams, _⟩ := hconfined ⟨12⟩ (.part .refl hpart) ⟨0⟩ hinst
  exact nomatch hparams ⟨0⟩ htarget

end Typing

end ClassLang
