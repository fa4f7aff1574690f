import ClassLang.Proofs.Typing.Sound.Program

namespace ClassLang

variable {i : NodeId} {l : LambdaId}

namespace Program

variable {p : Program}

/-- Where what runs starts: the values of fields, and the bodies of methods and functions, with
those that are the statements of a module. -/
inductive Code (p : Program) : NodeId → Prop
  | field {c : ClassId} {v : VarId} {d : NodeId} :
      v ∈ (p.classes.get c).fields → (p.vars.get v).init = some d → Code p d
  | method {c : ClassId} {m : MethodId} {b : NodeId} :
      m ∈ (p.classes.get c).allMethods → (p.methods.get m).body = some b → Code p b
  | function {f : FunctionId} {b : NodeId} : (p.functions.get f).body = some b → Code p b

inductive Spelling (p : Program) (params : List VarId) (result : Option NodeId) : NodeId → Prop
  | param {v : VarId} {d : NodeId} : v ∈ params → (p.vars.get v).init = some d →
      Spelling p params result d
  | result {r : NodeId} : result = some r → Spelling p params result r

inductive DeclaredType (p : Program) : NodeId → Prop
  | method {c : ClassId} {m : MethodId} {i : NodeId} : m ∈ (p.classes.get c).allMethods →
      Spelling p (p.methods.get m).params (p.methods.get m).result i → DeclaredType p i
  | function {f : FunctionId} {i : NodeId} :
      Spelling p (p.functions.get f).params (p.functions.get f).result i → DeclaredType p i

inductive Reachable (p : Program) (Root : NodeId → Prop) (Enters : LambdaId → Prop) : NodeId → Prop
  | root {i : NodeId} : Root i → Reachable p Root Enters i
  | child {i c : NodeId} : Reachable p Root Enters i → c ∈ (p.form i).children →
      Reachable p Root Enters c
  | init {i d : NodeId} {v : VarId} {body : List NodeId} : Reachable p Root Enters i →
      p.form i = .letIn v body →
      (p.vars.get v).init = some d → Reachable p Root Enters d
  | body {i : NodeId} {l : LambdaId} : Reachable p Root Enters i → p.form i = .lambda l → Enters l →
      Reachable p Root Enters (p.lambdas.get l).body

def Writes (p : Program) (l : LambdaId) : Prop :=
  ∃ i, p.Reachable p.Code (fun _ => True) i ∧ p.form i = .lambda l

/-- If all that has a type is closed, all that is below what has one has one, up to the bodies of
lambdas. -/
theorem Reachable.known {Root : NodeId → Prop} {Enters : LambdaId → Prop}
    (hdone : ∀ i, p.Known i → p.Done i) (hroot : ∀ i, Root i → p.Known i)
    (henter : ∀ i l, p.Reachable Root Enters i → p.Known i → p.form i = .lambda l → Enters l →
      p.LambdaKnown l) (h : p.Reachable Root Enters i) : p.Known i := by
  induction h with
  | root h => exact hroot _ h
  | child _ hc ih =>
    obtain ⟨_, _, hclosed, _⟩ := hdone _ ih
    exact hclosed.children _ hc
  | init _ hlet hinit ih =>
    obtain ⟨_, _, hclosed, _⟩ := hdone _ ih
    exact hclosed.init _ _ hlet _ hinit
  | body hi hlambda hl ih => exact (henter _ _ hi ih hlambda hl).2

/-- A lambda whose parameters all have declared types is typed with its node; any other has to be
applied. -/
theorem Done.lambdaKnown (hi : p.Done i) (hlambda : p.form i = .lambda l)
    (hwaiting : ∀ v ∈ (p.lambdas.get l).params, (p.vars.get v).init = none →
      (∃ c, (p.lambdas.get l).cold = some c) → p.LambdaKnown l) : p.LambdaKnown l := by
  obtain ⟨_, _, hclosed, _⟩ := hi
  cases ha : p.isAnnotated (p.lambdas.get l) with
  | true => exact hclosed.annotated l hlambda ha
  | false =>
    obtain ⟨v, hv, hinit⟩ := List.all_eq_false.1 ha
    exact hwaiting v hv (by simpa using hinit) (hclosed.waiting l hlambda ha)

end Program

namespace Typing

variable {p : Program} {s : PassState} {c : ColdId}

theorem spelling_known (hp : p.Coherent) {params : List VarId} {result : Option NodeId}
    (hspelled : p.Spelled params result) (hi : p.Spelling params result i) : p.Known i := by
  cases hi with
  | param hv hinit => exact hp.known_init (hspelled.params _ hv) hinit
  | result hr => exact hspelled.result i hr

structure Complete (p : Program) : Prop where
  code : ∀ {i}, p.Code i → p.Known i
  declared : ∀ {i}, p.DeclaredType i → p.Known i
  colds : ColdsSigned p

theorem complete_of_typed {p0 : Program} (h : p0.Typed p) (hp0 : p0.Shaped) (halike : p0.Alike p)
    (hp : p.Coherent) (hcolds : ColdsSigned p) : Complete p := by
  have hmethod {d : ClassId} {m : MethodId} (hm : m ∈ (p.classes.get d).allMethods) :
      BodySettled p (p.methods.get m).slot (p.methods.get m).body := by
    rw [halike.allMethods] at hm
    exact (h.classes d (Program.valid_of_mem_allMethods hm)).methods m hm
  have hfunction {f : FunctionId} (hf : p.functions.get f ≠ default) :=
    h.functions f (halike.functionsValid.1 (Arena.valid_of_get_ne hf))
  refine ⟨fun hi => ?_, fun hi => ?_, hcolds⟩
  · cases hi with
    | field hv hd =>
      rw [halike.fields] at hv
      exact hp.known_init ((h.classes _ (Program.valid_of_mem_fields hv)).fields _ hv) hd
    | method hm hb =>
      obtain ⟨t, _, hsettled⟩ := hmethod hm
      exact (hsettled _ hb).known
    | @function f _ hb =>
      have hf := hfunction fun he => by rw [he] at hb; cases hb
      by_cases hentry : p0.IsEntry f
      · obtain ⟨_, u, _, _, hu⟩ := hf.entry hentry _ hb
        exact ⟨u, hu⟩
      · obtain ⟨t, _, hsettled⟩ := hf.declared hentry
        exact (hsettled _ hb).known
  · cases hi with
    | method hm hi =>
      obtain ⟨t, ht, _⟩ := hmethod hm
      exact spelling_known hp (hp.methods _ ⟨t, ht⟩) hi
    | @function f _ hi =>
      have hf := hfunction fun he => by rw [he] at hi; cases hi <;> contradiction
      by_cases hentry : p0.IsEntry f
      · obtain ⟨m, hm⟩ := hentry
        obtain ⟨_, _, hparams, hresult⟩ := hp0.entries m f hm
        rw [halike.functionParams, halike.functionResult, hparams, hresult] at hi
        cases hi <;> contradiction
      · obtain ⟨t, ht, _⟩ := hf.declared hentry
        exact spelling_known hp (hp.functions _ ⟨t, ht⟩) hi

/-- The placeholder of a lambda has a signature in the end. -/
theorem Complete.signature (h : Complete p) (hp : p.ColdsSound)
    (hc : (p.lambdas.get l).cold = some c) :
    ∃ t params result, (p.colds.lookup c).signature = some t ∧
      p.types.get t = .lambda params result := by
  obtain ⟨hvalid, hsite⟩ := hp.placed l c hc
  cases ht : (p.colds.lookup c).signature with
  | none =>
    rw [h.colds c hvalid ht] at hsite
    cases hsite
  | some t =>
    obtain ⟨params, result, hget⟩ := hp.signatures _ t ht
    exact ⟨t, params, result, rfl, hget⟩

section Results

variable (h : p.Resolved) (hok : p.check.result = .ok ())
include h hok

theorem check_complete : p.check.program.Coherent ∧ Complete p.check.program ∧
    ∀ i, p.check.program.Known i → p.check.program.Done i := by
  obtain ⟨s, hprogram, _, hstep, htyped, hcolds⟩ := check_ok h hok
  rw [← hprogram]
  refine ⟨hstep.inv.coherent, complete_of_typed htyped h.raw.1 hstep.inv.alike hstep.inv.coherent
    hcolds, fun i ⟨t, ht⟩ => ?_⟩
  exact (hstep.new i nofun (h.raw.2.nodes i)).resolve_left fun hempty =>
    nomatch hempty.symm.trans ht

/-- Once one parameter without a declared type has got one, all the lambda is typed. -/
theorem lambdaKnown_of_param {v : VarId} (hv : v ∈ (p.check.program.lambdas.get l).params)
    (hinit : (p.check.program.vars.get v).init = none) (hknown : p.check.program.VarKnown v) :
    p.check.program.LambdaKnown l := by
  obtain ⟨s, hprogram, _, hstep, _⟩ := check_ok h hok
  rw [← hprogram] at hv hinit hknown ⊢
  rw [hstep.keeps.alike.lambdaParams] at hv
  rw [hstep.keeps.alike.init] at hinit
  refine hstep.applied l v (by simp) hv hinit ?_ hknown
  rintro ⟨t, ht⟩
  exact nomatch (h.raw.2.vars v).symm.trans ht

/-- Where no placeholder is merged while its lambdas are being typed, all lambdas of a placeholder
are typed. -/
theorem lambdaKnown_of_calm (hcalm : p.marks.Calm p.check.writes)
    (hc : (p.check.program.lambdas.get l).cold = some c) : p.check.program.LambdaKnown l := by
  obtain ⟨_, hcomplete, _⟩ := check_complete h hok
  obtain ⟨s, hprogram, hwrites, hstep, _⟩ := check_ok h hok
  rw [← hwrites] at hcalm
  rw [← hprogram] at hc hcomplete ⊢
  have hcolds := hstep.inv.coherent.colds
  obtain ⟨t, _, _, ht, _⟩ := hcomplete.signature hcolds hc
  have hsigned : (s.program.colds.lookup c).signature ≠ none := by
    rw [ht]
    nofun
  exact hstep.inv.signed hcalm _ (hcolds.rooted.forward_find c) hsigned l (hcolds.placed l c hc).2

end Results

/-- All that has to have a type has one, and so has all that is below what has one, the bodies of
lambdas apart that were not typed. -/
theorem check_closes (h : p.Resolved) (hok : p.check.result = .ok ()) :
    (∀ i, p.check.program.Code i ∨ p.check.program.DeclaredType i → p.check.program.Known i) ∧
    (∀ i, p.check.program.Known i →
      (∀ c ∈ (p.check.program.form i).children, p.check.program.Known c) ∧
      ∀ v body d, p.check.program.form i = .letIn v body →
        (p.check.program.vars.get v).init = some d → p.check.program.Known d) ∧
    ∀ i, p.check.program.Reachable
        (fun r => p.check.program.Code r ∨ p.check.program.DeclaredType r)
        p.check.program.LambdaKnown i →
      p.check.program.Known i := by
  obtain ⟨hcoherent, hcomplete, hdone⟩ := check_complete h hok
  have hroot (i : NodeId) (hi : p.check.program.Code i ∨ p.check.program.DeclaredType i) :
    p.check.program.Known i := hi.elim hcomplete.code hcomplete.declared
  refine ⟨hroot, fun i hi => ?_, fun i hi => hi.known hdone hroot fun _ _ _ _ _ hl => hl⟩
  obtain ⟨_, _, hclosed, _⟩ := hdone i hi
  exact ⟨hclosed.children, fun v body d hlet hinit => hclosed.init v body hlet d hinit⟩

def localText : String := "fn f(int a) int { b = a + 1; b }"

theorem check_closes_local : (Program.ofText localText).check.program.Known ⟨6⟩ := by
  have hrun : Program.resolves localText = true ∧ (Program.ofText localText).check.result = .ok () ∧
      ((Program.ofText localText).check.program.functions.get ⟨0⟩).body = some ⟨3⟩ ∧
      ⟨8⟩ ∈ ((Program.ofText localText).check.program.form ⟨3⟩).children ∧
      (Program.ofText localText).check.program.form ⟨8⟩ = .letIn ⟨1⟩ [⟨7⟩] ∧
      ((Program.ofText localText).check.program.vars.get ⟨1⟩).init = some ⟨6⟩ := by decide +kernel
  have h := Program.resolved_ofText localText hrun.1
  generalize Program.ofText localText = p at h hrun ⊢
  obtain ⟨_, hok, hbody, hlocal, hlet, hinit⟩ := hrun
  exact (check_closes h hok).2.2 ⟨6⟩
    (.init (.child (.root (.inl (.function hbody))) hlocal) hlet hinit)

/-- What has a type has it by its rule. -/
theorem check_obeys (h : p.Resolved) (hok : p.check.result = .ok ()) {i : NodeId} {t : TypeId}
    (hi : p.check.program.slot i = .fixed t) : p.check.program.Rule t (p.check.program.form i) := by
  obtain ⟨_, _, hdone⟩ := check_complete h hok
  obtain ⟨u, hu, _, hrule, _⟩ := hdone i ⟨t, hi⟩
  exact Slot.fixed.inj (hu.symm.trans hi) ▸ hrule

def conditionText : String := "x = 1 + 2; x < 3 ? x : 4"

theorem check_obeys_orElse :
    (Program.ofText conditionText).check.program.Rule TypeId.int (.orElse ⟨8⟩ ⟨9⟩) := by
  have hrun : Program.resolves conditionText = true ∧ (Program.ofText conditionText).check.result =
      .ok () ∧ (Program.ofText conditionText).check.program.slot ⟨10⟩ = .fixed TypeId.int ∧
      (Program.ofText conditionText).check.program.form ⟨10⟩ = .orElse ⟨8⟩ ⟨9⟩ := by
    decide +kernel
  have h := Program.resolved_ofText conditionText hrun.1
  generalize Program.ofText conditionText = p at h hrun ⊢
  obtain ⟨_, hok, hslot, hform⟩ := hrun
  exact hform ▸ check_obeys h hok hslot

/-- All lambdas of the program are typed exactly if no parameter of one of them is left without a
type, and so if no placeholder is merged while its lambdas are being typed. Each placeholder has a
signature in any case. -/
theorem check_types_lambdas (h : p.Resolved) (hok : p.check.result = .ok ()) :
    ((∀ l, p.check.program.Writes l → p.check.program.LambdaKnown l) ↔
      ∀ l, p.check.program.Writes l → ∀ v ∈ (p.check.program.lambdas.get l).params,
        (p.check.program.vars.get v).init = none → p.check.program.VarKnown v) ∧
    (p.marks.Calm p.check.writes →
      ∀ l, p.check.program.Writes l → p.check.program.LambdaKnown l) ∧
    ∀ l c, (p.check.program.lambdas.get l).cold = some c →
      ∃ t params result, (p.check.program.colds.lookup c).signature = some t ∧
        p.check.program.types.get t = .lambda params result := by
  obtain ⟨hcoherent, hcomplete, hdone⟩ := check_complete h hok
  have hall (hl : ∀ i l, p.check.program.Reachable p.check.program.Code (fun _ => True) i →
      p.check.program.Known i → p.check.program.form i = .lambda l → p.check.program.LambdaKnown l)
      (l : LambdaId) (hw : p.check.program.Writes l) : p.check.program.LambdaKnown l := by
    obtain ⟨i, hi, hlambda⟩ := hw
    have hknown := hi.known hdone (fun _ => hcomplete.code) fun i l hi hk hlambda _ =>
      hl i l hi hk hlambda
    exact hl i l hi hknown hlambda
  refine ⟨⟨fun hknown l hw v hv _ => (hknown l hw).1 v hv, fun hparams => hall
    fun i l hi hk hlambda => ?_⟩, fun hcalm => hall fun i l _ hk hlambda => ?_, fun l c hc =>
    hcomplete.signature hcoherent.colds hc⟩
  · refine (hdone i hk).lambdaKnown hlambda fun v hv hinit _ => ?_
    exact lambdaKnown_of_param h hok hv hinit (hparams l ⟨i, hi, hlambda⟩ v hv hinit)
  · refine (hdone i hk).lambdaKnown hlambda fun v _ _ ⟨c, hc⟩ => ?_
    exact lambdaKnown_of_calm h hok hcalm hc

def applicationText : String := "f = (a) { a; 1.0 }; f(1)"

theorem check_types_lambdas_of_application :
    (Program.ofText applicationText).check.program.LambdaKnown ⟨0⟩ := by
  have hrun : Program.resolves applicationText = true ∧
      (Program.ofText applicationText).check.result = .ok () ∧
      (Program.ofText applicationText).marks.Calm (Program.ofText applicationText).check.writes ∧
      ((Program.ofText applicationText).check.program.functions.get ⟨0⟩).body = some ⟨0⟩ ∧
      ⟨8⟩ ∈ ((Program.ofText applicationText).check.program.form ⟨0⟩).children ∧
      (Program.ofText applicationText).check.program.form ⟨8⟩ = .letIn ⟨1⟩ [⟨7⟩] ∧
      ((Program.ofText applicationText).check.program.vars.get ⟨1⟩).init = some ⟨4⟩ ∧
      (Program.ofText applicationText).check.program.form ⟨4⟩ = .lambda ⟨0⟩ := by
    decide +kernel
  have h := Program.resolved_ofText applicationText hrun.1
  generalize Program.ofText applicationText = p at h hrun ⊢
  obtain ⟨_, hok, hcalm, hbody, hlocal, hlet, hinit, hlambda⟩ := hrun
  exact (check_types_lambdas h hok).2.1 hcalm ⟨0⟩
    ⟨⟨4⟩, .init (.child (.root (.function hbody)) hlocal) hlet hinit, hlambda⟩

def joiningText : String := "class C { f = (a) { true ? f : (b) { 1 }; 1 }; }\nc = C; c.f(1)"

/-- The inner lambda never gets a type. -/
theorem check_types_lambdas_of_joining :
    (Program.ofText joiningText).Resolved ∧ (Program.ofText joiningText).check.result = .ok () ∧
      (Program.ofText joiningText).check.program.Writes ⟨0⟩ ∧
      ¬ (Program.ofText joiningText).check.program.LambdaKnown ⟨0⟩ := by
  have hrun : Program.resolves joiningText = true ∧ (Program.ofText joiningText).check.result = .ok
      () ∧ ⟨3⟩ ∈ ((Program.ofText joiningText).check.program.classes.get ⟨0⟩).fields ∧
      ((Program.ofText joiningText).check.program.vars.get ⟨3⟩).init = some ⟨10⟩ ∧
      (Program.ofText joiningText).check.program.form ⟨10⟩ = .lambda ⟨1⟩ ∧
      ((Program.ofText joiningText).check.program.lambdas.get ⟨1⟩).body = ⟨1⟩ ∧
      ⟨8⟩ ∈ ((Program.ofText joiningText).check.program.form ⟨1⟩).children ∧
      ⟨7⟩ ∈ ((Program.ofText joiningText).check.program.form ⟨8⟩).children ∧
      (Program.ofText joiningText).check.program.form ⟨7⟩ = .lambda ⟨0⟩ ∧
      (Program.ofText joiningText).check.program.slot
      ((Program.ofText joiningText).check.program.lambdas.get ⟨0⟩).body = .empty := by
    decide +kernel
  have h := Program.resolved_ofText joiningText hrun.1
  generalize Program.ofText joiningText = p at h hrun ⊢
  obtain ⟨_, hok, hfield, hvalue, houter, hbody, hfirst, harm, hinner, hempty⟩ := hrun
  refine ⟨h, hok, ⟨⟨7⟩, ?_, hinner⟩, ?_⟩
  · exact .child (.child (hbody ▸ .body (.root (.field hfield hvalue)) houter trivial) hfirst) harm
  · rintro ⟨_, t, ht⟩
    exact nomatch hempty.symm.trans ht

end Typing

end ClassLang
