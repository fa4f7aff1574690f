import ClassLang.Proofs.Typing.Sound.Dispatch

namespace ClassLang

open Arena List

namespace Program

structure Typed (p0 p : Program) : Prop where
  sound : p0.Sound p0.atlas p
  contained : p0.Contained
  dispatched : ∃ built, ∀ d, p0.classes.Valid d → p0.Dispatched built p d
  classes : ∀ d, p0.classes.Valid d → Typing.ClassSettled p0 p d
  functions : ∀ d, p0.functions.Valid d → Typing.FunctionSettled p0 p d

end Program

namespace Typing

variable {p0 p : Program} {G : Atlas} {n : Nat} {c : Context} {s : PassState} {e e' : Engine}

def entriesOf (p : Program) : List FunctionId := p.modules.items.toList.filterMap Module.entry

theorem mem_entriesOf {d : FunctionId} :
    d ∈ entriesOf p ↔ ∃ m, (p.modules.get m).entry = some d := by
  rw [entriesOf, mem_filterMap]
  constructor
  · rintro ⟨a, ha, hd⟩
    obtain ⟨n, hn⟩ := mem_iff_getElem?.1 ha
    refine ⟨⟨n⟩, ?_⟩
    rw [Arena.get, Arena.get?, ← Array.getElem?_toList, hn]
    exact hd
  · rintro ⟨m, hm⟩
    refine ⟨p.modules.get m, ?_, hm⟩
    have hvalid : p.modules.Valid m := valid_of_get_ne fun he => by rw [he] at hm; cases hm
    rw [Arena.get, Arena.get?, Array.getElem?_eq_getElem hvalid]
    exact Array.getElem_mem_toList hvalid

def allWith (e : Engine) : Check Unit := do
  let p ← program
  p.classes.ids.forM (checkClass e)
  buildDispatch e
  p.functions.ids.forM fun f => checkFunction e (f ∈ entriesOf p) f
  checkColds
  let p ← program
  emit (.typesChecked p.types.size p.insts.size p.colds.size)

theorem all_apply (c : Context) (s : PassState) :
    all c s = allWith (engine (s.program.nodes.size + 2 * s.program.lambdas.size + 1)) c s := by
  unfold all allWith
  rw [bind_program, bind_program]
  rfl

def ColdsSigned (p : Program) : Prop :=
  ∀ cold, p.colds.Valid cold → (p.colds.lookup cold).signature = none →
    (p.colds.lookup cold).sites = []

abbrev Focus.whole (p : Program) : Focus :=
  { entries := entriesOf p
    tables := fun _ => True
    methods := fun _ => True
    functions := fun _ => True }

/-- The functions are checked one after the other, each with the body it was written with. -/
theorem checkFunctions_walks (he : e.Good p0 G n e') (hs : Ready p0 G c s)
    (hcontained : p0.Contained)
    (hbodies : ∀ f, (s.program.functions.get f).body = (p0.functions.get f).body)
    (hempty : ∀ f, p0.IsEntry f → (s.program.functions.get f).slot = .empty) :
    Walks p0 G n { entries := entriesOf p0, functions := fun _ => True } c s
      (p0.functions.ids.forM fun f => checkFunction e (f ∈ entriesOf p0) f)
      (p0.functions.ids.forM fun f => checkFunction e' (f ∈ entriesOf p0) f) fun _ s' =>
      ∀ f, p0.functions.Valid f → FunctionSettled p0 s'.program f := by
  refine (Walks.forEach (I := fun done s' =>
    (∀ f ∉ done, (s'.program.functions.get f).body = (p0.functions.get f).body ∧
      (p0.IsEntry f → (s'.program.functions.get f).slot = .empty)) ∧
    ∀ f ∈ done, FunctionSettled p0 s'.program f) hs
    ⟨fun f _ => ⟨hbodies f, hempty f⟩, forall_mem_nil _⟩
    fun done f rest s1 hids hst1 hs1 ⟨hwait, hdone⟩ => ?_).post fun _ _ _ _ h f hv =>
    h.2 f (mem_ids.2 hv)
  have hv : p0.functions.Valid f := mem_ids.1 (by simp [hids])
  have hnew := not_mem_of_nodup (nodup_ids p0.functions) hids
  refine (checkFunction_walks he hs1 hcontained hv (hwait f hnew).1
    (fun h hentry => of_decide_eq_false h (mem_entriesOf.2 hentry)) fun h => ?_).imp
    fun _ s2 hst2 _ hsettled =>
    ⟨?_, fun f' hf' => ?_, forall_mem_append.2 ⟨fun f' hf' => ?_, forall_mem_singleton.2 hsettled⟩⟩
  · have hentry := mem_entriesOf.1 (of_decide_eq_true h)
    exact ⟨(hwait f hnew).2 hentry, hentry⟩
  · refine hst2.mono nofun nofun (fun m f' hm _ => ?_) nofun (fun _ => id) (fun _ => id)
      fun _ _ => trivial
    rw [hs1.alike.modules] at hm
    exact mem_entriesOf.2 ⟨m, hm⟩
  · rw [mem_append, not_or, mem_singleton] at hf'
    obtain ⟨hbody, hslot⟩ := hwait f' hf'.1
    refine ⟨(hst2.stays.functionBodies f' hf'.2).trans hbody, fun ⟨m, hm⟩ => ?_⟩
    rw [← hs1.alike.modules] at hm
    refine (hst2.entries m f' hm (by simpa using hf'.2)).trans (hslot ⟨m, ?_⟩)
    rwa [← hs1.alike.modules]
  · exact (hdone f' hf').step hst2 rfl fun he => hnew (he ▸ hf')

theorem checkColds_walks (hs : Ready p0 G c s) :
    Goes p0 G n {} c s checkColds fun _ s' => s' = s ∧ ColdsSigned s'.program := by
  unfold checkColds
  refine .program ((Walks.forEach
    (I := fun done s' => s' = s ∧ ∀ cold ∈ done, (s.program.colds.lookup cold).signature = none →
      (s.program.colds.lookup cold).sites = []) hs ⟨rfl, forall_mem_nil _⟩
    fun done cold rest s1 _ _ hs1 ⟨hsame, hdone⟩ => ?_).post fun _ s1 _ _ ⟨hsame, hdone⟩ =>
    ⟨hsame, fun cold hv => ?_⟩)
  · dsimp only
    split
    · rename_i site _ _ hsites
      obtain ⟨own, hown, _⟩ := hs.coherent.colds.sites _ site (hsites ▸ mem_cons_self)
      obtain ⟨z, hawaits⟩ := hs.sound.placed site own hown
      rw [hs.alike.lambdaBody]
      exact .fail hs1 (by nofun) (hs.spot_of_mem hawaits.body.mem)
    · rename_i hn
      refine .pure hs1 ⟨hsame, forall_mem_append.2 ⟨hdone, forall_mem_singleton.2 fun hnone => ?_⟩⟩
      cases hsites : (s.program.colds.lookup cold).sites with
      | nil => rfl
      | cons site rest => exact (hn site rest hnone hsites).elim
  · subst hsame
    exact hdone cold (mem_ids.2 hv)

theorem allWith_walks (hG : Grounded p0 p0.atlas) (he : e.Good p0 p0.atlas n e') :
    Walks p0 p0.atlas n (.whole p0) {} { program := p0 } (allWith e) (allWith e') fun _ s' =>
      p0.Typed s'.program ∧ ColdsSigned s'.program := by
  have hs : Ready p0 p0.atlas {} { program := p0 } := { hG with
    inv := inv_start hG.wired.shaped hG.wired.untyped
    sound := hG.wired.sound
    once := ⟨nodup_nil, forall_mem_nil _⟩
    this := nofun }
  unfold allWith
  refine .program ((checkClasses_walks he hs rfl).bindBy
    (fun _ h => h.mono nofun nofun (fun _ _ _ => nofun) nofun nofun (fun _ => id) nofun)
    fun _ s1 hst1 hs1 ⟨hcontained, hclasses⟩ => ?_)
  refine (buildDispatch_walks hs1).bindBy
    (fun _ h => h.mono nofun nofun (fun _ _ _ => nofun) nofun (fun _ => id) nofun nofun)
    fun _ s2 hst2 hs2 ⟨built, hdispatched⟩ => ?_
  refine (checkFunctions_walks he hs2 hcontained (fun f => ?_) fun f ⟨m, hm⟩ => ?_).bindBy
    (fun _ h => h.mono nofun nofun (fun _ _ _ => id) nofun nofun nofun fun _ => id)
    fun _ s3 hst3 hs3 hfunctions => ?_
  · exact (hst2.stays.functionBodies f id).trans (hst1.stays.functionBodies f id)
  · have hm1 : (s1.program.modules.get m).entry = some f := by rwa [hs1.alike.modules]
    rw [hst2.entries m f hm1 (by simp), hst1.entries m f hm (by simp)]
    exact hG.wired.untyped.functions f
  refine (checkColds_walks hs3).bind fun _ s4 _ hs4 ⟨hsame, hcolds⟩ => .program ?_
  subst hsame
  refine (Walks.emit hs4 rfl).post fun _ s5 _ _ hprogram => ?_
  rw [hprogram]
  refine ⟨⟨hs4.sound, hcontained, ⟨built, fun d hv => ?_⟩, fun d hv => ?_, hfunctions⟩, hcolds⟩
  · exact (hdispatched d hv).keeps hst3.keeps hst3.stays.toLasts (Subset.refl _)
      (by rw [hst3.stays.tables d id]) fun x _ => by rw [hst3.stays.tables x.2 id]
  · exact ((hclasses d hv).step hst2 rfl fun _ _ => id).step hst3 rfl fun _ _ => id

section Resolved

variable (h : p.Resolved)
include h

theorem grounded_of_resolved : Grounded p p.atlas := ⟨h.wired, h.charted⟩

theorem allWith_yields (k : Nat) :
    Yields { program := p } (allWith (engine k) {})
      (fun _ s' => Step p (.whole p) { program := p } s' ∧ Ready p p.atlas {} s' ∧
        p.Typed s'.program ∧ ColdsSigned s'.program) (Halted p) :=
  (allWith_walks (grounded_of_resolved h) (engine_good p p.atlas _ k) (Nat.le_refl _)).2

theorem check_yields :
    Yields { program := p } (all {}) (fun _ s' => Step p (.whole p) { program := p } s' ∧
      Ready p p.atlas {} s' ∧ p.Typed s'.program ∧ ColdsSigned s'.program) (Halted p) := by
  rw [Yields, all_apply]
  exact allWith_yields h _

/-- To any depth beyond what there is to do, the check does the same. -/
theorem allWith_eq_all (bottom : Engine) (hn : p.nodes.size + 2 * p.lambdas.size < n) :
    allWith (engineOver bottom n) {} { program := p } = all {} { program := p } := by
  rw [all_apply, engine_eq_over]
  exact (allWith_walks (grounded_of_resolved h)
    (engineOver_good p p.atlas (engine 0) bottom (Nat.lt_succ_self _) hn)
    (Program.remaining_le p h.wired.untyped.colds)).1

theorem check_logged :
    ∃ s : PassState, s.program = p.check.program ∧ s.writes = p.check.writes ∧ Logged p s :=
  ⟨_, rfl, rfl, ((check_yields h).imp (fun _ _ h => h.1.inv.logged) fun _ _ h =>
    h.toLogged).outcome_either⟩

/-- Whether it succeeds or not, what fields and arrays hold can be kept. -/
theorem lasting_of_check : p.Lasting p.check.program :=
  ((check_yields h).imp (fun _ _ h => h.2.1.sound.lasting) fun _ _ h => h.lasting).outcome_either

theorem check_ok (hok : p.check.result = .ok ()) :
    ∃ s : PassState, s.program = p.check.program ∧ s.writes = p.check.writes ∧
      Step p (.whole p) { program := p } s ∧ p.Typed s.program ∧ ColdsSigned s.program := by
  have hwalks := (check_yields h).outcome
  rw [show (Pass.outcome (all {}) p).result = .ok () from hok] at hwalks
  exact ⟨_, rfl, rfl, hwalks.1, hwalks.2.2⟩

theorem typed_of_check (hok : p.check.result = .ok ()) : p.Typed p.check.program := by
  obtain ⟨s, hprogram, _, _, htyped, _⟩ := check_ok h hok
  exact hprogram ▸ htyped

theorem halted_of_check {e : Fault TypeCause} (herror : p.check.result = .error e) :
    ∃ s, Halted p e s := by
  have hwalks := (check_yields h).outcome
  rw [show (Pass.outcome (all {}) p).result = .error e from herror] at hwalks
  exact ⟨_, hwalks⟩

/-- Where a check fails, nothing is broken, if no jump leads out of a field. -/
theorem not_internal_of_check {e : Fault TypeCause} (hcontained : p.Contained)
    (herror : p.check.result = .error e) (what : Broken) : e.cause ≠ .internal what := by
  obtain ⟨s, hhalted⟩ := halted_of_check h herror
  exact hhalted.whole hcontained what

end Resolved

end Typing

end ClassLang
