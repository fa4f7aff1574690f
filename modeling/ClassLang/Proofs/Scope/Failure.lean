import ClassLang.Proofs.Scope.Inheritance

/-!
Flattening that fails half way leaves the classes it has finished, and nothing of those it has not.
-/

namespace ClassLang.Program

open Arena List

variable {p q r : Program} {c d : ClassId} {ids zs : List ClassId}

/-- `q` is `p`, except for classes above those in `ids` that are flattened now. -/
structure Touches (p : Program) (ids : List ClassId) (q : Program) : Prop where
  insts : q.insts = p.insts
  bases : ∀ d, (q.classes.get d).bases = (p.classes.get d).bases
  classes : ∀ d, q.classes.get d = p.classes.get d ∨
    (q.classes.get d).flattened = true ∧ ∃ c ∈ ids, Relation.ReflTransGen p.HasBase c d

namespace Touches

theorem refl : p.Touches ids p := ⟨rfl, fun _ => rfl, fun _ => .inl rfl⟩

theorem baseOf? (h : p.Touches ids q) (b : Base) : q.baseOf? b = p.baseOf? b := by
  rw [Program.baseOf?, h.insts, Program.baseOf?]

theorem hasBase_eq (h : p.Touches ids q) : q.HasBase = p.HasBase := by
  funext c d
  rw [HasBase, basesOf, h.bases, HasBase, basesOf, filterMap_congr fun b _ => h.baseOf? b]

theorem trans (h : p.Touches ids q) (h' : q.Touches zs r)
    (hzs : ∀ d ∈ zs, ∃ c ∈ ids, Relation.ReflTransGen p.HasBase c d) : p.Touches ids r where
  insts := h'.insts.trans h.insts
  bases d := (h'.bases d).trans (h.bases d)
  classes e := by
    rcases h'.classes e with he | ⟨hflat, d, hd, hde⟩
    · rw [he]
      exact h.classes e
    · obtain ⟨c, hc, hcd⟩ := hzs d hd
      rw [h.hasBase_eq] at hde
      exact .inr ⟨hflat, c, hc, hcd.trans hde⟩

/-- The class itself is flattened after those above it. -/
theorem modifyClass (h : p.Touches [c] q) (members : MemberTable) (ancestors : List ClassId) :
    p.Touches [c] (q.modifyClass c fun d => { d with members, ancestors, flattened := true }) := by
  refine ⟨h.insts, fun d => Eq.trans ?_ (h.bases d), fun d => ?_⟩
  · rw [Program.modifyClass, get_modify]
    split <;> rfl
  · rw [Program.modifyClass, get_modify]
    split
    · rename_i hd
      exact .inr ⟨rfl, c, mem_singleton_self c, hd.1 ▸ .refl⟩
    · exact h.classes d

end Touches

namespace Flatten

variable {s : PassState} {below : List ClassId}

/-- However it ends, flattening a class has to do with the classes above it only. -/
theorem classUpTo_touches (n : Nat) :
    Yields s (classUpTo n below c) (fun _ s' => s.program.Touches [c] s'.program) fun _ s' =>
      s.program.Touches [c] s'.program := by
  induction n generalizing below c s with
  | zero => exact .program (.fail .refl)
  | succ n ih =>
    refine (classStep_agrees (I := fun s' => s.program.Touches [c] s'.program) .refl
      (fun _ => .refl) (fun _ => .refl) (fun _ _ d s1 hs1 hd => Yields.agrees ?_)
      (fun _ _ _ _ _ _ => id) (fun _ _ h _ => h) fun s1 members ancestors _ hs1 =>
      hs1.modifyClass members ancestors).2
    obtain ⟨b, hb, i, hx⟩ := hd
    have hbase : s.program.HasBase c d := ⟨i, mem_filterMap.2 ⟨b, hb, hs1.baseOf? b ▸ hx⟩⟩
    have hd : ∀ e ∈ [d], ∃ a ∈ [c], Relation.ReflTransGen s.program.HasBase a e :=
      forall_mem_singleton.2 ⟨c, mem_singleton_self c, .single hbase⟩
    exact ih.imp (fun _ _ h => hs1.trans h hd) fun _ _ h => hs1.trans h hd

end Flatten

theorem flatten_touches (p : Program) (ids : List ClassId) :
    p.Touches ids (p.flatten ids).program := by
  have hrun : Yields { program := p } (ids.forM (Flatten.classUpTo (p.classes.size + 1) []))
      (fun _ s' => p.Touches ids s'.program) fun _ s' => p.Touches ids s'.program := by
    refine Yields.forM (I := fun _ (s' : PassState) => p.Touches ids s'.program) .refl
      fun done c rest s' hsplit hs' => ?_
    have hc : ∀ d ∈ [c], ∃ a ∈ ids, Relation.ReflTransGen p.HasBase a d :=
      forall_mem_singleton.2 ⟨c, by simp [hsplit], .refl⟩
    exact (Flatten.classUpTo_touches _).imp (fun _ _ h => hs'.trans h hc) fun _ _ h =>
      hs'.trans h hc
  exact hrun.outcome_either (R := fun s' => p.Touches ids s'.program)

theorem Layered.above (h : p.Layered) (hc : (p.classes.get c).flattened = true)
    (hd : Relation.ReflTransGen p.HasBase c d) : (p.classes.get d).flattened = true := by
  obtain ⟨order, hlaid, horder⟩ := h
  exact (horder d).2 (hlaid.above ((horder c).1 hc) hd)

section Runs

variable (hclosed : Flatten.Closed p) (hp : p.Layered)
include hclosed hp

/-- A class that a run has flattened is as it would be if it had been flattened alone. -/
theorem Flattens.alone (hq : p.Flattens [] q) (hc : (q.classes.get c).flattened = true) :
    (p.flatten [c]).result = .ok () ∧ q.classes.get c = (p.flatten [c]).program.classes.get c := by
  have hvalid : ∀ d ∈ [c], p.classes.Valid d := by
    refine forall_mem_singleton.2 ?_
    rw [Valid, ← hq.size]
    refine valid_of_get_ne fun h => ?_
    rw [h] at hc
    cases hc
  have hher : p.Heritable c := hq.heritable_iff.1 (hq.layered.heritable hc)
  have hok : (p.flatten [c]).result = .ok () :=
    (hclosed.flatten_ok_iff hp hvalid).2 (forall_mem_singleton.2 hher)
  have hflat := hclosed.flattened_of_flatten hp hvalid hok (mem_singleton_self c)
  exact ⟨hok, hher.eq_of_flattens hq (hclosed.flatten_flattens hp hvalid) hc hflat⟩

/-- Whatever has been flattened before, the same classes can be flattened, and what is flattened now
looks the same. -/
theorem Flattens.resume (hq : p.Flattens [] q) (hzs : ∀ c ∈ zs, p.classes.Valid c) :
    ((q.flatten zs).result = .ok () ↔ (p.flatten zs).result = .ok ()) ∧
      ((q.flatten zs).result = .ok () → ∀ c, (q.flatten zs).program.classes.get c =
        if ((p.flatten zs).program.classes.get c).flattened then (p.flatten zs).program.classes.get
        c else q.classes.get c) := by
  have hclosed' := hclosed.flattens hq
  have hzs' (c : ClassId) (hc : c ∈ zs) : q.classes.Valid c := by
    rw [Valid, hq.size]
    exact hzs c hc
  have hiff : (q.flatten zs).result = .ok () ↔ (p.flatten zs).result = .ok () := by
    rw [hclosed.flatten_ok_iff hp hzs, hclosed'.flatten_ok_iff hq.layered hzs']
    simp only [hq.heritable_iff]
  refine ⟨hiff, fun hok c => ?_⟩
  have hr := hclosed'.flatten_flattens hq.layered hzs'
  have hr' := hclosed.flatten_flattens hp hzs
  -- A class above the given ones is flattened by both runs.
  have habove (z : ClassId) (hz : z ∈ zs) (hc : Relation.ReflTransGen p.HasBase z c) :
      ((q.flatten zs).program.classes.get c).flattened = true ∧
      ((p.flatten zs).program.classes.get c).flattened = true := by
    constructor
    · refine hr.layered.above (hclosed'.flattened_of_flatten hq.layered hzs' hok hz) ?_
      rwa [hr.hasBase_eq, hq.hasBase_eq]
    · refine hr'.layered.above (hclosed.flattened_of_flatten hp hzs (hiff.1 hok) hz) ?_
      rwa [hr'.hasBase_eq]
  split
  · rename_i hflat
    have hher : p.Heritable c := hr'.heritable_iff.1 (hr'.layered.heritable hflat)
    refine hher.eq_of_flattens (hq.trans hr) hr' ?_ hflat
    rcases (p.flatten_touches zs).classes c with hsame | ⟨_, z, hz, hc⟩
    · rw [hsame] at hflat
      rw [(hq.trans hr).kept c hflat]
      exact hflat
    · exact (habove z hz hc).1
  · rename_i hnot
    rcases (q.flatten_touches zs).classes c with hsame | ⟨_, z, hz, hc⟩
    · exact hsame
    · rw [hq.hasBase_eq] at hc
      exact absurd (habove z hz hc).2 hnot

/-- A run that fails leaves each class as it was, or as it is after it has been flattened alone; and
it makes no difference to later runs. -/
theorem flatten_failure (hids : ∀ c ∈ ids, p.classes.Valid c) {e : Fault NameCause}
    (hfail : (p.flatten ids).result = .error e) :
    let q := (p.flatten ids).program
    ({ p with classes := q.classes } = q ∧ q.classes.size = p.classes.size ∧
      ∀ c, (q.classes.get c).unflattened = (p.classes.get c).unflattened) ∧
    (∀ c, q.classes.get c = p.classes.get c ∨ (q.classes.get c).flattened = true ∧
      (p.flatten [c]).result = .ok () ∧ q.classes.get c = (p.flatten [c]).program.classes.get c) ∧
    (∃ c ∈ ids, (q.classes.get c).flattened = false) ∧
    ∀ zs, (∀ c ∈ zs, p.classes.Valid c) →
      ((q.flatten zs).result = .ok () ↔ (p.flatten zs).result = .ok ()) ∧
      ((q.flatten zs).result = .ok () → ∀ c, (q.flatten zs).program.classes.get c =
        if ((p.flatten zs).program.classes.get c).flattened then
          (p.flatten zs).program.classes.get c
        else q.classes.get c) := by
  intro q
  have hq : p.Flattens [] q := hclosed.flatten_flattens hp hids
  refine ⟨⟨hq.rest, hq.size, hq.heads⟩, fun c => ?_, ?_, fun zs hzs => hq.resume hclosed hp hzs⟩
  · rcases (p.flatten_touches ids).classes c with hsame | ⟨hflat, _⟩
    · exact .inl hsame
    · exact .inr ⟨hflat, hq.alone hclosed hp hflat⟩
  · by_contra hall
    push Not at hall
    have hok : (p.flatten ids).result = .ok () := (hclosed.flatten_ok_iff hp hids).2 fun c hc => by
      refine hq.heritable_iff.1 (hq.layered.heritable ?_)
      simpa using hall c hc
    rw [hok] at hfail
    cases hfail

end Runs

def tornText : String :=
  "interface I { m(); } class A { +I; x = 0; } class B { +A; y = 0; y = 1; } class C { +A; +I }"

def torn : Program := (loadText {} "test" tornText).program.resolve.program.unflatten

/-- The base of the second class is finished, the class itself is not, and the third one can still
be flattened. -/
theorem flatten_failure_torn :
    let q := (torn.flatten [⟨2⟩]).program
    (∃ e, (torn.flatten [⟨2⟩]).result = .error e) ∧
    q.classes.get ⟨2⟩ = torn.classes.get ⟨2⟩ ∧
    (q.classes.get ⟨1⟩).flattened = true ∧
    q.classes.get ⟨1⟩ = (torn.flatten [⟨1⟩]).program.classes.get ⟨1⟩ ∧
    (q.flatten [⟨3⟩]).result = .ok () ∧
    (q.flatten [⟨3⟩]).program.classes.get ⟨3⟩ = (torn.flatten [⟨3⟩]).program.classes.get ⟨3⟩ := by
  have hrun : torn.Interned ∧ (∀ c ∈ torn.classes.ids, (torn.classes.get c).flattened = false) ∧
      torn.classes.size = 4 ∧ (torn.flatten [⟨2⟩]).result.toOption = none ∧
      ((torn.flatten [⟨2⟩]).program.classes.get ⟨1⟩).flattened = true ∧
      ((torn.flatten [⟨2⟩]).program.classes.get ⟨2⟩).flattened = false ∧
      (torn.flatten [⟨3⟩]).result = .ok () ∧
      ((torn.flatten [⟨3⟩]).program.classes.get ⟨3⟩).flattened = true := by
    decide +kernel
  generalize torn = p at hrun ⊢
  obtain ⟨hi, hnew, hsize, hnone, hdone, hleft, hok, hflat⟩ := hrun
  have hvalid (n : Nat) (hn : n < 4) : ∀ c ∈ [(⟨n⟩ : ClassId)], p.classes.Valid c :=
    forall_mem_singleton.2 (by rwa [Valid, hsize])
  cases hfail : (p.flatten [⟨2⟩]).result with
  | ok _ =>
    rw [hfail] at hnone
    cases hnone
  | error e =>
    obtain ⟨_, hclasses, _, hlater⟩ := flatten_failure hi.closed (layered_of_unflattened hnew)
      (hvalid 2 (by decide)) hfail
    obtain ⟨hiff, hsame⟩ := hlater [⟨3⟩] (hvalid 3 (by decide))
    refine ⟨⟨e, rfl⟩, (hclasses ⟨2⟩).resolve_right fun h => ?_, hdone, ?_, hiff.2 hok, ?_⟩
    · rw [hleft] at h
      cases h.1
    · refine ((hclasses ⟨1⟩).resolve_left fun h => ?_).2.2
      rw [h, hnew ⟨1⟩ (mem_ids.2 (hvalid 1 (by decide) _ (mem_singleton_self _)))] at hdone
      cases hdone
    · rw [hsame (hiff.2 hok), if_pos hflat]

end ClassLang.Program
