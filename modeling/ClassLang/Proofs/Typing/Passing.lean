import ClassLang.Proofs.Typing.Coverage
import ClassLang.Proofs.Typing.Signatures

namespace ClassLang

open TypeTable

namespace Program

open Typing

variable {p q : Program} {a t : TypeId} {how : Storing}

/-- What has type `a` gets into a place of type `t` without a conversion, neither of its own nor of
what is in it. -/
inductive Passes (p : Program) : TypeId → TypeId → Prop
  | same {t : TypeId} : Passes p t t
  | never {t : TypeId} : Passes p TypeId.noReturn t
  | kept {a t : TypeId} {want given : RefKind × InstId} : p.types.ref? t = some want →
      p.types.ref? a = some given →
      p.Again (isSubinst given.2 want.2) true → keepsKind want.1 given.1 = true → Passes p a t
  | optional {a t given want : TypeId} {depth : Nat} : p.types.get t = .optional want depth →
      p.types.get a = .optional given depth → Passes p given want → Passes p a t
  | cold {a t u : TypeId} {c d : ColdId} : p.types.get t = .cold d → p.types.get a = .cold c →
      (p.colds.lookup d).signature = some u → (p.colds.lookup c).signature = some u → Passes p a t
  | procedure {a t result : TypeId} {params : List TypeId} : p.types.get t =
      .lambda params TypeId.void →
      p.Signs a params result → Passes p a t
  | lambda {a t given want : TypeId} {params : List TypeId} : p.types.get t = .lambda params want →
      p.Signs a params given → Passes p given want → Passes p a t

inductive Lends (p : Program) : TypeId → Prop
  | result {t want : TypeId} {params : List TypeId} {i : InstId} :
      p.types.get t = .lambda params want →
      p.types.get want = .ref .weak i → Lends p t
  | lambda {t want : TypeId} {params : List TypeId} : p.types.get t = .lambda params want →
      Lends p want → Lends p t
  | optional {t want : TypeId} {depth : Nat} : p.types.get t = .optional want depth →
      Lends p want → Lends p t

theorem Enters.passes (h : p.Enters a t how) (hhow : how = .direct) (ht : ¬ p.Lends t) :
    p.Passes a t := by
  induction h with
  | same => exact .same
  | never => exact .never
  | kept hw ha hsub hkind => exact .kept hw ha hsub hkind
  | weakened => cases hhow
  | optional hw ha _ ih => exact .optional hw ha (ih rfl fun hl => ht (.optional hw hl))
  | cold hw ha hx hy => exact .cold hw ha hx hy
  | procedure hw ha => exact .procedure hw ha
  | @lambda a t given want params how hw ha hin ih =>
    refine .lambda hw ha (ih ?_ fun hl => ht (.lambda hw hl))
    cases how with
    | direct => rfl
    | weaken inst => exact absurd (.result hw hin.weak) ht

theorem Lends.restrict (hp : p.Tables) (hpq : p.types.Grows q.types) (ht : p.types.Valid t)
    (h : q.Lends t) : p.Lends t := by
  induction h with
  | result hw hi =>
    rw [hpq.get_eq ht] at hw
    have hr := (holds_lambda.1 (hw ▸ hp.holds ht)).2
    exact .result hw ((hpq.get_eq hr).symm.trans hi)
  | lambda hw _ ih =>
    rw [hpq.get_eq ht] at hw
    exact .lambda hw (ih (holds_lambda.1 (hw ▸ hp.holds ht)).2)
  | optional hw _ ih =>
    rw [hpq.get_eq ht] at hw
    exact .optional hw (ih (holds_optional.1 (hw ▸ hp.holds ht)))

structure Warmed (p : Program) : Prop where
  coherent : p.Coherent
  signed : ∀ c, p.colds.Valid c → ∃ t params result, (p.colds.lookup c).signature = some t ∧
    p.types.get t = .lambda params result

theorem Warmed.adds (h : p.Warmed) (hq : p.Adds q) : q.Warmed := by
  have hcolds : q.colds = p.colds := (congrArg Program.colds hq.rest :)
  refine ⟨hq.coherent h.coherent, fun c hc => ?_⟩
  rw [hcolds] at hc ⊢
  obtain ⟨t, params, result, hsig, hget⟩ := h.signed c hc
  exact ⟨t, params, result, hsig, get_of_grows hq.types hget nofun⟩

theorem Adds.signs {params : List TypeId} {result : TypeId} (h : p.Adds q) (hp : p.Coherent)
    (hs : p.Signs a params result) : q.Signs a params result :=
  hs.keeps (h.keeps hp) fun _ _ hu => (congrArg Program.colds h.rest :) ▸ hu

end Program

namespace Typing

open Program

variable {p : Program} {e : Engine} {c : Context} {s s' : PassState} {a t : TypeId} {loc : Location}
  {n : Nat} {α β : Type}

/-- Where no placeholder waits, a test only adds to the tables, and with success it gives what `Q`
says. -/
def Tests (c : Context) (s : PassState) (m : Check α) (Q : α → PassState → Prop) : Prop :=
  Yields s (m c) (fun a s' => s.program.Adds s'.program ∧ Q a s') fun _ _ => True

theorem Tests.bind {m : Check α} {k : α → Check β} {Q : α → PassState → Prop}
    {P : β → PassState → Prop} (h : Tests c s m Q)
    (hk : ∀ a s', s.program.Adds s'.program → Q a s' → Tests c s' (k a) P) :
    Tests c s (m >>= k) P :=
  Yields.bind (m := m c) h fun a s' ⟨hadds, ha⟩ => Yields.post (hk a s' hadds ha) fun _ _ hb =>
    ⟨hadds.trans hb.1, hb.2⟩

theorem Tests.program {k : Program → Check β} {P : β → PassState → Prop}
    (h : Tests c s (k s.program) P) : Tests c s (Typing.program >>= k) P := h

theorem Tests.ref? {k : Option (RefKind × InstId) → Check β} {P : β → PassState → Prop}
    (h : Tests c s (k (s.program.types.ref? t)) P) : Tests c s (Typing.ref? t >>= k) P := h

theorem Tests.typeOf {k : Ty → Check β} {P : β → PassState → Prop}
    (h : Tests c s (k (s.program.types.get t)) P) : Tests c s (Typing.typeOf t >>= k) P := h

theorem assignRef_tests (hp : s.program.Coherent) {want given : RefKind × InstId}
    (ht : s.program.types.Valid t) (ha : s.program.types.Valid a)
    (hw : s.program.types.ref? t = some want) (hg : s.program.types.ref? a = some given) :
    Tests c s (assignRef t a want given loc) fun how s' => s'.program.Enters a t how := by
  have hvalid {t : TypeId} {x : RefKind × InstId} (ht : s.program.types.Valid t)
    (hx : s.program.types.ref? t = some x) : s.program.insts.Valid x.2 :=
    holds_ref.1 (ref?_eq_some.1 hx ▸ hp.tables.holds ht)
  have hsub := editing_yields (c := c)
    (isSubinst_interns hp.tables hp.shaped.bases (hvalid ha hg) (hvalid ht hw)) loc
  unfold assignRef
  refine Tests.bind (hsub.imp (fun _ _ h => h.2) fun _ _ _ => trivial) fun b s1 hadds hagain => ?_
  have hw1 := ref?_of_grows hadds.types hw
  have hg1 := ref?_of_grows hadds.types hg
  split
  · trivial
  rename_i hb
  rw [Bool.not_eq_true', Bool.not_eq_false] at hb
  subst hb
  split
  · exact ⟨.refl hadds.tables, .kept hw1 hg1 hagain ‹_›⟩
  · rename_i hkind
    obtain ⟨kind, inst⟩ := want
    cases kind with
    | weak => exact ⟨.refl hadds.tables, .weakened hw1 hg1 hagain (Bool.eq_false_iff.2 hkind)⟩
    | own => trivial
    | pin => trivial

section Results

variable {store : TypeId → TypeId → Location → Check Storing} {params : List TypeId} {want : TypeId}
  (hstore : ∀ {s given want}, s.program.Warmed → s.program.types.Valid given →
    s.program.types.Valid want → Tests c s (store given want loc) fun how s' =>
    s'.program.Enters given want how)
include hstore

/-- How the result of a lambda is stored is forgotten. -/
theorem result_tests {x y given : TypeId} (hp : s.program.Warmed) (ht : s.program.types.Valid t)
    (hw : s.program.types.get t = .lambda params want) (hg : s.program.Signs a params given)
    (hv : s.program.types.Valid given) :
    Tests c s (tryCatch (discard (store given want loc)) fun _ => mismatch x y loc) fun _ s' =>
      s'.program.Enters a t .direct := by
  have hstored := hstore hp hv (holds_lambda.1 (hw ▸ hp.coherent.tables.holds ht)).2
  refine Yields.tryCatch
    (Yields.map (m := store given want loc c) (hstored.post fun how s1 ⟨hadds, h⟩ => ⟨hadds, ?_⟩))
    fun _ _ _ => trivial
  exact .lambda (get_of_grows hadds.types hw nofun) (hadds.signs hp.coherent hg) h

theorem fixColdTo_tests {cold : ColdId} (hp : s.program.Warmed) (ha : s.program.types.Valid a)
    (ht : s.program.types.Valid t) (hg : s.program.types.get a = .cold cold)
    (hw : s.program.types.get t = .lambda params want) :
    Tests c s (fixColdTo e store cold params want loc) fun _ s' =>
      s'.program.Enters a t .direct := by
  have hintern : Tests c s (intern (.lambda params want)) fun _ _ => True :=
    ⟨hp.coherent.tables.intern (hw ▸ hp.coherent.tables.holds ht), trivial⟩
  obtain ⟨u, haveParams, given, hsig, hu⟩ :=
    hp.signed cold (holds_cold.1 (hg ▸ hp.coherent.tables.holds ha))
  unfold fixColdTo
  refine .program ?_
  extract_lets fit
  rw [hsig]
  show Tests c s (fit u) _
  refine hintern.bind fun expected s1 hadds _ => ?_
  have hu1 := get_of_grows hadds.types hu nofun
  have hw1 := get_of_grows hadds.types hw nofun
  have hsigns := hadds.signs hp.coherent (.cold hg hsig hu)
  have hsignature : Tests c s1 (signatureOf u .coldNotLambda loc) fun sig s' =>
      sig = (haveParams, given) ∧ s' = s1 := by
    refine .program ?_
    rw [TypeTable.signature?_of_lambda hu1]
    exact ⟨.refl hadds.tables, rfl, rfl⟩
  refine hsignature.bind fun sig s2 _ ⟨hsig', hs2⟩ => ?_
  subst hsig' hs2
  dsimp only
  split
  · trivial
  rename_i hparams
  rw [not_not] at hparams
  subst hparams
  split
  · have hv := (holds_lambda.1 (hu1 ▸ hadds.tables.holds (valid_of_get hu1 nofun))).2
    exact result_tests hstore (hp.adds hadds) (hadds.types.valid ht) hw1 hsigns hv
  · rename_i hvoid
    rw [not_not] at hvoid
    subst hvoid
    exact ⟨.refl hadds.tables, .procedure hw1 hsigns⟩

theorem signature_tests {haveParams : List TypeId} {given : TypeId} (hp : s.program.Warmed)
    (ht : s.program.types.Valid t) (hw : s.program.types.get t = .lambda params want)
    (hg : s.program.Signs a haveParams given) (hv : s.program.types.Valid given) : Tests c s (do
      if haveParams ≠ params then
        mismatch t a loc
      if want ≠ TypeId.void then
        tryCatch (discard (store given want loc)) fun _ => mismatch t a loc
      return .direct : Check Storing) fun how s' => s'.program.Enters a t how := by
  dsimp only
  split
  · trivial
  rename_i hparams
  rw [not_not] at hparams
  subst hparams
  split
  · exact (result_tests hstore hp ht hw hg hv).bind fun _ s1 hadds h => ⟨.refl hadds.tables, h⟩
  · rename_i hvoid
    rw [not_not] at hvoid
    subst hvoid
    exact ⟨.refl hp.coherent.tables, .procedure hw hg⟩

end Results

theorem assignUpTo_tests {n : Nat} (hp : s.program.Warmed) (ha : s.program.types.Valid a)
    (ht : s.program.types.Valid t) :
    Tests c s (assignUpTo e n a t loc) fun how s' => s'.program.Enters a t how := by
  induction n generalizing s a t with
  | zero => trivial
  | succ n ih =>
    have hrefl := Adds.refl hp.coherent.tables
    have holds {t : TypeId} (ht : s.program.types.Valid t) := hp.coherent.tables.holds ht
    unfold assignUpTo
    split
    · rename_i hsame
      obtain rfl | rfl := hsame
      · exact ⟨hrefl, .same⟩
      · exact ⟨hrefl, .never⟩
    refine .ref? (.ref? ?_)
    split
    · rename_i want given hw hg
      exact assignRef_tests hp.coherent ht ha hw hg
    · trivial
    · trivial
    · refine .typeOf (.typeOf ?_)
      split
      · rename_i want d given d' hw hg
        split
        · rename_i hd
          subst hd
          refine (ih hp (holds_optional.1 (hg ▸ holds ha)) (holds_optional.1 (hw ▸ holds ht))).bind
            fun how s1 hadds h => ?_
          split
          · exact ⟨.refl hadds.tables, .optional (get_of_grows hadds.types hw (by simp))
              (get_of_grows hadds.types hg (by simp)) h⟩
          · trivial
        · trivial
      · rename_i x y hw hg
        obtain ⟨u, _, _, hu, _⟩ := hp.signed x (holds_cold.1 (hw ▸ holds ht))
        obtain ⟨v, _, _, hv, _⟩ := hp.signed y (holds_cold.1 (hg ▸ holds ha))
        have hunify : Tests c s (unifyColds e e.assign x y loc) fun _ s' => u = v ∧ s' = s := by
          unfold unifyColds
          refine .program ?_
          dsimp only
          rw [hu, hv]
          dsimp only
          split
          · exact ⟨hrefl, ‹_›, rfl⟩
          · trivial
        refine hunify.bind fun _ s1 _ hs1 => ?_
        obtain ⟨rfl, rfl⟩ := hs1
        exact ⟨hrefl, .cold hw hg hu hv⟩
      · rename_i params want given hw hg
        exact (fixColdTo_tests ih hp ha ht hg hw).bind fun _ s1 hadds h => ⟨.refl hadds.tables, h⟩
      · rename_i hw hg
        exact signature_tests ih hp ht hw (.lambda hg) (holds_lambda.1 (hg ▸ holds ha)).2
      · rename_i hw hg
        exact signature_tests ih hp ht hw (.function hg) (holds_function.1 (hg ▸ holds ha)).2
      · trivial

theorem check_warms (h : p.Resolved) (hok : p.check.result = .ok ()) : p.check.program.Warmed := by
  obtain ⟨hcoherent, hcomplete, _⟩ := check_complete h hok
  refine ⟨hcoherent, fun c hc => ?_⟩
  obtain ⟨l, hl⟩ := hcoherent.colds.filled c hc
  exact hcomplete.signature hcoherent.colds hl

/-- What is stored in a checked program without a conversion needs none. Only what a lambda gives is
not converted although it would have to be, where a weak reference is expected of it. -/
theorem check_passes (h : p.Resolved) (hok : p.check.result = .ok ())
    (hs : s.program = p.check.program) (ha : p.check.program.types.Valid a)
    (ht : p.check.program.types.Valid t) (hrun : assign e a t loc c s = .ok .direct s') :
    s'.program.Enters a t .direct ∧ (¬ p.check.program.Lends t → s'.program.Passes a t) := by
  have hwarm := check_warms h hok
  rw [← hs] at hwarm ha ht ⊢
  obtain ⟨hadds, henters⟩ := Yields.of_ok (assignUpTo_tests hwarm ha ht) hrun
  exact ⟨henters, fun hl => henters.passes rfl fun hl' =>
    hl (hl'.restrict hwarm.coherent.tables hadds.types ht)⟩

def derivedResultText : String :=
  "class P { } class Q { +P } fn take(fn() ?P g) { } take(() { ?Q })"

theorem check_passes_optional :
    (Program.ofText derivedResultText).check.program.types.get ⟨10⟩ = .lambda [] ⟨9⟩ ∧
      ∃ s,
        assign (engine 0) ⟨14⟩ ⟨10⟩ default {}
          { program := (Program.ofText derivedResultText).check.program } = .ok .direct s ∧
        s.program.Passes ⟨14⟩ ⟨10⟩ := by
  have hrun : Program.resolves derivedResultText = true ∧
      (Program.ofText derivedResultText).check.result = .ok () ∧
      (Program.ofText derivedResultText).check.program.types.get ⟨10⟩ = .lambda [] ⟨9⟩ ∧
      (Program.ofText derivedResultText).check.program.types.get ⟨9⟩ = .optional ⟨8⟩ 1 ∧
      (Program.ofText derivedResultText).check.program.types.get ⟨8⟩ = .ref .pin ⟨0⟩ ∧
      (Program.ofText derivedResultText).check.program.types.get ⟨14⟩ = .lambda [] ⟨13⟩ ∧
      (assign (engine 0) ⟨14⟩ ⟨10⟩ default {}).run'
      { program := (Program.ofText derivedResultText).check.program } = some .direct := by
    decide +kernel
  have h := Program.resolved_ofText derivedResultText hrun.1
  generalize Program.ofText derivedResultText = p at h hrun ⊢
  obtain ⟨_, hok, ht, hresult, hwrapped, ha, hassign⟩ := hrun
  refine ⟨ht, ?_⟩
  obtain ⟨s, hs⟩ := ok_of_run' hassign
  refine ⟨s, hs, (check_passes h hok rfl (valid_of_get ha nofun) (valid_of_get ht nofun) hs).2 ?_⟩
  rintro (⟨hw, hi⟩ | ⟨hw, hl⟩ | ⟨hw, _⟩) <;> cases ht.symm.trans hw
  · cases hresult.symm.trans hi
  · obtain ⟨hw, _⟩ | ⟨hw, _⟩ | ⟨hw, hl⟩ := hl <;> cases hresult.symm.trans hw
    obtain ⟨hw, _⟩ | ⟨hw, _⟩ | ⟨hw, _⟩ := hl <;> cases hwrapped.symm.trans hw

def lentText : String := "class P { } fn take(fn() &P g) { } take(() { P })"

/-- A lambda that gives an owner is taken for one that gives a weak reference. -/
theorem check_passes_lent :
    (Program.ofText lentText).Resolved ∧ (Program.ofText lentText).check.result = .ok () ∧
      ∃ a t, (Program.ofText lentText).check.program.types.Valid a ∧
        (Program.ofText lentText).check.program.types.Valid t ∧
        (Program.ofText lentText).check.program.Stows a t .direct ∧
        ¬ (Program.ofText lentText).check.program.Passes a t := by
  have hrun : Program.resolves lentText = true ∧ (Program.ofText lentText).check.result = .ok () ∧
      (Program.ofText lentText).check.program.types.get ⟨6⟩ = .ref .own ⟨0⟩ ∧
      (Program.ofText lentText).check.program.types.get ⟨7⟩ = .ref .weak ⟨0⟩ ∧
      (Program.ofText lentText).check.program.types.get ⟨8⟩ = .lambda [] ⟨7⟩ ∧
      (Program.ofText lentText).check.program.types.get ⟨10⟩ = .lambda [] ⟨6⟩ := by decide +kernel
  have h := Program.resolved_ofText lentText hrun.1
  generalize Program.ofText lentText = p at h hrun ⊢
  obtain ⟨_, hok, hown, hweak, ht, ha⟩ := hrun
  refine ⟨h, hok, ⟨10⟩, ⟨8⟩, valid_of_get ha nofun, valid_of_get ht nofun, ?_, ?_⟩
  · have hresult : p.check.program.Enters ⟨6⟩ ⟨7⟩ (.weaken ⟨0⟩) :=
      .weakened (ref?_eq_some.2 hweak) (ref?_eq_some.2 hown) (again_isSubinst_self _ _) rfl
    exact (Enters.lambda ht (.lambda ha) hresult).stows (check_warms h hok).coherent.tables
  · rintro (_ | _ | ⟨hw, _⟩ | ⟨hw, _⟩ | ⟨hw, _⟩ | ⟨hw, _⟩ | ⟨hw, hg, hpass⟩)
    · cases ht.symm.trans (ref?_eq_some.1 hw)
    all_goals cases ht.symm.trans hw
    obtain hg | hg | ⟨hg, _⟩ := hg <;> cases ha.symm.trans hg
    obtain _ | _ | ⟨hw, hg, _, hkind⟩ | ⟨hw, _⟩ | ⟨hw, _⟩ | ⟨hw, _⟩ | ⟨hw, _⟩ := hpass
    · cases (ref?_eq_some.2 hweak).symm.trans hw
      cases (ref?_eq_some.2 hown).symm.trans hg
      cases hkind
    all_goals cases hweak.symm.trans hw

end Typing

end ClassLang
