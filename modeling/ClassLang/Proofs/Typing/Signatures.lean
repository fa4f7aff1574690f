import ClassLang.Proofs.Typing.Sound.Program

namespace ClassLang

variable {inst : InstId} {u : TypeId}

open TypeTable

namespace Typing

variable {c : Context} {s s' : PassState} {e : Engine} {a t want : TypeId} {how : Storing} {n : Nat}
  {loc : Location} {given : RefKind × InstId} {params : List TypeId} {α : Type}

theorem tryCatch_of_ok {m : Check α} {k : Fault TypeCause → Check α} {v : α}
    (h : m c s = .ok v s') : (tryCatch m k) c s = .ok v s' := by
  show EStateM.tryCatch (m c) (fun e => k e c) s = _
  delta EStateM.tryCatch
  rw [h]

theorem discard_of_ok {m : Check α} {v : α} (h : m c s = .ok v s') :
    (discard m) c s = .ok () s' := by
  show EStateM.map _ (m c) s = _
  rw [EStateM.map, h]

theorem assignUpTo_direct
    (h : ¬(a = t ∨ a = TypeId.noReturn) → assignUpTo e (n + 1) a t loc c s = .ok .direct s) :
    assignUpTo e (n + 1) a t loc c s = .ok .direct s := by
  by_cases hsame : a = t ∨ a = TypeId.noReturn
  · rw [assignUpTo, if_pos hsame]
    rfl
  · exact h hsame

theorem assignUpTo_of_refs {want : RefKind × InstId} (hne : ¬(a = t ∨ a = TypeId.noReturn))
    (hw : s.program.types.ref? t = some want) (hg : s.program.types.ref? a = some given) :
    assignUpTo e (n + 1) a t loc c s = assignRef t a want given loc c s := by
  rw [assignUpTo, if_neg hne, bind_ref?, bind_ref?, hw, hg]

theorem assignUpTo_of_optionals {given : TypeId} {depth : Nat}
    (ht : s.program.types.get t = .optional want depth)
    (ha : s.program.types.get a = .optional given depth)
    (h : assignUpTo e n given want loc c s = .ok .direct s) :
    assignUpTo e (n + 1) a t loc c s = .ok .direct s := by
  refine assignUpTo_direct fun hne => ?_
  rw [assignUpTo, if_neg hne, bind_ref?, bind_ref?, ref?_eq_none ht nofun, ref?_eq_none ha nofun]
  dsimp only
  rw [bind_typeOf, bind_typeOf, ht, ha]
  dsimp only
  rw [if_pos rfl]
  exact bind_of_ok h

theorem assignRef_kept {want : RefKind × InstId}
    (h : s.program.Again (Program.isSubinst given.2 want.2) true)
    (hkind : keepsKind want.1 given.1 = true) :
    assignRef t a want given loc c s = .ok .direct s := by
  unfold assignRef
  rw [bind_of_ok (editing_again h (.refl _) loc), if_neg (by decide), if_pos hkind]
  rfl

theorem assignRef_weakened (h : s.program.Again (Program.isSubinst given.2 inst) true)
    (hkind : keepsKind .weak given.1 = false) :
    assignRef t a (.weak, inst) given loc c s = .ok (.weaken inst) s := by
  unfold assignRef
  rw [bind_of_ok (editing_again h (.refl _) loc), if_neg (by decide), if_neg (by simp [hkind])]
  rfl

theorem tryCatch_of_yields {m : Check Storing} {k : Fault TypeCause → Check Unit}
    (h : want = TypeId.void ∨ ∃ how, m c s = .ok how s) (hwant : want ≠ TypeId.void) :
    (tryCatch (discard m) k) c s = .ok () s := by
  obtain ⟨how, h⟩ := h.resolve_left hwant
  exact tryCatch_of_ok (discard_of_ok h)

theorem fixColdTo_of_signed {store : TypeId → TypeId → Location → Check Storing} {cold : ColdId}
    {given : TypeId} (hsig : (s.program.colds.lookup cold).signature = some u)
    (hu : s.program.types.get u = .lambda params given)
    (ht : s.program.types.get t = .lambda params want)
    (hyields : want = TypeId.void ∨ ∃ how, store given want loc c s = .ok how s) :
    fixColdTo e store cold params want loc c s = .ok () s := by
  have hj := Pool.intern_eq (valid_of_get ht nofun) ht
  have hsignature : signatureOf u .coldNotLambda loc c s = .ok (params, given) s := by
    rw [signatureOf, bind_program, TypeTable.signature?, hu]
    rfl
  unfold fixColdTo
  rw [bind_program, hsig]
  dsimp only
  -- The expected type is that of the place, so that the table has it.
  rw [bind_of_ok (show (pure u : Check TypeId) c s = .ok u s from rfl),
    bind_of_ok (intern_again hj (Arena.Grows.refl _)), bind_of_ok hsignature]
  dsimp only
  rw [if_neg (by simp)]
  split
  · exact tryCatch_of_yields hyields ‹_›
  · rfl

theorem assignUpTo_of_signs {given : TypeId} (ht : s.program.types.get t = .lambda params want)
    (ha : s.program.Signs a params given)
    (hyields : want = TypeId.void ∨ ∃ how, assignUpTo e n given want loc c s = .ok how s) :
    assignUpTo e (n + 1) a t loc c s = .ok .direct s := by
  refine assignUpTo_direct fun hne => ?_
  rw [assignUpTo, if_neg hne, bind_ref?, bind_ref?, ref?_eq_none ht nofun]
  cases ha with
  | lambda ha | function ha =>
    rw [ref?_eq_none ha nofun]
    dsimp only
    rw [bind_typeOf, bind_typeOf, ht, ha]
    dsimp only
    rw [if_neg (by simp)]
    split
    · exact bind_of_ok (tryCatch_of_yields hyields ‹_›)
    · rfl
  | cold ha hsig hu =>
    rw [ref?_eq_none ha nofun]
    dsimp only
    rw [bind_typeOf, bind_typeOf, ht, ha]
    dsimp only
    exact bind_of_ok (fixColdTo_of_signed hsig hu ht hyields)

theorem assignUpTo_of_colds {x y : ColdId} (ht : s.program.types.get t = .cold x)
    (ha : s.program.types.get a = .cold y) (hx : (s.program.colds.lookup x).signature = some u)
    (hy : (s.program.colds.lookup y).signature = some u) :
    assignUpTo e (n + 1) a t loc c s = .ok .direct s := by
  refine assignUpTo_direct fun hne => ?_
  rw [assignUpTo, if_neg hne, bind_ref?, bind_ref?, ref?_eq_none ht nofun, ref?_eq_none ha nofun]
  dsimp only
  rw [bind_typeOf, bind_typeOf, ht, ha]
  refine bind_of_ok (v := u) ?_
  rw [unifyColds, bind_program, hx, hy]
  dsimp only
  rw [if_pos rfl]
  rfl

/-- What is known to get into a place is let in again; the induction is along the way it gets there.
-/
theorem assignUpTo_of_enters (hp : s.program.Tables) (h : s.program.Enters a t how)
    (hn : t.index ≤ n) : assignUpTo e (n + 1) a t loc c s = .ok how s := by
  -- A part of the place comes before it in the table, so that there is a step left for it.
  have hpart {t u : TypeId} {x : Ty} {n : Nat} (ht : s.program.types.get t = x) (hu : u ∈ x.parts)
      (hn : t.index ≤ n) : ∃ m, n = m + 1 ∧ u.index ≤ m := by
    have hlt := Nat.lt_of_lt_of_le (hp.types.parts t u (ht ▸ hu)) hn
    exact ⟨n - 1, by omega, by omega⟩
  induction h generalizing n with
  | same => exact assignUpTo_direct fun hne => absurd (.inl rfl) hne
  | never => exact assignUpTo_direct fun hne => absurd (.inr rfl) hne
  | kept ht ha hsub hkind =>
    exact assignUpTo_direct fun hne => (assignUpTo_of_refs hne ht ha).trans
      (assignRef_kept hsub hkind)
  | @weakened a t inst given ht ha hsub hkind =>
    refine (assignUpTo_of_refs ?_ ht ha).trans (assignRef_weakened hsub hkind)
    rintro (rfl | rfl)
    · cases ht.symm.trans ha
      cases hkind
    · cases (hp.types.get_basic (by decide)).symm.trans (ref?_eq_some.1 ha)
  | optional ht ha _ ih =>
    obtain ⟨m, rfl, hm⟩ := hpart ht (List.mem_singleton_self _) hn
    exact assignUpTo_of_optionals ht ha (ih hm)
  | cold ht ha hx hy => exact assignUpTo_of_colds ht ha hx hy
  | procedure ht ha => exact assignUpTo_of_signs ht ha (.inl rfl)
  | lambda ht ha _ ih =>
    obtain ⟨m, rfl, hm⟩ := hpart ht (List.mem_append_right _ (List.mem_singleton_self _)) hn
    exact assignUpTo_of_signs ht ha (.inr ⟨_, ih hm⟩)

end Typing

namespace Program

open Typing

variable {p0 p : Program} {G : Atlas} {a t : TypeId} {v : VarId} {l : LambdaId} {how : Storing}

def Stows (p : Program) (a t : TypeId) (how : Storing) : Prop :=
  ∀ (e : Engine) (c : Context) (loc : Location) (s : PassState), s.program = p →
    assign e a t loc c s = .ok how s

/-- What has type `t` gets into the parameter `v` as it is, or weakened if `v` is declared to be
weak. A parameter without a declared type can also have been given a placeholder that got the
signature `t` later. -/
inductive Supplied (p : Program) (v : VarId) (t : TypeId) : Prop
  | direct {u : TypeId} : (p.vars.get v).slot = .fixed u → p.Stows t u .direct → Supplied p v t
  | weakened {u : TypeId} {inst : InstId} : (p.vars.get v).init ≠ none →
      (p.vars.get v).slot = .fixed u →
      p.types.get u = .ref .weak inst → p.Stows t u (.weaken inst) → Supplied p v t
  | cold {u : TypeId} {c : ColdId} : (p.vars.get v).init = none → (p.vars.get v).slot = .fixed u →
      p.types.get u = .cold c → (p.colds.lookup c).signature = some t → Supplied p v t

theorem Enters.stows (hp : p.Tables) (h : p.Enters a t how) : p.Stows a t how := by
  rintro e c loc s rfl
  exact assignUpTo_of_enters hp h (Nat.le_refl _)

theorem Enters.weak (h : p.Enters a t (.weaken inst)) : p.types.get t = .ref .weak inst := by
  cases h with
  | weakened ht _ _ _ => exact ref?_eq_some.1 ht

theorem Accepts.supplied (hp : p.Tables) (h : p.Accepts v t)
    (hplain : ∀ u, (p.vars.get v).init ≠ none → (p.vars.get v).slot = .fixed u → Plain p.types u) :
    p.Supplied v t := by
  obtain ⟨u, hslot, hbare, hdeclared⟩ := h
  by_cases hinit : (p.vars.get v).init = none
  · obtain rfl | ⟨c, hc, hsig⟩ := hbare hinit
    · exact .direct hslot (Enters.same.stows hp)
    · exact .cold hinit hslot hc hsig
  · obtain ⟨how, henters⟩ := hdeclared hinit (hplain u hinit hslot)
    cases how with
    | direct => exact .direct hslot (henters.stows hp)
    | weaken inst => exact .weakened hinit hslot henters.weak (henters.stows hp)

/-- The declared types of the parameters of lambdas have no placeholders in them. -/
theorem Sound.plain_param (h : p0.Sound G p) (hp : p.Coherent) (halike : p0.Alike p) {c : ColdId}
    (hc : (p.lambdas.get l).cold = some c) (hv : v ∈ (p.lambdas.get l).params)
    (hinit : (p.vars.get v).init ≠ none) (hslot : (p.vars.get v).slot = .fixed u) :
    Plain p.types u := by
  obtain ⟨e, hawaits⟩ := h.placed l c hc
  obtain ⟨d, hd⟩ := Option.ne_none_iff_exists'.1 hinit
  have htyped := hp.vars v u hslot
  rw [VarTyped, (hp.shaped.params l).2 v hv, hd] at htyped
  obtain ⟨x, hx, hpinned⟩ := htyped
  rw [halike.lambdaParams] at hv
  rw [halike.init] at hd
  cases hawaits.types v hv d hd with
  | node hG _ _ =>
    have htype := hawaits.declared d (List.mem_filterMap.2 ⟨v, hv, hd⟩)
    have hplain := (((h.finished _ d hG ⟨x, hx⟩).verdict x hx).declarable htype).plain.pinned
    rwa [hpinned] at hplain

end Program

namespace Typing

variable {p : Program}

/-- The signature of a placeholder fits all its lambdas, if no placeholder is merged while its
lambdas are being typed and none that has a signature is fixed again. Only where a weak reference is
declared, the lambda expects what an application does not give it. -/
theorem check_fits (h : p.Resolved) (hok : p.check.result = .ok ())
    (hcalm : p.marks.Calm p.check.writes) (hfresh : p.marks.Fresh p.check.writes) (r : ColdId)
    (hr : (p.check.program.colds.get r).forward = none) (t : TypeId)
    (ht : (p.check.program.colds.get r).signature = some t) :
    ∃ params result, p.check.program.types.get t = .lambda params result ∧
      ∀ l ∈ (p.check.program.colds.get r).sites,
        List.Forall₂ p.check.program.Supplied (p.check.program.lambdas.get l).params params := by
  have hsound := (typed_of_check h hok).sound
  obtain ⟨s, hprogram, hwrites, hstep, _⟩ := check_ok h hok
  rw [← hprogram] at hsound hr ht ⊢
  rw [← hwrites] at hcalm hfresh
  have hcoherent := hstep.inv.coherent
  obtain ⟨params, result, hget⟩ := hcoherent.colds.signatures r t ht
  refine ⟨params, result, hget, fun l hl => ?_⟩
  obtain ⟨c, hc, _⟩ := hcoherent.colds.sites r l hl
  obtain ⟨params', result', hget', haccepts⟩ := hstep.inv.fitting hcalm hfresh r hr t ht l hl
  cases hget.symm.trans hget'
  have hparams : List.Forall₂ (fun v x => v ∈ (s.program.lambdas.get l).params ∧
    s.program.Accepts v x) (s.program.lambdas.get l).params params :=
    (List.forall₂_and_left _ _).2 ⟨fun _ => id, haccepts⟩
  refine hparams.imp fun v x ⟨hv, haccepts⟩ => haccepts.supplied hcoherent.tables
    fun u hinit hslot => ?_
  exact hsound.plain_param hcoherent hstep.keeps.alike hc hv hinit hslot

def derivedText : String := "class P { } class Q { +P } f = (P a, b) { 1 }; f(Q, 2)"

theorem check_fits_derived :
    (Program.ofText derivedText).check.program.types.get ⟨8⟩ = .ref .pin ⟨1⟩ ∧
      List.Forall₂ (Program.ofText derivedText).check.program.Supplied
        [⟨0⟩, ⟨1⟩] [⟨8⟩, TypeId.int] := by
  have hrun : Program.resolves derivedText = true ∧ (Program.ofText derivedText).check.result = .ok
      () ∧ (Program.ofText derivedText).marks.Calm (Program.ofText derivedText).check.writes ∧
      (Program.ofText derivedText).marks.Fresh (Program.ofText derivedText).check.writes ∧
      ((Program.ofText derivedText).check.program.colds.get ⟨0⟩).forward = none ∧
      ((Program.ofText derivedText).check.program.colds.get ⟨0⟩).signature = some ⟨11⟩ ∧
      ⟨0⟩ ∈ ((Program.ofText derivedText).check.program.colds.get ⟨0⟩).sites ∧
      ((Program.ofText derivedText).check.program.lambdas.get ⟨0⟩).params = [⟨0⟩, ⟨1⟩] ∧
      (Program.ofText derivedText).check.program.types.get ⟨11⟩ = .lambda [⟨8⟩, TypeId.int]
      TypeId.int ∧ (Program.ofText derivedText).check.program.types.get ⟨8⟩ = .ref .pin ⟨1⟩ := by
    decide +kernel
  have h := Program.resolved_ofText derivedText hrun.1
  generalize Program.ofText derivedText = p at h hrun ⊢
  obtain ⟨_, hok, hcalm, hfresh, hroot, hsig, hsite, hparams, hget, hpinned⟩ := hrun
  obtain ⟨params, result, hget', hfits⟩ := check_fits h hok hcalm hfresh ⟨0⟩ hroot ⟨11⟩ hsig
  cases hget.symm.trans hget'
  exact ⟨hpinned, hparams ▸ hfits ⟨0⟩ hsite⟩

def weakenedText : String := "class P { } f = (&P a, b) { 1 }; f(P, 2)"

/-- The signature is one with a pinned reference, and no application weakens it. -/
theorem check_fits_weak :
    (Program.ofText weakenedText).Resolved ∧ (Program.ofText weakenedText).check.result = .ok () ∧
      ∃ r t l v a u params result,
        ((Program.ofText weakenedText).check.program.colds.get r).forward = none ∧
        ((Program.ofText weakenedText).check.program.colds.get r).signature = some t ∧
        (Program.ofText weakenedText).check.program.types.get t = .lambda (a :: params) result ∧
        l ∈ ((Program.ofText weakenedText).check.program.colds.get r).sites ∧
        (Program.ofText weakenedText).check.program.Known
          ((Program.ofText weakenedText).check.program.lambdas.get l).body ∧
        ((Program.ofText weakenedText).check.program.lambdas.get l).params.head? = some v ∧
        ((Program.ofText weakenedText).check.program.vars.get v).slot = .fixed u ∧
        ¬ (Program.ofText weakenedText).check.program.Stows a u .direct := by
  have hrun : Program.resolves weakenedText = true ∧ (Program.ofText weakenedText).check.result =
      .ok () ∧ ((Program.ofText weakenedText).check.program.colds.get ⟨0⟩).forward = none ∧
      ((Program.ofText weakenedText).check.program.colds.get ⟨0⟩).signature = some ⟨10⟩ ∧
      (Program.ofText weakenedText).check.program.types.get ⟨10⟩ = .lambda [⟨8⟩, TypeId.int]
      TypeId.int ∧ ⟨0⟩ ∈ ((Program.ofText weakenedText).check.program.colds.get ⟨0⟩).sites ∧
      (Program.ofText weakenedText).check.program.slot
      ((Program.ofText weakenedText).check.program.lambdas.get ⟨0⟩).body = .fixed TypeId.int ∧
      ((Program.ofText weakenedText).check.program.lambdas.get ⟨0⟩).params.head? = some ⟨0⟩ ∧
      ((Program.ofText weakenedText).check.program.vars.get ⟨0⟩).slot = .fixed ⟨9⟩ ∧
      (assign (engine 0) ⟨8⟩ ⟨9⟩ default {}).run'
      { program := (Program.ofText weakenedText).check.program } = some (.weaken ⟨0⟩) := by
    decide +kernel
  have h := Program.resolved_ofText weakenedText hrun.1
  generalize Program.ofText weakenedText = p at h hrun ⊢
  obtain ⟨_, hok, hroot, hsig, hget, hsite, hbody, hparam, hslot, hweaken⟩ := hrun
  refine ⟨h, hok, ⟨0⟩, ⟨10⟩, ⟨0⟩, ⟨0⟩, ⟨8⟩, ⟨9⟩, _, _, hroot, hsig, hget, hsite, ⟨_, hbody⟩, hparam,
    hslot, fun hstows => ?_⟩
  obtain ⟨_, hassign⟩ := ok_of_run' hweaken
  cases hassign.symm.trans (hstows (engine 0) {} default { program := p.check.program } rfl)

end Typing

end ClassLang
