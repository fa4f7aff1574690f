import ClassLang.Proofs.Typing.Sound.Declared

namespace ClassLang

open List Program TypeTable

namespace Program

variable {p0 p : Program} {G : Atlas} {a : List ParamId} {x y : ColdId} {t u : TypeId}

theorem forall₂_of_zip {α β γ : Type} {P : α → γ → Prop} {Q : β → γ → Prop} {xs : List α}
    {ys : List β} {zs : List γ} (hlen : xs.length = ys.length)
    (h : Forall₂ (fun x z => P x.1 z ∧ Q x.2 z) (xs.zip ys) zs) :
    Forall₂ P xs zs ∧ Forall₂ Q ys zs := by
  induction xs generalizing ys zs with
  | nil =>
    cases ys with
    | nil =>
      cases h
      exact ⟨.nil, .nil⟩
    | cons => cases hlen
  | cons x xs ih =>
    cases ys with
    | nil => cases hlen
    | cons y ys =>
      cases h with
      | cons hz h =>
        obtain ⟨hxs, hys⟩ := ih (Nat.succ.inj hlen) h
        exact ⟨.cons hz.1 hxs, .cons hz.2 hys⟩

theorem Suits.refl (p : Program) (t : TypeId) : p.Suits t t :=
  fun kind x hx => ⟨kind, x, hx, .inl rfl, p.again_isSubinst_self x⟩

theorem Enters.suits (h : p.Enters u t .direct) (hne : u ≠ TypeId.noReturn) : p.Suits u t := by
  intro kind x hx
  cases h with
  | same => exact Suits.refl p _ kind x hx
  | never => exact absurd rfl hne
  | @kept _ _ want given hwant hgiven hsub hkeeps =>
    obtain ⟨wantKind, want⟩ := want
    obtain ⟨givenKind, given⟩ := given
    cases (ref?_eq_some.1 hwant).symm.trans hx
    refine ⟨givenKind, given, ref?_eq_some.1 hgiven, ?_, hsub⟩
    revert hkeeps
    cases kind <;> cases givenKind <;> simp [Typing.keepsKind]
  | optional hw | cold hw | procedure hw | lambda hw => cases hw.symm.trans hx

theorem Enters.fills (h : p.Enters u t .direct) (ht : p.types.Valid t) : p.Fills u t := by
  refine ⟨ht, h.suits, fun hne w depth kind x hw hx => ?_⟩
  cases h with
  | same => exact ⟨w, hw, .inr (.refl p w)⟩
  | never => exact absurd rfl hne
  | kept hwant => cases (ref?_eq_some.1 hwant).symm.trans hw
  | @optional _ _ given _ _ hw' hg h =>
    cases hw'.symm.trans hw
    exact ⟨given, hg, Classical.or_iff_not_imp_left.2 h.suits⟩
  | cold hw' | procedure hw' | lambda hw' => cases hw'.symm.trans hw

section Waiting

variable (h : p0.Sound G p) (hp : p.Coherent) (halike : p0.Alike p) (hsealed : p0.Sealed G p)
include h hp halike hsealed

/-- The lambdas that share a placeholder stand where the same parameters can be mentioned. -/
theorem Waiting.sites (hx : p.Waiting a x) {l : LambdaId} (hl : l ∈ (p.colds.lookup x).sites) :
    p0.formals (p0.lambdas.get l).owner = a := by
  obtain ⟨l', hcold, ha⟩ := hx
  rw [halike.lambdaOwner, halike.formals] at ha
  rw [← ha]
  exact h.tame.sites hsealed _ l hl l' (hp.colds.placed l' x hcold).2

theorem Waiting.find (hx : p.Waiting a x) (hvalid : p.colds.Valid x) :
    p.Waiting a (p.colds.find x) := by
  obtain ⟨l, hl⟩ := hp.colds.filled _ (hp.colds.rooted.valid_find hvalid)
  refine ⟨l, hl, ?_⟩
  rw [halike.lambdaOwner, halike.formals]
  refine hx.sites h hp halike hsealed ?_
  have hsite := (hp.colds.placed l _ hl).2
  rwa [ColdTable.lookup, hp.colds.rooted.find_find] at hsite

theorem Waiting.signature (hx : p.Waiting a x) (ht : (p.colds.lookup x).signature = some t) :
    p.Speaks a false t := by
  obtain ⟨l, hcold, ha⟩ := hx
  rw [halike.lambdaOwner, halike.formals] at ha
  rw [← ha]
  exact h.tame.signatures _ t ht l (hp.colds.placed l x hcold).2 fun _ => hsealed

end Waiting

section Awaiting

variable {o : Option ClassId} {s s' : PassState}

theorem Says.cold (h : p0.Says G p ⟨o, false⟩ t) (hget : p.types.get t = .cold x) :
    p0.Awaited G p o x :=
  fun hsealed => (Over.cold (h fun _ => hsealed) hget).2

theorem Says.makeCold (ht : p.types.Valid t) (hget : p.types.get t = .cold x)
    (h : p0.Awaited G p o x) : p0.Says G p ⟨o, false⟩ t := by
  intro hsealed
  refine .node ht ?_ ?_ ?_ <;> rw [hget]
  · nofun
  · intro y hy
    cases hy
    exact ⟨rfl, h (hsealed rfl)⟩
  · nofun

theorem Awaited.step (h : p0.Awaited G s.program o x) (hs : Typing.Inv p0 s) {f : Typing.Focus}
    (hst : Typing.Step p0 f s s') : p0.Awaited G s'.program o x :=
  fun hsealed => (h (hsealed.back hst.keeps hs.coherent)).keeps hst.keeps

theorem Awaited.signature (h : p0.Awaited G s.program o x) {c : Typing.Context}
    (hs : Typing.Ready p0 G c s) (ht : (s.program.colds.lookup x).signature = some t) :
    Typing.Said p0 G o t s :=
  fun hsealed => (h (hsealed rfl)).signature hs.sound hs.coherent hs.alike (hsealed rfl) ht

theorem Says.params {r : Region} {params : List TypeId} {result : TypeId} (h : p0.Says G p r t)
    (hsig : p.types.signature? t = some (params, result)) :
    (∀ u ∈ params, p0.Says G p r u) ∧ p0.Says G p r result := by
  have hparts : (p.types.get t).parts = params ++ [result] := by
    unfold TypeTable.signature? at hsig
    split at hsig <;> cases hsig <;> rename_i hget <;> rw [hget] <;> rfl
  exact ⟨fun u hu => h.part (by rw [hparts]; exact mem_append_left _ hu),
    h.part (by rw [hparts]; simp)⟩

end Awaiting

end Program

namespace TypeTable

variable {T : TypeTable} {t result : TypeId} {params : List TypeId}

theorem signature?_of_lambda (h : T.get t = .lambda params result) :
    T.signature? t = some (params, result) := by
  rw [signature?, h]

theorem signature?_of_function (h : T.get t = .function params result) :
    T.signature? t = some (params, result) := by
  rw [signature?, h]

end TypeTable

namespace Typing

variable {p0 p : Program} {G : Atlas} {n : Nat} {c : Context} {s s' : PassState}
  {o : Option ClassId} {t target actual : TypeId} {e e' : Engine}
  {store store' : TypeId → TypeId → Location → Check Storing} {z : Setting} {loc : Location}

theorem plain_of_ref {kind : RefKind} {x : InstId} (ht : p.types.Valid t)
    (hget : p.types.get t = .ref kind x) : Plain p.types t := by
  refine .node ht (fun _ _ => trivial) ?_ ?_ <;> rw [hget] <;> nofun

/-- A place for references, or for ones that can be absent, is one without placeholders. -/
theorem Settles.fills (h : Settles p actual target .direct) (hp : p.Coherent)
    (ht : p.types.Valid target) : p.Fills actual target := by
  refine ⟨ht, fun hne kind x hx => (h (plain_of_ref ht hx)).suits hne kind x hx,
    fun hne w depth kind x hw hx => ?_⟩
  refine ((h (.node ht (fun _ _ => trivial) ?_ ?_)).fills ht).optional hne w depth kind x hw
    hx <;> rw [hw]
  · nofun
  · exact forall_mem_singleton.2 (plain_of_ref (holds_optional.1 (hw ▸ hp.tables.holds ht)) hx)

theorem assignRef_walks (hs : Ready p0 G c s) {want given : RefKind × InstId}
    (ht : s.program.types.Valid target) (ha : s.program.types.Valid actual)
    (hw : s.program.types.ref? target = some want) (hg : s.program.types.ref? actual = some given)
    (hloc : p0.Spot loc) :
    Goes p0 G n {} c s (assignRef target actual want given loc) fun how s' =>
      (∀ inst, how = .weaken inst → s'.program.types.get target = .ref .weak inst) ∧
      Settles s'.program actual target how := by
  unfold assignRef
  refine (Walks.isSubinst hs (hs.valid_ref ha hg) (hs.valid_ref ht hw) loc).bind
    fun b s1 hst1 hs1 hsub => ?_
  have hw1 := ref?_of_grows hst1.keeps.types hw
  have hg1 := ref?_of_grows hst1.keeps.types hg
  cases b with
  | false => exact .mismatch hs1 _ _ hloc
  | true =>
    rw [if_neg (by simp)]
    split
    · rename_i hkind
      exact .pure hs1 ⟨nofun, fun _ => .kept hw1 hg1 hsub hkind⟩
    · rename_i hkind
      obtain ⟨kind, inst⟩ := want
      cases kind with
      | weak =>
        refine .pure hs1 ⟨fun inst hi => ?_, fun _ =>
          .weakened hw1 hg1 hsub (Bool.eq_false_iff.2 hkind)⟩
        cases hi
        exact ref?_eq_some.1 hw1
      | own => exact .fail hs1 (by nofun) hloc
      | pin => exact .mismatch hs1 _ _ hloc

section Colds

variable {cold x y : ColdId} {params : List TypeId} {result : TypeId}

def Yielding (p : Program) (given want : TypeId) : Prop :=
  want = TypeId.void ∨ ∃ how, p.Enters given want how

def Adapts (p : Program) (cold : ColdId) (params : List TypeId) (result : TypeId) : Prop :=
  Plain p.types result → ∃ t given, (p.colds.lookup cold).signature = some t ∧
    p.types.get t = .lambda params given ∧ Yielding p given result

abbrev Stores (p0 : Program) (G : Atlas) (n : Nat) (c : Context) (s : PassState) (cold : ColdId)
    (store store' : TypeId → TypeId → Location → Check Storing) : Prop :=
  ∀ s', Step p0 {} s s' → (s'.program.colds.lookup cold).signature ≠ none →
    Assigns p0 G n c s' store store'

variable (hs : Ready p0 G c s) (he : e.Good p0 G n e') (hloc : p0.Spot loc)
include hs he hloc

theorem fixColdTo_walks (hstore : Stores p0 G n c s cold store store')
    (hc : s.program.colds.Valid cold) (hp : ∀ t ∈ params, s.program.types.Valid t)
    (hr : s.program.types.Valid result) (hwaits : p0.Awaited G s.program o cold)
    (hps : ∀ t ∈ params, Said p0 G o t s) (hrs : Said p0 G o result s) :
    Walks p0 G n {} c s (fixColdTo e store cold params result loc)
      (fixColdTo e' store' cold params result loc) fun _ s' =>
      Adapts s'.program cold params result := by
  unfold fixColdTo
  refine .program ?_
  extract_lets fit fit'
  have hfit {t : TypeId} {s1 : PassState} (hst1 : Step p0 {} s s1) (hs1 : Ready p0 G c s1)
      (hsig : (s1.program.colds.lookup cold).signature = some t) (hsaid : Said p0 G o t s1) :
      Walks p0 G n {} c s1 (fit t) (fit' t) fun _ s' => Adapts s'.program cold params result := by
    obtain ⟨ht, haveParams, haveResult, hget⟩ := hs1.signature hsig
    have hp1 : ∀ t ∈ params, s1.program.types.Valid t := fun t h => hst1.keeps.types.valid (hp t h)
    have hr1 := hst1.keeps.types.valid hr
    refine Walks.bind (.intern hs1 (holds_lambda.2 ⟨hp1, hr1⟩) nofun nofun)
      fun expected s2 hst2 hs2 _ => ?_
    have hsig2 := signature?_of_lambda ((hst2.keeps.types.get_eq ht).trans hget)
    refine Walks.bind (.signatureOf hs2 (hst2.keeps.types.valid ht) hsig2 _ _)
      fun sig s3 _ _ ⟨hs3, hsame, _, hres⟩ => ?_
    subst hs3 hsame
    have hadapts {s4 : PassState} (hst4 : Step p0 {} s3 s4) (hparams : haveParams = params)
        (hyields : Plain s4.program.types result → Yielding s4.program haveResult result) :
        Adapts s4.program cold params result := by
      intro hplain
      have hst := hst2.trans hst4
      refine ⟨t, haveResult, hst.signatures rfl _ _ hsig, ?_, hyields hplain⟩
      exact (hst.keeps.types.get_eq ht).trans (hparams ▸ hget)
    dsimp only
    split
    · exact .mismatch hs2 _ _ hloc
    rename_i hparams
    rw [not_not] at hparams
    split
    · have hsigned : (s3.program.colds.lookup cold).signature ≠ none := by
        rw [hst2.signatures rfl cold t hsig]
        nofun
      exact .orMismatch (.discard
        ((hstore s3 (hst1.trans hst2) hsigned hloc hs2 hres (hst2.keeps.types.valid hr1)
          ((hsaid.step hs1.inv hst2).params hsig2).2 (hrs.step hs.inv (hst1.trans hst2))).post
          fun how s4 hst4 _ h => hadapts hst4 hparams fun hplain => .inr ⟨how, h.2 hplain⟩)) _ _
        hloc
    · rename_i hvoid
      exact .pure hs2 (hadapts (.refl hs2.inv) hparams fun _ => .inl (not_not.1 hvoid))
  split
  · rename_i t ht
    exact hfit (.refl hs.inv) hs ht (hwaits.signature hs ht)
  · rename_i hnone
    exact (he.sign hs hc hp hwaits hps hnone hloc).bind fun t s1 hst1 hs1 ht =>
      hfit hst1 hs1 ht.1 ht.2

theorem fixOther_walks (hstore : Stores p0 G n c s cold store store')
    (hc : s.program.colds.Valid cold) (ht : s.program.types.Valid t)
    (hlambda : ∃ params result, s.program.types.get t = .lambda params result)
    (hwaits : p0.Awaited G s.program o cold) (hsaid : Said p0 G o t s) :
    Walks p0 G n {} c s (unifyColds.fixOther e store loc cold t)
      (unifyColds.fixOther e' store' loc cold t) fun u s' => s'.program.types.Valid u ∧
      Said p0 G o u s' := by
  unfold unifyColds.fixOther
  obtain ⟨params, result, hget⟩ := hlambda
  have hsig := signature?_of_lambda hget
  obtain ⟨hps, hrs⟩ := hsaid.params hsig
  refine Walks.bind (.signatureOf hs ht hsig _ _) fun sig s1 _ _ ⟨hs1, hsame, hp, hr⟩ => ?_
  subst hs1 hsame
  exact (fixColdTo_walks hs he hloc hstore hc hp hr hwaits hps hrs).bind fun _ s2 hst2 hs2 _ =>
    .pure hs2 ⟨hst2.keeps.types.valid ht, hsaid.step hs.inv hst2⟩

theorem unifyColds_walks
    (hstore : ∀ cold, (s.program.colds.lookup cold).signature = none → s.program.colds.Valid cold →
      Stores p0 G n c s cold store store') (hx : s.program.colds.Valid x)
    (hy : s.program.colds.Valid y) (hwx : p0.Awaited G s.program o x)
    (hwy : p0.Awaited G s.program o y) :
    Walks p0 G n {} c s (unifyColds e store x y loc) (unifyColds e' store' x y loc) fun t s' =>
      s'.program.types.Valid t ∧ Said p0 G o t s' := by
  unfold unifyColds
  refine .program ?_
  dsimp only
  split
  · rename_i hsx hsy
    have hmerge : Step p0 {} s (s.after (.merge x y)) := .merge hs.inv hx hy hsx hsy
    refine (Walks.write hs hmerge
      (hs.sound.merge hs.charted hs.coherent hx hy hsx hsy fun hsealed => ⟨p0.formals o, ?_⟩)).bind
      fun _ s1 hst1 hs1 _ => ?_
    · have hback := hsealed.back hmerge.keeps hs.coherent
      exact forall_mem_append.2
        ⟨fun l hl => (hwx hback).sites hs.sound hs.coherent hs.alike hback hl, fun l hl =>
          (hwy hback).sites hs.sound hs.coherent hs.alike hback hl⟩
    · have hroot := Nat.lt_of_lt_of_le (hs.coherent.colds.rooted.valid_find hx) hst1.keeps.colds
      refine (Walks.intern hs1 (holds_cold.2 hroot) nofun nofun).post
        fun t s2 hst2 _ ⟨_, ht, hget⟩ => ⟨ht, .makeCold ht hget fun hsealed => ?_⟩
      have hst := hst1.trans hst2
      have hback := hsealed.back hst.keeps hs.coherent
      exact ((hwx hback).find hs.sound hs.coherent hs.alike hback hx).keeps hst.keeps
  · rename_i hsx hsy
    exact fixOther_walks hs he hloc (hstore y hsy hy) hy (hs.signature hsx).1
      (hs.signature hsx).2 hwy (hwx.signature hs hsx)
  · rename_i hsx hsy
    exact fixOther_walks hs he hloc (hstore x hsx hx) hx (hs.signature hsy).1
      (hs.signature hsy).2 hwx (hwy.signature hs hsy)
  · rename_i hsx _
    split
    · exact .pure hs ⟨(hs.signature hsx).1, hwx.signature hs hsx⟩
    · exact .fail hs (by nofun) hloc

end Colds

theorem enters_lambda {params : List TypeId} {given want : TypeId}
    (ht : p.types.get target = .lambda params want) (ha : p.Signs actual params given)
    (h : Yielding p given want) : p.Enters actual target .direct := by
  obtain rfl | ⟨how, h⟩ := h
  · exact .procedure ht ha
  · exact .lambda ht ha h

/-- A lambda or function fits a lambda type by its own parameters and its result. -/
theorem signed_walks {store store' : TypeId → TypeId → Location → Check Storing}
    {params haveParams : List TypeId} {result haveResult : TypeId} (hloc : p0.Spot loc)
    (hs : Ready p0 G c s) (hstore : Assigns p0 G n c s store store')
    (ht : s.program.types.Valid target) (hsa : Said p0 G o actual s) (hst : Said p0 G o target s)
    (hw : s.program.types.get target = .lambda params result)
    (hg : s.program.Signs actual haveParams haveResult)
    (hsig : s.program.types.signature? actual = some (haveParams, haveResult))
    (hh : s.program.types.Valid haveResult) :
    Walks p0 G n {} c s (do
      if haveParams ≠ params then
        mismatch target actual loc
      if result ≠ TypeId.void then
        tryCatch (discard (store haveResult result loc)) fun _ => mismatch target actual loc
      return .direct) (do
      if haveParams ≠ params then
        mismatch target actual loc
      if result ≠ TypeId.void then
        tryCatch (discard (store' haveResult result loc)) fun _ => mismatch target actual loc
      return .direct) fun how s' =>
        (∀ inst, how = .weaken inst → s'.program.types.get target = .ref .weak inst) ∧
          Settles s'.program actual target how := by
  dsimp only
  split
  · exact .mismatch hs _ _ hloc
  rename_i hparams
  rw [not_not] at hparams
  subst hparams
  split
  · have hresult := hstore hloc hs hh (hs.lambda ht hw).2 (hsa.params hsig).2
      (hst.params (signature?_of_lambda hw)).2
    refine Walks.bind (Q := fun _ s' => Settles s'.program actual target .direct)
      (.orMismatch (.discard (hresult.post fun how s1 hst1 _ h hplain => ?_)) _ _ hloc)
      fun _ s1 _ hs1 h => .pure hs1 ⟨nofun, h⟩
    have hw1 := get_of_grows hst1.keeps.types hw nofun
    exact .lambda hw1 (hg.keeps hst1.keeps (hst1.signatures rfl)) (h.2 (hplain.result hw1))
  · rename_i hvoid
    rw [not_not] at hvoid
    subst hvoid
    exact .pure hs ⟨nofun, fun _ => .procedure hw hg⟩

section Fitting

variable (he : e.Good p0 G n e')
include he

/-- What has a signature needs nothing of what stores values, so that there a step further in is one
less to go. -/
theorem assignUpTo_walks (k : Nat) : Assigns p0 G n c s (assignUpTo e k) (assignUpTo e' k) := by
  induction k generalizing s with
  | zero => exact fun hloc hs _ _ _ _ => .mismatch hs _ _ hloc
  | succ k ih =>
    intro actual target loc o hloc hs ha ht hsa hst
    unfold assignUpTo
    split
    · rename_i hsame
      refine .pure hs ⟨nofun, fun _ => ?_⟩
      obtain rfl | rfl := hsame
      · exact .same
      · exact .never
    refine .ref? (.ref? ?_)
    split
    · rename_i want given hw hg
      exact assignRef_walks hs ht ha hw hg hloc
    · exact .mismatch hs _ _ hloc
    · exact .mismatch hs _ _ hloc
    · refine .typeOf (.typeOf ?_)
      split
      · rename_i want d given d' hw hg
        split
        · rename_i hdepth
          subst hdepth
          refine (ih hloc hs (holds_optional.1 (hs.holds ha hg)) (holds_optional.1 (hs.holds ht hw))
            (hsa.part (hg ▸ mem_cons_self)) (hst.part (hw ▸ mem_cons_self))).bind
            fun how s1 hst1 hs1 h => ?_
          split
          · refine .pure hs1 ⟨nofun, fun hplain => ?_⟩
            have hw1 := get_of_grows hst1.keeps.types hw nofun
            refine .optional hw1 (get_of_grows hst1.keeps.types hg nofun) (h.2 (hplain.part ?_))
            rw [hw1]
            exact mem_singleton_self _
          · exact .mismatch hs1 _ _ hloc
        · exact .mismatch hs _ _ hloc
      · rename_i want given hw hg
        intro hn
        refine Walks.bind (unifyColds_walks hs he hloc (fun cold hnone hcold s1 hst1 hsome => ?_)
          (holds_cold.1 (hs.holds ht hw)) (holds_cold.1 (hs.holds ha hg)) (hst.cold hw)
          (hsa.cold hg)) (fun _ s1 hst1 hs1 _ => .pure hs1 ⟨nofun, fun hplain => ?_⟩) hn
        · exact he.store (Nat.lt_of_lt_of_le (hst1.winds.signed cold hcold hnone hsome) hn)
        exact (hplain.cold (get_of_grows hst1.keeps.types hw nofun)).elim
      · rename_i params result given hw hg
        obtain ⟨hp, hr⟩ := hs.lambda ht hw
        obtain ⟨hps, hrs⟩ := hst.params (signature?_of_lambda hw)
        refine (fixColdTo_walks hs he hloc (fun _ _ _ => ih) (holds_cold.1 (hs.holds ha hg)) hp hr
          (hsa.cold hg) hps hrs).bind fun _ s1 hst1 hs1 h => .pure hs1 ⟨nofun, fun hplain => ?_⟩
        have hw1 := get_of_grows hst1.keeps.types hw nofun
        obtain ⟨t, haveResult, hsig, hget, hyields⟩ := h (hplain.result hw1)
        exact enters_lambda hw1 (.cold (get_of_grows hst1.keeps.types hg nofun) hsig hget) hyields
      · rename_i hw hg
        exact signed_walks hloc hs ih ht hsa hst hw (.lambda hg) (signature?_of_lambda hg)
          (hs.lambda ha hg).2
      · rename_i hw hg
        exact signed_walks hloc hs ih ht hsa hst hw (.function hg) (signature?_of_function hg)
          (holds_function.1 (hs.holds ha hg)).2
      · exact .mismatch hs _ _ hloc

theorem assign_walks : Assigns p0 G n c s (assign e) (assign e') :=
  fun {_ target _ _} hloc hs ha ht hsa hst =>
    assignUpTo_walks he (target.index + 1) hloc hs ha ht hsa hst

variable (hs : Ready p0 G c s) (hat : At p0 G s.program c z)
include hs hat

/-- A new node for a value that is weakened. -/
theorem coerce_walks {value : NodeId} (hv : p0.ScopedAt G c.chain z value)
    (ht : s.program.types.Valid target) (hsaid : Said p0 G z.owner target s) :
    Walks p0 G n {} c s (coerce e value target) (coerce e' value target) fun x s' =>
      s'.program.Known value ∧ s'.program.Takes target x ∧ p0.Passed s'.program value x ∧
      (Plain s'.program.types target → s'.program.Delivers x target) := by
  unfold coerce
  refine (he.find hs hat hv).bind fun actual s1 hst1 hs1 ⟨hactual, hsa⟩ => .locOf ?_
  have hloc := hs1.spot_of_mem hv.mem
  refine (assign_walks he hloc hs1 (hs1.valid_slot hactual) (hst1.keeps.types.valid ht) hsa
    (hsaid.step hs.inv hst1)).bind fun how s2 hst2 hs2 ⟨hweak, hsettles⟩ => ?_
  have hslot := hst2.keeps.slots _ _ hactual
  have ht2 := (hst1.trans hst2).keeps.types.valid ht
  cases how with
  | direct =>
    exact .pure hs2 ⟨⟨actual, hslot⟩, ⟨actual, hslot, hsettles.fills hs2.coherent ht2⟩, .inl rfl,
      fun hplain => ⟨actual, hslot, hsettles hplain⟩⟩
  | weaken inst =>
    have hwant := hweak inst rfl
    have hinst := holds_ref.1 (hs2.holds ht2 hwant)
    refine .program ?_
    refine Walks.bind (.write hs2 (.addWeak hs2.inv (valid_of_known ⟨actual, hslot⟩) _)
      (hs2.sound.addWeak hs.charted hs2.coherent (hs.charted.valid _ _ hv.mem) hloc))
      fun _ s3 hst3 hs3 hafter => ?_
    subst hafter
    refine Walks.bind (.intern hs3 (holds_ref.2 (hst3.keeps.insts.valid hinst)) nofun nofun)
      fun t s4 hst4 hs4 ⟨hadds, ht4, hget⟩ => ?_
    have hty := (TypeStep.refl (k := 0) _).adds hadds
    have hnew : ¬ p0.nodes.Valid ⟨s2.program.nodes.size⟩ :=
      fun h => Arena.not_valid_size _ (hs2.sound.nodes _ h)
    have hform : s4.program.form ⟨s2.program.nodes.size⟩ = .toWeak value := by
      rw [hty.forms]
      exact (form_addWeak ..).trans (if_pos rfl)
    have hempty : s4.program.slot ⟨s2.program.nodes.size⟩ = .empty := by
      rw [hty.above _ (Nat.zero_le _)]
      refine (slot_addWeak ..).trans ?_
      rw [Program.slot, Arena.get_of_not_valid (Arena.not_valid_size _)]
      rfl
    have hn : ¬ s4.program.Known ⟨s2.program.nodes.size⟩ := by
      rintro ⟨u, hu⟩
      cases hempty.symm.trans hu
    have hvalid : s4.program.nodes.Valid ⟨s2.program.nodes.size⟩ :=
      hst4.keeps.valid (Arena.valid_push.2 (.inr rfl))
    have hst := hst3.trans hst4
    have hvalue := hst.keeps.slots _ _ hslot
    have hwant4 := (hst.keeps.types.get_eq ht2).trans hwant
    refine Walks.bind (.write hs4
      (.record hs4.inv hvalid hn (by rw [hform]; rfl) ht4 ?_ (by rw [hform]; trivial))
      (hs4.sound.fixSlot hs.charted hs4.coherent hn (fun h => absurd h hnew)
        (fun r hr => absurd (hs.charted.valid _ _ hr) hnew)
        (fun r hr => absurd (hs.charted.valid _ _ hr) hnew) fun r y _ hy hr => ?_))
      fun _ s5 hst5 hs5 hafter => .pure hs5 ?_
    · rw [hform]
      exact forall_mem_singleton.2 ⟨actual, hvalue⟩
    · cases hform.symm.trans hy
      cases hs.charted.unique _ _ _ hv.mem hr
      exact .makeRef ht4 hget
        ((hsaid.step hs.inv (hst1.trans (hst2.trans hst))).ref (ref?_eq_some.2 hwant4))
    · subst hafter
      have hslot5 := (slot_setSlot s4.program _ (.fixed t) _).trans (if_pos ⟨rfl, hvalid⟩)
      -- A weak reference is what a place for weak references takes.
      have henters : (s4.after (.node ⟨s2.program.nodes.size⟩ (.fixed t))).program.Enters t target
        .direct := .kept (ref?_eq_some.2 hwant4) (ref?_eq_some.2 hget)
        (again_isSubinst_self _ inst) rfl
      exact ⟨⟨actual, hst5.keeps.slots _ _ hvalue⟩,
        ⟨t, hslot5, henters.fills (hst.keeps.types.valid ht2)⟩,
        .inr ⟨hnew, ⟨t, hslot5⟩, (form_setSlot ..).trans hform⟩, fun _ => ⟨t, hslot5, henters⟩⟩

theorem arguments_walks {params : List TypeId} {args : List NodeId}
    (hp : ∀ t ∈ params, s.program.types.Valid t) (hps : ∀ t ∈ params, Said p0 G z.owner t s)
    (hargs : ∀ a ∈ args, p0.ScopedAt G c.chain z a) (hloc : p0.Spot loc) :
    Walks p0 G n {} c s (arguments e params args loc) (arguments e' params args loc) fun args' s' =>
      (∀ a ∈ args, s'.program.Known a) ∧ Forall₂ s'.program.Takes params args' ∧
      Forall₂ (p0.Passed s'.program) args args' := by
  unfold arguments
  dsimp only
  split
  · exact .fail hs (by nofun) hloc
  · rename_i hlen
    refine Walks.post (Walks.mapM (P := fun (x : TypeId × NodeId) a s => s.program.Known x.2 ∧
      s.program.Takes x.1 a ∧ p0.Passed s.program x.2 a) hs
      (fun x a _ _ hs h hx =>
        ⟨h.keeps.known hx.1, hx.2.1.keeps h.keeps hs.coherent, hx.2.2.keeps h.keeps⟩)
      fun x hx s1 hst1 hs1 => ?_) fun args' s' _ _ h => ?_
    · obtain ⟨hparam, harg⟩ := of_mem_zip hx
      exact (coerce_walks he hs1 (hat.step hst1) (hargs _ harg)
        (hst1.keeps.types.valid (hp _ hparam)) ((hps _ hparam).step hs.inv hst1)).post
        fun _ _ _ _ h => ⟨h.1, h.2.1, h.2.2.1⟩
    · have hargs' : ∀ x ∈ params.zip args, s'.program.Known x.2 := forall_of_forall₂ h.flip
        fun _ _ h => h.1
      refine ⟨fun a ha => ?_, forall₂_of_zip (not_not.1 hlen) (h.imp fun _ _ h => h.2)⟩
      obtain ⟨x, hx⟩ := exists_zip_of_mem (not_not.1 hlen) ha
      exact hargs' _ hx

end Fitting

section Unification

variable {a b : TypeId} {x y : RefKind × InstId} {β α : Type} {T : TypeTable}

theorem bind_of_ok {m : Check α} {k : α → Check β} {v : α} (h : m c s = .ok v s') :
    (m >>= k) c s = k v c s' := by
  rw [show (m >>= k) c s = EStateM.bind (m c) (fun a => k a c) s from rfl, EStateM.bind, h]

theorem bind_of_error {m : Check α} {k : α → Check β} {e : Fault TypeCause}
    (h : m c s = .error e s') : (m >>= k) c s = .error e s' := by
  rw [show (m >>= k) c s = EStateM.bind (m c) (fun a => k a c) s from rfl, EStateM.bind, h]

theorem bind_program {k : Program → Check β} :
    ((program : Check Program) >>= k) c s = k s.program c s := rfl

theorem bind_ref? {k : Option (RefKind × InstId) → Check β} :
    (ref? t >>= k) c s = k (s.program.types.ref? t) c s := rfl

theorem bind_typeOf {k : Ty → Check β} : (typeOf t >>= k) c s = k (s.program.types.get t) c s := rfl

theorem editing_again {m : Edit α} {v : α} (h : p.Again m v)
    (hp : p.Under s.program) (loc : Location) : editing loc m c s = .ok v s := by
  unfold editing
  rw [h s.program hp]

theorem intern_again {x : Ty} (h : T.intern x = (t, T)) (hT : T.Grows s.program.types) :
    intern x c s = .ok t s := by
  have hsame : s.program.types.intern x = (t, s.program.types) := by
    have := intern_settled (x := x) (T := T) (U := s.program.types) (by rwa [h])
    rwa [h] at this
  rw [show intern x c s = .ok (s.program.types.intern x).1
    { s with program := { s.program with types := (s.program.types.intern x).2 } } from rfl, hsame]

def Joins (p : Program) (x y : RefKind × InstId) (t : TypeId) : Prop :=
  ∃ kind inst, joinKinds x.1 y.1 = some kind ∧ p.types.intern (.ref kind inst) = (t, p.types) ∧
    (inst = x.2 ∧ p.Again (Program.isSubinst y.2 x.2) true ∨ inst = y.2 ∧
      p.Again (Program.isSubinst y.2 x.2) false ∧ p.Again (Program.isSubinst x.2 y.2) true)

theorem joinRefs_of_joins (h : Joins p x y t) (hp : p.Under s.program)
    (hT : p.types.Grows s.program.types) (loc : Location) : joinRefs a b x y loc c s = .ok t s := by
  obtain ⟨kind, inst, hkind, ht, hinst⟩ := h
  have hintern : intern (.ref kind inst) c s = .ok t s := intern_again ht hT
  unfold joinRefs
  dsimp only
  rw [hkind]
  obtain ⟨rfl, hl⟩ | ⟨rfl, hl, hr⟩ := hinst
  · rw [bind_of_ok (editing_again hl hp loc)]
    exact hintern
  · rw [bind_of_ok (editing_again hl hp loc)]
    refine (bind_of_ok (editing_again hr hp loc)).trans ?_
    exact hintern

theorem unify_of_refs (hne : ¬(a = b ∨ b = TypeId.noReturn)) (hna : a ≠ TypeId.noReturn)
    (hx : s.program.types.ref? a = some x) (hy : s.program.types.ref? b = some y) (loc : Location) :
    unify e a b loc c s = joinRefs a b x y loc c s := by
  unfold unify
  rw [if_neg hne, if_neg hna, bind_typeOf, bind_typeOf, ref?_eq_some.1 hx, ref?_eq_some.1 hy]
  dsimp only
  rw [bind_ref?, bind_ref?, hx, hy]

theorem isCold_of_get {cold : ColdId} (h : T.get t = .cold cold) : TypeTable.isCold T t = true := by
  rw [TypeTable.isCold, h]

variable (hs : Ready p0 G c s) (ha : s.program.types.Valid a) (hb : s.program.types.Valid b)
  (hsa : Said p0 G o a s) (hsb : Said p0 G o b s)
include hs ha hb hsa hsb

theorem joinRefs_walks (hx : s.program.types.ref? a = some x) (hy : s.program.types.ref? b = some y)
    (hloc : p0.Spot loc) :
    Goes p0 G n {} c s (joinRefs a b x y loc) fun t s' => s'.program.types.Valid t ∧
      Joins s'.program x y t ∧ Said p0 G o t s' := by
  have hvx := hs.valid_ref ha hx
  have hvy := hs.valid_ref hb hy
  unfold joinRefs
  extract_lets join
  have hjoin {s1 : PassState} (hst1 : Step p0 {} s s1) (hs1 : Ready p0 G c s1) {inst : InstId}
      (hi : s.program.insts.Valid inst) (hwithin : p0.SealedIn G s.program ⟨o, false⟩ →
        s.program.Within (p0.formals o) inst) : Goes p0 G n {} c s1 (join inst) fun t s' =>
      s'.program.types.Valid t ∧ Said p0 G o t s' ∧ ∃ kind, joinKinds x.1 y.1 = some kind ∧
      s'.program.types.intern (.ref kind inst) = (t, s'.program.types) := by
    dsimp only [join]
    split
    · rename_i kind hkind
      refine (Walks.intern hs1 (holds_ref.2 (hst1.keeps.insts.valid hi)) nofun nofun).post
        fun t s2 hst2 hs2 ⟨_, ht, hget⟩ =>
        ⟨ht, .makeRef ht hget fun hsealed => ?_, kind, hkind, Pool.intern_eq ht hget⟩
      have hst := hst1.trans hst2
      exact (hwithin (hsealed.back hst.keeps hs.coherent)).grows hst.keeps.insts
    · exact .fail hs1 (by nofun) hloc
  refine (Walks.isSubinst hs hvy hvx loc).bind fun left s1 hst1 hs1 hleft => ?_
  cases left with
  | true =>
    refine (hjoin hst1 hs1 hvx (hsa.ref hx)).post
      fun t s2 hst2 _ ⟨ht, hsaid, kind, hkind, hintern⟩ => ?_
    exact ⟨ht, ⟨kind, x.2, hkind, hintern, .inl ⟨rfl, hleft.mono hst2.keeps.under⟩⟩, hsaid⟩
  | false =>
    refine (Walks.isSubinst hs1 (hst1.keeps.insts.valid hvx) (hst1.keeps.insts.valid hvy) loc).bind
      fun right s2 hst2 hs2 hright => ?_
    cases right with
    | true =>
      refine (hjoin (hst1.trans hst2) hs2 hvy (hsb.ref hy)).post
        fun t s3 hst3 _ ⟨ht, hsaid, kind, hkind, hintern⟩ => ?_
      exact ⟨ht, ⟨kind, y.2, hkind, hintern,
        .inr ⟨rfl, hleft.mono (hst2.trans hst3).keeps.under, hright.mono hst3.keeps.under⟩⟩, hsaid⟩
    | false => exact .fail hs2 (by nofun) hloc

theorem unify_walks (he : e.Good p0 G n e') (hloc : p0.Spot loc) :
    Walks p0 G n {} c s (unify e a b loc) (unify e' a b loc) fun t s' => s'.program.types.Valid t ∧
      Said p0 G o t s' ∧ (TypeTable.isCold s.program.types a = false →
        TypeTable.isCold s.program.types b = false → s'.program.Unifies a b t) := by
  have hlambda {a b : TypeId} {cold : ColdId} {params : List TypeId} {result : TypeId}
      (ha : s.program.types.Valid a) (hb : s.program.types.Valid b) (hsa : Said p0 G o a s)
      (hsb : Said p0 G o b s) (hc : s.program.types.get a = .cold cold)
      (hl : s.program.types.get b = .lambda params result) : Walks p0 G n {} c s (do
        fixColdTo e (assign e) cold params result loc
        intern (.lambda params result)) (do
        fixColdTo e' (assign e') cold params result loc
        intern (.lambda params result)) fun t s' => s'.program.types.Valid t ∧
          Said p0 G o t s' := by
    obtain ⟨hp, hr⟩ := hs.lambda hb hl
    obtain ⟨hps, hrs⟩ := hsb.params (signature?_of_lambda hl)
    refine (fixColdTo_walks hs he hloc (fun _ _ _ => assign_walks he)
      (holds_cold.1 (hs.holds ha hc)) hp hr (hsa.cold hc) hps hrs).bind fun _ s1 hst1 hs1 _ => ?_
    refine (Walks.intern hs1
      (holds_lambda.2 ⟨fun t ht => hst1.keeps.types.valid (hp t ht), hst1.keeps.types.valid hr⟩)
      nofun nofun).post fun t s2 hst2 _ ⟨_, ht, hget⟩ =>
      ⟨ht, .make ht hget rfl nofun fun u hu => ?_⟩
    have hst := hst1.trans hst2
    rcases mem_append.1 hu with hu | hu
    · exact (hps u hu).step hs.inv hst
    · exact mem_singleton.1 hu ▸ hrs.step hs.inv hst
  unfold unify
  split
  · rename_i hab
    refine .pure hs ⟨ha, hsa, fun _ _ e c loc s _ _ => ?_⟩
    rw [unify, if_pos hab]
    rfl
  rename_i hab
  split
  · rename_i hna
    refine .pure hs ⟨hb, hsb, fun _ _ e c loc s _ _ => ?_⟩
    rw [unify, if_neg hab, if_pos hna]
    rfl
  rename_i hna
  refine .typeOf (.typeOf ?_)
  split
  · rename_i x y hx hy
    refine (unifyColds_walks hs he hloc (fun _ _ _ _ _ _ => assign_walks he)
      (holds_cold.1 (hs.holds ha hx)) (holds_cold.1 (hs.holds hb hy)) (hsa.cold hx)
      (hsb.cold hy)).post fun t s' _ _ ht => ⟨ht.1, ht.2, fun hc _ => ?_⟩
    exact nomatch hc.symm.trans (isCold_of_get hx)
  · rename_i hx hy
    refine (hlambda ha hb hsa hsb hx hy).post fun t s' _ _ ht => ⟨ht.1, ht.2, fun hc _ => ?_⟩
    exact nomatch hc.symm.trans (isCold_of_get hx)
  · rename_i hx hy
    refine (hlambda hb ha hsb hsa hy hx).post fun t s' _ _ ht => ⟨ht.1, ht.2, fun _ hc => ?_⟩
    exact nomatch hc.symm.trans (isCold_of_get hy)
  · refine .ref? (.ref? ?_)
    split
    · rename_i x y hx hy
      refine (joinRefs_walks hs ha hb hsa hsb hx hy hloc).post fun t s' hst _ ⟨ht, hj, hsaid⟩ =>
        ⟨ht, hsaid, fun _ _ e c loc s'' hu hT => ?_⟩
      have hgrows := hst.keeps.types.trans hT
      rw [unify_of_refs hab hna ((TypeTable.Grows.ref? hgrows ha).trans hx)
        ((TypeTable.Grows.ref? hgrows hb).trans hy)]
      exact joinRefs_of_joins hj hu hT loc
    · exact .fail hs (by nofun) hloc

end Unification

end Typing

end ClassLang
