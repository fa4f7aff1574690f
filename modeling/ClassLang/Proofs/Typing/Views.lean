import ClassLang.Proofs.Typing.Compose
import ClassLang.Proofs.Typing.Dispatch

namespace ClassLang

open List TypeTable

namespace Program

variable {p q r : Program} {s : Substitution} {c d e : ClassId} {i j k x y z : InstId}
  {t u : TypeId} {way way' : List InstId}

/-- The type `given` of a method of `d` is the type `declared` of one of `e`, as seen over the way
`up`. -/
structure Matches (p q : Program) (d e : ClassId) (up : List InstId) (declared given : TypeId) :
    Prop where
  path : p.Path d up e
  stripped : ∃ this, q.IsThis d this ∧ q.StrippedAlong (up.reverse ++ [this]) declared given
  declared : Over q.types (q.Within (p.classes.get e).params) (fun _ => False) declared
  given : Over q.types (q.Within (p.classes.get d).params) (fun _ => False) given

section Matching

variable {up : List InstId} {declared given : TypeId} (hw : p.Wired) (hu : p.Under q)
  (hm : p.Matches q d e up declared given)
include hw hu hm

theorem Matches.adds (hr : q.Adds r) : p.Matches r d e up declared given where
  path := hm.path
  stripped := by
    obtain ⟨this, hthis, hstripped⟩ := hm.stripped
    refine ⟨this, hthis.grows hr.insts (by rw [hr.classes]),
      hstripped.grows hr.insts hr.params (fun i hi => ?_) hr.types⟩
    rcases mem_append.1 hi with hi | hi
    · exact hu.insts.valid (hm.path.valid hw.shaped.bases i (mem_reverse.1 hi))
    · exact mem_singleton.1 hi ▸ hthis.1
  declared := hm.declared.mono hr.types (fun _ h => h.grows hr.insts) fun _ => id
  given := hm.given.mono hr.types (fun _ h => h.grows hr.insts) fun _ => id

/-- An override is seen from below as what it overrides, over ways that lead to the same instances.
-/
theorem Matches.eq (hq : q.Tidy) (hway : p.Path c way d) (hway' : p.Path c way' e)
    (hy : q.Arrives x way y) (hz : q.Arrives y up z) (hz' : q.Arrives x way' z)
    (ht : q.StrippedAlong (way.reverse ++ [x]) given t)
    (hu' : q.StrippedAlong (way'.reverse ++ [x]) declared u) : t = u := by
  have hseen {c e : ClassId} {way : List InstId} {x y : InstId} {t u : TypeId}
      (hpath : p.Path c way e) (h : q.StrippedAlong (way.reverse ++ [x]) t u)
      (harrives : q.Arrives x way y)
      (ht : Over q.types (q.Within (p.classes.get e).params) (fun _ => False) t) :
      q.Stripped y t u := by
    rw [← hu.alike.classParams] at ht
    exact ((hu.path hw.shaped.bases hpath).chain (hw.bases_within hu)).stripped hq.canonical
      h harrives ht
  have hgiven : q.StrippedAlong up.reverse declared given := by
    obtain ⟨this, hthis, hstripped⟩ := hm.stripped
    obtain ⟨w, hw, w', hw', rfl⟩ := StrippedAlong.of_append hstripped
    rwa [hthis.stripped hq.canonical hw']
  have hdirect : q.Stripped y given t := hseen hway ht hy hm.given
  have hlong : q.Stripped z declared t :=
    hseen hm.path (hgiven.append ⟨t, hdirect, rfl⟩) hz hm.declared
  exact (hseen hway' hu' hz' hm.declared).unique hlong

end Matching

def Meet (p : Program) (x : InstId) (way way' : List InstId) : Prop :=
  ∀ q, p.Adds q → q.Tidy → ∀ y z, q.Arrives x way y → q.Arrives x way' z → y = z

theorem Meet.refl (p : Program) (x : InstId) (way : List InstId) : p.Meet x way way :=
  fun _ _ _ _ _ hy hz => hz.unique hy

theorem Meet.arrives (h : p.Meet x way way') (hq : p.Adds q) (htidy : q.Tidy) (hx : p.insts.Valid x)
    (hway : ∀ i ∈ way, p.insts.Valid i) (hway' : ∀ i ∈ way', p.insts.Valid i) :
    ∃ y r, q.Adds r ∧ r.Tidy ∧ r.Arrives x way y ∧ r.Arrives x way' y := by
  have hx1 := hq.insts.valid hx
  have hway1 : ∀ i ∈ way, q.insts.Valid i := fun i hi => hq.insts.valid (hway i hi)
  obtain ⟨y, q1, h1, htidy1, _, hy⟩ := exists_arrives htidy hx1 hway1
  obtain ⟨z, q2, h2, htidy2, _, hz⟩ := exists_arrives htidy1 (h1.insts.valid hx1)
    fun i hi => (hq.trans h1).insts.valid (hway' i hi)
  have hy2 := hy.adds htidy1.tables h2 (h1.insts.valid hx1) fun i hi => h1.insts.valid (hway1 i hi)
  obtain rfl := h q2 ((hq.trans h1).trans h2) htidy2 y z hy2 hz
  exact ⟨y, q2, h1.trans h2, htidy2, hy2, hz⟩

section Closed

theorem Replaced.of_closed (h : p.Replaced s i j) (hi : p.Within [] i) : j = i := by
  induction h with
  | own _ hget _ _ =>
    cases hi with
    | node _ hparam _ => exact absurd (hparam _ (by rw [hget])) not_mem_nil
  | other => rfl
  | @cls i j c args args' hv hget hj hgetj hlen _ ih =>
    cases hi with
    | node _ _ hargs =>
      rw [hget] at hargs
      refine Pool.get_inj hj hv ?_
      rw [hgetj, hget, eq_of_zip_eq hlen fun v hv => ih v hv (hargs _ (of_mem_zip hv).1)]

theorem StrippedInst.of_closed (h : p.StrippedInst x i j) (hi : p.Within [] i) : j = i := by
  unfold StrippedInst at h
  split at h
  · exact h.of_closed hi
  · exact h

theorem Path.last (h : p.Path c way e) (hway : way ≠ []) :
    ∃ below i d, way = below ++ [i] ∧ (i, e) ∈ p.basesOf d := by
  induction h with
  | nil => exact absurd rfl hway
  | @cons c d e i way hi hpath ih =>
    cases way with
    | nil =>
      cases hpath
      exact ⟨[], i, c, rfl, hi⟩
    | cons j way =>
      obtain ⟨below, k, d', hsplit, hk⟩ := ih (cons_ne_nil _ _)
      exact ⟨i :: below, k, d', by rw [hsplit, cons_append], hk⟩

/-- All ways meet in a class that is a base with the same arguments everywhere, if these mention no
parameters. -/
theorem Meet.of_closed (hall : ∀ d, ∀ i, (i, e) ∈ p.basesOf d → i = k) (hk : q.Within [] k)
    (hce : c ≠ e) (hway : p.Path c way e) (hway' : p.Path c way' e) : q.Meet x way way' := by
  have hend {r : Program} (hr : q.Adds r) (htidy : r.Tidy) {way : List InstId} {y : InstId}
      (hway : p.Path c way e) (hy : r.Arrives x way y) : y = k := by
    have hne : way ≠ [] := by
      rintro rfl
      cases hway
      exact hce rfl
    obtain ⟨below, i, d, rfl, hi⟩ := hway.last hne
    obtain ⟨z, _, w, hw, rfl⟩ := Arrives.of_append hy
    cases hall d i hi
    exact hw.of_closed (hk.grows hr.insts)
  exact fun r hr htidy y z hy hz => (hend hr htidy hway hy).trans (hend hr htidy hway' hz).symm

end Closed

def views (x : InstId) (t : TypeId) (way : List InstId) (u : TypeId) (way' : List InstId) :
    Edit (TypeId × TypeId) := do
  let t ← stripPath t way x
  let u ← stripPath u way' x
  return (t, u)

theorem Selects.path {m n : MethodId} (h : p.Selects m c n) :
    ∃ d way, p.Path c way d ∧ p.Reimplements d m n := by
  induction h with
  | own hown => exact ⟨_, [], .nil, reimplements_of_own? hown⟩
  | @base c n pre post x _ hbases _ _ ih =>
    obtain ⟨d, way, hpath, hreimplements⟩ := ih
    exact ⟨d, x.1 :: way, .cons (by simp [hbases]) hpath, hreimplements⟩

/-- What a class gives to run in place of a method matches it. -/
theorem Replaces.matches {G : Atlas} {base : Base} {m n : MethodId} (h : p.Replaces q d base n)
    (hw : p.Wired) (hd : p.Sound G q) (hb : base ∈ (p.classes.get d).bases)
    (hn : n ∈ base.overloads) (hm : (p.methods.get n).overrides = some m) :
    ∃ e up declared given, m ∈ (p.classes.get e).methods ∧
      (q.methods.get m).slot = .fixed declared ∧ (q.methods.get n).slot = .fixed given ∧
      p.Matches q d e up declared given := by
  obtain ⟨target, x, path, this, declared, given, hover, hx, hlookup, hthis, hdeclared, hgiven, _,
    hstripped⟩ := h
  cases hover.symm.trans hm
  obtain ⟨e, hpath, howns, _⟩ := path_of_lookup hw (.refl p) hlookup
  have hspeaks {c : ClassId} {m : MethodId} {t : TypeId} (hm : m ∈ (p.classes.get c).allMethods)
    (ht : (q.methods.get m).slot = .fixed t) : q.Speaks (p.formals (some c)) true t :=
    hd.tame.methods c m t hm ht nofun
  have hin : n ∈ (p.classes.get d).allMethods := mem_append_right _ (mem_flatMap.2 ⟨base, hb, hn⟩)
  refine ⟨e, x.1 :: path, declared, given, howns, hdeclared, hgiven,
    .cons (mem_filterMap.2 ⟨base, hb, hx⟩) hpath, ⟨this, hthis, hstripped⟩, ?_, ?_⟩
  · have h := hspeaks (mem_append_left _ howns) hdeclared
    exact h.of_plain h.plain
  · have h := hspeaks hin hgiven
    exact h.of_plain h.plain

section Views

variable {up across : List InstId} {declared given : TypeId} (hw : p.Wired) (hu : p.Under q)
  (hm : p.Matches q d e up declared given) (hover : p.Path c across d)
include hw hu hm hover

theorem Matches.views (hq : q.Tidy) (hx : q.insts.Valid x) (hway : p.Path c way d)
    (hway' : p.Path c way' e) (hmeet : q.Meet x across way)
    (hmeet' : q.Meet x (across ++ up) way') :
    Mends q (Program.views x given way declared way') fun v _ => v.1 = v.2 := by
  have hvalid {r : Program} (hr : q.Adds r) {c e : ClassId} {way : List InstId}
    (hway : p.Path c way e) : ∀ i ∈ way, r.insts.Valid i :=
    fun i hi => hr.insts.valid (hu.insts.valid (hway.valid hw.shaped.bases i hi))
  have hsame := Adds.refl hq.tables
  unfold Program.views
  refine (stripPath_mends hq hm.given.valid (hvalid hsame hway) hx).bind
    fun t q1 h1 htidy1 ⟨_, ht⟩ => ?_
  refine (stripPath_mends htidy1 (h1.types.valid hm.declared.valid) (hvalid h1 hway')
    (h1.insts.valid hx)).bind fun u q2 h2 htidy2 ⟨_, hu'⟩ => .pure htidy2 ?_
  have h12 := h1.trans h2
  obtain ⟨y, q3, h3, htidy3, hy, hy'⟩ :=
    hmeet.arrives h12 htidy2 hx (hvalid hsame hover) (hvalid hsame hway)
  have h13 := h12.trans h3
  obtain ⟨z, q4, h4, htidy4, hz, hz'⟩ :=
    hmeet'.arrives h13 htidy3 hx (hvalid hsame (hover.append hm.path)) (hvalid hsame hway')
  have h14 := h13.trans h4
  obtain ⟨y', hy'', hz⟩ := Arrives.of_append hz
  have hx3 := h13.insts.valid hx
  obtain rfl := (hy.adds htidy3.tables h4 hx3 (hvalid h13 hover)).unique hy''
  have hstripped {p' : Program} (hp' : q.Adds p') (h : p'.Adds q4) {e : ClassId} {way : List InstId}
      {t u : TypeId} (hway : p.Path c way e) (ht : p'.StrippedAlong (way.reverse ++ [x]) t u) :
      q4.StrippedAlong (way.reverse ++ [x]) t u := by
    refine ht.grows h.insts h.params (fun i hi => ?_) h.types
    rcases mem_append.1 hi with hi | hi
    · exact hvalid hp' hway i (mem_reverse.1 hi)
    · exact mem_singleton.1 hi ▸ hp'.insts.valid hx
  exact (hm.adds hw hu h14).eq hw (hu.trans h14.under) htidy4 hway hway'
    (hy'.adds htidy3.tables h4 hx3 (hvalid h13 hway)) hz hz'
    (hstripped h1 ((h2.trans h3).trans h4) hway ht) (hstripped h12 (h3.trans h4) hway' hu')

end Views

end Program

namespace Typing

variable {p : Program} {c : ClassId} {m n : MethodId}

/-- A method in the table of a class is an override of what it runs for, and it is seen from the
class as that is seen, over all ways up that lead to the same instances as the one over which the
class has it. -/
theorem check_agrees (h : p.Resolved) (hok : p.check.result = .ok ()) (hc : p.classes.Valid c)
    (hentry : (m, n) ∈ (p.check.program.classes.get c).dispatch) :
    ∃ d e across up declared given, p.Path c across d ∧ p.Reimplements d m n ∧ p.Path d up e ∧
      m ∈ (p.classes.get e).methods ∧ (p.check.program.methods.get m).slot = .fixed declared ∧
      (p.check.program.methods.get n).slot = .fixed given ∧
      ∀ this way way', p.check.program.IsThis c this → p.Path c way d → p.Path c way' e →
        p.check.program.Meet this across way → p.check.program.Meet this (across ++ up) way' →
        p.check.program.Mends (Program.views this given way declared way') fun v _ =>
          v.1 = v.2 := by
  have htyped := typed_of_check h hok
  obtain ⟨built, hbuilt⟩ := htyped.dispatched
  obtain ⟨s, hprogram, _, hstep, _⟩ := check_ok h hok
  have hunder : p.Under p.check.program := ⟨hprogram ▸ hstep.inv.alike, htyped.sound.grows⟩
  have hlookup := (Program.orderly_dispatch h.wired hbuilt hc).mem_iff.1 hentry
  obtain ⟨d, across, hover, b, hb, hn, hm⟩ :=
    (Program.selects_of_lookup h.wired hbuilt hc hlookup).path
  have hd : p.classes.Valid d :=
    Program.valid_of_mem_allMethods (List.mem_append_right _ (List.mem_flatMap.2 ⟨b, hb, hn⟩))
  obtain ⟨e, up, declared, given, howns, hdeclared, hgiven, hmatches⟩ :=
    ((hbuilt d hd).replaces b hb n hn).matches h.wired htyped.sound hb hn hm
  refine ⟨d, e, across, up, declared, given, hover, ⟨b, hb, hn, hm⟩, hmatches.path, howns,
    hdeclared, hgiven, fun this way way' hthis hway hway' hmeet hmeet' => ?_⟩
  exact hmatches.views h.wired hunder hover htyped.sound.tidy hthis.1 hway hway' hmeet hmeet'

def diamondText : String :=
  "class P { } interface I(T) { m(T x); } interface A { +I(P) } interface B { +I(P) } " ++
  "class C { +A { m(P x) {} } +B }"

/-- The override on the one side is seen as what is inherited over the other side. -/
theorem check_agrees_diamond :
    ∃ across declared given, (Program.ofText diamondText).Path ⟨4⟩ across ⟨4⟩ ∧
      ((Program.ofText diamondText).check.program.methods.get ⟨0⟩).slot = .fixed declared ∧
      ((Program.ofText diamondText).check.program.methods.get ⟨1⟩).slot = .fixed given ∧
      (Program.ofText diamondText).check.program.Mends
        (Program.views ⟨6⟩ given across declared [⟨3⟩, ⟨1⟩]) fun v _ => v.1 = v.2 := by
  have hrun : Program.resolves diamondText = true ∧ (Program.ofText diamondText).check.result = .ok
      () ∧ (Program.ofText diamondText).classes.Valid ⟨4⟩ ∧
      (⟨0⟩, ⟨1⟩) ∈ ((Program.ofText diamondText).check.program.classes.get ⟨4⟩).dispatch ∧
      ((Program.ofText diamondText).methods.get ⟨1⟩).owner = ⟨4⟩ ∧
      ((Program.ofText diamondText).methods.get ⟨0⟩).owner = ⟨1⟩ ∧
      (⟨3⟩, ⟨3⟩) ∈ (Program.ofText diamondText).basesOf ⟨4⟩ ∧
      (⟨1⟩, ⟨1⟩) ∈ (Program.ofText diamondText).basesOf ⟨3⟩ ∧
      (∀ d ∈ (Program.ofText diamondText).classes.ids, ∀ x ∈ (Program.ofText diamondText).basesOf d,
        x.2 = ⟨1⟩ → x.1 = ⟨1⟩) ∧ (Program.ofText diamondText).check.program.insts.Valid ⟨6⟩ ∧
      (Program.ofText diamondText).check.program.insts.get ⟨6⟩ = ⟨.cls ⟨4⟩, []⟩ ∧
      ((Program.ofText diamondText).check.program.classes.get ⟨4⟩).params = [] ∧
      (Program.ofText diamondText).check.program.insts.Valid ⟨1⟩ ∧
      (Program.ofText diamondText).check.program.insts.get ⟨1⟩ = ⟨.cls ⟨1⟩, [⟨0⟩]⟩ ∧
      (Program.ofText diamondText).check.program.insts.Valid ⟨0⟩ ∧
      (Program.ofText diamondText).check.program.insts.get ⟨0⟩ = ⟨.cls ⟨0⟩, []⟩ := by
    decide +kernel
  have h := Program.resolved_ofText diamondText hrun.1
  generalize Program.ofText diamondText = p at h hrun ⊢
  obtain ⟨_, hok, hc, hentry, howner₁, howner₀, hB, hI, hall, hthis, hget₆, hparams, hv₁, hget₁,
    hv₀, hget₀⟩ := hrun
  obtain ⟨d, e, across, up, declared, given, hover, hreimplements, hup, hm, hdeclared, hgiven,
    hviews⟩ := check_agrees h hok hc hentry
  obtain rfl : ⟨4⟩ = d := howner₁.symm.trans (hreimplements.owner h.wired)
  obtain rfl : ⟨1⟩ = e := howner₀.symm.trans (h.wired.owned.methods e _ hm).2.1
  have hway : p.Path ⟨4⟩ [⟨3⟩, ⟨1⟩] ⟨1⟩ := .cons hB (.cons hI .nil)
  have hclosed₀ : p.check.program.Within [] ⟨0⟩ :=
    .node hv₀ (by rw [hget₀]; nofun) (by rw [hget₀]; nofun)
  have hclosed₁ : p.check.program.Within [] ⟨1⟩ :=
    .node hv₁ (by rw [hget₁]; nofun) (by rw [hget₁]; exact List.forall_mem_singleton.2 hclosed₀)
  have hends (d : ClassId) (i : InstId) (hi : (i, ⟨1⟩) ∈ p.basesOf d) : i = ⟨1⟩ := by
    have hd : p.classes.Valid d := by
      refine Arena.valid_of_get_ne fun he => ?_
      rw [Program.basesOf, he] at hi
      cases hi
    exact hall d (Arena.mem_ids.2 hd) _ hi rfl
  refine ⟨across, declared, given, hover, hdeclared, hgiven,
    hviews ⟨6⟩ across _ ⟨hthis, [], hget₆, ?_⟩ hover hway (.refl _ _ _) ?_⟩
  · rw [hparams]
    exact .nil
  · exact .of_closed hends hclosed₁ (by decide) (hover.append hup) hway

def splitText : String :=
  "class P { } class Q { } interface I(T) { m(T x); } interface A { +I(P) } interface B { +I(Q) } " ++
  "class C { +A { m(P x) {} } +B }"

/-- The override on the one side is in the table, and it is not seen as what is inherited over the
other side. -/
theorem check_agrees_split :
    (Program.ofText splitText).Resolved ∧ (Program.ofText splitText).check.result = .ok () ∧
      (⟨0⟩, ⟨1⟩) ∈ ((Program.ofText splitText).check.program.classes.get ⟨5⟩).dispatch ∧
      (Program.ofText splitText).Path ⟨5⟩ [⟨5⟩, ⟨3⟩] ⟨2⟩ ∧
      ⟨0⟩ ∈ ((Program.ofText splitText).classes.get ⟨2⟩).methods ∧
      (Program.ofText splitText).check.program.IsThis ⟨5⟩ ⟨8⟩ ∧
      ((Program.ofText splitText).check.program.methods.get ⟨0⟩).slot = .fixed ⟨8⟩ ∧
      ((Program.ofText splitText).check.program.methods.get ⟨1⟩).slot = .fixed ⟨11⟩ ∧
      ¬ (Program.ofText splitText).check.program.Mends
        (Program.views ⟨8⟩ ⟨11⟩ [] ⟨8⟩ [⟨5⟩, ⟨3⟩]) fun v _ => v.1 = v.2 := by
  have hrun : Program.resolves splitText = true ∧ (Program.ofText splitText).check.result = .ok () ∧
      (⟨0⟩, ⟨1⟩) ∈ ((Program.ofText splitText).check.program.classes.get ⟨5⟩).dispatch ∧
      (⟨5⟩, ⟨4⟩) ∈ (Program.ofText splitText).basesOf ⟨5⟩ ∧
      (⟨3⟩, ⟨2⟩) ∈ (Program.ofText splitText).basesOf ⟨4⟩ ∧
      ⟨0⟩ ∈ ((Program.ofText splitText).classes.get ⟨2⟩).methods ∧
      (Program.ofText splitText).check.program.insts.Valid ⟨8⟩ ∧
      (Program.ofText splitText).check.program.insts.get ⟨8⟩ = ⟨.cls ⟨5⟩, []⟩ ∧
      ((Program.ofText splitText).check.program.classes.get ⟨5⟩).params = [] ∧
      ((Program.ofText splitText).check.program.methods.get ⟨0⟩).slot = .fixed ⟨8⟩ ∧
      ((Program.ofText splitText).check.program.methods.get ⟨1⟩).slot = .fixed ⟨11⟩ ∧
      ((Program.views ⟨8⟩ ⟨11⟩ [] ⟨8⟩ [⟨5⟩, ⟨3⟩]).run' (Program.ofText splitText).check.program).all
      fun v => v.1 ≠ v.2 := by
    decide +kernel
  have h := Program.resolved_ofText splitText hrun.1
  generalize Program.ofText splitText = p at h hrun ⊢
  obtain ⟨_, hok, hentry, hB, hI, hm, hv, hget, hparams, hdeclared, hgiven, hviews⟩ := hrun
  refine ⟨h, hok, hentry, .cons hB (.cons hI .nil), hm, ⟨hv, [], hget, ?_⟩, hdeclared, hgiven,
    fun hmends => ?_⟩
  · rw [hparams]
    exact .nil
  · unfold Program.Mends at hmends
    delta EStateM.run' EStateM.run at hviews
    split at hmends
    · rename_i hrun
      rw [hrun] at hviews
      exact of_decide_eq_true hviews hmends.2.2
    · exact hmends

end Typing

end ClassLang
