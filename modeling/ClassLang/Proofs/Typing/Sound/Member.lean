import ClassLang.Proofs.Typing.Sound.Access

namespace ClassLang

open List Program

namespace Program

variable {p0 p : Program} {o : Option ClassId} {i x : NodeId} {form : Form} {S : NodeId → Prop}

theorem Below.child (hx : x ∈ (p.form i).children) : p.Below i x :=
  .head (mem_inner_of_children hx) (.refl x)

theorem passed_refl (xs : List NodeId) : Forall₂ (p0.Passed p) xs xs :=
  forall₂_same.2 fun _ _ => .inl rfl

theorem Carries.of_form (h : p.form i = form) : p.Carries i form.children := h ▸ .all

/-- The parts of a node, with what it hands over perhaps weakened. -/
theorem regrown_of_passed {form0 : Form} (h0 : p0.form i = form0)
    (h : Forall₂ (p0.Passed p) form0.children form.children) : p0.Regrown p i form :=
  ⟨_, .of_form h0, h⟩

theorem ScopedAt.bound {G : Atlas} {vs : List VarId} {z : Setting} (h : p.ScopedAt G vs z i) :
    p.Bound z (p.form i) :=
  h.named.bound

theorem ScopedAt.places {G : Atlas} {vs : List VarId} {z : Setting} (h : p.ScopedAt G vs z i)
    (hform : p.form i = form) :
    ∀ x ∈ p.places z i form, p.Scoped (G ⟨z.owner, false⟩) x.1 x.2 := by
  obtain ⟨⟨_, _, hplaces⟩, _⟩ := h
  exact hform ▸ hplaces

theorem ScopedAt.openings {G : Atlas} {vs : List VarId} {z : Setting} (h : p.ScopedAt G vs z i)
    (hform : p.form i = form) : ∀ x ∈ p.openings vs form, p.Opens x.1 x.2 :=
  fun _ hx => h.opens.inside (hform ▸ hx)

theorem ScopedAt.parts {G : Atlas} {vs : List VarId} {z : Setting} (h : p.ScopedAt G vs z i)
    (hplaces : p.places z i (p.form i) = (p.form i).children.map (z, ·))
    (hopenings : p.openings vs (p.form i) = (p.form i).children.map (vs, ·)) :
    ∀ x ∈ (p.form i).children, p.ScopedAt G vs z x := by
  obtain ⟨⟨_, _, hparts⟩, hopens⟩ := h
  rw [hplaces] at hparts
  exact fun x hx => ⟨hparts (z, x) (mem_map_of_mem hx),
    hopens.inside (hopenings ▸ mem_map_of_mem hx)⟩

/-- What is in a block or a loop can leave it, and sees no variable of the block around. -/
theorem ScopedAt.inside {G : Atlas} {vs : List VarId} {z : Setting} {body : List NodeId}
    (h : p.ScopedAt G vs z i) (hform : p.form i = .block body ∨ p.form i = .loop body) :
    ∀ x ∈ body, p.ScopedAt G [] (z.entering i) x := by
  intro x hx
  obtain hform | hform := hform
  all_goals exact ⟨h.places hform _ (mem_map_of_mem hx), h.openings hform _ (mem_map_of_mem hx)⟩

theorem Worked.reformed (h0 : Typing.isReform (p0.form i)) (hform : p.form i = form)
    (hcovered : p0.Covered p i) (hstored : p.Stored o form)
    (hgiven : Forall₂ (p0.Passed p) (p0.form i).given form.given)
    (hsame : (p0.form i).Rebound form) : p0.Worked p o i where
  left target result h := by
    rw [h] at h0
    cases h0
  covered _ := hcovered
  bounded _ name c args x h := by
    rw [h] at h0
    cases h0
  stored := hform ▸ hstored
  given := hform ▸ hgiven
  rebound := hform ▸ hsame

end Program

namespace Typing

variable {p0 : Program} {G : Atlas} {f : Focus} {c : Context} {s s' : PassState} {e e' : Engine}
  {z : Setting} {o : Option ClassId} {base : Option NodeId} {name : NameId} {i : NodeId}
  {t : TypeId} {m : MethodId} {a : Access} {loc : Location}

def Winds (p : Program) (i : NodeId) (t : TypeId) : Form → Prop
  | .block body => p.Brings body.getLast? t
  | .loop _ => p.slot i = .fixed t ∨ t = TypeId.noReturn
  | _ => True

theorem winds_of_not_isTarget {p : Program} {i : NodeId} {t : TypeId} {form : Form}
    (h : form.isTarget = false) : Winds p i t form := by
  cases form with
  | block | loop => cases h
  | _ => trivial

/-- What the rule for a node of the class `o` tells of the node and of the type it gives. What the
node is made of has types by now. -/
structure Judged (p0 : Program) (G : Atlas) (o : Option ClassId) (i : NodeId) (t : TypeId)
    (s : PassState) : Prop where
  type : s.program.types.Valid t
  closed : s.program.Closed (s.program.form i)
  rule : s.program.Rule t (s.program.form i)
  pending : Pending s.program i
  said : Said p0 G o t s
  worked : p0.Worked s.program o i
  verdict : p0.Verdict s.program i t (p0.form i)
  winds : Winds s.program i t (s.program.form i)

structure Open (p : Program) (i : NodeId) : Prop where
  begun : p.slot i = .inProgress
  target : (p.form i).isTarget = false
  type : (p.form i).isType = false

theorem Open.not_known {p : Program} (h : Open p i) : ¬ p.Known i := by
  rintro ⟨t, ht⟩
  exact nomatch h.begun.symm.trans ht

theorem Open.step (h : Open s.program i) (hst : Step p0 {} s s') :
    Open s'.program i ∧ s'.program.form i = s.program.form i := by
  obtain ⟨hform, hp | ⟨_, ht | ⟨ht, _⟩⟩⟩ := hst.begun i (by simp) h.begun
  · exact ⟨⟨hp, by rw [hform]; exact h.target, by rw [hform]; exact h.type⟩, hform⟩
  · rw [hform, h.target] at ht
    cases ht
  · rw [hform, h.type] at ht
    cases ht

theorem Step.worked (h : Step p0 {} s s') (hs : Inv p0 s)
    (hform : s'.program.form i = s.program.form i) (hw : p0.Worked s.program o i) :
    p0.Worked s'.program o i := hw.keeps h.keeps hs.coherent hform h.stays.toLasts

section Reforming

variable (form : Form) {form0 : Form} (hs : Ready p0 G c s) (hi : Open s.program i)
  (hg : G ⟨o, false⟩ i) (hform : p0.form i = form0) (h0 : isReform form0) (hre : isReform form)
  (hname : ∀ base name, form ≠ .getField base name none) (hgrown : p0.Regrown s.program i form)
include hs hi hg hform h0 hre hname hgrown

theorem setForm_walks (hadmits : s.program.Admits form) :
    Goes p0 G n { node := some i } c s (edit (·.setForm i form)) fun _ s' =>
      s'.program = s.program.setForm i form ∧ Open s'.program i ∧ s'.program.form i = form := by
  have htype : form.isType = false := by cases form <;> first | rfl | cases hre
  have htarget : form.isTarget = false := by cases form <;> first | rfl | cases hre
  have hguard (c y : NodeId) (b : VarId) : form ≠ .guard c y b := by
    rintro rfl
    cases hre
  have hvalid := hs.charted.valid _ i hg
  refine (Walks.edit hs (.setForm hs.inv hi.not_known hadmits hguard htype hi.target)
    (hs.sound.setForm hs.coherent hvalid hi.begun (hform ▸ h0) hre hname hgrown)).post
    fun _ s1 _ _ hs1 => ?_
  subst hs1
  have hnew := (form_setForm s.program i form i).trans (if_pos ⟨rfl, hs.sound.nodes i hvalid⟩)
  exact ⟨rfl, ⟨(slot_setForm s.program i form i).trans hi.begun, by rwa [hnew], by rwa [hnew]⟩,
    hnew⟩

theorem reform_walks (hlisted : ∀ d args, form = .callFunction d args → s.program.Listed d)
    (hc : ∀ x ∈ form.children, s.program.Known x)
    (hcovered : ∀ x ∈ form0.children, s.program.Known x ∨
      ∃ base name, p0.form x = .getField base name none ∧ ∀ b ∈ base, s.program.Known b)
    (hstored : s.program.Stored o form)
    (hgiven : Forall₂ (p0.Passed s.program) form0.given form.given) (hrebound : form0.Rebound form)
    {k k' : Check TypeId}
    (hk : ∀ s', Ready p0 G c s' → s.program.Keeps s'.program → Walks p0 G n {} c s' k k'
      fun t s'' => s''.program.types.Valid t ∧ Said p0 G o t s'') :
    Walks p0 G n { node := some i } c s (do
      edit (·.setForm i form)
      k) (do
      edit (·.setForm i form)
      k') (Judged p0 G o i) := by
  have hadmits : s.program.Admits form := by
    refine ⟨fun x hx => valid_of_known (hc x hx), ?_⟩
    cases form with
    | callFunction d args => exact hlisted d args rfl
    | _ => trivial
  refine (setForm_walks form hs hi hg hform h0 hre hname hgrown hadmits).bindIn
    fun _ s1 hst1 hs1 ⟨_, hi1, hform1⟩ => ?_
  subst hform
  have hk1 := hst1.keeps
  have hworked : p0.Worked s1.program o i :=
    .reformed h0 hform1 (Covered.keeps hk1 hcovered)
    (hstored.keeps hk1 hs.coherent hst1.stays.toLasts)
    (hgiven.imp fun _ _ h => h.keeps hk1) hrebound
  refine .widen ((hk s1 hs1 hk1).post fun t s2 hst2 _ ⟨ht, hsaid⟩ => ?_)
  obtain ⟨hi2, hform2⟩ := hi1.step hst2
  refine ⟨ht, ?_, ?_, .inl hi2.begun, hsaid, hst2.worked hs1.inv hform2 hworked, ?_,
    winds_of_not_isTarget hi2.target⟩
  · rw [hform2, hform1]
    refine closed_of_children ?_ ?_ fun x hx => (hk1.trans hst2.keeps).known (hc x hx)
    · rintro v body rfl
      cases hre
    · rintro l rfl
      cases hre
  · rw [hform2, hform1]
    cases form <;> trivial
  · refine ⟨fun htype => ?_, fun _ _ h => ?_, fun _ h => ?_⟩
    · rw [Form.isReform_of_isType htype] at h0
      cases h0
    all_goals
      rw [h] at h0
      cases h0

end Reforming

theorem void_walks (hs : Ready p0 G c s) :
    Goes p0 G n {} c s (pure TypeId.void) fun t s' => s'.program.types.Valid t ∧ Said p0 G o t s' :=
  .pure hs ⟨hs.valid_basic (by decide), .basic hs.coherent (by decide)⟩

theorem pure_walks (hs : Ready p0 G c s) (ht : s.program.types.Valid t) (hsaid : Said p0 G o t s)
    (hs' : Ready p0 G c s') (hk : s.program.Keeps s'.program) :
    Goes p0 G n {} c s' (pure t) fun t s'' => s''.program.types.Valid t ∧ Said p0 G o t s'' :=
  .pure hs' ⟨hk.types.valid ht, hsaid.keeps hk hs.coherent⟩

section Fields

variable (he : e.Good p0 G n e') (hs : Ready p0 G c s)
include he hs

theorem fieldView_walks {α : Type} {v : VarId} {k k' : TypeId → Check α} {Q : α → PassState → Prop}
    (ha : s.program.Reached o base name a) (hv : a.entry.member = .field v)
    (hbase : ∀ b ∈ base, G ⟨o, false⟩ b) (hi : G ⟨o, false⟩ i)
    (hform : (∃ x, p0.form i = .getField base name x) ∨ ∃ x y, p0.form i = .setField base name x y)
    (hk : ∀ declared t s', Step p0 {} s s' → Ready p0 G c s' →
      (s'.program.vars.get v).slot = .fixed declared →
      s'.program.Seen o base name (.field v) declared t → s'.program.types.Valid t →
      Said p0 G o t s' → Walks p0 G n f c s' (k t) (k' t) Q) :
    Walks p0 G n f c s (do
      let declared ← varType e v loc
      let t ← a.view declared loc
      k t) (do
      let declared ← varType e' v loc
      let t ← a.view declared loc
      k' t) Q := by
  obtain ⟨d, howns, _⟩ := ha.owner hs.wired hs.under
  rw [hv] at howns
  obtain ⟨_, hrole, _⟩ := hs.wired.owned.fields d v howns
  refine (fieldVar_walks hs he howns loc).bind fun declared s1 hst1 hs1 ⟨hfound, hsaid⟩ => ?_
  refine (view_walks hs1 loc (ha.keeps hst1.keeps hs.coherent)
    (hs1.coherent.varTypes v _ hfound)).bind fun t s2 hst2 hs2 hseen => ?_
  rw [hv] at hseen
  have hslot := hst2.stays.fields v d declared ((hs1.alike.role v).trans hrole) hfound
  have hview : s2.program.types.Valid t := by
    obtain ⟨_, _, _, _, _, _, _, ht, _⟩ := hseen
    exact ht
  exact hk declared t s2 (hst1.trans hst2) hs2 hslot hseen hview
    (.ofField hs.wired hs2.under hs2.sound hbase hseen howns hi hform hs2.coherent hslot
      (hsaid.step hs1.inv hst2))

variable {field : Option VarId} (hat : At p0 G s.program c z) (hi : Open s.program i)
  (hscoped : p0.ScopedAt G c.chain z i) (hloc : p0.Spot loc)
include hat hi hscoped hloc

theorem getField_walks (hform : p0.form i = .getField base name field) :
    Walks p0 G n { node := some i } c s (getField e i base name loc) (getField e' i base name loc)
      (Judged p0 G z.owner i) := by
  have hparts := hscoped.parts (by rw [hform]; rfl) (by rw [hform]; rfl)
  have hbound := hscoped.bound
  rw [hform] at hparts hbound
  have hbase : ∀ b ∈ base, p0.ScopedAt G c.chain z b :=
    fun b hb => hparts b (Option.mem_toList.2 hb)
  have hregion : ∀ b ∈ base, G ⟨z.owner, false⟩ b := fun b hb => (hbase b hb).mem
  have hnone : base = none → z.owner.isSome := by
    rintro rfl
    obtain ⟨d, _, _, ho, _⟩ := hbound
    rw [ho]
    rfl
  unfold getField
  refine (access_walks hs loc he hat hbase hnone hloc).bind fun a s1 hst1 hs1 ha => ?_
  have hknown : ∀ b ∈ base.toList, s1.program.Known b :=
    fun b hb => ha.receiver.known b (Option.mem_toList.1 hb)
  have hrebound {form : Form}
      (h : ∀ f, a.entry.member = .field f → form = .getField base name (some f)) :
      (Form.getField base name field).Rebound form := by
    cases base with
    | none =>
      obtain ⟨f, rfl, hf⟩ := ha.field_eq hs1.alike hbound
      exact h f hf
    | some b => trivial
  split
  · rename_i v hv
    refine fieldView_walks he hs1 ha hv hregion hscoped.mem (.inl ⟨field, hform⟩)
      fun declared t s2 hst2 hs2 _ _ ht hsaid => ?_
    have hknown2 : ∀ b ∈ base.toList, s2.program.Known b :=
      fun b hb => hst2.keeps.known (hknown b hb)
    exact reform_walks (.getField base name (some v)) hs2 (hi.step (hst1.trans hst2)).1 hscoped.mem
      hform rfl rfl nofun (regrown_of_passed hform (passed_refl _)) nofun hknown2
      (fun b hb => .inl (hknown2 b hb)) trivial .nil
      (hrebound fun f hf => by cases hv.symm.trans hf; rfl) fun s3 hs3 hk =>
      (Walks.readType hs3 (hk.types.valid ht) (hsaid.keeps hk hs2.coherent)).post
      fun _ _ _ _ h => h.1
  · rename_i m hm
    exact reform_walks (.delegate base m) hs1 (hi.step hst1).1 hscoped.mem hform rfl rfl nofun
      (regrown_of_passed hform (passed_refl _)) nofun hknown (fun b hb => .inl (hknown b hb))
      trivial .nil (hrebound fun f hf => by cases hm.symm.trans hf) fun s2 hs2 hk =>
      delegateType_walks hs2 loc (ha.keeps hk hs1.coherent) hregion hm

theorem setField_walks {value : NodeId} (hform : p0.form i = .setField base name field value) :
    Walks p0 G n { node := some i } c s (setField e i base name value loc)
      (setField e' i base name value loc) (Judged p0 G z.owner i) := by
  have hparts := hscoped.parts (by rw [hform]; rfl) (by rw [hform]; rfl)
  have hbound := hscoped.bound
  rw [hform] at hparts hbound
  obtain ⟨hbase', hvalue'⟩ := forall_mem_append.1 hparts
  have hbase : ∀ b ∈ base, p0.ScopedAt G c.chain z b :=
    fun b hb => hbase' b (Option.mem_toList.2 hb)
  have hvalue := forall_mem_singleton.1 hvalue'
  have hnone : base = none → z.owner.isSome := by
    rintro rfl
    obtain ⟨d, _, _, ho, _⟩ := hbound
    rw [ho]
    rfl
  unfold setField
  refine (access_walks hs loc he hat hbase hnone hloc).bind fun a s1 hst1 hs1 ha => ?_
  split
  · exact .fail hs1 (by nofun) hloc
  · rename_i v hv
    obtain ⟨d, howns, _⟩ := ha.owner hs.wired hs1.under
    rw [hv] at howns
    refine fieldView_walks he hs1 ha hv (fun b hb => (hbase b hb).mem) hscoped.mem
      (.inr ⟨field, value, hform⟩) fun declared t s2 hst2 hs2 hslot hseen ht hsaid => ?_
    refine (coerce_walks he hs2 (hat.step (hst1.trans hst2)) hvalue ht hsaid).bind
      fun value' s3 hst3 hs3 ⟨hknown, htakes, hpassed, _⟩ => ?_
    have hrole : (s2.program.vars.get v).role = .field d :=
      (hs2.alike.role v).trans (hs.wired.owned.fields d v howns).2.1
    have hbase3 : ∀ b ∈ base.toList, s3.program.Known b :=
      fun b hb => (hst2.trans hst3).keeps.known (ha.receiver.known b (Option.mem_toList.1 hb))
    refine reform_walks (.setField base name (some v) value') hs3
      (hi.step (hst1.trans (hst2.trans hst3))).1 hscoped.mem hform rfl rfl nofun
      (regrown_of_passed hform (rel_append (passed_refl _) (.cons hpassed .nil))) nofun
      (forall_mem_append.2 ⟨hbase3, forall_mem_singleton.2 htakes.known⟩)
      (forall_mem_append.2 ⟨fun b hb => .inl (hbase3 b hb), forall_mem_singleton.2 (.inl hknown)⟩)
      ⟨v, d, declared, t, rfl, (hst3.keeps.alike.role v).trans hrole,
        hst3.stays.fields v d declared hrole hslot, hseen.keeps hst3.keeps hs2.coherent, htakes⟩
      (.cons hpassed .nil) ?_ fun s4 hs4 _ => void_walks hs4
    cases base with
    | none =>
      obtain ⟨f, rfl, hf⟩ := ha.field_eq hs1.alike hbound
      cases hv.symm.trans hf
      exact ⟨value', rfl⟩
    | some b => trivial

end Fields

theorem signature?_of_keeps {p q : Program} {sig : List TypeId × TypeId} (hk : p.Keeps q)
    (ht : p.types.Valid t) (hsig : p.types.signature? t = some sig) :
    q.types.signature? t = some sig := by
  rw [← hsig, TypeTable.signature?, hk.types.get_eq ht, TypeTable.signature?]

section Calls

variable {args : List NodeId} {callee : NodeId} (he : e.Good p0 G n e') (hs : Ready p0 G c s)
  (hat : At p0 G s.program c z) (hi : Open s.program i) (hg : G ⟨z.owner, false⟩ i)
  (hloc : p0.Spot loc)
include he hs hat hi hg hloc

/-- A call of the method that its name stands for. The node may have been another kind of call
before. -/
theorem callMethod_walks (h0 : isReform (p0.form i)) (hargs : ∀ a ∈ args, p0.ScopedAt G c.chain z a)
    (hgiven : (p0.form i).given = args) (hbase : ∀ b ∈ base, p0.ScopedAt G c.chain z b)
    (hnone : base = none → z.owner.isSome) (hcarries : p0.Carries i (base.toList ++ args))
    (hcovers : ∀ x ∈ (p0.form i).children, x ∈ base.toList ++ args ∨
      ∃ name, p0.form x = .getField base name none)
    (hrebound : ∀ args' d, (p0.form i).Rebound (.callMethod base m args' d))
    (hmember : ∀ s' a, Step p0 {} s s' → s'.program.Reached z.owner base (p0.methods.get m).name a →
      a.entry.member = .method m) :
    Walks p0 G n { node := some i } c s (callMethod e i base m args loc)
      (callMethod e' i base m args loc) (Judged p0 G z.owner i) := by
  have hname {s' : PassState} (hs' : Ready p0 G c s') : (s'.program.methods.get m).name =
    (p0.methods.get m).name := (congrArg Method.name (hs'.alike.method m) :)
  unfold callMethod
  refine .program ?_
  rw [hname hs]
  refine (access_walks hs loc he hat hbase hnone hloc).bind fun a s1 hst1 hs1 ha => ?_
  have hm := hmember s1 a hst1 ha
  dsimp only
  split
  · rename_i hne
    exact absurd hm hne
  refine (methodSignature_walks hs1 loc ha (fun b hb => (hbase b hb).mem) hm).bind
    fun sig s2 hst2 hs2 ⟨declared, t, hslot, hseen, hsig, hp, hr, hps, hrs⟩ => ?_
  refine (arguments_walks he hs2 (hat.step (hst1.trans hst2)) hp hps hargs hloc).bind
    fun args' s3 hst3 hs3 ⟨hknown, htakes, hpassed⟩ => .program ?_
  have hbase3 : ∀ b ∈ base.toList, s3.program.Known b :=
    fun b hb => (hst2.trans hst3).keeps.known (ha.receiver.known b (Option.mem_toList.1 hb))
  have hargs3 : ∀ x ∈ args', s3.program.Known x := forall_of_forall₂ htakes fun _ _ h => h.known
  have ht : s2.program.types.Valid t := by
    obtain ⟨_, _, _, _, _, _, _, ht, _⟩ := hseen
    exact ht
  refine reform_walks (.callMethod base m args' _) hs3 (hi.step (hst1.trans (hst2.trans hst3))).1 hg
    rfl h0 rfl nofun ⟨_, hcarries, rel_append (passed_refl _) hpassed⟩ nofun
    (forall_mem_append.2 ⟨hbase3, hargs3⟩) (fun x hx => ?_)
    ⟨declared, t, sig.1, sig.2, hst3.stays.methods m declared hslot, ?_,
      signature?_of_keeps hst3.keeps ht hsig, htakes⟩ (hgiven ▸ hpassed) (hrebound _ _) fun _ =>
    pure_walks hs3 (hst3.keeps.types.valid hr) (hrs.step hs2.inv hst3)
  · rcases hcovers x hx with hx | ⟨name, hx⟩
    · exact .inl ((forall_mem_append.2 ⟨hbase3, hknown⟩) x hx)
    · exact .inr ⟨base, name, hx, fun b hb => hbase3 b (Option.mem_toList.2 hb)⟩
  · rw [hname hs3]
    exact hseen.keeps hst3.keeps hs2.coherent

section

variable (hform : p0.form i = .call callee args)
  (hparts : ∀ x ∈ callee :: args, p0.ScopedAt G c.chain z x)
include hform hparts

theorem callValue_walks :
    Walks p0 G n { node := some i } c s (callValue e i callee args loc)
      (callValue e' i callee args loc) (Judged p0 G z.owner i) := by
  obtain ⟨hcallee, hargs⟩ := forall_mem_cons.1 hparts
  unfold callValue
  refine (he.find hs hat hcallee).bind fun t s1 hst1 hs1 ⟨ht, hsaid⟩ => .typeOf ?_
  have hvalid := hs1.valid_slot ht
  extract_lets reform
  have hreform {s2 : PassState} (hst2 : Step p0 {} s1 s2) (hs2 : Ready p0 G c s2)
      {args' : List NodeId} {result : TypeId} (hknown : ∀ a ∈ args, s2.program.Known a)
      (hpassed : Forall₂ (p0.Passed s2.program) args args') (hr : s2.program.types.Valid result)
      (hsaid : Said p0 G z.owner result s2) : Goes p0 G n { node := some i } c s2
      (reform (args', result)) (Judged p0 G z.owner i) := by
    have hknown' : ∀ x ∈ callee :: args, s2.program.Known x :=
      forall_mem_cons.2 ⟨hst2.keeps.known ⟨t, ht⟩, hknown⟩
    have hargs' : ∀ x ∈ args', s2.program.Known x := by
      intro y hy
      obtain ⟨x, hx, rfl | ⟨_, hy, _⟩⟩ := exists_of_forall₂ hpassed hy
      · exact hknown _ hx
      · exact hy
    exact reform_walks (.call callee args') hs2 (hi.step (hst1.trans hst2)).1 hg hform rfl rfl nofun
      (regrown_of_passed hform (.cons (.inl rfl) hpassed)) nofun
      (forall_mem_cons.2 ⟨hknown' callee mem_cons_self, hargs'⟩) (fun x hx => .inl (hknown' x hx))
      trivial hpassed trivial fun _ => pure_walks hs2 hr hsaid
  have hdirect {params : List TypeId} {result : TypeId}
    (hsig : s1.program.types.signature? t = some (params, result))
    (hp : (∀ u ∈ params, s1.program.types.Valid u) ∧ s1.program.types.Valid result) :
    Walks p0 G n { node := some i } c s1 (do
        let args ← arguments e params args loc
        reform (args, result)) (do
        let args ← arguments e' params args loc
        reform (args, result)) (Judged p0 G z.owner i) := by
    obtain ⟨hps, hrs⟩ := hsaid.params hsig
    exact (arguments_walks he hs1 (hat.step hst1) hp.1 hps hargs hloc).bind
      fun args' s2 hst2 hs2 ⟨hknown, _, hpassed⟩ =>
      hreform hst2 hs2 hknown hpassed (hst2.keeps.types.valid hp.2) (hrs.step hs1.inv hst2)
  split
  · rename_i params result hget
    exact hdirect (TypeTable.signature?_of_lambda hget) (hs1.lambda hvalid hget)
  · rename_i params result hget
    exact hdirect (TypeTable.signature?_of_function hget) (holds_function.1 (hs1.holds hvalid hget))
  · rename_i cold hget
    exact (callCold_walks hs1 (holds_cold.1 (hs1.holds hvalid hget)) hloc he (hat.step hst1)
      (hsaid.cold hget) hargs).bind fun r s2 hst2 hs2 ⟨hknown, hpassed, hr, hsaid⟩ =>
      hreform hst2 hs2 hknown hpassed hr hsaid
  · exact .fail hs1 (by nofun) hloc

/-- If the callee is a member access for a method, the node becomes a call of that method. -/
theorem call_walks :
    Walks p0 G n { node := some i } c s (call e i callee args loc) (call e' i callee args loc)
      (Judged p0 G z.owner i) := by
  obtain ⟨hcallee, hargs⟩ := forall_mem_cons.1 hparts
  unfold call
  refine .program ?_
  split
  · rename_i base name hget
    -- A member access that has no type yet is as it was when names were bound.
    have hget0 : p0.form callee = .getField base name none := by
      cases hs.sound.forms _ callee hcallee.mem with
      | same h => exact h.symm.trans hget
      | other _ _ hname _ => exact absurd hget (hname base name)
    have hscoped := hcallee.parts (by rw [hget0]; rfl) (by rw [hget0]; rfl)
    rw [hget0] at hscoped
    have hbase : ∀ b ∈ base, p0.ScopedAt G c.chain z b :=
      fun b hb => hscoped b (Option.mem_toList.2 hb)
    have hcarries : p0.Carries i (base.toList ++ args) := .member hform hget0
    have hnone : base = none → z.owner.isSome := by
      rintro rfl
      have hbound := hcallee.bound
      rw [hget0] at hbound
      obtain ⟨_, _, _, _, _, hfield⟩ := hbound
      cases hfield
    refine (access_walks hs loc he hat hbase hnone hloc).bind fun a s1 hst1 hs1 ha => ?_
    have hi1 := (hi.step hst1).1
    split
    · rename_i m hm
      obtain ⟨_, _, hname, _⟩ := ha.owner hs.wired hs1.under
      rw [hm] at hname
      have hadmits : s1.program.Admits (.callMethod base m args .unresolved) :=
        ⟨forall_mem_append.2 ⟨fun b hb => hs1.valid (hbase b (Option.mem_toList.1 hb)), fun x hx =>
          hs1.valid (hargs x hx)⟩, trivial⟩
      refine (setForm_walks (.callMethod base m args .unresolved) hs1 hi1 hg hform rfl rfl nofun
        ⟨_, hcarries, passed_refl _⟩ hadmits).bindIn fun _ s2 hst2 hs2 ⟨hsame, hi2, _⟩ => ?_
      have hat2 : At p0 G s2.program c z := (hat.step hst1).keeps hst2.keeps fun j hj => by
        rwa [hsame, show (s1.program.setForm i _).slot j = _ from slot_setForm ..]
      refine callMethod_walks he hs2 hat2 hi2 hg hloc (by rw [hform]; rfl) hargs
        (by rw [hform]; rfl) hbase hnone hcarries (fun x hx => ?_)
        (fun _ _ => by rw [hform]; trivial) fun s3 b hst3 hb => ?_
      · rw [hform] at hx
        rcases mem_cons.1 hx with rfl | hx
        · exact .inr ⟨name, hget0⟩
        · exact .inl (mem_append_right _ hx)
      · rw [show (p0.methods.get m).name = name from hname] at hb
        rw [((ha.keeps hst2.keeps hs1.coherent).keeps hst3.keeps hs2.coherent).entry_eq hb]
        exact hm
    · exact callValue_walks he hs1 (hat.step hst1) hi1 hg hloc hform hparts
  · exact callValue_walks he hs hat hi hg hloc hform hparts

end

theorem callFunction_walks {d : FunctionId} (hform : p0.form i = .callFunction d args)
    (hargs : ∀ a ∈ args, p0.ScopedAt G c.chain z a) :
    Walks p0 G n { node := some i } c s (callFunction e i d args loc) (callFunction e' i d args loc)
      (Judged p0 G z.owner i) := by
  have hlisted : p0.Listed d := by
    have hadmits := (hs.wired.shaped.forms i).2
    rwa [hform] at hadmits
  have hentry : ¬ p0.IsEntry d := fun ⟨m, hm⟩ => (hs.wired.shaped.entries m d hm).2.1 hlisted
  unfold callFunction
  refine (functionType_walks hs loc (hs.wired.shaped.listed d hlisted) hentry).bind
    fun t s1 hst1 hs1 ⟨hslot, hsaid⟩ => ?_
  obtain ⟨params, result, hget⟩ := hs1.sound.functions d t hslot
  have ht := hs1.coherent.functionTypes d t hslot
  have hsig := TypeTable.signature?_of_function hget
  obtain ⟨hps, hrs⟩ := (hsaid.global (o := z.owner)).params hsig
  refine Walks.bind (.signatureOf hs1 ht hsig _ loc) fun sig s2 _ _ ⟨hs2, hsame, hp, hr⟩ => ?_
  subst hs2 hsame
  refine (arguments_walks he hs1 (hat.step hst1) hp hps hargs hloc).bind
    fun args' s3 hst3 hs3 ⟨hknown, htakes, hpassed⟩ => ?_
  refine reform_walks (.callFunction d args') hs3 (hi.step (hst1.trans hst3)).1 hg hform rfl rfl
    nofun (regrown_of_passed hform hpassed) ?_ (forall_of_forall₂ htakes fun _ _ h => h.known)
    (fun x hx => .inl (hknown x hx)) ⟨t, params, result, hst3.stays.functions d t hslot,
      signature?_of_keeps hst3.keeps ht hsig, htakes⟩ hpassed trivial fun _ =>
    pure_walks hs3 (hst3.keeps.types.valid hr) (hrs.step hs1.inv hst3)
  rintro _ _ ⟨⟩
  exact hs3.alike.listed.2 hlisted

end Calls

end Typing

end ClassLang
