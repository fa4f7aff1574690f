import ClassLang.Proofs.Typing.Sound.Expression

namespace ClassLang

variable {form : Form}

open List Program TypeTable

theorem Form.of_isTarget (h : form.isTarget) :
    (∃ body, form = .block body) ∨ ∃ body, form = .loop body := by
  cases form with
  | block body => exact .inl ⟨body, rfl⟩
  | loop body => exact .inr ⟨body, rfl⟩
  | _ => cases h

theorem Form.isReform_of_isTarget (h : form.isTarget) : Typing.isReform form = false := by
  cases form <;> first | rfl | cases h

theorem Form.isType_of_isTarget (h : form.isTarget) : form.isType = false := by
  cases form <;> first | rfl | cases h

def Form.isLocal : Form → Bool
  | .getVar _ | .letIn _ _ => true
  | _ => false

namespace Program

variable {p0 p : Program} {o : Option ClassId} {i : NodeId}

theorem Sound.form_of_isTarget {G : Atlas} {g : Region} (h : p0.Sound G p) (hi : G g i)
    (htarget : (p0.form i).isTarget) : p.form i = p0.form i := by
  cases h.forms g i hi with
  | same h => exact h
  | other hre _ _ _ =>
    rw [Form.isReform_of_isTarget htarget] at hre
    cases hre

theorem verdict_of_not_isLocal {t : TypeId} (hlocal : form.isLocal = false)
    (h : form.isType → Declarable p.types t) : p0.Verdict p i t form := by
  refine ⟨h, fun _ _ he => ?_, fun _ he => ?_⟩
  all_goals
    rw [he] at hlocal
    cases hlocal

theorem verdict_of_isTarget {t : TypeId} (h : form.isTarget) : p0.Verdict p i t form := by
  refine verdict_of_not_isLocal (by cases form <;> first | rfl | cases h) fun htype => ?_
  rw [Form.isType_of_isTarget h] at htype
  cases htype

theorem Worked.of_isTarget (hform : p.form i = p0.form i) (htarget : (p0.form i).isTarget) :
    p0.Worked p o i := by
  refine .kept hform (Form.isReform_of_isTarget htarget) (fun _ _ h => ?_) fun _ _ _ _ _ h => ?_
  · rw [h] at htarget
    cases htarget
  · rw [h] at htarget
    cases htarget

/-- A block or loop that is left before it ends has a type from then on. -/
theorem finished_of_isTarget (hform : p.form i = p0.form i) (htarget : (p0.form i).isTarget)
    (hleft : ∀ u, p.slot i = .fixed u → p0.Left p i u) : p0.Finished p o i where
  toWorked := .of_isTarget hform htarget
  verdict _ _ := verdict_of_isTarget htarget
  looped _ _ u hu := .inr (hleft u hu)

end Program

namespace Typing

variable {p0 : Program} {G : Atlas} {n : Nat} {f : Focus} {c : Context} {s : PassState}
  {e e' : Engine} {z : Setting} {o : Option ClassId} {i : NodeId} {t : TypeId} {loc : Location}

theorem mem_kinds {want given : RefKind} :
    (want, given) ∈ [(RefKind.pin, RefKind.own), (.pin, .pin), (.own, .own), (.weak, .weak)] ↔
      keepsKind want given = true := by
  cases want <;> cases given <;> decide

section Jumps

variable {target : NodeId} (hs : Ready p0 G c s)
include hs

theorem accepts_walks {existing : TypeId} (hx : s.program.types.Valid existing)
    (ht : s.program.types.Valid t) (loc : Location) :
    Goes p0 G n f c s (accepts target existing t loc) fun ok s' => ok = true →
      (s.program.form target).isTarget → s'.program.Allows target existing t := by
  unfold accepts
  split
  · rename_i hsame
    exact .pure hs fun _ _ => hsame.imp Eq.symm .inl
  refine .program ?_
  extract_lets isLoop
  split
  · rename_i hvoid
    rw [Bool.and_eq_true, decide_eq_true_iff] at hvoid
    refine .pure hs fun _ htarget => .inr (.inr (.inl ⟨hvoid.1, ?_⟩))
    rcases Form.of_isTarget htarget with hblock | ⟨body, hloop⟩
    · exact hblock
    · simp [isLoop, hloop] at hvoid
  refine .ref? (.ref? ?_)
  split
  · rename_i want given hw hg
    split
    · rename_i hkeeps
      refine (Walks.isSubinst hs (hs.valid_ref ht hg) (hs.valid_ref hx hw) loc).post
        fun ok s1 hst1 _ hsub hok _ => ?_
      subst hok
      exact .inr (.inr (.inr
        ⟨want.1, given.1, want.2, given.2, get_of_grows hst1.keeps.types (ref?_eq_some.1 hw) nofun,
          get_of_grows hst1.keeps.types (ref?_eq_some.1 hg) nofun, mem_kinds.2 hkeeps, hsub⟩))
    · exact .pure hs nofun
  · exact .pure hs nofun

omit hs in
theorem empty_of_setSlot {p : Program} {j : NodeId}
    (h : (p.setSlot target (.fixed t)).slot j = .empty) : p.slot j = .empty := by
  rw [slot_setSlot] at h
  split at h
  · cases h
  · exact h

/-- A node of a region gets the type that its rule gave. -/
theorem fixNode_walks (hg : G ⟨o, false⟩ i) (hn : ¬ s.program.Known i)
    (hst : Step p0 f s (s.after (.node i (.fixed t))))
    (hdone : p0.Finished (s.program.setSlot i (.fixed t)) o i) (hsaid : Said p0 G o t s) :
    Goes p0 G n f c s (write (.node i (.fixed t))) fun _ s' => s' = s.after (.node i (.fixed t)) ∧
      s'.program.slot i = .fixed t := by
  have hvalid := hs.charted.valid _ i hg
  refine (Walks.write hs hst
    (hs.sound.fixSlot hs.charted hs.coherent hn (fun _ => ⟨_, hg⟩) (fun r hr => ?_) (fun r hr => ?_)
      fun _ _ hv => absurd hvalid hv)).post fun _ s1 _ _ hs1 => ⟨hs1, ?_⟩
  · cases hs.charted.unique _ _ _ hg hr
    exact hdone
  · cases hs.charted.unique _ _ _ hg hr
    exact hsaid
  · rw [hs1]
    exact (slot_setSlot s.program i (.fixed t) i).trans (if_pos ⟨rfl, hs.sound.nodes i hvalid⟩)

/-- A jump goes to a block or loop around it, unless it leads out of a field. -/
theorem leaveTo_walks {result : Option NodeId} (hloc : p0.Spot loc) (hat : At p0 G s.program c z)
    (hform : p0.form i = .leave target result) (htarget : target ∈ z.targets)
    (ht : s.program.types.Valid t) (hsaid : Said p0 G z.owner t s)
    (hbegun : s.program.slot i ≠ .empty) (hbrings : s.program.Brings result t) :
    Goes p0 G n {} c s (leaveTo target t loc) fun _ s' => s'.program.Leaves target result := by
  have hkind : (p0.form target).isTarget := by
    have hadmits := (hs.wired.shaped.forms i).2
    rwa [hform] at hadmits
  have hin (hne : s.program.slot target ≠ .empty) : G ⟨z.owner, false⟩ target ∧
      s.program.form target = p0.form target := by
    rcases hat.targets target htarget with ⟨hg, _⟩ | ⟨hout, _⟩
    · exact ⟨hg, hs.sound.form_of_isTarget hg hkind⟩
    · exact absurd (hs.sound.quiet target (valid_of_isTarget hkind) hout) hne
  unfold leaveTo
  refine .program ?_
  split
  · rename_i existing hx
    obtain ⟨_, hsame⟩ := hin (by rw [hx]; nofun)
    refine (accepts_walks hs (hs.valid_slot hx) ht loc).bind fun ok s1 hst1 hs1 hok => ?_
    split
    · exact .fail hs1 (by nofun) hloc
    · rename_i hyes
      rw [Bool.not_eq_true', Bool.not_eq_false] at hyes
      exact .pure hs1 ⟨t, existing, hst1.keeps.brings hbrings, hst1.keeps.slots _ _ hx,
        hok hyes (by rw [hsame]; exact hkind)⟩
  · rename_i hpending
    obtain ⟨hg, hsame⟩ := hin (by rw [hpending]; nofun)
    have hn (u : TypeId) (hu : s.program.slot target = .fixed u) : False :=
      nomatch hpending.symm.trans hu
    have hk : s.program.Keeps (s.program.setSlot target (.fixed t)) := keeps_setSlot hs.coherent
      fun u hu => (hn u hu).elim
    have hleft (u : TypeId) (hu : (s.program.setSlot target (.fixed t)).slot target = .fixed u) :
        p0.Left (s.program.setSlot target (.fixed t)) target u := by
      rw [slot_setSlot, if_pos ⟨rfl, hs.sound.nodes target (valid_of_isTarget hkind)⟩] at hu
      cases hu
      exact ⟨i, result, hform, fun he => hbegun (empty_of_setSlot he), hk.brings hbrings⟩
    refine (fixNode_walks hs hg (fun ⟨u, hu⟩ => hn u hu)
      (.fixNode hs.inv ht (fun u hu => (hn u hu).elim) (fun _ he => ?_) fun _ _ => ?_)
      (finished_of_isTarget ((form_setSlot ..).trans hsame) hkind hleft) hsaid).post
      fun _ s1 hst1 _ ⟨_, hslot⟩ => ⟨t, t, hst1.keeps.brings hbrings, hslot, .inl rfl⟩
    · exact nomatch hpending.symm.trans he
    · rw [hsame]
      exact .inl hkind
  · rename_i hempty
    rcases hat.targets target htarget with ⟨_, hslot⟩ | ⟨_, hout⟩
    · exact absurd hempty hslot
    · exact .broken hs hout _ hloc

theorem unite_walks (hg : G ⟨o, false⟩ i) (hj : Judged p0 G o i t s) :
    Goes p0 G n { node := some i } c s (unite i t) fun t s' =>
      (s'.program.slot i = .fixed t ∧ s'.program.Done i) ∧ Said p0 G o t s' := by
  have hvalid := hs.sound.nodes i (hs.charted.valid _ i hg)
  unfold unite
  refine .locOf (.program ?_)
  split
  · rename_i existing hx
    refine (accepts_walks hs (hs.valid_slot hx) hj.type _).bindIn fun ok s1 hst1 hs1 hok => ?_
    have hx1 := hst1.keeps.slots _ _ hx
    split
    · rename_i hyes
      refine .pure hs1 ⟨⟨hx1, ?_⟩, hs1.sound.tame.nodes _ i existing hg hx1⟩
      obtain hp | ⟨_, ht | ht⟩ := hj.pending
      · exact nomatch hp.symm.trans hx
      · have hsame := hst1.keeps.forms i ⟨existing, hx⟩
        have hallows := hok hyes ht
        refine ⟨existing, hx1, ?_⟩
        rw [hsame]
        refine ⟨hst1.keeps.closed hj.closed, ?_⟩
        have hwinds := hj.winds
        obtain ⟨body, hform⟩ | ⟨body, hform⟩ := Form.of_isTarget ht <;> rw [hform] at hwinds ⊢
        · exact ⟨trivial, t, hst1.keeps.brings hwinds, hallows⟩
        · exact ⟨trivial, trivial⟩
      · exact hst1.keeps.done hs.coherent ht.2
    · exact .fail hs1 (by nofun) (hs.spot hvalid)
  · rename_i hn
    have hk : s.program.Keeps (s.program.setSlot i (.fixed t)) := keeps_setSlot hs.coherent
      fun u hu => absurd hu (hn u)
    have hdone : p0.Finished (s.program.setSlot i (.fixed t)) o i := by
      have hfixed {u : TypeId} (hu : (s.program.setSlot i (.fixed t)).slot i = .fixed u) :
          t = u := by
        rw [slot_setSlot, if_pos ⟨rfl, hvalid⟩] at hu
        exact Slot.fixed.inj hu
      refine ⟨hj.worked.keeps hk hs.coherent (form_setSlot ..)
        ⟨fun _ => rfl, fun _ _ _ _ => id, fun _ _ => id, fun _ _ => id⟩, fun u hu =>
        hfixed hu ▸ hj.verdict.keeps hk hs.coherent hj.type, fun body hloop u hu => .inl ?_⟩
      have hwinds := hj.winds
      rw [hs.sound.form_of_isTarget hg (by rw [hloop]; rfl), hloop] at hwinds
      exact hfixed hu ▸ hwinds.resolve_left (hn t)
    refine (fixNode_walks hs hg (fun ⟨u, hu⟩ => hn u hu)
      (.fixNode hs.inv hj.type (fun u hu => absurd hu (hn u)) (fun h => absurd rfl h) fun h =>
        absurd rfl h) hdone hj.said).bindIn fun _ s1 hst1 hs1 ⟨hafter, hslot⟩ =>
      .pure hs1 ⟨⟨hslot, t, hslot, ?_, ?_, ?_⟩, hj.said.step hs.inv hst1⟩
    all_goals rw [hafter, show (s.after (.node i (.fixed t))).program.form i =
      _ from form_setSlot s.program i (.fixed t) i, ← hafter]
    · exact hst1.keeps.closed hj.closed
    · exact hst1.keeps.rule hs.coherent hj.type hj.rule
    · have hwinds := hj.winds
      cases hform : s.program.form i <;> rw [hform] at hwinds <;> first | trivial | skip
      exact ⟨t, hst1.keeps.brings hwinds, .inl rfl⟩

end Jumps

/-- A node whose rule has been entered has the form that it has in the text. -/
structure Entered (p0 p : Program) (i : NodeId) (form : Form) : Prop where
  begun : p.slot i = .inProgress
  same : p.form i = form
  source : p0.form i = form

namespace Entered

variable {form : Form} {m m' : Check TypeId} (h : Entered p0 s.program i form)
include h

theorem isOpen (htarget : form.isTarget = false) (htype : form.isType = false) :
    Open s.program i :=
  ⟨h.begun, by rwa [h.same], by rwa [h.same]⟩

theorem form_of_step {s' : PassState} (hst : Step p0 {} s s') : s'.program.form i = p0.form i :=
  (hst.begun i (by simp) h.begun).1.trans (h.same.trans h.source.symm)

theorem judged (hm : Walks p0 G n {} c s m m' fun t s' => Typed p0 G o form t s' ∧
      p0.Worked s'.program o i ∧ p0.Verdict s'.program i t form ∧ Winds s'.program i t form) :
    Walks p0 G n { node := some i } c s m m' (Judged p0 G o i) := by
  refine .widen (hm.post fun t s' hst _ ⟨ht, hworked, hverdict, hwinds⟩ => ?_)
  have hform := (h.form_of_step hst).trans h.source
  obtain ⟨_, hpending⟩ := hst.begun i (by simp) h.begun
  exact ⟨ht.type, hform ▸ ht.closed, hform ▸ ht.rule, hpending, ht.said, hworked,
    h.source ▸ hverdict, hform ▸ hwinds⟩

theorem judged_kept (hre : isReform form = false) (htarget : form.isTarget = false)
    (hm : Walks p0 G n {} c s m m' fun t s' => Typed p0 G o form t s' ∧
      (∀ target result, form = .leave target result → s'.program.Leaves target result) ∧
      (∀ name c args x, form = .classRef name (some (.cls c)) args (some x) →
        s'.program.InBounds c x) ∧
      p0.Verdict s'.program i t form) :
    Walks p0 G n { node := some i } c s m m' (Judged p0 G o i) := by
  refine h.judged (hm.post fun t s' hst _ ⟨ht, hleft, hbounded, hverdict⟩ =>
    ⟨ht, .kept (h.form_of_step hst) ?_ ?_ fun _ => ?_, hverdict, winds_of_not_isTarget htarget⟩)
  all_goals rwa [h.source]

theorem judged_plain (hre : isReform form = false) (htarget : form.isTarget = false)
    (hlocal : form.isLocal = false) (hleave : ∀ target result, form ≠ .leave target result)
    (htype : form.isType = false) (hm : Walks p0 G n {} c s m m' (Typed p0 G o form)) :
    Walks p0 G n { node := some i } c s m m' (Judged p0 G o i) := by
  refine h.judged_kept hre htarget (hm.post fun t s' _ _ ht =>
    ⟨ht, fun target result h => absurd h (hleave target result), fun _ _ _ _ h => ?_,
      verdict_of_not_isLocal hlocal fun h => ?_⟩)
  · rw [h] at htype
    cases htype
  · rw [htype] at h
    cases h

theorem judged_target (htarget : form.isTarget) (hm : Walks p0 G n {} c s m m' fun t s' =>
      Typed p0 G o form t s' ∧ Winds s'.program i t form) :
    Walks p0 G n { node := some i } c s m m' (Judged p0 G o i) := by
  refine h.judged (hm.post fun t s' hst _ ⟨ht, hwinds⟩ =>
    ⟨ht, .of_isTarget (h.form_of_step hst) ?_, verdict_of_isTarget htarget, hwinds⟩)
  rwa [h.source]

end Entered

section Rules

variable (he : e.Good p0 G n e') (hs : Ready p0 G c s) (hat : At p0 G s.program c z)

include hs hat in
theorem knownVarType_walks {v : VarId} (hv : v ∈ z.vars) :
    Walks p0 G n {} c s (varType e v loc) (varType e' v loc) fun t s' =>
      s' = s ∧ s.program.types.Valid t ∧ Said p0 G z.owner t s := by
  obtain ⟨⟨u, hu⟩, b, hhome⟩ := hat.vars v hv
  refine (knownVar_walks hs hu hhome loc).post fun t s' _ _ ⟨hs', ht, hsaid⟩ => ?_
  subst ht
  exact ⟨hs', hs.coherent.varTypes v _ hu, hsaid.loosen⟩

include hs hat in
theorem thisForm_walks {d : ClassId} (hi : Entered p0 s.program i .this) (ho : z.owner = some d) :
    Walks p0 G n { node := some i } c s (rule e i .this loc) (rule e' i .this loc)
      (Judged p0 G z.owner i) := by
  refine hi.judged_plain rfl rfl rfl nofun rfl
    ((thisInst_walks hs loc hat ho).bind fun x s1 _ hs1 hthis => ?_)
  refine (Walks.intern hs1 (holds_ref.2 hthis.1) nofun nofun).post fun t s2 hst2 _ ⟨_, ht, hget⟩ =>
    ⟨ht, closed_of_children nofun nofun nofun, trivial, .makeRef ht hget fun _ => ?_⟩
  have hwithin := hthis.within.grows hst2.keeps.insts
  rw [hs1.alike.classParams] at hwithin
  rw [ho]
  exact hwithin

include he hs hat

theorem blockForm_walks {body : List NodeId} (hi : Entered p0 s.program i (.block body))
    (hscoped : p0.ScopedAt G c.chain z i) :
    Walks p0 G n { node := some i } c s (rule e i (.block body) loc) (rule e' i (.block body) loc)
      (Judged p0 G z.owner i) := by
  have hat' := hat.entering hscoped.mem (by rw [hi.begun]; nofun)
  exact hi.judged_target rfl ((statements_walks he hs hat' (hscoped.inside (.inl hi.source))).post
    fun t s1 _ _ ⟨ht, hsaid, hknown, hwinds⟩ =>
      ⟨⟨ht, closed_of_children nofun nofun hknown, trivial, hsaid⟩, hwinds⟩)

/-- A loop has the type of the values that jumps left it with. -/
theorem loopForm_walks {body : List NodeId} (hi : Entered p0 s.program i (.loop body))
    (hscoped : p0.ScopedAt G c.chain z i) :
    Walks p0 G n { node := some i } c s (rule e i (.loop body) loc) (rule e' i (.loop body) loc)
      (Judged p0 G z.owner i) := by
  have hat' := hat.entering hscoped.mem (by rw [hi.begun]; nofun)
  refine hi.judged_target rfl ((statements_walks he hs hat' (hscoped.inside (.inr hi.source))).bind
    fun _ s1 _ hs1 ⟨_, _, hknown, _⟩ => .program (.pure hs1 ?_))
  have hclosed : s1.program.Closed (.loop body) := closed_of_children nofun nofun hknown
  cases hslot : s1.program.slot i with
  | fixed t =>
    have hsaid := hs1.sound.tame.nodes _ i t hscoped.mem hslot
    exact ⟨⟨hs1.valid_slot hslot, hclosed, trivial, hsaid⟩, .inl hslot⟩
  | _ =>
    exact ⟨⟨hs1.valid_basic (by decide), hclosed, trivial, .basic hs1.coherent (by decide)⟩,
      .inr rfl⟩

theorem letInForm_walks {v : VarId} {body : List NodeId} {d : NodeId}
    (hi : Entered p0 s.program i (.letIn v body)) (hscoped : p0.ScopedAt G c.chain z i)
    (hinit : (p0.vars.get v).init = some d) (hrole : (p0.vars.get v).role = .localVar) :
    Walks p0 G n { node := some i } c s (rule e i (.letIn v body) loc)
      (rule e' i (.letIn v body) loc) (Judged p0 G z.owner i) := by
  have hplaces := hscoped.places hi.source
  have hopens := hscoped.openings hi.source
  have hd := Option.mem_toList.2 hinit
  have hvalue : p0.ScopedAt G c.chain z d :=
    ⟨hplaces (z, d) (mem_append_left _ (mem_map_of_mem hd)),
      hopens (c.chain, d) (mem_append_left _ (mem_map_of_mem hd))⟩
  have hbody (x : NodeId) (hx : x ∈ body) : p0.ScopedAt G (v :: c.chain) (z.seeing [v]) x :=
    ⟨hplaces (z.seeing [v], x) (mem_append_right _ (mem_map_of_mem hx)),
      hopens (v :: c.chain, x) (mem_append_right _ (mem_map_of_mem hx))⟩
  refine hi.judged_kept rfl rfl ((letIn_walks he hs hat hscoped.opens hinit hrole hvalue hbody).post
    fun t s' _ _ ⟨ht, hback⟩ => ⟨ht, nofun, nofun, nofun, fun _ _ he => ?_, nofun⟩)
  cases he
  exact hback

theorem leaveForm_walks {target : NodeId} {result : Option NodeId}
    (hi : Entered p0 s.program i (.leave target result)) (htarget : target ∈ z.targets)
    (hresult : ∀ r ∈ result, p0.ScopedAt G c.chain z r) (hloc : p0.Spot loc) :
    Walks p0 G n { node := some i } c s (rule e i (.leave target result) loc)
      (rule e' i (.leave target result) loc) (Judged p0 G z.owner i) := by
  have hleave {s1 : PassState} (hst1 : Step p0 {} s s1) (hs1 : Ready p0 G c s1) {t : TypeId}
      (ht : s1.program.types.Valid t) (hsaid : Said p0 G z.owner t s1)
      (hbrings : s1.program.Brings result t) :
      Goes p0 G n {} c s1 (do
        leaveTo target t loc
        pure TypeId.noReturn) fun t s' =>
          Typed p0 G z.owner (.leave target result) t s' ∧ s'.program.Leaves target result := by
    have hslot := hst1.stays_begun (i := i) (by rw [hi.begun]; nofun)
    refine (leaveTo_walks hs1 hloc (hat.step hst1) hi.source htarget ht hsaid hslot hbrings).bind
      fun _ s2 hst2 hs2 hleaves => .pure hs2 ⟨⟨hs2.valid_basic (by decide), ?_, trivial,
        .basic hs2.coherent (by decide)⟩, hleaves⟩
    refine closed_of_children nofun nofun fun x hx => ?_
    cases Option.mem_toList.1 hx
    exact hst2.keeps.known ⟨t, hbrings⟩
  have hjudged {m m' : Check TypeId} (h : Walks p0 G n {} c s m m' fun t s' =>
      Typed p0 G z.owner (.leave target result) t s' ∧ s'.program.Leaves target result) :
      Walks p0 G n { node := some i } c s m m' (Judged p0 G z.owner i) := by
    refine hi.judged_kept rfl rfl (h.post fun t s' _ _ ⟨ht, hleaves⟩ =>
      ⟨ht, fun target' _ he => ?_, nofun, verdict_of_not_isLocal rfl nofun⟩)
    cases he
    exact hleaves
  cases result with
  | none =>
    exact hjudged (hleave (.refl hs.inv) hs (hs.valid_basic (by decide))
      (.basic hs.coherent (by decide)) rfl)
  | some r =>
    exact hjudged ((he.find hs hat (hresult r rfl)).bind fun t s1 hst1 hs1 ⟨ht, hsaid⟩ =>
      hleave hst1 hs1 (hs1.valid_slot ht) hsaid ht)

theorem getAtForm_walks {a index : NodeId} (hi : Entered p0 s.program i (.getAt a index))
    (ha : p0.ScopedAt G c.chain z a) (hindex : p0.ScopedAt G c.chain z index) :
    Walks p0 G n { node := some i } c s (rule e i (.getAt a index) loc)
      (rule e' i (.getAt a index) loc) (Judged p0 G z.owner i) := by
  refine hi.judged_plain rfl rfl rfl nofun rfl ((elementType_walks he hs hat ha hindex).bind
    fun t s1 _ hs1 ⟨ht, hsaid, ⟨u, ha, _⟩, hindex⟩ => ?_)
  refine (Walks.readType hs1 ht hsaid).post fun _ s2 hst2 _ h =>
    ⟨h.1.1, closed_of_children nofun nofun fun x hx => hst2.keeps.known ?_, trivial, h.1.2⟩
  obtain rfl | rfl := mem_pair.1 hx
  · exact ⟨u, ha⟩
  · exact hindex

/-- Without a receiver, a method that is not called is one of the class around. -/
theorem delegateForm_walks {m : MethodId} {d : ClassId} {path : List InstId}
    (hi : Entered p0 s.program i (.delegate none m)) (ho : z.owner = some d)
    (hlookup : (p0.classes.get d).members.lookup (p0.methods.get m).name =
      .one ⟨.method m, path⟩)
    (hloc : p0.Spot loc) :
    Walks p0 G n { node := some i } c s (rule e i (.delegate none m) loc)
      (rule e' i (.delegate none m) loc) (Judged p0 G z.owner i) := by
  have hname : (s.program.methods.get m).name = (p0.methods.get m).name :=
    (congrArg Method.name (hs.alike.method m) :)
  have hbase : ∀ b ∈ (none : Option NodeId), p0.ScopedAt G c.chain z b := nofun
  refine hi.judged (.program ?_)
  rw [hname]
  refine (access_walks hs loc he hat hbase (fun _ => by rw [ho]; rfl) hloc).bind
    fun a s1 hst1 hs1 ha => ?_
  refine (delegateType_walks hs1 loc ha nofun (ha.member_eq ho hs1.alike hlookup)).post
    fun t s2 hst2 _ ⟨ht, hsaid⟩ => ⟨⟨ht, closed_of_children nofun nofun nofun, trivial, hsaid⟩,
      .reformed (by rw [hi.source]; rfl) ((hi.form_of_step (hst1.trans hst2)).trans hi.source) ?_
        trivial (by rw [hi.source]; exact .nil) (by rw [hi.source]; rfl),
      verdict_of_not_isLocal rfl nofun, trivial⟩
  rw [Program.Covered, hi.source]
  exact forall_mem_nil _

theorem lambdaForm_walks {l : LambdaId} (hi : Entered p0 s.program i (.lambda l))
    (hscoped : p0.ScopedAt G c.chain z i) (hbound : p0.Bound z (.lambda l))
    (hl : p0.lambdas.Valid l) :
    Walks p0 G n { node := some i } c s (rule e i (.lambda l) loc) (rule e' i (.lambda l) loc)
      (Judged p0 G z.owner i) := by
  have hplaces := hscoped.places hi.source
  have hopens := hscoped.openings hi.source
  have hw : p0.Awaits G s.program z l :=
    { owner := hbound.1
      declared := hbound.2
      valid := fun d ho => (hat.this d ho).1
      types := fun v hv d hd => hplaces ((z.seeing (p0.lambdas.get l).params).closed, d)
        (mem_map_of_mem (mem_append_left _ (mem_filterMap.2 ⟨v, hv, hd⟩)))
      body := hplaces ((z.seeing (p0.lambdas.get l).params).closed, (p0.lambdas.get l).body)
        (mem_map_of_mem (mem_append_right _ (mem_singleton_self _)))
      opens := hopens _ (mem_map_of_mem (mem_append_right _ (mem_singleton_self _)))
      seen := hat.vars }
  refine hi.judged_plain rfl rfl rfl nofun rfl ((lambdaType_walks he hs hw hl loc).post
    fun t s1 _ hs1 ⟨ht, hsaid, hann, hwait⟩ =>
      ⟨ht, ⟨nofun, nofun, fun l' hl h => ?_, fun l' hl h => ?_⟩, trivial, hsaid⟩)
  all_goals
    cases hl
    rw [hs1.alike.isAnnotated] at h
  · exact hann h
  · exact hwait h

/-- The rule of each form judges the node. The cases are those of `Form`; the ones with an argument
of their own are the lemmas above. -/
theorem rule_walks (hscoped : p0.ScopedAt G c.chain z i) (hbegun : s.program.slot i = .inProgress)
    (hsame : s.program.form i = p0.form i) (hloc : p0.Spot loc) :
    Walks p0 G n { node := some i } c s (rule e i (p0.form i) loc) (rule e' i (p0.form i) loc)
      (Judged p0 G z.owner i) := by
  have hg := hscoped.mem
  have hbound := hscoped.bound
  have hadmits := (hs.wired.shaped.forms i).2
  have hplaces := hscoped.places rfl
  have hopens := hscoped.openings rfl
  have hparts := hscoped.parts
  have hi : Entered p0 s.program i (p0.form i) := ⟨hbegun, hsame, rfl⟩
  cases hform : p0.form i <;> rw [hform] at hbound hadmits hplaces hopens hparts hi
  case int | double | bool =>
    exact hi.judged_kept rfl rfl (.pure hs ⟨⟨hs.valid_basic (by decide),
      closed_of_children nofun nofun nofun, trivial, .basic hs.coherent (by decide)⟩, nofun, nofun,
      verdict_of_not_isLocal rfl fun _ =>
        .basic hs.coherent.tables.types (by decide) (by decide)⟩)
  case atom =>
    exact hi.judged_plain rfl rfl rfl nofun rfl (.pure hs ⟨hs.valid_basic (by decide),
      closed_of_children nofun nofun nofun, trivial, .basic hs.coherent (by decide)⟩)
  case void | name | setName => exact hbound.elim
  case arrayOf | signature => exact .fail hs (by nofun) hloc
  case getVar v =>
    refine hi.judged_kept rfl rfl ((knownVarType_walks hs hat hbound).bind
      fun t s1 _ _ ⟨hs1, ht, hsaid⟩ => ?_)
    subst hs1
    exact (Walks.readType hs ht hsaid).post fun _ _ _ _ h =>
      ⟨⟨h.1.1, closed_of_children nofun nofun nofun, trivial, h.1.2⟩, nofun, nofun, nofun, nofun,
        fun _ _ => h.2⟩
  case setVar v value =>
    refine (knownVarType_walks hs hat hbound).bind fun t s1 _ _ ⟨hs1, ht, hsaid⟩ => ?_
    subst hs1
    exact setVarForm_walks he hs hat (hi.isOpen rfl rfl) hg hform
      (hparts rfl rfl value mem_cons_self) ht hsaid
  case this =>
    obtain ⟨d, ho⟩ := Option.isSome_iff_exists.1 hbound
    exact thisForm_walks hs hat hi ho
  case getField base name field =>
    exact getField_walks he hs hat (hi.isOpen rfl rfl) hscoped hloc hform
  case setField base name field value =>
    exact setField_walks he hs hat (hi.isOpen rfl rfl) hscoped hloc hform
  case binary op lhs rhs =>
    exact hi.judged_plain rfl rfl rfl nofun rfl (binary_walks he hs hat hloc
      (hparts rfl rfl lhs mem_cons_self) (hparts rfl rfl rhs (mem_cons_of_mem _ mem_cons_self)))
  case unary op operand =>
    exact hi.judged_plain rfl rfl rfl nofun rfl
      (unary_walks he hs hat hloc (hparts rfl rfl operand mem_cons_self))
  case block body => exact blockForm_walks he hs hat hi hscoped
  case letIn v body =>
    obtain ⟨d, hinit⟩ := Option.isSome_iff_exists.1 hbound
    exact letInForm_walks he hs hat hi hscoped hinit hadmits
  case loop body => exact loopForm_walks he hs hat hi hscoped
  case leave target result =>
    exact leaveForm_walks he hs hat hi hbound
      (fun r hr => hparts rfl rfl r (Option.mem_toList.2 hr)) hloc
  case guard cond yes b =>
    exact hi.judged_plain rfl rfl rfl nofun rfl (guard_walks he hs hat hbegun hform hsame
      ⟨hplaces (z, cond) mem_cons_self, hopens (c.chain, cond) mem_cons_self⟩
      ⟨hplaces (z.seeing [b], yes) (mem_cons_of_mem _ mem_cons_self),
        hopens (c.chain, yes) (mem_cons_of_mem _ mem_cons_self)⟩)
  case orElse lhs rhs =>
    exact hi.judged_plain rfl rfl rfl nofun rfl
      (orElse_walks he hs hat (hparts rfl rfl lhs mem_cons_self)
        (hparts rfl rfl rhs (mem_cons_of_mem _ mem_cons_self)) hloc)
  case just value =>
    exact hi.judged_plain rfl rfl rfl nofun rfl
      ((he.find hs hat (hparts rfl rfl value mem_cons_self)).bind fun a s1 _ hs1 ⟨ha, hsaid⟩ =>
        (optional_walks hs1 (.just value) ha hsaid rfl nofun nofun
          fun p t ha ho => ⟨a, ha, ho⟩).post fun _ _ _ _ h => h.1)
  case noneOf type =>
    refine hi.judged_kept rfl rfl ((typeExpr_walks hs (hparts rfl rfl type mem_cons_self).named rfl
      (.noneOf hform)).bind fun a s1 _ hs1 ⟨_, ha⟩ => ?_)
    refine (optional_walks hs1 (.noneOf type) ha.slot ha.said rfl nofun nofun
      fun p t ha ho => ⟨a, ha, ho⟩).post fun u s2 hst2 _ ⟨ht, hopt⟩ =>
        ⟨ht, nofun, nofun, verdict_of_not_isLocal rfl fun _ => .optional ?_ hopt⟩
    exact (ha.declarable hbound).grows hs1.coherent.tables.types hst2.keeps.types
  case classRef name target args inst =>
    refine hi.judged_kept rfl rfl ((newObject_walks hs hform hbound (hparts rfl rfl) hloc).post
      fun t s' _ _ ⟨ht, hin, hdecl⟩ =>
        ⟨ht, nofun, fun _ d _ x he => ?_, verdict_of_not_isLocal rfl fun _ => hdecl⟩)
    cases he
    exact hin d x rfl rfl
  case array items =>
    exact hi.judged_plain rfl rfl rfl nofun rfl (array_walks he hs hat hbound (hparts rfl rfl))
  case getAt a index =>
    exact getAtForm_walks he hs hat hi (hparts rfl rfl a mem_cons_self)
      (hparts rfl rfl index (mem_cons_of_mem _ mem_cons_self))
  case setAt a index value =>
    exact setAt_walks he hs hat (hi.isOpen rfl rfl) hg hform (hparts rfl rfl)
  case call callee args =>
    exact call_walks he hs hat (hi.isOpen rfl rfl) hg hloc hform (hparts rfl rfl)
  case callMethod receiver m args dispatch =>
    cases receiver with
    | some b => exact hbound.elim
    | none =>
      obtain ⟨d, path, ho, hlookup⟩ := hbound
      exact callMethod_walks he hs hat (hi.isOpen rfl rfl) hg hloc (by rw [hform]; rfl)
        (hparts rfl rfl) (by rw [hform]; rfl) nofun (fun _ => by rw [ho]; rfl)
        (Carries.of_form hform) (fun x hx => .inl (by rwa [hform] at hx))
        (fun args' d => by rw [hform]; exact ⟨args', d, rfl⟩)
        fun s' a hst ha => ha.member_eq ho hst.inv.alike hlookup
  case callFunction d args =>
    exact callFunction_walks he hs hat (hi.isOpen rfl rfl) hg hloc hform (hparts rfl rfl)
  case functionRef d =>
    have hentry : ¬ p0.IsEntry d := fun ⟨m, hm⟩ => (hs.wired.shaped.entries m d hm).2.1 hadmits
    exact hi.judged_plain rfl rfl rfl nofun rfl
      ((functionType_walks hs loc (hs.wired.shaped.listed d hadmits) hentry).post
        fun t s1 _ hs1 h => ⟨hs1.coherent.functionTypes d t h.1,
          closed_of_children nofun nofun nofun, trivial, h.2.global⟩)
  case delegate receiver m =>
    cases receiver with
    | some b => exact hbound.elim
    | none =>
      obtain ⟨d, path, ho, hlookup⟩ := hbound
      exact delegateForm_walks he hs hat hi ho hlookup hloc
  case lambda l => exact lambdaForm_walks he hs hat hi hscoped hbound hadmits
  case cast operand target checked =>
    exact cast_walks he hs hat (hparts rfl rfl operand mem_cons_self) hloc (hi.isOpen rfl rfl) hg
      hform (hparts rfl rfl target (mem_cons_of_mem _ mem_cons_self)) hbound
  case toWeak value =>
    exact hi.judged_kept rfl rfl
      ((toWeak_walks he hs hat (hparts rfl rfl value mem_cons_self) hloc).post fun _ _ _ _ h =>
        ⟨h.1, nofun, nofun, verdict_of_not_isLocal rfl fun _ => h.2⟩)
  case toOwn value =>
    exact hi.judged_plain rfl rfl rfl nofun rfl
      (toOwn_walks he hs hat (hparts rfl rfl value mem_cons_self) hloc)
  case copyOf value =>
    exact hi.judged_plain rfl rfl rfl nofun rfl
      (copyOf_walks he hs hat (hparts rfl rfl value mem_cons_self) hloc)

end Rules

/-- A node is begun when its rule is entered, so that afterwards there is one less to begin. -/
theorem Ready.begin {r : Region} (hs : Ready p0 G c s) (hg : G r i)
    (hempty : s.program.slot i = .empty) (label : String) :
    Step p0 { node := some i } s
      { s.after (.node i .inProgress) with events := s.events ++ [.typing i.index label] } ∧
      Ready p0 G c { s.after (.node i .inProgress) with events := s.events ++
        [.typing i.index label] } ∧
      p0.remaining (s.after (.node i .inProgress)).program < p0.remaining s.program := by
  have hset : Step p0 { node := some i } s (s.after (.node i .inProgress)) := .begin hs.inv hempty
  have hst := hset.trans (.emit hset.inv (s.events ++ [.typing i.index label]))
  have hbegun : (s.after (.node i .inProgress)).program.slot i ≠ .empty := by
    rw [show (s.after (.node i .inProgress)).program.slot i = _ from slot_setSlot s.program i
      .inProgress i, if_pos ⟨rfl, hs.sound.nodes i (hs.charted.valid _ i hg)⟩]
    nofun
  have htypings : Event.typings (s.events ++ [.typing i.index label]) = Event.typings s.events ++
      [i.index] := by
    rw [Event.typings, filterMap_append]
    rfl
  refine ⟨hst, { hs with
      inv := hst.inv
      sound := hs.sound.begin hs.charted hs.coherent hg hempty
      once := ⟨?_, fun j hj => ?_⟩ },
    remaining_lt_of_begun rfl rfl (hs.charted.valid _ i hg) hempty hbegun hset.empty⟩
  · show (Event.typings (s.events ++ [.typing i.index label])).Nodup
    rw [htypings]
    refine nodup_append.2 ⟨hs.once.nodup, nodup_singleton _, fun j hj k hk hjk => ?_⟩
    rw [mem_singleton.1 hk] at hjk
    exact hs.once.begun i.index (hjk ▸ hj) hempty
  · change j ∈ Event.typings (s.events ++ [.typing i.index label]) at hj
    rw [htypings] at hj
    obtain hj | hj := mem_append.1 hj
    · exact mt (hset.empty ⟨j⟩) (hs.once.begun j hj)
    · rw [mem_singleton.1 hj]
      exact hbegun

theorem find_walks (he : ∀ j, j < n → e.Good p0 G j e') (hs : Ready p0 G c s)
    (hat : At p0 G s.program c z) (hscoped : p0.ScopedAt G c.chain z i) :
    Walks p0 G n {} c s (find e i) (find e' i) fun t s' => s'.program.slot i = .fixed t ∧
      Said p0 G z.owner t s' := by
  have hg := hscoped.mem
  have hloc : p0.Spot (s.program.nodes.get i).loc := hs.spot_of_mem hg
  unfold find
  refine .program ?_
  dsimp only
  split
  · rename_i t ht
    exact .pure hs ⟨ht, hs.sound.tame.nodes _ i t hg ht⟩
  · exact .fail hs (by nofun) hloc
  · rename_i hempty
    have hfresh := hs.sound.fresh i (hs.charted.valid _ i hg) hempty
    rw [show (s.program.nodes.get i).form = p0.form i from hfresh]
    obtain ⟨hst, hs1, hless⟩ := hs.begin hg hempty (p0.form i).label
    have hslot (j : NodeId) : (s.after (.node i .inProgress)).program.slot j = if i = j ∧
      s.program.nodes.Valid i then .inProgress else s.program.slot j :=
      slot_setSlot s.program i .inProgress j
    have hat1 : At p0 G (s.after (.node i .inProgress)).program c z := by
      refine hat.keeps hst.keeps fun j hj => ?_
      rw [hslot]
      split
      · nofun
      · exact hj
    intro hn
    have hrule := rule_walks (he _ (Nat.lt_of_lt_of_le hless hn)) hs1 hat1 hscoped
      ((hslot i).trans (if_pos ⟨rfl, hs.valid hscoped⟩))
      ((form_setSlot s.program i .inProgress i).trans hfresh) hloc
    refine Agrees.imp (hrule.bindIn (fun t s2 _ hs2 ht => unite_walks hs2 hg ht) (Nat.le_refl _))
      (fun t s2 ⟨hst2, hs2, ht⟩ => ?_) fun _ _ => id
    exact ⟨(hst.trans hst2).done_node hempty ht.1.2, hs2, ht.1.1, ht.2⟩

def engineOver (bottom : Engine) : Nat → Engine
  | 0 => bottom
  | n + 1 =>
    { find := fun i c => find (engineOver bottom n) i c
      fix := fun cold params loc c => fixCold (engineOver bottom n) cold params loc c
      assign := fun actual target loc c => assign (engineOver bottom n) actual target loc c }

theorem engine_eq_over (n : Nat) : engine n = engineOver (engine 0) n := by
  induction n with
  | zero => rfl
  | succ n ih =>
    rw [engineOver, ← ih]
    rfl

/-- One step further in, less is left to do. -/
theorem good_succ (he : ∀ j, j < n → e.Good p0 G j e') :
    (engineOver e 1).Good p0 G n (engineOver e' 1) :=
  ⟨find_walks he, fun hloc hs hc harg hwait hsaid => fixCold_walks hs hc hloc he harg hwait hsaid,
    fun hj => assign_walks (he _ hj)⟩

/-- The induction is on the depth to which types are looked for. -/
theorem engine_good (p0 : Program) (G : Atlas) (n k : Nat) : (engine k).Good p0 G n (engine k) := by
  induction k generalizing n with
  | zero =>
    refine ⟨fun hs _ hi => .program ?_, fun hloc hs _ _ _ _ => .fail hs (by nofun) hloc,
      fun _ _ _ _ _ hloc hs _ _ _ _ => .mismatch hs _ _ hloc⟩
    dsimp only
    split
    · rename_i t ht
      exact .pure hs ⟨ht, hs.sound.tame.nodes _ _ t hi.mem ht⟩
    · exact .fail hs (by nofun) (hs.spot_of_mem hi.mem)
  | succ k ih => exact good_succ fun j _ => ih j

/-- Where at most `n` is left to do, no more than a depth of `n` is ever reached. -/
theorem engineOver_good (p0 : Program) (G : Atlas) (bottom bottom' : Engine) {a b : Nat}
    (ha : n < a) (hb : n < b) : (engineOver bottom a).Good p0 G n (engineOver bottom' b) := by
  induction n using Nat.strongRecOn generalizing a b with
  | ind n ih =>
    obtain ⟨a, rfl⟩ := Nat.exists_eq_add_of_lt ha
    obtain ⟨b, rfl⟩ := Nat.exists_eq_add_of_lt hb
    exact good_succ fun j hj => ih j hj (by omega) (by omega)

end Typing

end ClassLang
