import ClassLang.Proofs.Typing.Sound.Member

namespace ClassLang.Typing

open List Program TypeTable

variable {p0 p : Program} {G : Atlas} {n : Nat} {f : Focus} {c : Context} {s s' : PassState}
  {e e' : Engine} {z : Setting} {o : Option ClassId} {i : NodeId} {t : TypeId} {loc : Location}
  {v : VarId} {body : List NodeId} {form : Form}

structure Typed (p0 : Program) (G : Atlas) (o : Option ClassId) (form : Form) (t : TypeId)
    (s : PassState) : Prop where
  type : s.program.types.Valid t
  closed : s.program.Closed form
  rule : s.program.Rule t form
  said : Said p0 G o t s

section Expecting

variable (hs : Ready p0 G c s)
include hs

theorem expectType_walks (expected actual : TypeId) (hloc : p0.Spot loc) :
    Goes p0 G n f c s (expectType expected actual loc) fun _ s' => s' = s ∧ actual = expected := by
  unfold expectType
  split
  · rename_i h
    exact .pure hs ⟨rfl, h.symm⟩
  · exact .mismatch hs _ _ hloc

theorem expectNumber_walks (actual : TypeId) (hloc : p0.Spot loc) :
    Goes p0 G n f c s (expectNumber actual loc) fun _ s' => s' = s ∧ actual.isNumeric := by
  unfold expectNumber
  split
  · rename_i h
    exact .pure hs ⟨rfl, h⟩
  · exact .fail hs (by nofun) hloc

end Expecting

theorem comparable_iff {T : TypeTable} {l r : TypeId} :
    comparable T l r ↔ l = r ∨ ∃ k k' i, T.get l = .ref k i ∧ T.get r = .ref k' i := by
  unfold comparable
  rw [Bool.or_eq_true, decide_eq_true_iff]
  refine or_congr_right ?_
  split
  · rename_i k i k' j hl hr
    rw [decide_eq_true_iff]
    constructor
    · rintro rfl
      exact ⟨k, k', i, ref?_eq_some.1 hl, ref?_eq_some.1 hr⟩
    · rintro ⟨k1, k2, x, h1, h2⟩
      rw [ref?_eq_some.2 h1] at hl
      rw [ref?_eq_some.2 h2] at hr
      cases hl
      cases hr
      rfl
  · rename_i hn
    refine iff_of_false (by simp) ?_
    rintro ⟨k, k', i, hl, hr⟩
    exact hn k i k' i (ref?_eq_some.2 hl) (ref?_eq_some.2 hr)

section

variable (h : At p0 G p c z)
include h

/-- Nothing that a block introduced is there at its start. -/
theorem At.unchained : At p0 G p { c with chain := [] } z := { h with chain := nofun }

theorem At.entering (hg : G ⟨z.owner, false⟩ i) (hi : p.slot i ≠ .empty) :
    At p0 G p c (z.entering i) :=
  { h with targets := forall_mem_cons.2 ⟨.inl ⟨hg, hi⟩, h.targets⟩ }

theorem At.seeing (hv : p.VarKnown v) {b : Bool} (hhome : p0.Home G ⟨z.owner, b⟩ v) :
    At p0 G p c (z.seeing [v]) :=
  { h with
    chain := fun u hu => (h.chain u hu).imp_left (mem_cons_of_mem v)
    vars := forall_mem_cons.2 ⟨⟨hv, b, hhome⟩, h.vars⟩ }

theorem At.chained (hv : v ∈ z.vars) (hrole : (p0.vars.get v).role = .localVar)
    (hinit : (p0.vars.get v).init.isSome) : At p0 G p { c with chain := v :: c.chain } z :=
  { h with chain := forall_mem_cons.2 ⟨⟨hv, hrole, hinit⟩, h.chain⟩ }

end

theorem handedBack?_eq_some {vs : List VarId} :
    handedBack? p vs body = some v ↔ v ∈ vs ∧ body.getLast?.map p.form = some (.getVar v) := by
  unfold handedBack?
  split
  · rename_i w hlast
    rw [hlast]
    split <;> aesop
  · rename_i hlast
    exact iff_of_false nofun fun h => hlast v h.2

/-- The form of a variable stays. -/
theorem getVar_iff (h : p0.Reformed p i) : p.form i = .getVar v ↔ p0.form i = .getVar v := by
  cases h with
  | same h => rw [h]
  | other h0 h _ _ =>
    refine iff_of_false (fun he => ?_) fun he => ?_
    · rw [he] at h
      cases h
    · rw [he] at h0
      cases h0

section Tables

variable {x : InstId} (hs : Ready p0 G c s)
include hs

theorem sameRef_walks {kind' : RefKind} (kind : RefKind) (ht : s.program.types.Valid t)
    (href : s.program.types.ref? t = some (kind', x)) (hsaid : Said p0 G o t s) :
    Goes p0 G n {} c s (intern (.ref kind x)) fun u s' => s'.program.types.Valid u ∧
      Said p0 G o u s' ∧ s'.program.types.get u = .ref kind x := by
  refine (Walks.intern hs (holds_ref.2 (hs.valid_ref ht href)) nofun nofun).post
    fun u s1 hst1 _ ⟨_, hu, hget⟩ => ⟨hu, .makeRef hu hget fun hsealed => ?_, hget⟩
  exact (hsaid.ref href (hsealed.back hst1.keeps hs.coherent)).grows hst1.keeps.insts

theorem upcast_walks (hx : s.program.insts.Valid x) (ancestor : ClassId) (loc : Location) :
    Goes p0 G n {} c s (editing loc (Program.upcast x ancestor)) fun o s' =>
      s'.program.Again (Program.upcast x ancestor) o :=
  (Walks.editing hs (((upcast_mends hs.wired hs.under hs.sound.tidy hx).and
    (upcast_interns hs.coherent.tables hs.coherent.shaped.bases hx)).neat (upcast_spares x ancestor)
    hs.sound.neat) loc).post fun _ _ _ _ h => h.2.2

theorem checkBounds_walks (hx : s.program.insts.Valid x) (d : ClassId) (hloc : p0.Spot loc) :
    Goes p0 G n {} c s (checkBounds d x loc) fun _ s' => s'.program.InBounds d x := by
  unfold checkBounds
  refine .program (Walks.post
    (Walks.forM (P := fun (y : ParamId × InstId) s' => ∀ bound, (s.program.params.get y.1).bound =
      some bound → ∃ j, s'.program.Again (Program.upcast y.2 bound) (some j)) hs
      (fun y s1 s2 _ hst hy bound hbound => ?_) fun y hy s1 hst1 hs1 => ?_) fun _ s1 hst1 _ hall =>
    ⟨hst1.keeps.insts.valid hx, ?_⟩)
  · obtain ⟨j, hj⟩ := hy bound hbound
    exact ⟨j, hj.mono hst.keeps.under⟩
  · obtain ⟨formal, arg⟩ := y
    have harg : s1.program.insts.Valid arg :=
      hst1.keeps.insts.valid (Nat.lt_trans (hs.coherent.tables.insts x arg (of_mem_zip hy).2) hx)
    dsimp only
    split
    · rename_i bound hbound
      refine (upcast_walks hs1 harg bound loc).bind fun o s2 _ hs2 hagain => ?_
      split
      · exact .fail hs2 (by nofun) hloc
      · rename_i hsome
        obtain ⟨j, rfl⟩ := Option.ne_none_iff_exists'.1 (mt Option.isNone_iff_eq_none.2 hsome)
        refine .pure hs2 fun bound' hbound' => ?_
        cases hbound.symm.trans hbound'
        exact ⟨j, hagain⟩
    · rename_i hnone
      exact .pure hs1 fun bound hbound => absurd hbound (hnone bound)
  · rw [hst1.keeps.alike.classParams, hst1.keeps.insts.get_eq hx, hst1.keeps.alike.params]
    exact hall

/-- A new object is one of a class whose bounds its arguments keep to. -/
theorem newObject_walks {name : NameId} {target : Option Target} {args : List NodeId}
    {inst : Option InstId} (hform : p0.form i = .classRef name target args inst)
    (hbound : p0.Bound z (.classRef name target args inst))
    (hargs : ∀ x ∈ args, p0.ScopedAt G c.chain z x) (hloc : p0.Spot loc) :
    Goes p0 G n {} c s (newObject target args inst loc) fun t s' =>
      Typed p0 G z.owner (.classRef name target args inst) t s' ∧
      (∀ d x, target = some (.cls d) → inst = some x → s'.program.InBounds d x) ∧
      Declarable s'.program.types t := by
  obtain ⟨x, hinst, htarget, _, hwithin⟩ := hbound
  unfold newObject
  split
  · rename_i d inst
    cases hinst
    refine .program ?_
    dsimp only
    split
    · exact .fail hs (by nofun) hloc
    refine (Walks.forM (P := fun x s => s.program.Known x) hs (fun x _ _ _ h hx => h.keeps.known hx)
      fun y hy s1 _ hs1 => ?_).bind fun _ s1 hst1 hs1 hknown => ?_
    · exact .discard ((typeExpr_walks hs1 (hargs y hy).named rfl (.arg hform hy)).post
        fun t _ _ _ h => ⟨t, h.2.slot⟩)
    · refine (checkBounds_walks hs1 (hwithin.grows hs1.sound.grows).valid d hloc).bind
        fun _ s2 hst2 hs2 hin => ?_
      refine (Walks.intern hs2 (holds_ref.2 (hwithin.grows hs2.sound.grows).valid) nofun nofun).post
        fun t s3 hst3 hs3 ⟨_, ht, hget⟩ =>
        ⟨⟨ht, closed_of_children nofun nofun fun x hx => ?_, trivial, .makeRef ht hget fun _ =>
          hwithin.grows hs3.sound.grows⟩, fun d' x' hd' hx' => ?_, .ref ht hget nofun⟩
      · exact (hst2.trans hst3).keeps.known (hknown x hx)
      · cases hd'
        cases hx'
        exact hin.keeps hst3.keeps
  · exact .fail hs (by nofun) hloc
  · rename_i hcls hparam
    cases hk : (p0.insts.get x).target with
    | cls d => exact absurd hinst (hcls d x (htarget.trans (congrArg some hk)))
    | param q => exact absurd hinst (hparam q x (htarget.trans (congrArg some hk)))

end Tables

section Expressions

variable {lhs rhs index a x operand : NodeId} (he : e.Good p0 G n e') (hs : Ready p0 G c s)
include he hs

section Operators

variable (hat : At p0 G s.program c z) (hloc : p0.Spot loc)
include hat hloc

theorem binary_walks {op : BinaryOp} (hl : p0.ScopedAt G c.chain z lhs)
    (hr : p0.ScopedAt G c.chain z rhs) :
    Walks p0 G n {} c s (binary e op lhs rhs loc) (binary e' op lhs rhs loc)
      (Typed p0 G z.owner (.binary op lhs rhs)) := by
  unfold binary
  refine (he.find hs hat hl).bind fun l s1 hst1 hs1 ⟨hl1, hsl⟩ => ?_
  refine (he.find hs1 (hat.step hst1) hr).bind fun r s2 hst2 hs2 ⟨hr2, _⟩ => .locOf (.locOf ?_)
  have hl2 := hst2.keeps.slots _ _ hl1
  have hleft := hs2.spot_of_mem hl.mem
  have hright := hs2.spot_of_mem hr.mem
  have htyped {t : TypeId} (hop : op.Yields s2.program.types l r t) (ht : s2.program.types.Valid t)
      (hsaid : Said p0 G z.owner t s2) : Goes p0 G n {} c s2 (pure t)
      (Typed p0 G z.owner (.binary op lhs rhs)) := by
    refine .pure hs2 ⟨ht, closed_of_children nofun nofun fun x hx => ?_,
      ⟨l, r, hl2, hr2, hop⟩, hsaid⟩
    obtain rfl | rfl := mem_pair.1 hx
    · exact ⟨l, hl2⟩
    · exact ⟨r, hr2⟩
  have hbasic {t : TypeId} (hop : op.Yields s2.program.types l r t) (ht : TypeTable.basic.Valid t) :
      Goes p0 G n {} c s2 (pure t) (Typed p0 G z.owner (.binary op lhs rhs)) :=
    htyped hop (hs2.valid_basic ht) (.basic hs2.coherent ht)
  cases op
  case add | sub | mul | div =>
    refine (expectNumber_walks hs2 l hleft).bind fun _ s3 _ _ ⟨hs3, hnum⟩ => ?_
    subst hs3
    refine (expectType_walks hs2 l r hright).bind fun _ s3 _ _ ⟨hs3, hrl⟩ => ?_
    subst hs3
    exact htyped ⟨hnum, hrl, rfl⟩ (hs2.valid_slot hl2) (hsl.step hs1.inv hst2)
  case mod | bitAnd | bitOr | bitXor | shl | shr =>
    refine (expectType_walks hs2 TypeId.int l hleft).bind fun _ s3 _ _ ⟨hs3, hl⟩ => ?_
    subst hs3
    refine (expectType_walks hs2 TypeId.int r hright).bind fun _ s3 _ _ ⟨hs3, hr⟩ => ?_
    subst hs3
    exact hbasic ⟨hl, hr, rfl⟩ (by decide)
  case lt =>
    refine (expectNumber_walks hs2 l hleft).bind fun _ s3 _ _ ⟨hs3, hnum⟩ => ?_
    subst hs3
    refine (expectType_walks hs2 l r hright).bind fun _ s3 _ _ ⟨hs3, hrl⟩ => ?_
    subst hs3
    exact hbasic ⟨hnum, hrl, rfl⟩ (by decide)
  case eq =>
    refine .program ?_
    split
    · rename_i hcmp
      exact hbasic ⟨comparable_iff.1 hcmp, rfl⟩ (by decide)
    · exact .mismatch hs2 _ _ hloc
  case and | or =>
    refine (expectType_walks hs2 TypeId.bool l hleft).bind fun _ s3 _ _ ⟨hs3, hl⟩ => ?_
    subst hs3
    refine (expectType_walks hs2 TypeId.bool r hright).bind fun _ s3 _ _ ⟨hs3, hr⟩ => ?_
    subst hs3
    exact hbasic ⟨hl, hr, rfl⟩ (by decide)

theorem unary_walks {op : UnaryOp} (ho : p0.ScopedAt G c.chain z operand) :
    Walks p0 G n {} c s (unary e op operand loc) (unary e' op operand loc)
      (Typed p0 G z.owner (.unary op operand)) := by
  unfold unary
  refine (he.find hs hat ho).bind fun x s1 _ hs1 ⟨hx, hsaid⟩ => ?_
  have htyped {t : TypeId} (hop : op.Yields x t) (ht : s1.program.types.Valid t)
    (hsaid : Said p0 G z.owner t s1) : Goes p0 G n {} c s1 (pure t)
    (Typed p0 G z.owner (.unary op operand)) :=
    .pure hs1 ⟨ht, closed_of_children nofun nofun (forall_mem_singleton.2 ⟨x, hx⟩),
      ⟨x, hx, hop⟩, hsaid⟩
  have hbasic {t : TypeId} (hop : op.Yields x t) (ht : TypeTable.basic.Valid t) :
      Goes p0 G n {} c s1 (pure t) (Typed p0 G z.owner (.unary op operand)) :=
    htyped hop (hs1.valid_basic ht) (.basic hs1.coherent ht)
  cases op with
  | not =>
    refine (expectType_walks hs1 TypeId.bool x hloc).bind fun _ s2 _ _ ⟨hs2, h⟩ => ?_
    subst hs2
    exact hbasic ⟨h, rfl⟩ (by decide)
  | neg =>
    refine (expectNumber_walks hs1 x hloc).bind fun _ s2 _ _ ⟨hs2, h⟩ => ?_
    subst hs2
    exact htyped ⟨h, rfl⟩ (hs1.valid_slot hx) hsaid
  | toInt =>
    refine (expectType_walks hs1 TypeId.double x hloc).bind fun _ s2 _ _ ⟨hs2, h⟩ => ?_
    subst hs2
    exact hbasic ⟨h, rfl⟩ (by decide)
  | toDouble =>
    refine (expectType_walks hs1 TypeId.int x hloc).bind fun _ s2 _ _ ⟨hs2, h⟩ => ?_
    subst hs2
    exact hbasic ⟨h, rfl⟩ (by decide)

end Operators

section Sequences

variable (hat : At p0 G s.program c z)
include hat

theorem sequence_walks (hb : ∀ x ∈ body, p0.ScopedAt G c.chain z x) :
    Walks p0 G n {} c s (sequence e body) (sequence e' body) fun t s' => s'.program.types.Valid t ∧
      Said p0 G z.owner t s' ∧ (∀ x ∈ body, s'.program.Known x) ∧
      s'.program.Brings body.getLast? t := by
  refine Walks.foldlM (I := fun done t s => s.program.types.Valid t ∧ Said p0 G z.owner t s ∧
    (∀ x ∈ done, s.program.Known x) ∧ s.program.Brings done.getLast? t) hs
    ⟨hs.valid_basic (by decide), .basic hs.coherent (by decide), forall_mem_nil _, rfl⟩
    fun done x rest t s1 hbody hst1 hs1 ⟨_, _, hdone, _⟩ => ?_
  refine (he.find hs1 (hat.step hst1) (hb x (by simp [hbody]))).post
    fun u s2 hst2 hs2 ⟨hu, hsaid⟩ => ⟨hs2.valid_slot hu, hsaid, ?_, ?_⟩
  · exact forall_mem_append.2
      ⟨fun y hy => hst2.keeps.known (hdone y hy), forall_mem_singleton.2 ⟨u, hu⟩⟩
  · rw [getLast?_concat]
    exact hu

theorem statements_walks (hb : ∀ x ∈ body, p0.ScopedAt G [] z x) :
    Walks p0 G n {} c s (statements e body) (statements e' body) fun t s' =>
      s'.program.types.Valid t ∧ Said p0 G z.owner t s' ∧ (∀ x ∈ body, s'.program.Known x) ∧
      s'.program.Brings body.getLast? t :=
  .withReader rfl (sequence_walks (c := { c with chain := [] }) he { hs with } hat.unchained hb)

theorem letIn_walks {d : NodeId} (hi : p0.Opens c.chain i) (hinit : (p0.vars.get v).init = some d)
    (hrole : (p0.vars.get v).role = .localVar) (hvalue : p0.ScopedAt G c.chain z d)
    (hb : ∀ x ∈ body, p0.ScopedAt G (v :: c.chain) (z.seeing [v]) x) :
    Walks p0 G n {} c s (letIn e v body loc) (letIn e' v body loc) fun t s' =>
      Typed p0 G z.owner (.letIn v body) t s' ∧ p0.HandsBack s'.program i v body t := by
  have hhome : p0.Home G ⟨z.owner, false⟩ v := .init hinit hvalue.mem
  unfold letIn
  refine .program ?_
  rw [hs.alike.init, hinit]
  refine (he.find hs hat hvalue).bind fun t s1 hst1 hs1 ⟨ht, hsaid⟩ => ?_
  refine (recordVar_walks hs1 hinit (by simp [hrole]) (hs1.valid_slot ht) ?_ hhome hsaid
    fun d hfield => by simp [hrole] at hfield).bind fun _ s2 hst2 hs2 ⟨_, hslot, _⟩ =>
    .withReader rfl ?_
  · exact (varTyped_local ((hs1.alike.role v).trans hrole) ((hs1.alike.init v).trans hinit)).2 ht
  have hat2 : At p0 G s2.program { c with chain := v :: c.chain } (z.seeing [v]) :=
    ((hat.step (hst1.trans hst2)).seeing ⟨t, hslot⟩ hhome).chained mem_cons_self hrole (hinit ▸ rfl)
  refine (sequence_walks (c := { c with chain := v :: c.chain }) he { hs2 with } hat2 hb).bind
    fun last s3 hst3 hs3 ⟨hlast, hsaid, hbody, hbrings⟩ => .program (.read ?_)
  have htyped {u : TypeId} (hu : s3.program.types.Valid u) (hsaid : Said p0 G z.owner u s3) :
      Typed p0 G z.owner (.letIn v body) u s3 := by
    refine ⟨hu, ⟨hbody, fun v' body' hform d' hd' => ?_, nofun, nofun⟩, trivial, hsaid⟩
    cases hform
    rw [hs3.alike.init, hinit] at hd'
    cases hd'
    exact ⟨t, (hst2.trans hst3).keeps.slots _ _ ht⟩
  have hforms (w : VarId) : body.getLast?.map s3.program.form = some (.getVar w) ↔
      body.getLast?.map p0.form = some (.getVar w) := by
    simp only [Option.map_eq_some_iff]
    exact exists_congr fun x => and_congr_right fun hx =>
      getVar_iff (hs3.sound.forms _ x (hb x (mem_of_getLast? hx)).mem)
  split
  · rename_i w hback
    obtain ⟨hw, hread⟩ := handedBack?_eq_some.1 hback
    obtain ⟨hmem, hlocal, hsome⟩ := hat2.chain w hw
    obtain ⟨⟨u, hu⟩, b, hhome'⟩ := (hat2.step hst3).vars w hmem
    refine (knownVar_walks hs3 hu hhome' loc).post fun _ s4 _ _ ⟨hs4, hsame, hsaid⟩ => ?_
    subst hs4 hsame
    refine ⟨htyped (hs3.coherent.varTypes w _ hu) hsaid.loosen, c.chain, hi, fun w' _ hread' => ?_,
      fun hne => absurd ((hforms w).1 hread) (hne w hw)⟩
    cases ((hforms w).1 hread).symm.trans hread'
    obtain ⟨d', hd'⟩ := Option.isSome_iff_exists.1 hsome
    exact ⟨⟨_, hu⟩, hlocal, d', hd',
      (varTyped_local ((hs3.alike.role w).trans hlocal) ((hs3.alike.init w).trans hd')).1
      (hs3.coherent.vars w _ hu)⟩
  · rename_i hnone
    refine .pure hs3 ⟨htyped hlast hsaid, c.chain, hi, fun w hw hread => ?_, fun _ => hbrings⟩
    exact nomatch hnone.symm.trans (handedBack?_eq_some.2 ⟨hw, (hforms w).2 hread⟩)

end Sequences

section Optionals

variable (hat : At p0 G s.program c z)
include hat

theorem presentType_walks (hx : p0.ScopedAt G c.chain z x) :
    Walks p0 G n {} c s (presentType e x) (presentType e' x) fun inner s' =>
      s'.program.types.Valid inner ∧
      (∃ a, s'.program.slot x = .fixed a ∧
        s'.program.types.unwrap a = (some inner, s'.program.types)) ∧
      Said p0 G z.owner inner s' := by
  unfold presentType
  refine (he.find hs hat hx).bind fun a s1 _ hs1 ⟨ha, hsaid⟩ => ?_
  refine Walks.bind (.unwrap hs1 (hs1.valid_slot ha) hsaid) fun o s2 hst2 hs2 ho => ?_
  split
  · rename_i inner
    obtain ⟨hinner, hunwrap, hsaid⟩ := ho inner rfl
    exact .pure hs2 ⟨hinner, ⟨a, hst2.keeps.slots _ _ ha, hunwrap⟩, hsaid⟩
  · exact .locOf (.fail hs2 (by nofun) (hs2.spot_of_mem hx.mem))

omit he hat in
theorem step_binding {cond yes : NodeId} {b : VarId} {inner a : TypeId}
    (hform : s.program.form i = .guard cond yes b) (ha : s.program.slot cond = .fixed a)
    (hunwrap : s.program.types.unwrap a = (some inner, s.program.types))
    (hinner : s.program.types.Valid inner) : Step p0 {} s (s.after (.var b (.fixed inner))) := by
  have hrole : (s.program.vars.get b).role = .binding := by
    have hadmits := (hs.coherent.shaped.forms i).2
    rwa [hform] at hadmits
  have htyped : s.program.VarTyped b inner := by
    rw [Program.VarTyped, hrole]
    intro j c' y' hj
    have hsame := hs.coherent.shaped.guards i j cond yes c' y' b hform hj
    exact ⟨a, hsame ▸ ha, hunwrap⟩
  refine .setVar hs.inv (fun u hu => ?_) (fun u hu => Slot.fixed.inj hu ▸ ⟨hinner, htyped⟩)
    fun h => by simp [hrole] at h
  have hu := hs.coherent.vars b u hu
  rw [Program.VarTyped, hrole] at hu
  obtain ⟨a', ha', hu⟩ := hu i cond yes hform
  cases ha.symm.trans ha'
  cases hunwrap.symm.trans hu
  rfl

theorem guard_walks {cond yes : NodeId} {b : VarId} (hbegun : s.program.slot i = .inProgress)
    (hform : p0.form i = .guard cond yes b) (hsame : s.program.form i = p0.form i)
    (hcond : p0.ScopedAt G c.chain z cond) (hyes : p0.ScopedAt G c.chain (z.seeing [b]) yes) :
    Walks p0 G n {} c s (guard e cond yes b) (guard e' cond yes b)
      (Typed p0 G z.owner (.guard cond yes b)) := by
  have hhome : p0.Home G ⟨z.owner, false⟩ b := .binding hform hcond.mem
  have hrole : (p0.vars.get b).role = .binding := by
    have hadmits := (hs.wired.shaped.forms i).2
    rwa [hform] at hadmits
  unfold guard
  refine (presentType_walks he hs hat hcond).bind
    fun inner s1 hst1 hs1 ⟨hinner, ⟨a, ha, hunwrap⟩, hsaid⟩ => ?_
  have hform1 : s1.program.form i = .guard cond yes b := by
    rw [(hst1.begun i (by simp) hbegun).1, hsame, hform]
  refine (setVar_walks hs1 (step_binding hs1 hform1 ha hunwrap hinner)
    (valid_of_role ((hs1.alike.role b).trans hrole) (by simp)) hhome hsaid
    fun d hfield => by simp [hrole] at hfield).bind fun _ s2 hst2 hs2 ⟨_, hslot, _⟩ => ?_
  have hat2 : At p0 G s2.program c (z.seeing [b]) :=
    (hat.step (hst1.trans hst2)).seeing ⟨inner, hslot⟩ hhome
  refine (he.find hs2 hat2 hyes).bind fun t s3 hst3 hs3 ⟨ht, hsaid⟩ => ?_
  have hrule {s' : PassState} (hst : Step p0 {} s3 s') {u : TypeId} (hu : s'.program.types.Valid u)
      (hsaid : Said p0 G z.owner u s')
      (hif : if t = TypeId.noReturn then u = TypeId.bool else s'.program.types.optional t =
        (u, s'.program.types)) : Typed p0 G z.owner (.guard cond yes b) u s' := by
    have hst' := hst2.trans (hst3.trans hst)
    have ha' := hst'.keeps.slots _ _ ha
    have ht' := hst.keeps.slots _ _ ht
    refine ⟨hu, closed_of_children nofun nofun fun x hx => ?_,
      ⟨a, inner, t, ha', ?_, ht', hif⟩, hsaid⟩
    · obtain rfl | rfl := mem_pair.1 hx
      · exact ⟨a, ha'⟩
      · exact ⟨t, ht'⟩
    · exact unwrap_of_grows (hs1.valid_slot ha) hunwrap hst'.keeps.types
  split
  · rename_i hnr
    exact .pure hs3 (hrule (.refl hs3.inv) (hs3.valid_basic (by decide))
      (.basic hs3.coherent (by decide)) (by rw [if_pos hnr]))
  · rename_i hnr
    exact (Walks.optional hs3 (hs3.valid_slot ht) hsaid).post
      fun u s4 hst4 _ ⟨_, hu, hopt, hsaid⟩ => hrule hst4 hu hsaid (by rwa [if_neg hnr])

theorem orElse_walks (hl : p0.ScopedAt G c.chain z lhs) (hr : p0.ScopedAt G c.chain z rhs)
    (hloc : p0.Spot loc) :
    Walks p0 G n {} c s (orElse e lhs rhs loc) (orElse e' lhs rhs loc)
      (Typed p0 G z.owner (.orElse lhs rhs)) := by
  unfold orElse
  refine (presentType_walks he hs hat hl).bind
    fun inner s1 hst1 hs1 ⟨hinner, ⟨a, ha, hunwrap⟩, hsaid⟩ => ?_
  refine (he.find hs1 (hat.step hst1) hr).bind fun b s2 hst2 hs2 ⟨hb, hsaid'⟩ => ?_
  have hb' := hs2.valid_slot hb
  have hinner' := hst2.keeps.types.valid hinner
  refine (unify_walks hs2 hinner' hb' (hsaid.step hs1.inv hst2) hsaid' he hloc).post
    fun t s3 hst3 _ ⟨ht, hsaid, hu⟩ => ?_
  have ha3 := (hst2.trans hst3).keeps.slots _ _ ha
  have hb3 := hst3.keeps.slots _ _ hb
  refine ⟨ht, closed_of_children nofun nofun fun x hx => ?_,
    ⟨a, inner, b, ha3, ?_, hb3, fun hci hcb => ?_⟩, hsaid⟩
  · obtain rfl | rfl := mem_pair.1 hx
    · exact ⟨a, ha3⟩
    · exact ⟨b, hb3⟩
  · exact unwrap_of_grows (hs1.valid_slot ha) hunwrap (hst2.trans hst3).keeps.types
  · rw [isCold_of_grows hst3.keeps.types hinner'] at hci
    rw [isCold_of_grows hst3.keeps.types hb'] at hcb
    exact hu hci hcb

omit he hat in
/-- A rule that adds a level of absence to the type of the only part. -/
theorem optional_walks (form : Form) {a : TypeId} (ha : s.program.slot x = .fixed a)
    (hsaid : Said p0 G o a s) (hform : form.children = [x]) (hlet : ∀ v body, form ≠ .letIn v body)
    (hlambda : ∀ l, form ≠ .lambda l)
    (hr : ∀ (p : Program) t, p.slot x = .fixed a → p.types.optional a = (t, p.types) →
      p.Rule t form) :
    Goes p0 G n {} c s (onTypes (·.optional a)) fun t s' => Typed p0 G o form t s' ∧
      s'.program.types.optional a = (t, s'.program.types) := by
  refine (Walks.optional hs (hs.valid_slot ha) hsaid).post fun t s1 hst1 _ ⟨_, ht, hopt, hsaid⟩ =>
    ?_
  have ha1 := hst1.keeps.slots _ _ ha
  refine ⟨⟨ht, closed_of_children hlet hlambda ?_, hr _ t ha1 hopt, hsaid⟩, hopt⟩
  rw [hform]
  exact forall_mem_singleton.2 ⟨a, ha1⟩

end Optionals

section Arrays

variable (hat : At p0 G s.program c z)
include hat

theorem array_walks {items : List NodeId} (hne : items ≠ [])
    (hitems : ∀ x ∈ items, p0.ScopedAt G c.chain z x) :
    Walks p0 G n {} c s (array e items loc) (array e' items loc)
      (Typed p0 G z.owner (.array items)) := by
  unfold array
  refine (Walks.foldlM (I := fun done o s => (o = none → done = []) ∧
    ∀ element ∈ o, s.program.types.isTemporary element = false ∧ Said p0 G z.owner element s ∧
    ∀ x ∈ done, s.program.slot x = .fixed element) hs ⟨fun _ => rfl, by simp⟩
    fun done x rest o s1 hxs hst1 hs1 ⟨hnone, hI⟩ => ?_).bind fun o s1 _ hs1 ⟨hnone, hI⟩ => ?_
  · unfold arrayItem
    refine (he.find hs1 (hat.step hst1) (hitems x (by simp [hxs]))).bind
      fun t s2 hst2 hs2 ⟨ht, hsaid⟩ => ?_
    refine .locOf (.program ?_)
    have hloc := hs2.spot_of_mem (hitems x (by simp [hxs])).mem
    dsimp only
    split
    · exact .fail hs2 (by nofun) hloc
    rename_i hlast
    have hitem (hdone : ∀ y ∈ done, s2.program.slot y = .fixed t) :
        (some t = none → done ++ [x] = []) ∧
        ∀ element ∈ some t, s2.program.types.isTemporary element = false ∧
        Said p0 G z.owner element s2 ∧ ∀ y ∈ done ++ [x], s2.program.slot y = .fixed element := by
      refine ⟨nofun, fun element helement => ?_⟩
      cases helement
      exact ⟨Bool.eq_false_iff.2 hlast, hsaid,
        forall_mem_append.2 ⟨hdone, forall_mem_singleton.2 ht⟩⟩
    split
    · exact .pure hs2 (hitem (by simp [hnone rfl]))
    · rename_i first _
      refine (expectType_walks hs2 first t hloc).bind fun _ s3 _ _ ⟨hs3, hsame⟩ => ?_
      subst hs3 hsame
      exact .pure hs2 (hitem fun y hy => hst2.keeps.slots _ _ ((hI _ rfl).2.2 y hy))
  · cases o with
    | none => exact absurd (hnone rfl) hne
    | some element =>
      obtain ⟨hlast, hsaid, hslots⟩ := hI element rfl
      obtain ⟨x, hx⟩ := exists_mem_of_ne_nil items hne
      have hvalid := hs1.valid_slot (hslots x hx)
      refine (Walks.intern hs1 (holds_array.2 hvalid) (fun u hu => ?_) nofun).post
        fun t s2 hst2 _ ⟨_, ht, hget⟩ => ?_
      · cases hu
        exact hlast
      · refine ⟨ht, closed_of_children nofun nofun fun y hy =>
          ⟨element, hst2.keeps.slots _ _ (hslots y hy)⟩,
          ⟨element, hget, ?_, hne, fun y hy => hst2.keeps.slots _ _ (hslots y hy)⟩,
          .make ht hget rfl nofun (forall_mem_singleton.2 (hsaid.step hs1.inv hst2))⟩
        rwa [isTemporary_of_grows hs1.coherent.tables.types hst2.keeps.types hvalid]

theorem elementType_walks (ha : p0.ScopedAt G c.chain z a) (hi : p0.ScopedAt G c.chain z index) :
    Walks p0 G n {} c s (elementType e a index) (elementType e' a index) fun t s' =>
      s'.program.types.Valid t ∧ Said p0 G z.owner t s' ∧
      (∃ u, s'.program.slot a = .fixed u ∧ s'.program.types.get u = .array t) ∧
      s'.program.Known index := by
  unfold elementType
  refine (he.find hs hat ha).bind fun t s1 hst1 hs1 ⟨ht, hsaid⟩ => .typeOf ?_
  have hvalid := hs1.valid_slot ht
  split
  · rename_i element hget
    have helement := holds_array.1 (hs1.holds hvalid hget)
    have hsaid' : Said p0 G z.owner element s1 :=
      hsaid.part (by rw [hget]; exact mem_singleton_self _)
    refine (he.find hs1 (hat.step hst1) hi).bind fun u s2 hst2 hs2 ⟨hu, _⟩ => .locOf ?_
    refine (expectType_walks hs2 TypeId.int u (hs2.spot_of_mem hi.mem)).bind
      fun _ s3 _ _ ⟨hs3, _⟩ => ?_
    subst hs3
    exact .pure hs2 ⟨hst2.keeps.types.valid helement, hsaid'.step hs1.inv hst2,
      ⟨t, hst2.keeps.slots _ _ ht, (hst2.keeps.types.get_eq hvalid).trans hget⟩, u, hu⟩
  · exact .locOf (.fail hs1 (by nofun) (hs1.spot_of_mem ha.mem))

end Arrays

section Storing

variable {value : NodeId} (hat : At p0 G s.program c z) (hi : Open s.program i)
  (hg : G ⟨z.owner, false⟩ i)
include hat hi hg

theorem setVarForm_walks (hform : p0.form i = .setVar v value)
    (hvalue : p0.ScopedAt G c.chain z value) (ht : s.program.types.Valid t)
    (hsaid : Said p0 G z.owner t s) : Walks p0 G n { node := some i } c s (do
      let value ← coerce e value t
      edit (·.setForm i (.setVar v value))
      return TypeId.void) (do
      let value ← coerce e' value t
      edit (·.setForm i (.setVar v value))
      return TypeId.void) (Judged p0 G z.owner i) := by
  refine (coerce_walks he hs hat hvalue ht hsaid).bind
    fun value' s1 hst1 hs1 ⟨hknown, htakes, hpassed, _⟩ => ?_
  exact reform_walks (.setVar v value') hs1 (hi.step hst1).1 hg hform rfl rfl nofun
    (regrown_of_passed hform (.cons hpassed .nil)) nofun (forall_mem_singleton.2 htakes.known)
    (forall_mem_singleton.2 (.inl hknown)) trivial .nil trivial fun s2 hs2 _ => void_walks hs2

theorem setAt_walks (hform : p0.form i = .setAt a index value)
    (hparts : ∀ x ∈ [a, index, value], p0.ScopedAt G c.chain z x) :
    Walks p0 G n { node := some i } c s (do
      let element ← elementType e a index
      let value ← coerce e value element
      edit (·.setForm i (.setAt a index value))
      return TypeId.void) (do
      let element ← elementType e' a index
      let value ← coerce e' value element
      edit (·.setForm i (.setAt a index value))
      return TypeId.void) (Judged p0 G z.owner i) := by
  refine (elementType_walks he hs hat (hparts a (by simp)) (hparts index (by simp))).bind
    fun t s1 hst1 hs1 ⟨ht, hsaid, ⟨u, hslot, hget⟩, hindex⟩ => ?_
  refine (coerce_walks he hs1 (hat.step hst1) (hparts value (by simp)) ht hsaid).bind
    fun value' s2 hst2 hs2 ⟨hknown, htakes, hpassed, _⟩ => ?_
  have hslot2 := hst2.keeps.slots _ _ hslot
  have hget2 := (hst2.keeps.types.get_eq (hs1.valid_slot hslot)).trans hget
  have hindex2 := hst2.keeps.known hindex
  have hthree {P : NodeId → Prop} {x : NodeId} (ha : P a) (hi : P index) (hx : P x) :
    ∀ y ∈ [a, index, x], P y :=
    forall_mem_cons.2 ⟨ha, forall_mem_cons.2 ⟨hi, forall_mem_singleton.2 hx⟩⟩
  exact reform_walks (.setAt a index value') hs2 (hi.step (hst1.trans hst2)).1 hg hform rfl rfl
    nofun (regrown_of_passed hform (.cons (.inl rfl) (.cons (.inl rfl) (.cons hpassed .nil)))) nofun
    (hthree ⟨u, hslot2⟩ hindex2 htakes.known)
    (hthree (.inl ⟨u, hslot2⟩) (.inl hindex2) (.inl hknown)) ⟨u, t, hslot2, hget2, htakes⟩
    (.cons hpassed .nil) trivial fun s3 hs3 _ => void_walks hs3

end Storing

section References

variable {value : NodeId} (hat : At p0 G s.program c z) (hv : p0.ScopedAt G c.chain z value)
include hat hv

theorem typed_of_value (form : Form) {k k' : TypeId → Check TypeId} {Q : TypeId → PassState → Prop}
    (hform : form.children = [value]) (hlet : ∀ v body, form ≠ .letIn v body)
    (hlambda : ∀ l, form ≠ .lambda l) (hr : ∀ (p : Program) t, p.Rule t form)
    (hk : ∀ t s1, Ready p0 G c s1 → s1.program.types.Valid t → Said p0 G z.owner t s1 →
      Walks p0 G n {} c s1 (k t) (k' t) fun u s' => s'.program.types.Valid u ∧
      Said p0 G z.owner u s' ∧ Q u s') :
    Walks p0 G n {} c s (e.find value >>= k) (e'.find value >>= k') fun t s' =>
      Typed p0 G z.owner form t s' ∧ Q t s' := by
  refine (he.find hs hat hv).bind fun t s1 _ hs1 ⟨ht, hsaid⟩ => ?_
  refine (hk t s1 hs1 (hs1.valid_slot ht) hsaid).post fun u s2 hst2 _ ⟨hu, hsaid, hQ⟩ =>
    ⟨⟨hu, closed_of_children hlet hlambda ?_, hr _ u, hsaid⟩, hQ⟩
  rw [hform]
  exact forall_mem_singleton.2 (hst2.keeps.known ⟨t, ht⟩)

variable (hloc : p0.Spot loc)
include hloc

theorem toWeak_walks : Walks p0 G n {} c s (toWeak e value loc) (toWeak e' value loc) fun t s' =>
    Typed p0 G z.owner (.toWeak value) t s' ∧ Declarable s'.program.types t := by
  refine typed_of_value he hs hat hv (.toWeak value) rfl nofun nofun (fun _ _ => trivial)
    fun t s1 hs1 ht hsaid => .ref? ?_
  split
  · rename_i href
    exact (sameRef_walks hs1 .weak ht href hsaid).post fun _ _ _ _ h =>
      ⟨h.1, h.2.1, .ref h.1 h.2.2 nofun⟩
  · exact .fail hs1 (by nofun) hloc

theorem toOwn_walks :
    Walks p0 G n {} c s (toOwn e value loc) (toOwn e' value loc)
      (Typed p0 G z.owner (.toOwn value)) := by
  refine (typed_of_value (Q := fun _ _ => True) he hs hat hv (.toOwn value) rfl nofun nofun
    (fun _ _ => trivial) fun t s1 hs1 ht hsaid => .ref? ?_).post fun _ _ _ _ h => h.1
  split
  · rename_i href
    exact (sameRef_walks hs1 .own ht href hsaid).post fun _ _ _ _ h => ⟨h.1, h.2.1, trivial⟩
  · exact .fail hs1 (by nofun) hloc

theorem copyOf_walks :
    Walks p0 G n {} c s (copyOf e value loc) (copyOf e' value loc)
      (Typed p0 G z.owner (.copyOf value)) := by
  refine (typed_of_value (Q := fun _ _ => True) he hs hat hv (.copyOf value) rfl nofun nofun
    (fun _ _ => trivial) fun t s1 hs1 ht hsaid => .typeOf ?_).post fun _ _ _ _ h => h.1
  split
  · rename_i hget
    exact (sameRef_walks hs1 .own ht (ref?_eq_some.2 hget) hsaid).post fun _ _ _ _ h =>
      ⟨h.1, h.2.1, trivial⟩
  · exact .pure hs1 ⟨ht, hsaid, trivial⟩
  · exact .fail hs1 (by nofun) hloc

theorem cast_walks {target : NodeId} {checked : Bool} (hi : Open s.program i)
    (hg : G ⟨z.owner, false⟩ i) (hform : p0.form i = .cast value target checked)
    (ht : p0.ScopedAt G c.chain z target) (hbound : p0.Bound z (.cast value target checked)) :
    Walks p0 G n { node := some i } c s (cast e i value target loc) (cast e' i value target loc)
      (Judged p0 G z.owner i) := by
  obtain ⟨name, found, args, wanted, htarget⟩ := hbound
  obtain ⟨_, hwanted, _, _, hwithin⟩ : p0.Bound z (.classRef name found args (some wanted)) :=
    htarget ▸ ht.bound
  cases hwanted
  have hbase : ∀ b ∈ some value, p0.ScopedAt G c.chain z b := by simpa using hv
  unfold cast
  refine (receiverOf_walks hs loc he hat hbase nofun).bind fun inst s1 hst1 hs1 hinst => ?_
  refine (typeExpr_walks hs1 ht.named rfl (.target hform)).bind
    fun u s2 hst2 hs2 ⟨_, hu⟩ => .program ?_
  have hclass : s2.program.form target = .classRef name found args (some wanted) := by
    cases hs2.sound.forms _ target ht.mem with
    | same h => exact h.trans htarget
    | other hre _ _ _ =>
      rw [htarget] at hre
      cases hre
  rw [hclass]
  refine .program ?_
  dsimp only
  split
  · exact .fail hs2 (by nofun) hloc
  · rename_i d _
    refine (upcast_walks hs2 (hst2.keeps.insts.valid (hinst.valid hs1.coherent)) d loc).bind
      fun o s3 hst3 hs3 _ => ?_
    have hst := hst2.trans hst3
    have hknown : ∀ x ∈ [value, target], s3.program.Known x :=
      forall_mem_cons.2 ⟨hst.keeps.known (hinst.known value rfl),
        forall_mem_singleton.2 ⟨u, hst3.keeps.slots _ _ hu.slot⟩⟩
    refine reform_walks (.cast value target _) hs3 (hi.step (hst1.trans hst)).1 hg hform rfl rfl
      nofun (regrown_of_passed hform (passed_refl [value, target])) nofun hknown
      (fun x hx => .inl (hknown x hx)) trivial .nil trivial fun s4 hs4 _ => ?_
    refine Walks.bind (.intern hs4 (holds_ref.2 (hwithin.grows hs4.sound.grows).valid) nofun nofun)
      fun pin s5 _ hs5 ⟨_, hpin, hget⟩ => ?_
    have hsaid : Said p0 G z.owner pin s5 := .makeRef hpin hget fun _ =>
      hwithin.grows hs5.sound.grows
    split
    · exact .pure hs5 ⟨hpin, hsaid⟩
    · exact (Walks.optional hs5 hpin hsaid).post fun _ _ _ _ h => ⟨h.2.1, h.2.2.2⟩

end References

end Expressions

end ClassLang.Typing
