import ClassLang.Grammar.Body
import ClassLang.Proofs.Grammar.Basic

namespace ClassLang.Grammar

open Arena List Program

variable {O : NodeId → Prop} {c : Context} {z : Zone} {p₀ p q : Program} {r : Rules} {form : Form}
  {span : Span}

section Types

variable (hr : r.Good O) (hp : Ground O c z p)

theorem qualifiedName_builds (h : p₀.Built O p) :
    Builds O c p₀ p qualifiedName fun _ _ => True := by
  unfold qualifiedName
  refine .quiet .expectIdent fun (first, _) => ?_
  refine .call h (rootName_builds (.refl h.shaped h.untyped h.sown) _) fun name q hq _ _ => ?_
  refine .repeatFrom hq trivial fun name q hq _ => ?_
  refine .quiet (.looking _) fun _ => .quiet .peekSecond fun _ => ?_
  split
  · refine .quiet .advance fun _ => .quiet .expectIdent fun (segment, _) => ?_
    exact .call hq (childName_builds (.refl hq.shaped hq.untyped hq.sown) _ _) fun _ _ hq _ _ =>
      .pure hq trivial
  · exact .pure hq trivial

theorem typeNode_builds {lo : Nat} (h : p₀.Built O p) (hraw : p.Raw z form)
    (hlo : lo ≤ p.nodes.size) (hparts : p.Sprouts lo (p.parts z ⟨p.nodes.size⟩ form))
    (htype : form.isType) (htypes : ∀ x ∈ p.inner form, p.TypeText x) :
    Builds O c p₀ p (addNode form span) fun i q => (q.Made lo z i ∧ q.TypeText i) ∧
      q.form i = form := by
  refine (node_builds h hraw hlo hparts (by rintro x y b rfl; cases htype)).post
    fun i q _ ⟨hi, hform, hkept⟩ => ⟨⟨hi, .node (hform.symm ▸ htype) fun x hx => ?_⟩, hform⟩
  rw [hform, inner_of_grows hkept.vars hkept.lambdas hraw] at hx
  obtain ⟨z', hz'⟩ := exists_zone hx z ⟨p.nodes.size⟩
  exact (hparts.made _ hz').typeText hkept (htypes x hx)

include hr hp

theorem types_build {close : Symbol} : Builds O c p p (listUntil close r.type) fun is q =>
    q.Sprouts p.nodes.size (is.map (z, ·)) ∧ ∀ i ∈ is, q.TypeText i := by
  refine .listUntil hp.refl ⟨.nil _ _, nofun⟩ fun is q hq ⟨his, htypes⟩ => .since hq ?_
  refine (hr.type _ _ _ (hp.step hq)).post fun i q' hstep ⟨hi, htype⟩ => ⟨?_, ?_⟩
  · simpa using his.snoc hstep.kept hq.kept.nodes hi
  · exact forall_mem_append.2 ⟨his.typeText hstep.kept htypes, forall_mem_singleton.2 htype⟩

theorem classRef_builds :
    Builds O c p p (classRef r) fun i q => (q.Made p.nodes.size z i ∧ q.TypeText i) ∧
      ∃ name args, q.form i = .classRef name none args none := by
  unfold classRef
  refine .quiet .peekSpan fun start => ?_
  refine .call hp.refl (qualifiedName_builds hp.refl) fun name q _ hq _ =>
    .quiet (.eat _) fun b => ?_
  extract_lets finish
  have hfinish (args : List NodeId) (q : Program) (hq : p.Built O q)
    (hargs : q.Sprouts p.nodes.size (args.map (z, ·))) (htypes : ∀ x ∈ args, q.TypeText x) :
    Builds O c p q (finish args) fun i q => (q.Made p.nodes.size z i ∧ q.TypeText i) ∧
    ∃ name args, q.form i = .classRef name none args none := .quiet (.spanFrom _) fun _ =>
    (typeNode_builds hq (by exact ⟨rfl, rfl⟩) hq.kept.nodes (by exact hargs) rfl
      (by exact htypes)).post fun _ _ _ h => ⟨h.1, name, args, h.2⟩
  split
  · exact .call hq (types_build hr (hp.step hq)) fun args q' hq' hstep hargs =>
      hfinish args q' hq' (hargs.1.mono hq.kept.nodes) hargs.2
  · exact hfinish [] q hq (.nil _ _) nofun

theorem signatureType_builds :
    Builds O c p p (signatureType r) fun i q => q.Made p.nodes.size z i ∧ q.TypeText i := by
  unfold signatureType
  refine .quiet .advance fun start => .quiet (.expect _) fun _ => ?_
  refine .bind (types_build hr hp) fun params q hq ⟨hparams, htypes⟩ => ?_
  refine .quiet .peek fun _ => .quiet .peekSecond fun _ => ?_
  extract_lets finish
  have hfinish (result : Option NodeId) (q : Program) (hq : p.Built O q)
    (hparts : q.Sprouts p.nodes.size ((params ++ result.toList).map (z, ·)))
    (htypes : ∀ x ∈ params ++ result.toList, q.TypeText x) : Builds O c p q (finish result)
    fun i q => q.Made p.nodes.size z i ∧ q.TypeText i := .quiet (.spanFrom _) fun _ =>
    (typeNode_builds hq (by exact fun x hx => (htypes x hx).isType) hq.kept.nodes
      (by exact hparts) rfl (by exact htypes)).post fun _ _ _ h => h.1
  split
  · have hresult : Builds O c q q (some <$> r.type) fun result q' =>
      q'.Sprouts q.nodes.size (result.toList.map (z, ·)) ∧ ∀ x ∈ result.toList, q'.TypeText x :=
      LeadsOr.map ((hr.type _ _ _ (hp.step hq)).post fun _ _ _ h =>
        ⟨.single h.1, forall_mem_singleton.2 h.2⟩)
    refine .call hq hresult fun result q' hq' hstep ⟨hresult, htype⟩ => hfinish result q' hq' ?_ ?_
    · simpa using hparams.append hstep.kept hq.kept.nodes hresult
    · exact forall_mem_append.2 ⟨hparams.typeText hstep.kept htypes, htype⟩
  · exact hfinish none q hq (by simpa using hparams) (by simpa using htypes)

theorem typeExpr_builds :
    Builds O c p p (typeExpr r) fun i q => q.Made p.nodes.size z i ∧ q.TypeText i := by
  unfold typeExpr
  refine .quiet .peekSpan fun start => ?_
  extract_lets finish
  have hbasic {form : Form} (hraw : p.Raw z form) (hleaf : p.parts z ⟨p.nodes.size⟩ form = [])
      (htype : form.isType) : Builds O c p p (advance >>= fun _ => finish form) fun i q =>
      q.Made p.nodes.size z i ∧ q.TypeText i := by
    have hnone : p.inner form = [] := by rw [← map_snd_parts p z ⟨p.nodes.size⟩, hleaf, map_nil]
    exact .quiet .advance fun _ => .quiet (.spanFrom _) fun _ =>
      (typeNode_builds hp.refl hraw hp.refl.kept.nodes (hleaf ▸ .nil _ _) htype
        (hnone ▸ forall_mem_nil _)).post fun _ _ _ h => h.1
  have hunary {form : Form} {x : NodeId} {q : Program} (hq : p.Built O q)
      (hx : q.Made p.nodes.size z x ∧ q.TypeText x) (hraw : q.Raw z form)
      (hpart : q.parts z ⟨q.nodes.size⟩ form = [(z, x)]) (htype : form.isType) :
      Builds O c p q (finish form) fun i q => q.Made p.nodes.size z i ∧ q.TypeText i := by
    have hone : q.inner form = [x] := by rw [← map_snd_parts q z ⟨q.nodes.size⟩, hpart]; rfl
    exact .quiet (.spanFrom _) fun _ =>
      (typeNode_builds hq hraw hq.kept.nodes (hpart ▸ .single hx.1) htype
        (hone ▸ forall_mem_singleton.2 hx.2)).post fun _ _ _ h => h.1
  refine .quiet .peek fun t => ?_
  split
  · exact hbasic trivial rfl rfl
  · exact hbasic trivial rfl rfl
  · exact hbasic trivial rfl rfl
  · exact .quiet .advance fun _ => .bind (hr.type _ _ _ hp) fun i q hq hi =>
      hunary hq hi trivial rfl rfl
  · exact .quiet .advance fun _ => .bind (hr.type _ _ _ hp) fun i q hq hi =>
      hunary hq hi hi.2.isType rfl rfl
  · exact .quiet .advance fun _ => .bind (hr.type _ _ _ hp) fun i q hq hi => .quiet (.expect _)
      fun _ => hunary hq hi hi.2.isType rfl rfl
  · exact signatureType_builds hr hp
  · exact (classRef_builds hr hp).post fun i q _ h => h.1
  · exact .failWanting _

end Types

section Bodies

theorem Quiet.endStatement : Quiet endStatement := by
  unfold Grammar.endStatement
  refine .bind .get fun s => ?_
  extract_lets afterBrace
  refine .bind (.eat _) fun b => ?_
  split
  · exact .pure _
  · split
    · exact .pure _
    · refine .bind .peek fun t => ?_
      split
      · exact .pure _
      · exact .pure _
      · exact .failWanting _

theorem Quiet.lambdaAhead : Quiet lambdaAhead := by
  refine .bind .read fun c => ?_
  split
  · exact .pure _
  · exact .bind .get fun _ => .pure _

/-- A block or loop that is made before its statements, and is in no text yet. -/
theorem target_builds (h : p₀.Built O p) (hform : form = .block [] ∨ form = .loop []) :
    Builds O c p₀ p (addNode form span) fun i q => i = ⟨p.nodes.size⟩ ∧ q.nodes.Valid i ∧
      (q.form i).isTarget ∧ ¬ q.Taken i := by
  refine (addNode_builds h ?_ ?_).post fun i q _ ⟨hi, hvalid, hq, _, hfree⟩ =>
    ⟨hi, hvalid, ?_, hfree⟩
  · rcases hform with rfl | rfl <;> exact ⟨nofun, trivial⟩
  · rcases hform with rfl | rfl <;> exact nofun
  · rw [hq]
    rcases hform with rfl | rfl <;> rfl

section Expressions

variable (hr : r.Good O) (hp : Place O c z p)
include hr hp

theorem braced_builds :
    Builds O c p p (braced r) fun is q => q.Sprouts p.nodes.size (is.map (z, ·)) :=
  .quiet (.expect _) fun _ => .bind (hr.statements _ _ _ _ hp nofun) fun _ _ hq hbody =>
    .quiet (.expect _) fun _ => .pure hq hbody

theorem loopBody_builds : Plants O c z p (loopBody r) := by
  unfold loopBody
  refine .quiet .advance fun start => ?_
  refine .bind (target_builds hp.refl (.inr rfl)) fun i q hq hi => ?_
  refine .call hq (.withReader (braced_builds hr ((hp.step hq).inLoop hi.2.2.1)))
    fun body q' hq' hstep hbody => ?_
  exact .bind (finishNode_builds hq' hi (Nat.le_refl _) hstep.kept (.inr rfl) hbody _)
    fun _ _ hq hi => .pure hq hi

theorem whileLoop_builds : Plants O c z p (whileLoop r) := by
  unfold whileLoop
  refine .quiet .advance fun start => ?_
  refine .bind (target_builds hp.refl (.inr rfl)) fun i q hq htarget => ?_
  have hi := htarget.2.2.1
  have hplace : Place O { c with inCondition := true } (z.entering i) q :=
    { (hp.step hq).entering hi with }
  refine .call hq (.withReader (hr.expression _ _ _ hplace)) fun cond q₁ hq₁ hstep₁ hcond =>
    .quiet .peekSpan fun _ => ?_
  have hi₁ := hstep₁.ext.targets i hi
  refine .call hq₁ (.withReader (braced_builds hr ((hp.step hq₁).inLoop hi₁)))
    fun stmts q₂ hq₂ hstep₂ hstmts => ?_
  -- The block comes after its statements, which may leave it all the same.
  have hstmts' : q₂.Sprouts q₁.nodes.size
    (stmts.map ((z.entering i).entering ⟨q₂.nodes.size⟩, ·)) :=
    hstmts.widen rfl (subset_cons_self _ _)
  refine .quiet (.spanFrom _) fun _ =>
    .call hq₂ (tree_builds (hp.step hq₂).refl trivial hstep₂.kept.nodes (by exact hstmts') nofun)
      fun body q₃ hq₃ hstep₃ hbody => ?_
  refine .call hq₃ (addBinding_builds (hp.step hq₃).refl cond)
    fun b q₄ hq₄ hstep₄ ⟨hnew, hrole⟩ => ?_
  refine .quiet (.spanFrom _) fun span => ?_
  have hpair := (Sprouts.pair hcond (hstep₂.kept.trans hstep₃.kept) hstep₁.kept.nodes hbody).step
    hstep₄.kept
  refine .bind (guard_builds hq₄ (hpair.made _ mem_cons_self).le hpair (hnew.since hq₃) hrole)
    fun guarded q₅ hq₅ ⟨hguarded, hkept⟩ => ?_
  have hkept₅ := (((hstep₁.kept.trans hstep₂.kept).trans hstep₃.kept).trans hstep₄.kept).trans hkept
  refine .call hq₅ (tree_builds (z := z.entering i) (hp.step hq₅).refl ?_ (Nat.le_refl _)
    (by exact .nil _ _) nofun) fun exit q₆ hq₆ hstep₆ hexit => ?_
  · exact ⟨mem_cons_self, hkept₅.targets hi⟩
  have hparts := Sprouts.pair hguarded hstep₆.kept hguarded.le hexit
  refine .call hq₆ (tree_builds (z := z.entering i) (hp.step hq₆).refl trivial
    (Nat.le_trans hguarded.le hstep₆.kept.nodes) (by exact hparts) nofun)
    fun step q₇ hq₇ hstep₇ hstep => ?_
  have hkept₇ := (hkept₅.trans hstep₆.kept).trans hstep₇.kept
  exact .bind (finishNode_builds hq₇ htarget (Nat.le_refl _) hkept₇ (.inr rfl)
    (by exact Sprouts.single hstep) _) fun _ _ hq hi => .pure hq hi

theorem jump_builds {target : Context → Option NodeId}
    (htarget : ∀ i, target c = some i → i ∈ z.targets) (outside : ParseCause) :
    Plants O c z p (jump r target outside) := by
  unfold jump
  refine .quiet .advance fun start => .read ?_
  split
  · exact .failAt _ _
  · rename_i i hi
    refine .quiet .peek fun t => ?_
    extract_lets finish
    have hfinish (result : Option NodeId) (q : Program) (hq : p.Built O q)
        (hresult : q.Sprouts p.nodes.size (result.toList.map (z, ·))) :
        Builds O c p q (finish result) fun i q => q.Made p.nodes.size z i := by
      refine .quiet (.spanFrom _) fun _ => tree_builds hq ?_ hq.kept.nodes (by exact hresult) nofun
      exact ⟨htarget i hi, hq.ext.targets i (hp.targets i (htarget i hi))⟩
    split
    · exact hfinish none p hp.refl (.nil _ _)
    · exact .bind (.some (hr.expression _ _ _ hp)) hfinish

end Expressions

variable (hr : r.Good O) (hp : Ground O c z p)
include hr hp

theorem callableBody_builds : Plants O c z.closed p (callableBody r) := by
  unfold callableBody
  refine .quiet .peekSpan fun start => ?_
  refine .bind (target_builds hp.refl (.inl rfl)) fun i q hq hi => ?_
  refine .call hq (.withReader (braced_builds hr ((hp.step hq).inBody hi.2.2.1)))
    fun body q' hq' hstep hbody => ?_
  exact .bind (finishNode_builds hq' hi (Nat.le_refl _) hstep.kept (.inl rfl) hbody _)
    fun _ _ hq hi => .pure hq hi

theorem typedParam_builds :
    Builds O c p p (typedParam r) fun v q => p.New q v ∧ (q.vars.get v).role = .param ∧
      (q.vars.get v).init.isSome ∧ q.Sprouts p.nodes.size ((q.vars.get v).init.toList.map (z, ·)) ∧
      ∀ d ∈ (q.vars.get v).init.toList, q.TypeText d := by
  unfold typedParam
  refine .quiet .peekSpan fun start => .bind (hr.type _ _ _ hp)
    fun declared q hq ⟨hdeclared, htype⟩ => ?_
  refine .quiet .expectIdent fun (name, _) => ?_
  refine .call hq (rootName_builds (hp.step hq).refl _) fun name q' hq' hstep _ =>
    .quiet (.locate _) fun loc => ?_
  refine (addPlainVar_builds hq' ?_ (fun h => by cases h) rfl rfl).post
    fun v q'' _ ⟨hstep', hnew, hget⟩ => ?_
  · rintro _ ⟨⟩
    exact hstep.ext.nodes _ hdeclared.valid
  · rw [hget]
    have hkept := hstep.kept.trans hstep'.kept
    exact ⟨hnew.since hq', rfl, rfl, .single (hdeclared.step hkept).1,
      forall_mem_singleton.2 (hdeclared.typeText hkept htype)⟩

theorem lambdaParam_builds :
    Builds O c p p (lambdaParam r) fun v q => p.New q v ∧ (q.vars.get v).role = .param ∧ True ∧
      q.Sprouts p.nodes.size ((q.vars.get v).init.toList.map (z, ·)) ∧
      ∀ d ∈ (q.vars.get v).init.toList, q.TypeText d := by
  unfold lambdaParam
  refine .quiet .peek fun _ => .quiet .peekSecond fun _ => ?_
  extract_lets bare
  split
  · refine .quiet .peekSpan fun start => .quiet .expectIdent fun (name, _) => ?_
    refine .bind (rootName_builds hp.refl _) fun name q hq _ => .quiet (.locate _) fun loc => ?_
    refine (addPlainVar_builds hq (fun _ hd => by cases hd) (fun h => by cases h) rfl rfl).post
      fun v q' _ ⟨_, hnew, hget⟩ => ?_
    rw [hget]
    exact ⟨hnew.since hq, rfl, trivial, .nil _ _, nofun⟩
  · exact (typedParam_builds hr hp).post fun _ _ _ h => ⟨h.1, h.2.1, trivial, h.2.2.2⟩

omit hr in
/-- Each parameter is new when it is read, so no two are the same. `P` holds of what is declared for
each. -/
theorem params_build {item : Parse VarId} (P : Option NodeId → Prop)
    (hitem : ∀ q, p.Built O q → Builds O c q q item fun v r => q.New r v ∧
      (r.vars.get v).role = .param ∧ P (r.vars.get v).init ∧
      r.Sprouts q.nodes.size ((r.vars.get v).init.toList.map (z, ·)) ∧
      ∀ d ∈ (r.vars.get v).init.toList, r.TypeText d) :
    Builds O c p p (listUntil .rParen item) fun vs q => vs.Nodup ∧
      (∀ v ∈ vs, p.New q v ∧ (q.vars.get v).role = .param ∧ P (q.vars.get v).init) ∧
      q.Sprouts p.nodes.size ((q.paramTypes vs).map (z, ·)) ∧
      ∀ d ∈ q.paramTypes vs, q.TypeText d := by
  refine .listUntil hp.refl ⟨.nil, nofun, .nil _ _, nofun⟩
    fun vs q hq ⟨hnodup, hvs, hsprouts, htypes⟩ => ?_
  refine .since hq ((hitem q hq).post fun v q' hstep ⟨hnew, hrole, hP, hsprout, htype⟩ =>
    ⟨?_, ?_, ?_⟩)
  · refine nodup_append.2 ⟨hnodup, by simp, ?_⟩
    rintro u hu _ hv rfl
    rw [mem_singleton] at hv
    exact hnew.fresh (hv ▸ (hvs u hu).1.valid)
  · refine forall_mem_append.2 ⟨fun u hu => ?_, forall_mem_singleton.2 ⟨hnew.since hq, hrole, hP⟩⟩
    rw [hstep.kept.vars.get_eq (hvs u hu).1.valid]
    exact ⟨(hvs u hu).1.step hstep, (hvs u hu).2⟩
  · have hold : q'.paramTypes vs = q.paramTypes vs :=
      paramTypes_of_grows hstep.kept.vars fun u hu => (hvs u hu).2.1
    have hnext : q'.paramTypes [v] = (q'.vars.get v).init.toList := by
      cases h : (q'.vars.get v).init <;> simp [Program.paramTypes, h]
    rw [paramTypes_append, hold, hnext, map_append]
    exact ⟨hsprouts.append hstep.kept hq.kept.nodes hsprout,
      forall_mem_append.2 ⟨hsprouts.typeText hstep.kept htypes, htype⟩⟩

theorem lambda_builds : Plants O c z p (lambda r) := by
  unfold lambda
  refine .quiet (.expect _) fun start =>
    .bind (params_build hp.closed (fun _ => True) fun q hq =>
      lambdaParam_builds hr (hp.closed.step hq))
    fun params q hq ⟨hnodup, hparams, hsprouts, htypes⟩ => ?_
  refine .call hq (callableBody_builds hr (hp.step hq)) fun body q' hq' hstep hbody => .read ?_
  extract_lets owner
  have hrole (v : VarId) (hv : v ∈ params) := hstep.ext.role (hparams v hv).2.1 (by simp)
  have hparts := hsprouts.snoc hstep.kept hq.kept.nodes hbody
  refine .bind (.onProgram (Q := fun l q => q'.Retains q ∧ q.lambdas.Valid l ∧
    q.lambdas.get l = { params, body, owner }) (hq'.addLambda hbody.valid hnodup ?_ rfl) ?_)
    fun l q'' hq'' ⟨hkept, hl, hget⟩ => ?_
  · intro v hv
    have hnew := (hparams v hv).1.step hstep
    exact ⟨hrole v hv, hnew.unclaimed, hnew.fresh⟩
  · exact ⟨hq'.retains_addLambda _, valid_push.2 (.inr rfl), (get_push ..).trans (if_pos rfl)⟩
  · have hsame := paramTypes_of_grows (hstep.kept.trans hkept).vars fun v hv => (hparams v hv).2.1
    refine .quiet (.spanFrom _) fun _ => tree_builds hq'' ⟨hl, ?_, ?_, ?_⟩ hq''.kept.nodes ?_ nofun
    · rw [hget]
      exact hp.owner.symm
    · rw [hget]
      exact fun v hv => (congrArg Var.role
        (hkept.vars.get_eq (valid_of_role (hrole v hv) (by simp)))).trans (hrole v hv)
    · rw [hget, hsame]
      exact hsprouts.typeText (hstep.kept.trans hkept) htypes
    · rw [← hsame] at hparts
      rw [Program.parts, hget, map_append]
      exact hparts.step hkept

end Bodies

end ClassLang.Grammar
