import ClassLang.Grammar.Expression
import ClassLang.Proofs.Grammar.Body

namespace ClassLang.Grammar

open Program

variable {O : NodeId → Prop} {c : Context} {z : Zone} {p₀ p q : Program} {r : Rules} {lo : Nat}

section Operators

variable {lhs rhs : NodeId}

theorem addBinary_builds (h : p₀.Built O p) (hparts : p.Sprouts lo [(z, lhs), (z, rhs)])
    (op : BinaryOp) : Builds O c p₀ p (addBinary op lhs rhs) fun i q => q.Made lo z i :=
  .quiet (.spanOf _) fun _ => .quiet (.spanOf _) fun _ =>
    tree_builds h trivial hparts.le (by exact hparts) nofun

theorem addNot_builds (h : p₀.Built O p) {operand : NodeId} (ho : p.Made lo z operand) :
    Builds O c p₀ p (addNot operand) fun i q => q.Made lo z i :=
  .quiet (.spanOf _) fun _ => tree_builds h trivial ho.le (by exact .single ho) nofun

theorem leftAssoc_builds {op? : Token → Option BinaryOp} {operand : Parse NodeId}
    (hp : Place O c z p)
    (ho : ∀ q, Place O c z q → Builds O c q q operand fun i r => r.Made q.nodes.size z i) :
    Plants O c z p (leftAssoc op? operand) := by
  refine .bind (ho p hp) fun lhs q hq hlhs => .repeatFrom hq hlhs fun lhs q hq hlhs => ?_
  refine .quiet .peek fun t => ?_
  split
  · exact .pure hq hlhs
  · refine .quiet .advance fun _ => .call hq (ho q (hp.step hq)) fun rhs q' hq' hstep hrhs => ?_
    exact .bind (addBinary_builds hq' (.pair hlhs hstep.kept hlhs.le hrhs) _) fun i q'' hq'' hi =>
      .pure hq'' hi

theorem compare_builds {t : Token} {build : NodeId → NodeId → Parse NodeId}
    (ht : compare? t = some build) (h : p₀.Built O p) (hparts : p.Sprouts lo [(z, lhs), (z, rhs)]) :
    Builds O c p₀ p (build lhs rhs) fun i q => q.Made lo z i := by
  unfold compare? at ht
  split at ht <;> cases ht
  · exact addBinary_builds h hparts _
  · exact .bind (addBinary_builds h hparts _) fun _ _ hq hi => addNot_builds hq hi
  · exact addBinary_builds h hparts _
  · exact addBinary_builds h hparts.swap _
  · exact .bind (addBinary_builds h hparts.swap _) fun _ _ hq hi => addNot_builds hq hi
  · exact .bind (addBinary_builds h hparts _) fun _ _ hq hi => addNot_builds hq hi

theorem Quiet.assignment? : Quiet assignment? := by
  refine .bind .peek fun t => ?_
  split
  · exact .pure _
  · exact .bind .advance fun _ => .pure _

end Operators

section Assignments

theorem name_builds (hp : Place O c z p) (name : NameId) (span : Span) :
    Plants O c z p (addNode (.name name) span) :=
  tree_builds hp.refl trivial (Nat.le_refl _) (by exact .nil _ _) nofun

theorem letTemp_builds (h : p₀.Built O p) {init body : NodeId} {temp : VarId} {span : Span}
    (hrole : (q.vars.get temp).role = .localVar) (hinit : (q.vars.get temp).init = some init)
    (hgrows : q.vars.Grows p.vars) (hparts : p.Sprouts lo [(z, init), (z, body)]) :
    Builds O c p₀ p (addNode (.letIn temp [body]) span) fun i q => q.Made lo z i := by
  have hget := hgrows.get_eq (valid_of_role hrole (by simp))
  rw [← hget] at hrole hinit
  refine tree_builds h ⟨hrole, hinit ▸ rfl⟩ hparts.le ?_ nofun
  show p.Sprouts lo (((p.vars.get temp).init.toList ++ [body]).map (z, ·))
  rw [hinit]
  exact hparts

variable (hr : r.Good O) (hp : Place O c z p)
include hr hp

theorem assignName_builds (start : Span) (target : NodeId) (a : Assignment) :
    Plants O c z p (assignName r start target a) := by
  unfold assignName
  refine .quiet .get fun s => ?_
  split
  · refine .bind (hr.expression _ _ _ hp) fun rhs q hq hrhs => ?_
    extract_lets finish
    have hfinish (value : NodeId) (q : Program) (hq : p.Built O q)
      (hvalue : q.Made p.nodes.size z value) : Builds O c p q (finish value) fun i q =>
      q.Made p.nodes.size z i := .quiet (.spanFrom _) fun _ => tree_builds hq trivial hvalue.le
      (by exact .single hvalue) nofun
    split
    · exact hfinish rhs q hq hrhs
    · refine .quiet (.spanOf _) fun span => ?_
      refine .call hq (name_builds (hp.step hq) _ _) fun name q' hq' hstep hname => ?_
      exact .bind (addBinary_builds hq' (Sprouts.pair hrhs hstep.kept hrhs.le hname).swap _) hfinish
  · exact .quiet (.spanOf _) fun _ => .failAt _ _

theorem assignField_builds {base : NodeId} (hbase : p.Made lo z base) (start : Span) (name : NameId)
    (a : Assignment) :
    Builds O c p p (assignField r start base name a) fun i q => q.Made lo z i := by
  unfold assignField
  split
  · refine .bind (hr.expression _ _ _ hp) fun value q hq hvalue => .quiet (.spanFrom _) fun _ => ?_
    have hparts := Sprouts.pair hbase hq.kept hbase.le hvalue
    exact tree_builds hq ⟨rfl, rfl⟩ hparts.le (by exact hparts) nofun
  · refine .bind (addTemp_builds hp.refl hbase.valid) fun (temp, tempName) q hq ⟨hrole, hinit⟩ =>
      .quiet (.spanOf _) fun span => ?_
    refine .call hq (hr.expression _ _ _ (hp.step hq)) fun rhs q₁ hq₁ h₁ hrhs => ?_
    refine .call hq₁ (name_builds (hp.step hq₁) _ _) fun read q₂ hq₂ h₂ hread => ?_
    refine .call hq₂ (tree_builds (z := z) (hp.step hq₂).refl ⟨rfl, rfl⟩ hread.le
      (by exact .single hread) nofun) fun field q₃ hq₃ h₃ hfield => ?_
    have hoperands := Sprouts.pair hrhs (h₂.kept.trans h₃.kept) hrhs.le hfield
    refine .call hq₃ (addBinary_builds (hp.step hq₃).refl hoperands.swap _)
      fun value q₄ hq₄ h₄ hvalue => ?_
    refine .call hq₄ (name_builds (hp.step hq₄) _ _) fun object q₅ hq₅ h₅ hobject => ?_
    have hset := (Sprouts.pair hvalue h₅.kept hvalue.le hobject).swap
    refine .quiet (.spanFrom _) fun full =>
      .call hq₅ (tree_builds (z := z) (hp.step hq₅).refl ⟨rfl, rfl⟩ hset.le (by exact hset) nofun)
      fun set q₆ hq₆ h₆ hset => ?_
    have hkept := ((((h₁.kept.trans h₂.kept).trans h₃.kept).trans h₄.kept).trans h₅.kept).trans
      h₆.kept
    exact letTemp_builds hq₆ hrole hinit hkept.vars
      (.pair hbase (hq.kept.trans hkept) hbase.le (hset.mono hq.kept.nodes))

theorem assignAt_builds {array index : NodeId} (harray : q.Made lo z array) (hqp : q.Retains p)
    (hindex : p.Made q.nodes.size z index) (start : Span) (a : Assignment) :
    Builds O c p p (assignAt r start array index a) fun i q => q.Made lo z i := by
  unfold assignAt
  split
  · refine .bind (hr.expression _ _ _ hp) fun value q' hq' hvalue =>
      .quiet (.spanFrom _) fun _ => ?_
    have hparts := (Sprouts.pair harray hqp harray.le hindex).snoc hq'.kept
      (Nat.le_trans harray.le hqp.nodes) hvalue
    exact tree_builds hq' trivial hparts.le (by exact hparts) nofun
  · refine .bind (addTemp_builds hp.refl (hqp.valid harray.valid))
      fun (arrayTemp, arrayName) q₀ hq₀ harrayTemp => ?_
    refine .call hq₀ (addTemp_builds (hp.step hq₀).refl (hq₀.kept.valid hindex.valid))
      fun (indexTemp, indexName) q₁ hq₁ h₁ hindexTemp => ?_
    refine .quiet (.spanOf _) fun span => .call hq₁ (hr.expression _ _ _ (hp.step hq₁))
      fun rhs q₂ hq₂ h₂ hrhs => ?_
    refine .call hq₂ (name_builds (hp.step hq₂) _ _) fun readArray q₃ hq₃ h₃ hreadArray => ?_
    refine .call hq₃ (name_builds (hp.step hq₃) _ _) fun readIndex q₄ hq₄ h₄ hreadIndex => ?_
    have hread := Sprouts.pair hreadArray h₄.kept hreadArray.le hreadIndex
    refine .call hq₄ (tree_builds (z := z) (hp.step hq₄).refl trivial hread.le
      (by exact hread) nofun) fun element q₅ hq₅ h₅ helement => ?_
    have hoperands := Sprouts.pair hrhs ((h₃.kept.trans h₄.kept).trans h₅.kept) hrhs.le helement
    refine .call hq₅ (addBinary_builds (hp.step hq₅).refl hoperands.swap _)
      fun value q₆ hq₆ h₆ hvalue => ?_
    refine .call hq₆ (name_builds (hp.step hq₆) _ _) fun setArray q₇ hq₇ h₇ hsetArray => ?_
    have hvalue₇ := Sprouts.pair hvalue h₇.kept hvalue.le hsetArray
    refine .call hq₇ (name_builds (hp.step hq₇) _ _) fun setIndex q₈ hq₈ h₈ hsetIndex => ?_
    have hset := (hvalue₇.snoc h₈.kept hvalue₇.le hsetIndex).perm
      (.trans (.swap ..) (.cons _ (.swap ..)))
    refine .quiet (.spanFrom _) fun full =>
      .call hq₈ (tree_builds (z := z) (hp.step hq₈).refl trivial hset.le (by exact hset) nofun)
      fun set q₉ hq₉ h₉ hset => ?_
    have hkept := ((((((h₂.kept.trans h₃.kept).trans h₄.kept).trans h₅.kept).trans h₆.kept).trans
      h₇.kept).trans h₈.kept).trans h₉.kept
    have hinner := Sprouts.pair hindex (hq₁.kept.trans hkept) hindex.le (hset.mono hq₁.kept.nodes)
    refine .call hq₉ (letTemp_builds (hp.step hq₉).refl hindexTemp.1 hindexTemp.2 hkept.vars hinner)
      fun inner q' hq' h' hinner => ?_
    exact letTemp_builds hq' harrayTemp.1 harrayTemp.2 ((h₁.kept.trans hkept).trans h'.kept).vars
      (.pair harray (hqp.trans hq'.kept) harray.le hinner)

end Assignments

section Expressions

variable (hr : r.Good O) (hp : Place O c z p)
include hr hp

theorem conversion_builds (start : Span) (op : UnaryOp) : Plants O c z p (conversion r start op) :=
  .quiet .advance fun _ => .quiet (.expect _) fun _ => .bind (hr.expression _ _ _ hp)
    fun _ _ hq ho => .quiet (.expect _) fun _ => .quiet (.spanFrom _) fun _ =>
    tree_builds hq trivial ho.le (by exact .single ho) nofun

theorem arrayLiteral_builds (start : Span) : Plants O c z p (arrayLiteral r start) := by
  refine .quiet .advance fun _ => .bind (hr.expression _ _ _ hp) fun first q hq hfirst => ?_
  refine .bind (.repeatFrom
    (I := fun items q => items ≠ [] ∧ q.Sprouts p.nodes.size (items.map (z, ·))) hq
    ⟨List.cons_ne_nil _ _, .single hfirst⟩ ?_) fun items q hq ⟨hne, hitems⟩ => ?_
  · intro items q hq ⟨hne, hitems⟩
    refine .quiet (.eat _) fun b => ?_
    split
    · refine .call hq (hr.expression _ _ _ (hp.step hq)) fun i q' hq' hstep hi =>
        .pure hq' ⟨by simp [ForInStep.value], ?_⟩
      simpa [ForInStep.value] using hitems.snoc hstep.kept hq.kept.nodes hi
    · exact .pure hq ⟨hne, hitems⟩
  · exact .quiet (.expect _) fun _ => .quiet (.spanFrom _) fun _ => tree_builds hq hne hq.kept.nodes
      (by exact hitems) nofun

theorem parenthesized_builds : Plants O c z p (parenthesized r) :=
  .quiet .advance fun _ => .bind (hr.expression _ _ _ hp) fun _ _ hq hi => .quiet (.expect _)
    fun _ => .pure hq hi

theorem primary_builds : Plants O c z p (primary r) := by
  unfold primary
  refine .quiet .peekSpan fun start => ?_
  extract_lets literal
  have hliteral {form : Form} (hraw : p.Raw z form) (hleaf : p.parts z ⟨p.nodes.size⟩ form = [])
      (hguard : ∀ x y b, form ≠ .guard x y b) : Plants O c z p (literal form) :=
    .quiet .advance fun _ => tree_builds hp.refl hraw (Nat.le_refl _) (hleaf ▸ .nil _ _) hguard
  have htype : Plants O c z p (typeExpr r) :=
    (typeExpr_builds hr hp.toGround).post fun _ _ _ h => h.1
  refine .quiet .peek fun t => ?_
  cases t with
  | int v | double v => exact hliteral trivial rfl nofun
  | ident name =>
    exact .bind (qualifiedName_builds hp.refl) fun _ _ hq _ => .quiet (.spanFrom _) fun _ =>
      tree_builds hq trivial hq.kept.nodes (by exact .nil _ _) nofun
  | keyword k =>
    cases k with
    | kTrue | kFalse | kThis => exact hliteral trivial rfl nofun
    | kInt | kDouble =>
      refine .quiet .peekSecond fun _ => ?_
      split
      · exact conversion_builds hr hp _ _
      · exact htype
    | kBool | kFn => exact htype
    | kLoop => exact loopBody_builds hr hp
    | kWhile => exact whileLoop_builds hr hp
    | kBreak => exact jump_builds hr hp hp.loop _
    | kReturn => exact jump_builds hr hp hp.body _
    | _ => exact .failWanting _
  | symbol s =>
    cases s with
    | dot =>
      exact .quiet .advance fun _ => .quiet .expectIdent fun (name, _) =>
        .bind (rootName_builds hp.refl _) fun _ _ hq _ => .quiet (.spanFrom _) fun _ =>
        tree_builds hq trivial hq.kept.nodes (by exact .nil _ _) nofun
    | lParen =>
      refine .quiet .lambdaAhead fun b => ?_
      split
      · exact lambda_builds hr hp.toGround
      · exact parenthesized_builds hr hp
    | lBrace =>
      refine .bind (braced_builds hr hp) fun body q hq hbody => .quiet (.spanFrom _) fun _ => ?_
      exact tree_builds hq trivial hq.kept.nodes (hbody.widen rfl (List.subset_cons_self _ _)) nofun
    | lBracket => exact arrayLiteral_builds hr hp _
    | _ => exact .failWanting _
  | _ => exact .failWanting _

theorem postfixStep_builds (start : Span) {expr : NodeId} (hexpr : p.Made lo z expr)
    (assigned : Bool) :
    Builds O c p p (postfixStep r start (expr, assigned)) fun e q => q.Made lo z e.value.1 := by
  unfold postfixStep
  refine .quiet .peek fun t => ?_
  split
  · refine .quiet .advance fun _ => .bind (.nodesUntil hp.refl hexpr.le (.single hexpr) fun q hq =>
      hr.expression _ _ _ (hp.step hq)) fun args q hq hparts => .quiet (.spanFrom _) fun _ => ?_
    exact .bind (tree_builds hq trivial hparts.le (by exact hparts) nofun)
      fun _ _ hq hi => .pure hq hi
  · refine .quiet .advance fun _ => .quiet .expectIdent fun (name, _) => ?_
    refine .bind (rootName_builds hp.refl _) fun name q hq _ => .quiet .assignment? fun a => ?_
    have hexpr := (hexpr.step hq.kept).1
    cases a with
    | some a =>
      exact .call hq (assignField_builds hr (hp.step hq) hexpr _ _ _) fun _ _ hq _ hi => .pure hq hi
    | none =>
      exact .quiet (.spanFrom _) fun _ =>
        .bind (tree_builds (z := z) hq ⟨rfl, rfl⟩ hexpr.le (by exact .single hexpr) nofun)
        fun _ _ hq hi => .pure hq hi
  · refine .quiet .advance fun _ => .bind (hr.expression _ _ _ hp) fun index q hq hindex =>
      .quiet (.expect _) fun _ => ?_
    refine .quiet .assignment? fun a => ?_
    cases a with
    | some a =>
      exact .call hq (assignAt_builds hr (hp.step hq) hexpr hq.kept hindex _ _)
        fun _ _ hq _ hi => .pure hq hi
    | none =>
      have hparts := Sprouts.pair hexpr hq.kept hexpr.le hindex
      exact .quiet (.spanFrom _) fun _ =>
        .bind (tree_builds hq trivial hparts.le (by exact hparts) nofun)
        fun _ _ hq hi => .pure hq hi
  · refine .quiet .advance fun _ => .bind (classRef_builds hr hp.toGround)
      fun target q hq ⟨⟨htarget, _⟩, hform⟩ => .quiet (.spanFrom _) fun _ => ?_
    have hparts := Sprouts.pair hexpr hq.kept hexpr.le htarget
    exact .bind (tree_builds (z := z) hq hform hparts.le (by exact hparts) nofun)
      fun _ _ hq hi => .pure hq hi
  · exact .pure hp.refl hexpr

theorem suffixed_builds : Plants O c z p (suffixed r) := by
  unfold suffixed
  refine .quiet .peekSpan fun start => .bind (primary_builds hr hp) fun first q hq hfirst => ?_
  refine .bind (.repeatFrom (I := fun e q => q.Made p.nodes.size z e.1) hq hfirst ?_)
    fun (expr, assigned) q hq hexpr => ?_
  · rintro ⟨expr, assigned⟩ q hq hexpr
    exact .since hq (postfixStep_builds hr (hp.step hq) start hexpr assigned)
  · dsimp only
    split
    · exact .pure hq hexpr
    · refine .quiet .assignment? fun a => ?_
      cases a with
      | some a =>
        exact .since hq ((assignName_builds hr (hp.step hq) _ _ _).post fun _ _ _ hi =>
          hi.mono hq.kept.nodes)
      | none => exact .pure hq hexpr

theorem unary_builds : Plants O c z p (unary r) := by
  unfold unary
  refine .quiet .peekSpan fun start => ?_
  extract_lets wrap
  have hwrap {form : NodeId → Form} (hraw : ∀ i (q : Program), q.Raw z (form i))
    (hparts : ∀ i j (q : Program), q.parts z j (form i) = [(z, i)])
    (hguard : ∀ i x y b, form i ≠ .guard x y b) : Plants O c z p (wrap form) :=
    .quiet .advance fun _ => .bind (hr.unary _ _ _ hp) fun i q hq hi => .quiet (.spanFrom _)
    fun _ => tree_builds hq (hraw i q) hi.le (hparts i _ q ▸ .single hi) (hguard i)
  refine .quiet .peek fun t => ?_
  split
  case h_1 | h_2 | h_3 | h_4 | h_5 | h_6 =>
    exact hwrap (fun _ _ => trivial) (fun _ _ _ => rfl) nofun
  · exact .quiet .advance fun _ => .bind (hr.type _ _ _ hp.toGround) fun _ _ hq hi =>
      .quiet (.spanFrom _) fun _ => tree_builds hq hi.2.isType hi.1.le (by exact .single hi.1) nofun
  · refine .quiet .advance fun _ => .bind (hr.unary _ _ _ hp) fun operand q hq ho => ?_
    refine .call hq (tree_builds (z := z) (hp.step hq).refl trivial (Nat.le_refl _)
      (by exact .nil _ _) nofun) fun mask q' hq' hstep hmask => ?_
    exact addBinary_builds hq' (.pair ho hstep.kept ho.le hmask) _
  · exact suffixed_builds hr hp

theorem sum_builds : Plants O c z p (sum r) :=
  leftAssoc_builds hp fun _ hp => leftAssoc_builds hp fun _ hp => unary_builds hr hp

theorem comparison_builds : Plants O c z p (comparison r) := by
  unfold comparison
  refine .bind (sum_builds hr hp) fun lhs q hq hlhs => .quiet .peek fun t => ?_
  split
  · exact .pure hq hlhs
  · rename_i build hbuild
    refine .quiet .advance fun _ => .call hq (sum_builds hr (hp.step hq))
      fun rhs q' hq' hstep hrhs => ?_
    exact compare_builds hbuild hq' (.pair hlhs hstep.kept hlhs.le hrhs)

theorem disjunction_builds : Plants O c z p (disjunction r) :=
  leftAssoc_builds hp fun _ hp => leftAssoc_builds hp fun _ hp => comparison_builds hr hp

theorem guarded_builds : Plants O c z p (guarded r) := by
  unfold guarded
  refine .bind (disjunction_builds hr hp) fun cond q hq hcond => .quiet (.eat _) fun b => ?_
  split
  · refine .call hq (addBinding_builds (hp.step hq).refl cond) fun b q₁ hq₁ h₁ ⟨hnew, hrole⟩ => ?_
    refine .call hq₁ (hr.guarded _ _ _ (hp.step hq₁)) fun yes q₂ hq₂ h₂ hyes => ?_
    refine .quiet (.spanOf _) fun _ => .quiet (.spanOf _) fun _ => ?_
    have hparts := Sprouts.pair (hcond.step h₁.kept).1 h₂.kept hq₁.kept.nodes hyes
    exact (guard_builds hq₂ hparts.le hparts ((hnew.step h₂).since hq)
      (h₂.ext.role hrole (by simp))).post fun _ _ _ h => h.1
  · exact .pure hq hcond

theorem expression_builds : Plants O c z p (expression r) := by
  unfold expression
  refine .bind (guarded_builds hr hp) fun lhs q hq hlhs => .quiet (.eat _) fun b => ?_
  split
  · refine .call hq (hr.expression _ _ _ (hp.step hq)) fun rhs q' hq' hstep hrhs => ?_
    have hparts := Sprouts.pair hlhs hstep.kept hlhs.le hrhs
    exact .quiet (.spanOf _) fun _ => .quiet (.spanOf _) fun _ => tree_builds hq' trivial hparts.le
      (by exact hparts) nofun
  · exact .pure hq hlhs

end Expressions

end ClassLang.Grammar
