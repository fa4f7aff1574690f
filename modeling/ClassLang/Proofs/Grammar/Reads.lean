import ClassLang.Grammar.Module
import ClassLang.Proofs.Grammar.Places

namespace ClassLang.Grammar

open Arena

variable {t : Page} {c : Context} {p : Program} {r : Rules}

structure Rules.Read (t : Page) (r : Rules) : Prop where
  expression : ∀ c p, Finds t c p r.expression
  guarded : ∀ c p, Finds t c p r.guarded
  unary : ∀ c p, Finds t c p r.unary
  type : ∀ c p, Finds t c p r.type
  statements : ∀ topLevel c p, Scans t c p (r.statements topLevel)

section Types

theorem qualifiedName_reads : Scans t c p qualifiedName := by
  unfold qualifiedName
  refine .bind .expectIdent fun (first, _) _ _ _ => .bind (rootName_reads _) fun name q _ _ => ?_
  refine .repeatFrom trivial fun name q _ _ => .bind (.looking _) fun _ _ _ _ => .bind .peekSecond
    fun _ _ _ _ => ?_
  split
  · refine .bind .advance fun _ _ _ _ => .bind .expectIdent fun (segment, _) _ _ _ => ?_
    exact .bind (childName_reads _ _) fun _ _ _ _ => .pure trivial
  · exact .pure trivial

variable (hr : r.Read t)
include hr

theorem classRef_reads : Finds t c p (classRef r) := by
  unfold classRef
  refine .bind .peekSpan fun start _ _ hstart => .bind qualifiedName_reads fun name _ _ _ =>
    .bind (.eat _) fun b q _ _ => ?_
  extract_lets finish
  have hfinish (args : List NodeId) (q : Program) : Finds t c q (finish args) :=
    addNodeFrom_reads hstart
  split
  · exact .bind (.listUntil _ fun q _ => (hr.type c q).post fun _ _ _ _ => trivial)
      fun args q _ _ => hfinish args q
  · exact hfinish [] q

theorem signatureType_reads : Finds t c p (signatureType r) := by
  unfold signatureType
  refine .bind .advance fun start _ _ hstart => .bind (.expect _) fun _ _ _ _ => ?_
  refine .bind (.listUntil _ fun q _ => (hr.type c q).post fun _ _ _ _ => trivial)
    fun params q _ _ => ?_
  refine .bind .peek fun _ _ _ _ => .bind .peekSecond fun _ q _ _ => ?_
  extract_lets finish
  have hfinish (result : Option NodeId) (q : Program) : Finds t c q (finish result) :=
    addNodeFrom_reads hstart
  split
  · exact .bind (.optional (hr.type c q)) fun result q _ _ => hfinish result q
  · exact hfinish none q

theorem typeExpr_reads : Finds t c p (typeExpr r) := by
  unfold typeExpr
  refine .bind .peekSpan fun start q _ hstart => ?_
  extract_lets finish
  have hfinish {form : Form} (q : Program) : Finds t c q (finish form) := addNodeFrom_reads hstart
  refine .bind .peek fun token q _ _ => ?_
  split
  · exact .bind .advance fun _ _ _ _ => hfinish _
  · exact .bind .advance fun _ _ _ _ => hfinish _
  · exact .bind .advance fun _ _ _ _ => hfinish _
  · exact .bind .advance fun _ _ _ _ => .bind (hr.type _ _) fun _ _ _ _ => hfinish _
  · exact .bind .advance fun _ _ _ _ => .bind (hr.type _ _) fun _ _ _ _ => hfinish _
  · exact .bind .advance fun _ _ _ _ => .bind (hr.type _ _) fun _ _ _ _ => .bind (.expect _)
      fun _ _ _ _ => hfinish _
  · exact signatureType_reads hr
  · exact classRef_reads hr
  · exact .failWanting _

end Types

section Bodies

theorem endStatement_reads : Scans t c p endStatement := by
  unfold endStatement
  refine .get fun s _ _ => ?_
  dsimp only
  refine .bind (.eat _) fun b q _ _ => ?_
  split
  · exact .pure trivial
  · split
    · exact .pure trivial
    · refine .bind .peek fun token q _ _ => ?_
      split
      · exact .pure trivial
      · exact .pure trivial
      · exact .failWanting _

theorem lambdaAhead_reads : Scans t c p lambdaAhead := by
  unfold lambdaAhead
  refine .read fun _ => ?_
  split
  · exact .pure trivial
  · exact .get fun _ _ _ => .pure trivial

variable (hr : r.Read t)
include hr

theorem braced_reads : Scans t c p (braced r) :=
  .bind (.expect _) fun _ _ _ _ => .bind (hr.statements _ _ _) fun _ _ _ _ => .bind (.expect _)
    fun _ _ _ _ => .pure trivial

theorem callableBody_reads : Finds t c p (callableBody r) := by
  unfold callableBody
  refine .bind .peekSpan fun start _ _ hstart => .bind (addNode_reads hstart) fun id _ _ hid => ?_
  refine .bind (.withReader rfl (braced_reads hr)) fun body q hq _ => ?_
  exact .bind (finishNode_reads (hq.near _ hid) hstart) fun _ _ hq' _ =>
    .pure ((hq.trans hq').near _ hid)

theorem typedParam_reads : Scans t c p (typedParam r) := by
  unfold typedParam
  refine .bind .peekSpan fun start _ _ hstart => .bind (hr.type _ _) fun declared _ _ _ => ?_
  refine .bind .expectIdent fun (name, _) _ _ _ => .bind (rootName_reads _) fun _ _ _ _ => ?_
  exact .bind (.locate hstart) fun _ _ _ hloc => addVar_reads hloc.2

theorem lambdaParam_reads : Scans t c p (lambdaParam r) := by
  unfold lambdaParam
  refine .bind .peek fun _ _ _ _ => .bind .peekSecond fun _ _ _ _ => ?_
  extract_lets bare
  split
  · refine .bind .peekSpan fun start _ _ hstart => .bind .expectIdent fun (name, _) _ _ _ => ?_
    exact .bind (rootName_reads _) fun _ _ _ _ => .bind (.locate hstart) fun _ _ _ hloc =>
      addVar_reads hloc.2
  · exact typedParam_reads hr

theorem lambda_reads : Finds t c p (lambda r) := by
  unfold lambda
  refine .bind (.expect _) fun start _ _ hstart =>
    .bind (.listUntil _ fun q _ => lambdaParam_reads hr) fun params _ _ _ => ?_
  refine .bind (callableBody_reads hr) fun body q _ _ => .read fun _ => ?_
  extract_lets owner
  refine .bind (.onProgram (Q := fun _ _ => True)
    (fun h => ⟨h.nodes, h.vars, h.methods, h.functions, h.classes, h.params⟩) id
    (.of_eq rfl (.refl _) rfl) trivial) fun id _ _ _ => ?_
  exact addNodeFrom_reads hstart

theorem loopBody_reads : Finds t c p (loopBody r) := by
  unfold loopBody
  refine .bind .advance fun start _ _ hstart => .bind (addNode_reads hstart) fun id _ _ hid => ?_
  refine .bind (.withReader rfl (braced_reads hr)) fun body q hq _ => ?_
  exact .bind (finishNode_reads (hq.near _ hid) hstart) fun _ _ hq' _ =>
    .pure ((hq.trans hq').near _ hid)

theorem whileLoop_reads : Finds t c p (whileLoop r) := by
  unfold whileLoop
  refine .bind .advance fun start _ _ hstart => .bind (addNode_reads hstart) fun id _ _ hid => ?_
  refine .bind (.withReader rfl (hr.expression _ _)) fun cond q₁ h₁ hcond => .bind .peekSpan
    fun bodyStart q₂ h₂ hbody => ?_
  refine .bind (.withReader rfl (braced_reads hr)) fun stmts q₃ h₃ _ => .bind (.spanFrom hbody)
    fun _ q₄ h₄ hspan => ?_
  refine .bind (addNode_reads hspan) fun body q₅ h₅ _ => ?_
  have hstep₅ := ((h₂.trans h₃).trans h₄).trans h₅
  refine .bind (addBinding_reads (hstep₅.near _ hcond)) fun binding q₆ h₆ _ =>
    .bind (.spanFrom hstart) fun span q₇ h₇ hspan => ?_
  refine .bind (addNode_reads hspan) fun _ q₈ h₈ _ => .bind (addNode_reads hspan)
    fun _ q₉ h₉ _ => ?_
  refine .bind (addNode_reads hspan) fun _ q' h' _ => ?_
  have hid' := (((((h₁.trans hstep₅).trans h₆).trans h₇).trans h₈).trans (h₉.trans h')).near _ hid
  exact .bind (finishNode_reads hid' hstart) fun _ _ hq _ => .pure (hq.near _ hid')

theorem jump_reads {outside : ParseCause} (houtside : outside.isGrammar)
    (target : Context → Option NodeId) : Finds t c p (jump r target outside) := by
  unfold jump
  refine .bind .advance fun start _ _ hstart => .read fun _ => ?_
  split
  · exact .failAt hstart houtside
  · refine .bind .peek fun token q _ _ => ?_
    extract_lets finish
    have hfinish (result : Option NodeId) (q : Program) : Finds t c q (finish result) :=
      addNodeFrom_reads hstart
    split
    · exact hfinish none q
    · exact .bind (.optional (hr.expression c q)) fun result q _ _ => hfinish result q

end Bodies

section Expressions

variable {lhs rhs : NodeId}

theorem addBinary_reads (hl : t.Near p lhs) (hr : t.Near p rhs) (op : BinaryOp) :
    Finds t c p (addBinary op lhs rhs) :=
  .bind (.spanOf hl) fun _ _ hq hspan => .bind (.spanOf (hq.near _ hr)) fun _ _ _ hspan' =>
    addNode_reads (t.holds_cover hspan hspan')

theorem addNot_reads {operand : NodeId} (h : t.Near p operand) : Finds t c p (addNot operand) :=
  .bind (.spanOf h) fun _ _ _ hspan => addNode_reads hspan

theorem assignment?_reads : Scans t c p assignment? := by
  refine .bind .peek fun token q _ _ => ?_
  split
  · exact .pure trivial
  · exact .bind .advance fun _ _ _ _ => .pure trivial

theorem leftAssoc_reads {op? : Token → Option BinaryOp} {operand : Parse NodeId}
    (ho : ∀ q, Finds t c q operand) : Finds t c p (leftAssoc op? operand) := by
  refine .bind (ho p) fun lhs q _ hlhs => .repeatFrom hlhs fun lhs q _ hlhs => .bind .peek
    fun token _ h₁ _ => ?_
  split
  · exact .pure (h₁.near _ hlhs)
  · refine .bind .advance fun _ _ h₂ _ => .bind (ho _) fun rhs _ h₃ hrhs => ?_
    exact .bind (addBinary_reads (((h₁.trans h₂).trans h₃).near _ hlhs) hrhs _)
      fun _ _ _ hi => .pure hi

theorem compare_reads {token : Token} {build : NodeId → NodeId → Parse NodeId}
    (hbuild : compare? token = some build) (hl : t.Near p lhs) (hr : t.Near p rhs) :
    Finds t c p (build lhs rhs) := by
  unfold compare? at hbuild
  split at hbuild <;> cases hbuild
  · exact addBinary_reads hl hr _
  · exact .bind (addBinary_reads hl hr _) fun _ _ _ hi => addNot_reads hi
  · exact addBinary_reads hl hr _
  · exact addBinary_reads hr hl _
  · exact .bind (addBinary_reads hr hl _) fun _ _ _ hi => addNot_reads hi
  · exact .bind (addBinary_reads hl hr _) fun _ _ _ hi => addNot_reads hi

variable {start : Span} (hr : r.Read t)
include hr

section

variable (hstart : t.Holds start)
include hstart

theorem assignName_reads {target : NodeId} (htarget : t.Near p target) (a : Assignment) :
    Finds t c p (assignName r start target a) := by
  unfold assignName
  refine .get fun s _ _ => ?_
  split
  · refine .bind (hr.expression _ _) fun rhs q hq hrhs => ?_
    extract_lets finish
    have hfinish (value : NodeId) (q : Program) : Finds t c q (finish value) :=
      addNodeFrom_reads hstart
    split
    · exact hfinish rhs q
    · refine .bind (.spanOf (hq.near _ htarget)) fun span _ h₁ hspan => .bind (addNode_reads hspan)
        fun name _ h₂ hname => ?_
      exact .bind (addBinary_reads hname ((h₁.trans h₂).near _ hrhs) _) fun value q _ _ =>
        hfinish value q
  · exact .bind (.spanOf htarget) fun _ _ _ hspan => .failAt hspan rfl

theorem assignField_reads {base : NodeId} (hbase : t.Near p base) (name : NameId)
    (a : Assignment) : Finds t c p (assignField r start base name a) := by
  unfold assignField
  split
  · exact .bind (hr.expression _ _) fun _ _ _ _ => addNodeFrom_reads hstart
  · refine .bind (addTemp_reads hbase) fun (temp, tempName) _ h₀ _ =>
      .bind (.spanOf (h₀.near _ hbase)) fun span _ _ hspan => ?_
    refine .bind (hr.expression _ _) fun rhs _ _ hrhs => .bind (addNode_reads hspan)
      fun read _ h₁ _ => ?_
    refine .bind (addNode_reads hspan) fun field _ h₂ hfield => ?_
    refine .bind (addBinary_reads hfield ((h₁.trans h₂).near _ hrhs) _) fun value _ _ _ =>
      .bind (addNode_reads hspan) fun _ _ _ _ => ?_
    refine .bind (.spanFrom hstart) fun full _ _ hfull => .bind (addNode_reads hfull)
      fun _ _ _ _ => ?_
    exact addNode_reads hfull

theorem assignAt_reads {array index : NodeId} (harray : t.Near p array)
    (hindex : t.Near p index) (a : Assignment) : Finds t c p (assignAt r start array index a) := by
  unfold assignAt
  split
  · exact .bind (hr.expression _ _) fun _ _ _ _ => addNodeFrom_reads hstart
  · refine .bind (addTemp_reads harray) fun (arrayTemp, arrayName) _ h₁ _ => ?_
    refine .bind (addTemp_reads (h₁.near _ hindex)) fun (indexTemp, indexName) _ h₂ _ => ?_
    refine .bind (.spanOf ((h₁.trans h₂).near _ harray)) fun span _ _ hspan =>
      .bind (hr.expression _ _) fun rhs _ _ hrhs => ?_
    refine .bind (addNode_reads hspan) fun _ _ h₃ _ => .bind (addNode_reads hspan)
      fun _ _ h₄ _ => ?_
    refine .bind (addNode_reads hspan) fun element _ h₅ helement => ?_
    refine .bind (addBinary_reads helement (((h₃.trans h₄).trans h₅).near _ hrhs) _)
      fun value _ _ _ => ?_
    refine .bind (addNode_reads hspan) fun _ _ _ _ => .bind (addNode_reads hspan) fun _ _ _ _ => ?_
    refine .bind (.spanFrom hstart) fun full _ _ hfull => .bind (addNode_reads hfull)
      fun _ _ _ _ => ?_
    exact .bind (addNode_reads hfull) fun _ _ _ _ => addNode_reads hfull

theorem conversion_reads (op : UnaryOp) : Finds t c p (conversion r start op) :=
  .bind .advance fun _ _ _ _ => .bind (.expect _) fun _ _ _ _ => .bind (hr.expression _ _)
    fun _ _ _ _ => .bind (.expect _) fun _ _ _ _ => addNodeFrom_reads hstart

theorem arrayLiteral_reads : Finds t c p (arrayLiteral r start) := by
  refine .bind .advance fun _ _ _ _ => .bind (hr.expression _ _) fun first _ _ _ => ?_
  refine .bind (.repeatFrom (I := fun _ _ => True) trivial fun items _ _ _ => .bind (.eat _)
    fun b q _ _ => ?_) fun _ _ _ _ => ?_
  · split
    · exact .bind (hr.expression _ _) fun _ _ _ _ => .pure trivial
    · exact .pure trivial
  · exact .bind (.expect _) fun _ _ _ _ => addNodeFrom_reads hstart

end

theorem parenthesized_reads : Finds t c p (parenthesized r) :=
  .bind .advance fun _ _ _ _ => .bind (hr.expression _ _) fun _ _ _ hi => .bind (.expect _)
    fun _ _ hq _ => .pure (hq.near _ hi)

theorem primary_reads : Finds t c p (primary r) := by
  unfold primary
  refine .bind .peekSpan fun start _ _ hstart => ?_
  extract_lets literal
  have hliteral {form : Form} (q : Program) : Finds t c q (literal form) :=
    .bind .advance fun _ _ _ _ => addNode_reads hstart
  refine .bind .peek fun token q _ _ => ?_
  cases token with
  | int v | double v => exact hliteral q
  | ident name =>
    exact .bind qualifiedName_reads fun _ _ _ _ => addNodeFrom_reads hstart
  | keyword k =>
    cases k with
    | kTrue | kFalse | kThis => exact hliteral q
    | kInt | kDouble =>
      refine .bind .peekSecond fun _ _ _ _ => ?_
      split
      · exact conversion_reads hr hstart _
      · exact typeExpr_reads hr
    | kBool | kFn => exact typeExpr_reads hr
    | kLoop => exact loopBody_reads hr
    | kWhile => exact whileLoop_reads hr
    | kBreak => exact jump_reads hr rfl _
    | kReturn => exact jump_reads hr rfl _
    | _ => exact .failWanting _
  | symbol s =>
    cases s with
    | dot =>
      exact .bind .advance fun _ _ _ _ => .bind .expectIdent fun _ _ _ _ => .bind (rootName_reads _)
        fun _ _ _ _ => addNodeFrom_reads hstart
    | lParen =>
      refine .bind lambdaAhead_reads fun b _ _ _ => ?_
      split
      · exact lambda_reads hr
      · exact parenthesized_reads hr
    | lBrace => exact .bind (braced_reads hr) fun _ _ _ _ => addNodeFrom_reads hstart
    | lBracket => exact arrayLiteral_reads hr hstart
    | _ => exact .failWanting _
  | _ => exact .failWanting _

theorem postfixStep_reads (hstart : t.Holds start) {expr : NodeId} (hexpr : t.Near p expr)
    (assigned : Bool) :
    Reads t c p (postfixStep r start (expr, assigned)) fun e q => t.Near q e.value.1 := by
  unfold postfixStep
  refine .bind .peek fun token _ h₀ _ => ?_
  have hexpr := h₀.near _ hexpr
  split
  · refine .bind .advance fun _ _ _ _ =>
      .bind (.listUntil _ fun q _ => (hr.expression c q).post fun _ _ _ _ => trivial)
      fun _ _ _ _ => ?_
    exact .bind (.spanFrom hstart) fun _ _ _ hspan => .bind (addNode_reads hspan)
      fun _ _ _ hi => .pure hi
  · refine .bind .advance fun _ _ h₁ _ => .bind .expectIdent fun (name, _) _ h₂ _ =>
      .bind (rootName_reads _) fun name _ h₃ _ => ?_
    refine .bind assignment?_reads fun a _ h₄ _ => ?_
    cases a with
    | some a =>
      have hbase := (((h₁.trans h₂).trans h₃).trans h₄).near _ hexpr
      exact .bind (assignField_reads hr hstart hbase _ _) fun _ _ _ hi => .pure hi
    | none =>
      exact .bind (.spanFrom hstart) fun _ _ _ hspan => .bind (addNode_reads hspan)
        fun _ _ _ hi => .pure hi
  · refine .bind .advance fun _ _ h₁ _ => .bind (hr.expression _ _) fun index _ h₂ hindex =>
      .bind (.expect _) fun _ _ h₃ _ => ?_
    refine .bind assignment?_reads fun a _ h₄ _ => ?_
    cases a with
    | some a =>
      have harray := (((h₁.trans h₂).trans h₃).trans h₄).near _ hexpr
      exact .bind (assignAt_reads hr hstart harray ((h₃.trans h₄).near _ hindex) _)
        fun _ _ _ hi => .pure hi
    | none =>
      exact .bind (.spanFrom hstart) fun _ _ _ hspan => .bind (addNode_reads hspan)
        fun _ _ _ hi => .pure hi
  · refine .bind .advance fun _ _ _ _ => .bind (classRef_reads hr) fun _ _ _ _ => ?_
    exact .bind (.spanFrom hstart) fun _ _ _ hspan => .bind (addNode_reads hspan)
      fun _ _ _ hi => .pure hi
  · exact .pure hexpr

theorem suffixed_reads : Finds t c p (suffixed r) := by
  unfold suffixed
  refine .bind .peekSpan fun start _ _ hstart => .bind (primary_reads hr) fun first q _ hfirst => ?_
  refine .bind (.repeatFrom (I := fun e q => t.Near q e.1) hfirst ?_) ?_
  · rintro ⟨expr, assigned⟩ q _ hexpr
    exact postfixStep_reads hr hstart hexpr assigned
  · rintro ⟨expr, assigned⟩ q _ hexpr
    dsimp only
    split
    · exact .pure hexpr
    · refine .bind assignment?_reads fun a _ hq _ => ?_
      cases a with
      | some a => exact assignName_reads hr hstart (hq.near _ hexpr) _
      | none => exact .pure (hq.near _ hexpr)

theorem unary_reads : Finds t c p (unary r) := by
  unfold unary
  refine .bind .peekSpan fun start _ _ hstart => ?_
  extract_lets wrap
  have hwrap {form : NodeId → Form} (q : Program) : Finds t c q (wrap form) :=
    .bind .advance fun _ _ _ _ => .bind (hr.unary _ _) fun _ _ _ _ => addNodeFrom_reads hstart
  refine .bind .peek fun token q _ _ => ?_
  split
  · exact hwrap q
  · exact hwrap q
  · exact hwrap q
  · exact hwrap q
  · exact hwrap q
  · exact hwrap q
  · exact .bind .advance fun _ _ _ _ => .bind (hr.type _ _) fun _ _ _ _ => addNodeFrom_reads hstart
  · refine .bind .advance fun _ _ _ _ => .bind (hr.unary _ _) fun operand _ _ ho =>
      .bind (addNode_reads hstart) fun mask _ hq hmask => ?_
    exact addBinary_reads (hq.near _ ho) hmask _
  · exact suffixed_reads hr

theorem sum_reads : Finds t c p (sum r) :=
  leftAssoc_reads fun _ => leftAssoc_reads fun _ => unary_reads hr

theorem comparison_reads : Finds t c p (comparison r) := by
  unfold comparison
  refine .bind (sum_reads hr) fun lhs _ _ hlhs => .bind .peek fun token _ h₁ _ => ?_
  split
  · exact .pure (h₁.near _ hlhs)
  · rename_i build hbuild
    refine .bind .advance fun _ _ h₂ _ => .bind (sum_reads hr) fun rhs _ h₃ hrhs => ?_
    exact compare_reads hbuild (((h₁.trans h₂).trans h₃).near _ hlhs) hrhs

theorem disjunction_reads : Finds t c p (disjunction r) :=
  leftAssoc_reads fun _ => leftAssoc_reads fun _ => comparison_reads hr

theorem guarded_reads : Finds t c p (guarded r) := by
  unfold guarded
  refine .bind (disjunction_reads hr) fun cond _ _ hcond => .bind (.eat _) fun b _ h₁ _ => ?_
  have hcond := h₁.near _ hcond
  split
  · refine .bind (addBinding_reads hcond) fun _ _ h₂ _ => .bind (hr.guarded _ _)
      fun yes _ h₃ hyes => ?_
    refine .bind (.spanOf ((h₂.trans h₃).near _ hcond)) fun _ _ h₄ hspan =>
      .bind (.spanOf (h₄.near _ hyes)) fun _ _ _ hspan' => ?_
    exact addNode_reads (t.holds_cover hspan hspan')
  · exact .pure hcond

theorem expression_reads : Finds t c p (expression r) := by
  unfold expression
  refine .bind (guarded_reads hr) fun lhs _ _ hlhs => .bind (.eat _) fun b _ h₁ _ => ?_
  have hlhs := h₁.near _ hlhs
  split
  · refine .bind (hr.expression _ _) fun rhs _ h₂ hrhs => ?_
    refine .bind (.spanOf (h₂.near _ hlhs)) fun _ _ h₃ hspan => .bind (.spanOf (h₃.near _ hrhs))
      fun _ _ _ hspan' => ?_
    exact addNode_reads (t.holds_cover hspan hspan')
  · exact .pure hlhs

end Expressions

section Declarations

theorem editClass_reads (owner : ClassId) {f : ClassDef → ClassDef} (hf : ∀ d, (f d).loc = d.loc) :
    Scans t c p (editClass owner f) := by
  refine .edit (fun h => ⟨h.nodes, h.vars, h.methods, h.functions, ?_, h.params⟩) id
    (.of_eq rfl (.refl _) rfl)
  refine forall_modify (g := ClassDef.loc) h.classes fun hv => ?_
  rw [hf]
  exact h.classes owner hv

theorem editModule_reads (m : ModuleId) {f : Module → Module} (hf : ∀ d, (f d).head = d.head) :
    Scans t c p (edit (·.modifyModule m f)) :=
  .edit (fun h => ⟨h.nodes, h.vars, h.methods, h.functions, h.classes, h.params⟩) id
    ⟨⟨map_modify_eq Module.head hf _ _, .refl _⟩, fun _ hi => ⟨hi.valid, hi.module, hi.span⟩⟩

theorem addFunction_reads {f : Function} (h : t.Known f.loc) : Scans t c p (addFunction f) :=
  .onProgram (fun hp => ⟨hp.nodes, hp.vars, hp.methods,
    forall_push (g := Function.loc) hp.functions h, hp.classes, hp.params⟩) id
    (.of_eq rfl (.refl _) rfl) trivial

/-- Only a method that is not given for a base may lack a body. -/
theorem addMethod_reads {method : Method} (h : t.Known method.loc)
    (hbody : method.base.isSome → method.body.isSome) :
    Scans t c p (onProgram fun p =>
      ((p.methods.push method).1, { p with methods := (p.methods.push method).2 })) := by
  refine .onProgram (fun hp =>
    ⟨hp.nodes, hp.vars, forall_push (g := Method.loc) hp.methods h, hp.functions, hp.classes,
      hp.params⟩) (fun hp m hm => ?_) (.of_eq rfl (.refl _) rfl) trivial
  have hget : (p.methods.push method).2.get m = _ := get_push _ _ _
  dsimp only at hm ⊢
  rw [hget] at hm ⊢
  split at hm
  · rename_i hnew
    rw [if_pos hnew]
    exact hbody hm
  · rename_i hold
    rw [if_neg hold]
    exact hp m hm

variable (hr : r.Read t)
include hr

theorem typedParams_reads : Scans t c p (typedParams r) :=
  .bind (.expect _) fun _ _ _ _ => .listUntil _ fun _ _ => typedParam_reads hr

theorem resultType_reads : Scans t c p (resultType r) := by
  refine .bind .peek fun token q _ _ => ?_
  split
  · exact .pure trivial
  · exact .pure trivial
  · exact .pure trivial
  · exact .map ((hr.type c q).post fun _ _ _ _ => trivial)

section

variable (owner : ClassId)
include owner

theorem method_reads (name : String) {span : Span} (hspan : t.Holds span) (base : Option Nat) :
    Scans t c p (method r owner name span base) := by
  unfold method
  refine .bind (typedParams_reads hr) fun params _ _ _ => .bind (resultType_reads hr)
    fun result _ _ _ => ?_
  refine .bind (.looking _) fun b q _ _ => ?_
  extract_lets finish
  have hfinish (body : Option NodeId) (hbody : base.isSome → body.isSome) (q : Program) :
    Scans t c q (finish body) := .bind (rootName_reads _) fun _ _ _ _ => .bind (.locate hspan)
    fun _ _ _ hloc => addMethod_reads hloc.2 hbody
  refine .get fun s _ _ => ?_
  split
  · exact .bind (.optional (callableBody_reads hr)) fun body q _ hbody =>
      hfinish body (fun _ => hbody) q
  · split
    · rename_i hif
      rw [Bool.and_eq_true, Option.isNone_iff_eq_none] at hif
      exact .bind endStatement_reads fun _ q _ _ => hfinish none (by simp [hif.2]) q
    · exact .failAt hspan rfl

theorem classParam_reads : Scans t c p (classParam r owner) := by
  unfold classParam
  refine .bind .expectIdent fun (name, span) _ _ hspan => .bind (.eat _) fun b q _ _ => ?_
  extract_lets finish
  have hfinish (boundRef : Option NodeId) (q : Program) : Scans t c q (finish boundRef) := by
    refine .bind (rootName_reads _) fun name q _ _ => .bind (.locate hspan) fun loc q _ hloc => ?_
    refine .edit (fun h => ⟨h.nodes, h.vars, h.methods, h.functions, ?_, ?_⟩) id
      (.of_eq rfl (.refl _) rfl)
    · exact forall_modify (g := ClassDef.loc) h.classes fun hv => h.classes owner hv
    · exact forall_push (g := ClassParam.loc) h.params hloc.2
  split
  · exact .bind (.optional (classRef_reads hr)) fun _ q _ _ => hfinish _ q
  · exact hfinish none q

theorem base_reads : Scans t c p (base r owner) := by
  unfold base
  refine .bind .advance fun _ _ _ _ => .bind (classRef_reads hr) fun reference _ _ _ => .get
    fun s _ _ => ?_
  extract_lets index
  refine .bind (editClass_reads owner fun d => by rfl) fun _ _ _ _ => .bind (.eat _)
    fun b _ _ _ => ?_
  split
  · refine .bind (.repeatFrom (I := fun _ _ => True) trivial fun _ _ _ _ => .bind (.looking _)
      fun b _ _ _ => ?_) fun _ _ _ _ => .bind (.expect _) fun _ _ _ _ => .pure trivial
    split
    · exact .pure trivial
    · refine .bind (.eat _) fun b _ _ _ => ?_
      split
      · exact .pure trivial
      · refine .bind .expectIdent fun (name, span) _ _ hspan =>
          .bind (method_reads hr owner name hspan _) fun _ _ _ _ => ?_
        exact .bind (editClass_reads owner fun d => by rfl) fun _ _ _ _ => .pure trivial
  · exact .pure trivial

theorem member_reads : Scans t c p (member r owner) := by
  unfold member
  refine .bind .expectIdent fun (name, span) _ _ hspan => .bind (.eat _) fun b _ _ _ => ?_
  split
  · refine .bind (hr.expression _ _) fun init _ _ _ => .bind endStatement_reads fun _ _ _ _ => ?_
    refine .bind (rootName_reads _) fun name _ _ _ => .bind (.locate hspan) fun loc _ _ hloc => ?_
    exact .bind (addVar_reads hloc.2) fun _ _ _ _ => editClass_reads owner fun d => by rfl
  · exact .bind (method_reads hr owner name hspan _) fun _ _ _ _ =>
      editClass_reads owner fun d => by rfl

theorem classMembers_reads : Scans t c p (classMembers r owner) := by
  unfold classMembers
  refine .bind (.expect _) fun _ _ _ _ =>
    .bind (.repeatFrom (I := fun _ _ => True) trivial fun _ _ _ _ => .bind .peek fun token _ _ _ =>
      ?_) fun _ _ _ _ => .bind (.expect _) fun _ _ _ _ => .pure trivial
  split
  · exact .pure trivial
  · exact .bind .advance fun _ _ _ _ => .pure trivial
  · exact .bind (base_reads hr owner) fun _ _ _ _ => .pure trivial
  · exact .bind (member_reads hr owner) fun _ _ _ _ => .pure trivial

end

theorem classDecl_reads (isInterface : Bool) : Scans t c p (classDecl r isInterface) := by
  unfold classDecl
  refine .bind .advance fun _ _ _ _ => .bind .expectIdent fun (name, span) _ _ hspan =>
    .read fun _ => ?_
  refine .bind (childName_reads _ _) fun name _ _ _ => .bind (.locate hspan) fun loc q _ hloc => ?_
  refine .bind (.onProgram (Q := fun _ _ => True)
    (fun h => ⟨h.nodes, h.vars, h.methods, h.functions,
      forall_push (g := ClassDef.loc) h.classes hloc.2, h.params⟩) id
    ⟨⟨map_modify_eq Module.head (fun _ => by rfl) _ _, .refl _⟩, fun _ hi =>
      ⟨hi.valid, hi.module, hi.span⟩⟩ trivial) fun owner _ _ _ => .bind (.eat _) fun b q _ _ => ?_
  extract_lets finish
  have hfinish (q : Program) : Scans t c q (finish ()) :=
    .withReader rfl (classMembers_reads hr owner)
  split
  · exact .bind (.listUntil _ fun _ _ => classParam_reads hr owner) fun _ q _ _ => hfinish q
  · exact hfinish q

theorem functionDecl_reads : Scans t c p (functionDecl r) := by
  unfold functionDecl
  refine .bind .advance fun _ _ _ _ => .bind .expectIdent fun (name, span) _ _ hspan =>
    .read fun _ => ?_
  refine .bind (childName_reads _ _) fun name _ _ _ => .bind (typedParams_reads hr)
    fun params _ _ _ => ?_
  refine .bind (resultType_reads hr) fun result _ _ _ => .bind (.looking _) fun b q _ _ => ?_
  extract_lets finish
  have hfinish (body : Option NodeId) (q : Program) : Scans t c q (finish body) :=
    .bind (.locate hspan) fun _ _ _ hloc => .bind (addFunction_reads hloc.2) fun _ _ _ _ =>
      editModule_reads _ fun d => by rfl
  split
  · exact .bind (.optional (callableBody_reads hr)) fun _ q _ _ => hfinish _ q
  · exact .bind endStatement_reads fun _ q _ _ => hfinish none q

theorem localDecl_reads (topLevel : Bool) (name : String) :
    Scans t c p (localDecl r topLevel name) := by
  unfold localDecl
  refine .bind .advance fun start _ _ hstart => .bind .advance fun _ _ _ _ =>
    .bind (hr.expression _ _) fun init _ _ _ => ?_
  refine .bind endStatement_reads fun _ _ _ _ => .bind (rootName_reads _) fun name _ _ _ =>
    .bind (.locate hstart) fun loc _ _ hloc => ?_
  refine .bind (addVar_reads hloc.2) fun var _ _ _ => .bind (hr.statements _ _ _)
    fun body _ _ _ => ?_
  exact .bind (.spanFrom hstart) fun _ _ _ hspan => (addNode_reads hspan).post
    fun _ _ _ _ => trivial

omit hr in
theorem statementsEnd_reads (topLevel : Bool) : Scans t c p (statementsEnd topLevel) := by
  refine .bind .peek fun token q _ _ => ?_
  split
  · split
    · exact .pure trivial
    · exact .failWanting _
  · split
    · exact .failWanting _
    · exact .pure trivial
  · exact .pure trivial

theorem statements_reads (topLevel : Bool) : Scans t c p (statements r topLevel) := by
  refine .repeatFrom trivial fun stmts _ _ _ => ?_
  unfold statement
  refine .bind (statementsEnd_reads topLevel) fun b _ _ _ => ?_
  split
  · exact .pure trivial
  refine .bind .peek fun next _ _ _ => .bind .peekSecond fun second _ _ _ => ?_
  split
  · exact .bind .advance fun _ _ _ _ => .pure trivial
  · exact .bind (localDecl_reads hr topLevel _) fun _ _ _ _ => .pure trivial
  · split
    · exact .bind (classDecl_reads hr _) fun _ _ _ _ => .pure trivial
    · split
      · exact .bind (functionDecl_reads hr) fun _ _ _ _ => .pure trivial
      · exact .bind (expression_reads hr) fun _ _ _ _ => .bind endStatement_reads fun _ _ _ _ =>
          .pure trivial

end Declarations

/-- The levels of nesting are read one inside another. -/
theorem rules_read (n : Nat) : (rules n).Read t := by
  induction n with
  | zero =>
    exact ⟨fun _ _ => .failWanting _, fun _ _ => .failWanting _, fun _ _ => .failWanting _,
      fun _ _ => .failWanting _, fun _ _ _ => .failWanting _⟩
  | succ n ih =>
    exact ⟨fun _ _ => expression_reads ih, fun _ _ => guarded_reads ih, fun _ _ => unary_reads ih,
      fun _ _ => typeExpr_reads ih, fun topLevel _ _ => statements_reads ih topLevel⟩

theorem version_reads : Scans t c p version := by
  refine .bind (.eat _) fun b q _ _ => ?_
  split
  · refine .bind .peek fun token q _ _ => ?_
    split
    · split
      · exact .bind .advance fun _ _ _ _ => .pure trivial
      · exact .failWanting _
    · exact .failWanting _
  · exact .pure trivial

/-- The places that a header names are in the text. -/
theorem header_reads :
    Reads t c p header fun h _ => (∀ x, h.name = some x → t.Holds x.2) ∧
      ∀ x ∈ h.imports, t.Holds x.2.2 := by
  unfold header
  refine .bind (.eat _) fun b q _ _ => ?_
  extract_lets imports
  have himports (name : Option (String × Span)) (hname : ∀ x, name = some x → t.Holds x.2)
      (declared : Nat) (q : Program) : Reads t c q (imports () name declared) fun h _ =>
      (∀ x, h.name = some x → t.Holds x.2) ∧ ∀ x ∈ h.imports, t.Holds x.2.2 := by
    refine .bind (.repeatFrom
      (I := fun (items : List (String × Nat × Span)) _ => ∀ x ∈ items, t.Holds x.2.2) nofun
      fun items _ _ hitems => .bind (.looking _) fun b _ _ _ => ?_) fun _ _ _ hitems =>
      .pure ⟨hname, hitems⟩
    split
    · refine .bind .advance fun start _ _ hstart => .bind .expectIdent fun _ _ _ _ =>
        .bind version_reads fun _ _ _ _ => ?_
      refine .bind (.expect _) fun _ _ _ _ => .bind (.spanFrom hstart) fun _ _ _ hspan => .pure ?_
      exact List.forall_mem_append.2 ⟨hitems, List.forall_mem_singleton.2 hspan⟩
    · exact .pure hitems
  split
  · refine .bind .expectIdent fun ident _ _ hident => .bind version_reads fun _ _ _ _ =>
      .bind (.expect _) fun _ q _ _ => ?_
    refine himports _ ?_ _ q
    rintro _ ⟨⟩
    exact hident
  · exact himports none nofun 0 q

theorem moduleBody_reads : Scans t c p moduleBody := by
  unfold moduleBody
  refine .bind .peekSpan fun start _ _ hstart => .bind (addNode_reads hstart)
    fun block _ _ hblock => .get fun s _ _ => ?_
  extract_lets depth
  refine .bind (.withReader rfl ((rules_read _).statements _ _ _)) fun stmts _ h₁ _ => ?_
  split
  · exact .pure trivial
  · refine .bind (finishNode_reads (h₁.near _ hblock) hstart) fun _ _ h₂ _ => .read fun _ =>
      .bind (childName_reads _ _) fun name _ h₃ _ => ?_
    refine .get fun s hs _ => ?_
    extract_lets loc
    refine .bind (addFunction_reads ?_) fun _ _ _ _ => editModule_reads _ fun d => by rfl
    show t.Known (s.program.loc block)
    rw [hs]
    exact (((h₁.trans h₂).trans h₃).near _ hblock).known

end ClassLang.Grammar
