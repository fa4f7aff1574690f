import ClassLang.Proofs.Build
import ClassLang.Proofs.Grammar.Header
import ClassLang.Proofs.Leads

namespace ClassLang

open Arena List Program

namespace Program

structure New (p q : Program) (v : VarId) : Prop where
  fresh : ¬ p.vars.Valid v
  valid : q.vars.Valid v
  unbound : q.Unbound v
  unclaimed : q.Unclaimed v

variable {p q r : Program} {v : VarId} {O : NodeId → Prop}

theorem New.step (h : p.New q v) (h' : q.Built O r) : p.New r v :=
  ⟨h.fresh, h'.ext.vars v h.valid, h'.guards v h.valid h.unbound, h'.owners v h.valid h.unclaimed⟩

theorem New.since (h : q.New r v) (h' : p.Built O q) : p.New r v :=
  { h with fresh := fun hv => h.fresh (h'.ext.vars v hv) }

end Program

namespace Grammar

variable {α β σ : Type} {O : NodeId → Prop} {c : Context} {p₀ p q : Program} {m : Parse α}
  {k : α → Parse β} {Q : α → Program → Prop} {P : β → Program → Prop}

/-- What a rule makes of a program `p`, seen from the earlier program `p₀`. -/
abbrev Builds (O : NodeId → Prop) (c : Context) (p₀ p : Program) (m : Parse α)
    (Q : α → Program → Prop) : Prop :=
  Leads c (p₀.Built O) p m Q

abbrev Plants (O : NodeId → Prop) (c : Context) (z : Zone) (p : Program) (m : Parse NodeId) :
    Prop :=
  Builds O c p p m fun i q => q.Made p.nodes.size z i

structure Ground (O : NodeId → Prop) (c : Context) (z : Zone) (p : Program) : Prop where
  shaped : p.Shaped
  untyped : p.Untyped
  sown : p.Sown O
  owner : z.owner = c.owner
  targets : ∀ i ∈ z.targets, (p.form i).isTarget

structure Place (O : NodeId → Prop) (c : Context) (z : Zone) (p : Program) :
    Prop extends Ground O c z p where
  loop : ∀ i, c.loop = some i → i ∈ z.targets
  body : ∀ i, c.body = some i → i ∈ z.targets

variable {z : Zone}

section

variable (h : Ground O c z p)
include h

theorem Ground.step (h' : p.Built O q) : Ground O c z q :=
  ⟨h'.shaped, h'.untyped, h'.sown, h.owner, fun i hi => h'.ext.targets i (h.targets i hi)⟩

theorem Ground.refl : p.Built O p := .refl h.shaped h.untyped h.sown

theorem Ground.opened (t : NodeId) (ht : O t) : t.index < p.nodes.size :=
  (h.sown.forest.aloof t ht).1

theorem Ground.closed : Ground O c z.closed p := { h with targets := nofun }

end

theorem Place.step (h : Place O c z p) (h' : p.Built O q) : Place O c z q :=
  { h with toGround := h.toGround.step h' }

theorem Place.refl (h : Place O c z p) : p.Built O p := h.toGround.refl

theorem Ground.entering (h : Ground O c z p) {i : NodeId} (hi : (p.form i).isTarget) :
    Ground O c (z.entering i) p :=
  { h with targets := forall_mem_cons.2 ⟨hi, h.targets⟩ }

theorem Place.entering (h : Place O c z p) {i : NodeId} (hi : (p.form i).isTarget) :
    Place O c (z.entering i) p where
  toGround := h.toGround.entering hi
  loop j hj := mem_cons_of_mem i (h.loop j hj)
  body j hj := mem_cons_of_mem i (h.body j hj)

/-- What `break` leaves is made before what is in it. -/
theorem Place.inLoop (h : Place O c z p) {i : NodeId} (hi : (p.form i).isTarget) :
    Place O { c with loop := some i } (z.entering i) p where
  toGround := { h.toGround.entering hi with }
  loop := by
    rintro _ ⟨⟩
    exact mem_cons_self
  body j hj := mem_cons_of_mem i (h.body j hj)

/-- What `return` leaves is made before what is in it. -/
theorem Ground.inBody (h : Ground O c z p) {i : NodeId} (hi : (p.form i).isTarget) :
    Place O { c with body := some i, loop := none } (z.closed.entering i) p where
  toGround := { h.closed.entering hi with }
  loop := nofun
  body := by
    rintro _ ⟨⟩
    exact mem_cons_self

def Quiet (m : Parse α) : Prop := ∀ c s a s', m c s = .ok a s' → s'.program = s.program

namespace Quiet

theorem bind (h : Quiet m) (hk : ∀ a, Quiet (k a)) : Quiet (m >>= k) := by
  intro c s b s'' hm
  rw [show (m >>= k) c s = EStateM.bind (m c) (fun a => k a c) s from rfl, EStateM.bind] at hm
  split at hm
  · exact (hk _ c _ b s'' hm).trans (h c s _ _ ‹_›)
  · cases hm

theorem pure (a : α) : Quiet (Pure.pure a : Parse α) := by
  rintro c s _ _ ⟨⟩
  rfl

theorem get : Quiet (MonadState.get : Parse State) := by
  rintro c s _ _ ⟨⟩
  rfl

theorem read : Quiet (MonadReader.read : Parse Context) := by
  rintro c s _ _ ⟨⟩
  rfl

theorem peekSecond : Quiet peekSecond := get.bind fun _ => .pure _

theorem spanOf (i : NodeId) : Quiet (spanOf i) := get.bind fun _ => .pure _

theorem locate (span : Span) : Quiet (locate span) := read.bind fun _ => .pure _

theorem of_detached (h : Detached m) : Quiet m := fun c s a s' hm => (h c s a s' hm).1

theorem peek : Quiet peek := of_detached .peek

theorem peekSpan : Quiet peekSpan := of_detached .peekSpan

theorem spanFrom (start : Span) : Quiet (spanFrom start) := of_detached (.spanFrom start)

theorem advance : Quiet advance := of_detached .advance

theorem failWanting (wanted : Wanted) : Quiet (failWanting wanted : Parse α) :=
  of_detached (.failWanting wanted)

theorem looking (t : Token) : Quiet (looking t) := of_detached (.looking t)

theorem eat (t : Token) : Quiet (eat t) := of_detached (.eat t)

theorem expect (t : Token) : Quiet (expect t) := of_detached (.expect t)

theorem expectIdent : Quiet expectIdent := of_detached .expectIdent

end Quiet

namespace Builds

variable {close : Symbol}

theorem quiet (hm : Quiet m) (hk : ∀ a, Builds O c p₀ p (k a) P) : Builds O c p₀ p (m >>= k) P :=
  LeadsOr.bind (S := (· = p)) (Q := fun _ _ => True)
    (Leads.of_ok fun s a s' hs h => ⟨(hm c s a s' h).trans hs, trivial⟩) fun a _ hq _ => hq ▸ hk a

theorem of_quiet (h : p₀.Built O p) (hm : Quiet m) : Builds O c p₀ p m fun _ _ => True := by
  refine Leads.of_ok fun s a s' hs hm' => ?_
  have hp : Carrier.program s' = p := (hm c s a s' hm').trans hs
  exact ⟨hp ▸ h, trivial⟩

theorem bind (hm : Builds O c p₀ p m Q)
    (hk : ∀ a q, p₀.Built O q → Q a q → Builds O c p₀ q (k a) P) : Builds O c p₀ p (m >>= k) P :=
  LeadsOr.bind hm hk

theorem call (h : p₀.Built O p) (hm : Builds O c p p m Q)
    (hk : ∀ a q, p₀.Built O q → p.Built O q → Q a q → Builds O c p₀ q (k a) P) :
    Builds O c p₀ p (m >>= k) P :=
  LeadsOr.bind hm fun a q hq => hk a q (h.trans hq) hq

theorem read {k : Context → Parse β} (h : Builds O c p₀ p (k c) P) :
    Builds O c p₀ p (MonadReader.read >>= k) P := h

theorem since (h : p₀.Built O p) (hm : Builds O c p p m Q) : Builds O c p₀ p m Q :=
  hm.imp fun _ _ hq hQ => ⟨h.trans hq, hQ⟩

theorem failAt (cause : ParseCause) (span : Span) : Builds O c p₀ p (failAt cause span) Q :=
  fun _ _ => trivial

theorem failWanting (wanted : Wanted) : Builds O c p₀ p (failWanting wanted) Q := fun _ _ => trivial

theorem onProgram {f : Program → α × Program} (h : p₀.Built O (f p).2) (hQ : Q (f p).1 (f p).2) :
    Builds O c p₀ p (onProgram f) Q := by
  rintro s rfl
  exact ⟨h, hQ⟩

theorem edit {f : Program → Program} (h : p₀.Built O (f p)) :
    Builds O c p₀ p (edit f) fun _ q => q = f p := by
  rintro s rfl
  exact ⟨h, rfl⟩

theorem repeatFrom {step : σ → Parse (ForInStep σ)} {I : σ → Program → Prop} {a : σ}
    (h : p₀.Built O p) (hI : I a p)
    (hstep : ∀ a q, p₀.Built O q → I a q → Builds O c p₀ q (step a) fun r => I r.value) :
    Builds O c p₀ p (repeatFrom step a) I := by
  refine quiet .get fun s => ?_
  generalize s.rest.length + 1 = n
  induction n generalizing a p with
  | zero => exact .pure h hI
  | succ n ih =>
    refine .bind (hstep a p h hI) fun r q hq hr => ?_
    cases r with
    | done b => exact .pure hq hr
    | yield b => exact ih hq hr

theorem listUntil {item : Parse α} {I : List α → Program → Prop} (h : p₀.Built O p) (hI : I [] p)
    (hitem : ∀ items q, p₀.Built O q → I items q → Builds O c p₀ q item fun a => I (items ++ [a])) :
    Builds O c p₀ p (listUntil close item) I := by
  refine .bind (repeatFrom h hI fun items q hq hI => ?_) fun items q hq hI =>
    quiet (.expect _) fun _ => .pure hq hI
  refine quiet (.looking _) fun b => ?_
  split
  · exact .pure hq hI
  · refine .bind (hitem items q hq hI) fun a r hr hI => quiet (.eat _) fun b => ?_
    split <;> exact .pure hr hI

theorem some {m : Parse NodeId} {lo : Nat} (h : Builds O c p₀ p m fun i q => q.Made lo z i) :
    Builds O c p₀ p (Option.some <$> m) fun o q => q.Sprouts lo (o.toList.map (z, ·)) :=
  LeadsOr.map (h.post fun _ _ _ hi => .single hi)

theorem nodesUntil {item : Parse NodeId} {lo : Nat} {xs : List (Zone × NodeId)} (h : p₀.Built O p)
    (hlo : lo ≤ p.nodes.size) (hxs : p.Sprouts lo xs)
    (hitem : ∀ q, p₀.Built O q → Builds O c q q item fun i r => r.Made q.nodes.size z i) :
    Builds O c p₀ p (Grammar.listUntil close item) fun is q =>
      q.Sprouts lo (xs ++ is.map (z, ·)) := by
  refine (listUntil (I := fun is q => lo ≤ q.nodes.size ∧ q.Sprouts lo (xs ++ is.map (z, ·))) h
    ⟨hlo, by simpa⟩ fun is q hq ⟨hlo, hI⟩ => ?_).post fun _ _ _ h => h.2
  refine (hitem q hq).imp fun i r hr hi => ⟨hq.trans hr, Nat.le_trans hlo hr.kept.nodes, ?_⟩
  simpa using hI.snoc hr.kept hlo hi

end Builds

section Parts

variable {form : Form} {span : Span} {i : NodeId} {lo : Nat} {var : Var}

section

variable (h : p₀.Built O p)
include h

theorem rootName_builds (segment : String) : Builds O c p₀ p (rootName segment) fun _ _ => True :=
  .onProgram (h.names _) trivial

theorem childName_builds (parent : NameId) (segment : String) :
    Builds O c p₀ p (childName parent segment) fun _ _ => True :=
  .onProgram (h.names _) trivial

/-- A guard takes a binding that is new since `p₀`; it is in use from then on. -/
theorem addNode_builds (hform : p.Admits form)
    (hguard : ∀ x y b, form = .guard x y b → p₀.New p b) :
    Builds O c p₀ p (addNode form span) fun i q => i = ⟨p.nodes.size⟩ ∧ q.nodes.Valid i ∧
      q.form i = form ∧ p.Retains q ∧ ¬ q.Taken i := by
  refine .quiet (.locate _) fun loc => .onProgram ?_ ⟨rfl, ?_, ?_, ?_, fun ht => ?_⟩
  · exact h.addNode hform fun x y b hb => ⟨(hguard x y b hb).unbound, (hguard x y b hb).fresh⟩
  · exact valid_push.2 (.inr rfl)
  · exact (form_addNode p form loc _).trans (if_pos rfl)
  · exact ((Built.refl h.shaped h.untyped h.sown).spread _ (by simp [Program.addNode])
      (fun j hj => form_addNode_of_valid hj) (.refl _) (.refl _) (fun r => by cases r <;> rfl)
      (fun r _ => by cases r <;> rfl) fun _ => rfl).1
  · have ht' : p.Taken ⟨p.nodes.size⟩ := taken_addNode h.shaped h.sown.forest ht
    exact not_valid_size _ (h.shaped.valid_of_taken h.sown.forest ht')

section

variable (hraw : p.Raw z form) (hlo : lo ≤ p.nodes.size)
  (hparts : p.Sprouts lo (p.parts z ⟨p.nodes.size⟩ form))
include hraw hlo hparts

theorem node_builds (hguard : ∀ x y b, form = .guard x y b → p₀.New p b) :
    Builds O c p₀ p (addNode form span) fun i q => q.Made lo z i ∧
      q.form i = form ∧ p.Retains q := by
  have hadmits := hraw.admits hparts.valid
  refine (addNode_builds h hadmits hguard).post fun i q hq ⟨hi, hvalid, hform, hkept, hfree⟩ =>
    ⟨?_, hform, hkept⟩
  subst hi
  have hraw' : q.Raw z form := by
    refine hraw.of_grows hkept.vars hkept.lambdas (fun _ => hkept.targets) fun x hx j hj => ?_
    obtain ⟨z', hx⟩ := exists_zone hx z ⟨p.nodes.size⟩
    have hmade := hparts.made _ hx
    have hj' := (hmade.step hkept).2 j hj
    exact ⟨hj', hkept.forms j (hmade.since j hj').2⟩
  rw [← hform] at hraw hraw' hparts
  exact .node hkept hraw' hraw hparts hlo (not_valid_size _) hvalid hfree

theorem tree_builds (hguard : ∀ x y b, form ≠ .guard x y b) :
    Builds O c p₀ p (addNode form span) fun i q => q.Made lo z i :=
  (node_builds h hraw hlo hparts fun x y b hb => (hguard x y b hb).elim).post fun _ _ _ h => h.1

end

/-- The binding is new, so that no other guard has it. -/
theorem guard_builds {cond yes : NodeId} {b : VarId} (hlo : lo ≤ p.nodes.size)
    (hparts : p.Sprouts lo [(z, cond), (z, yes)]) (hnew : p₀.New p b)
    (hrole : (p.vars.get b).role = .binding) :
    Builds O c p₀ p (addNode (.guard cond yes b) span) fun i q => q.Made lo z i ∧ p.Retains q := by
  refine (node_builds h (by exact hrole) hlo (by exact hparts) ?_).post fun _ _ _ h => ⟨h.1, h.2.2⟩
  rintro _ _ _ ⟨⟩
  exact hnew

theorem finishNode_builds {q : Program}
    (hi : i = ⟨lo⟩ ∧ q.nodes.Valid i ∧ (q.form i).isTarget ∧ ¬ q.Taken i) (hlo : p₀.nodes.size ≤ lo)
    (hq : q.Retains p) {body : List NodeId} (hform : form = .block body ∨ form = .loop body)
    (hparts : p.Sprouts q.nodes.size (body.map (z.entering i, ·))) (start : Span) :
    Builds O c p₀ p (finishNode i form start) fun _ r => r.Made lo z i := by
  obtain ⟨rfl, hvalid, hi, hfree⟩ := hi
  have hfree := hq.free hvalid hfree
  have hi := hq.targets hi
  have hparts := hparts.mono hvalid
  have htarget : form.isTarget := by rcases hform with rfl | rfl <;> rfl
  have hvalid : ∀ x ∈ form.children, p.nodes.Valid x := by
    rcases hform with rfl | rfl <;> exact fun x hx => (hparts.made _ (mem_map_of_mem hx)).valid
  have hafter : ∀ x ∈ form.children, ∀ j, p.Below x j → lo < j.index := by
    rcases hform with rfl | rfl <;> exact fun x hx j hj =>
      ((hparts.made _ (mem_map_of_mem hx)).since j hj).1
  refine .quiet (.spanFrom _) fun _ =>
    (Builds.edit (h.finishNode (fun _ => by rfl) (fun _ => by rfl) hi htarget hvalid hafter
      (Nat.not_lt.2 hlo) hfree)).post fun _ q _ hq => ?_
  subst hq
  exact .modifyNode (fun _ => by rfl) hi hfree hform hparts

section

variable (hinit : ∀ d, var.init = some d → p.nodes.Valid d)
  (hbinding : var.role = .binding → var.init = none) (hslot : var.slot = .empty)
include hinit hbinding hslot

theorem addVar_builds {s : List NodeId}
    (hfield : p.Sprouts p₀.nodes.size (var.fieldInit.map (⟨var.owner?, s⟩, ·))) (hs : ∀ t ∈ s, O t)
    (hclear : p.Clear O var.fieldInit) :
    Builds O c p₀ p (addVar var) fun v q => p.New q v ∧ q.vars.get v = var ∧
      (∀ v', v ≠ v' → q.vars.get v' = p.vars.get v') ∧ q.classes = p.classes := by
  have hfresh := not_valid_size p.vars
  refine .onProgram (h.addVar hinit hbinding hslot hfield hs hclear)
    ⟨⟨hfresh, ?_, h.shaped.unbound hfresh, h.shaped.unclaimed hfresh⟩, ?_, fun v' hv' => ?_, rfl⟩
  · exact valid_push.2 (.inr rfl)
  · exact (get_push ..).trans (if_pos rfl)
  · exact (get_push ..).trans (if_neg fun he => hv' he.symm)

theorem addPlainVar_builds (hplain : var.fieldInit = []) :
    Builds O c p₀ p (addVar var) fun v q => p.Built O q ∧ p.New q v ∧ q.vars.get v = var := by
  refine (addVar_builds (s := []) (.refl h.shaped h.untyped h.sown) hinit hbinding hslot ?_ nofun
    ?_).imp fun v q hq ⟨hnew, hget, _⟩ => ⟨h.trans hq, hq, hnew, hget⟩ <;> rw [hplain]
  · exact .nil _ _
  · exact fun _ _ => forall_mem_nil _

end

theorem addBinding_builds (cond : NodeId) :
    Builds O c p₀ p (addBinding cond) fun b q => p.New q b ∧ (q.vars.get b).role = .binding := by
  have hp := Built.refl h.shaped h.untyped h.sown
  refine .call h (rootName_builds hp _) fun name q hq hpq _ => .quiet (.spanOf _) fun _ =>
    .quiet (.locate _) fun _ => ?_
  refine (addPlainVar_builds hq (fun _ hd => by cases hd) (fun _ => rfl) rfl rfl).post
    fun b r _ ⟨_, hnew, hget⟩ => ?_
  exact ⟨hnew.since hpq, by rw [hget]⟩

theorem addTemp_builds {init : NodeId} (hinit : p.nodes.Valid init) :
    Builds O c p₀ p (addTemp init) fun t q => (q.vars.get t.1).role = .localVar ∧
      (q.vars.get t.1).init = some init := by
  have hp := Built.refl h.shaped h.untyped h.sown
  refine .quiet .get fun _ => .call h (rootName_builds hp _) fun name q hq hpq _ => ?_
  refine .quiet ?_ fun _ => .quiet .get fun _ => ?_
  · rintro c s _ _ ⟨⟩
    rfl
  · refine .bind (addPlainVar_builds hq ?_ nofun rfl rfl) fun v r hr ⟨_, _, hget⟩ => ?_
    · rintro _ ⟨⟩
      exact hpq.ext.nodes _ hinit
    · exact .pure hr (by rw [hget]; exact ⟨rfl, rfl⟩)

end

end Parts

/-- Rules that give trees. A type can be read anywhere, for there is no jump in it. Declarations
stand outside of classes. -/
structure Rules.Good (O : NodeId → Prop) (r : Rules) : Prop where
  expression : ∀ c z p, Place O c z p → Builds O c p p r.expression fun i q =>
    q.Made p.nodes.size z i
  guarded : ∀ c z p, Place O c z p → Builds O c p p r.guarded fun i q => q.Made p.nodes.size z i
  unary : ∀ c z p, Place O c z p → Builds O c p p r.unary fun i q => q.Made p.nodes.size z i
  type : ∀ c z p, Ground O c z p → Builds O c p p r.type fun i q =>
    q.Made p.nodes.size z i ∧ q.TypeText i
  statements : ∀ topLevel c z p, Place O c z p →
    (topLevel = true → z.owner = none ∧ ∀ t ∈ z.targets, O t) →
    Builds O c p p (r.statements topLevel) fun is q => q.Sprouts p.nodes.size (is.map (z, ·))

theorem Rules.Good.typeTree {r : Rules} (hr : r.Good O) (hp : Ground O c z p) :
    Plants O c z p r.type := (hr.type c z p hp).post fun _ _ _ h => h.1

end Grammar

end ClassLang
