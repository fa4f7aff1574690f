import ClassLang.Grammar.Basic
import ClassLang.Proofs.Arena
import ClassLang.Proofs.Grammar.Header
import ClassLang.Proofs.Yields

namespace ClassLang

open Arena Pool

def ParseCause.isGrammar : ParseCause → Bool
  | expected _ _ | missingBody _ | notAssignable | breakOutsideLoop | returnOutsideBody => true
  | _ => false

def Module.head (m : Module) : Module := { m with classes := [], functions := [], entry := none }

namespace Program

structure Placed (K : Location → Prop) (p : Program) : Prop where
  nodes : ∀ i, p.nodes.Valid i → K (p.loc i)
  vars : ∀ v, p.vars.Valid v → K (p.vars.get v).loc
  methods : ∀ m, p.methods.Valid m → K (p.methods.get m).loc
  functions : ∀ f, p.functions.Valid f → K (p.functions.get f).loc
  classes : ∀ c, p.classes.Valid c → K (p.classes.get c).loc
  params : ∀ a, p.params.Valid a → K (p.params.get a).loc

def Spot (p : Program) (loc : Location) : Prop := ∀ K, p.Placed K → K loc

def Bodied (p : Program) : Prop :=
  ∀ m, (p.methods.get m).base.isSome → (p.methods.get m).body.isSome

structure Heads (p q : Program) : Prop where
  modules : q.modules.map Module.head = p.modules.map Module.head
  names : p.names.Grows q.names

variable {p q r : Program}

@[refl] theorem Heads.refl (p : Program) : p.Heads p := ⟨rfl, .refl _⟩

theorem Heads.trans (h : p.Heads q) (h' : q.Heads r) : p.Heads r :=
  ⟨h'.modules.trans h.modules, h.names.trans h'.names⟩

theorem Placed.mono {K K' : Location → Prop} (h : p.Placed K) (hK : ∀ l, K l → K' l) :
    p.Placed K' :=
  ⟨fun i hi => hK _ (h.nodes i hi), fun v hv => hK _ (h.vars v hv), fun m hm =>
    hK _ (h.methods m hm), fun f hf => hK _ (h.functions f hf), fun c hc => hK _ (h.classes c hc),
    fun a ha => hK _ (h.params a ha)⟩

end Program

namespace Arena

variable {e : Entity} {α β : Type} [Inhabited α] {a : Arena e α} {g : α → β} {K : β → Prop}

theorem forall_push (h : ∀ i, a.Valid i → K (g (a.get i))) {x : α} (hx : K (g x)) :
    ∀ i, (a.push x).2.Valid i → K (g ((a.push x).2.get i)) := by
  intro i hi
  rw [get_push]
  split
  · exact hx
  · rename_i hne
    exact h i ((valid_push.1 hi).resolve_right hne)

theorem forall_modify (h : ∀ i, a.Valid i → K (g (a.get i))) {i : Id e} {f : α → α}
    (hf : a.Valid i → K (g (f (a.get i)))) :
    ∀ j, (a.modify i f).Valid j → K (g ((a.modify i f).get j)) := by
  intro j hj
  rw [get_modify]
  split
  · rename_i hij
    exact hij.1 ▸ hf hij.2
  · exact h j (valid_modify.1 hj)

end Arena

namespace Grammar

/-- The text of a module, as far as places in it go, among texts in which `Known` holds of all
places. -/
structure Page where
  module : ModuleId
  Holds : Span → Prop
  Known : Location → Prop
  holds_zero : Holds ⟨0, 0⟩
  holds_cover : ∀ {a b : Span}, Holds a → Holds b → Holds (a.cover b)
  known : ∀ {a : Span}, Holds a → Known ⟨some module, a⟩

variable {α β σ : Type} {t : Page} {c : Context} {p q r : Program} {m : Parse α} {k : α → Parse β}
  {Q Q' : α → Program → Prop} {P : β → Program → Prop} {start : Span}

namespace Page

structure Near (t : Page) (p : Program) (i : NodeId) : Prop where
  valid : p.nodes.Valid i
  module : (p.loc i).module? = some t.module
  span : t.Holds (p.span i)

/-- What is still to be read is from this text, and all parts of the program are at known places. -/
structure Fits (t : Page) (s : State) : Prop where
  last : ∀ l, s.last = some l → t.Holds l.span
  rest : ∀ l ∈ s.rest, t.Holds l.span
  placed : s.program.Placed t.Known
  bodied : s.program.Bodied

structure Follows (t : Page) (p q : Program) : Prop extends p.Heads q where
  near : ∀ i, t.Near p i → t.Near q i

theorem Near.known {i : NodeId} (h : t.Near p i) : t.Known (p.loc i) := by
  have hloc : p.loc i = ⟨some t.module, p.span i⟩ := by rw [← h.module, Program.span]
  rw [hloc]
  exact t.known h.span

@[refl] theorem Follows.refl (t : Page) (p : Program) : t.Follows p p := ⟨.refl p, fun _ => id⟩

theorem Follows.trans (h : t.Follows p q) (h' : t.Follows q r) : t.Follows p r :=
  ⟨h.toHeads.trans h'.toHeads, fun i hi => h'.near i (h.near i hi)⟩

theorem Follows.of_eq (hmodules : q.modules = p.modules) (hnames : p.names.Grows q.names)
    (hnodes : q.nodes = p.nodes) : t.Follows p q := by
  have hloc (i : NodeId) : q.loc i = p.loc i := by rw [Program.loc, hnodes, Program.loc]
  refine ⟨⟨by rw [hmodules], hnames⟩, fun i hi => ⟨?_, ?_, ?_⟩⟩
  · rw [hnodes]
    exact hi.valid
  · rw [hloc]
    exact hi.module
  · rw [Program.span, hloc]
    exact hi.span

end Page

/-- Reading at most adds parts at known places, and what it complains about is at a known place. -/
def Reads (t : Page) (c : Context) (p : Program) (m : Parse α) (Q : α → Program → Prop) : Prop :=
  c.module = t.module → ∀ s, s.program = p → t.Fits s →
    Yields s (m c) (fun a s' => t.Fits s' ∧ t.Follows p s'.program ∧ Q a s'.program)
      fun e s' => p.Heads s'.program ∧ t.Known e.loc ∧ e.cause.isGrammar

abbrev Scans (t : Page) (c : Context) (p : Program) (m : Parse α) : Prop :=
  Reads t c p m fun _ _ => True

abbrev Finds (t : Page) (c : Context) (p : Program) (m : Parse NodeId) : Prop :=
  Reads t c p m fun i q => t.Near q i

namespace Reads

theorem bind (h : Reads t c p m Q) (hk : ∀ a q, t.Follows p q → Q a q → Reads t c q (k a) P) :
    Reads t c p (m >>= k) P := by
  refine fun hc s hs hfits => Yields.bind (m := m c) (h hc s hs hfits)
    fun a s' ⟨hfits', hfollows, hq⟩ => ?_
  exact (hk a _ hfollows hq hc s' rfl hfits').imp (fun _ _ h => ⟨h.1, hfollows.trans h.2.1, h.2.2⟩)
    fun _ _ h => ⟨hfollows.toHeads.trans h.1, h.2⟩

theorem post (h : Reads t c p m Q) (hQ : ∀ a q, t.Follows p q → Q a q → Q' a q) :
    Reads t c p m Q' :=
  fun hc s hs hfits => (h hc s hs hfits).post fun a _ ⟨hfits', hfollows, hq⟩ =>
    ⟨hfits', hfollows, hQ a _ hfollows hq⟩

theorem pure {a : α} (h : Q a p) : Reads t c p (Pure.pure a) Q := by
  rintro _ s rfl hfits
  exact ⟨hfits, .refl _ _, h⟩

theorem map {f : α → β} (h : Reads t c p m fun a => P (f a)) : Reads t c p (f <$> m) P := by
  rw [← bind_pure_comp]
  exact .bind h fun a q _ hq => .pure hq

theorem optional (h : Reads t c p m Q) : Reads t c p (Option.some <$> m) fun o _ => o.isSome :=
  .map (h.post fun _ _ _ _ => rfl)

theorem get {k : State → Parse β} (h : ∀ s, s.program = p → t.Fits s → Reads t c p (k s) P) :
    Reads t c p (MonadState.get >>= k) P := by
  rintro hc s rfl hfits
  exact h s rfl hfits hc s rfl hfits

theorem read {k : Context → Parse β} (h : c.module = t.module → Reads t c p (k c) P) :
    Reads t c p (MonadReader.read >>= k) P := fun hc => h hc hc

theorem withReader {g : Context → Context} (hg : (g c).module = c.module)
    (h : Reads t (g c) p m Q) : Reads t c p (withReader g m) Q := fun hc => h (hg.trans hc)

theorem failAt {span : Span} {cause : ParseCause} (h : t.Holds span) (hcause : cause.isGrammar) :
    Reads t c p (failAt cause span) Q := by
  rintro hc s rfl _
  refine ⟨.refl _, ?_, hcause⟩
  show t.Known ⟨some c.module, span⟩
  rw [hc]
  exact t.known h

theorem peek : Scans t c p peek := get fun _ _ _ => .pure trivial

theorem peekSecond : Scans t c p peekSecond := get fun _ _ _ => .pure trivial

theorem peekSpan : Reads t c p peekSpan fun span _ => t.Holds span := by
  refine get fun s _ hfits => .pure ?_
  cases hrest : s.rest with
  | nil => exact t.holds_zero
  | cons l rest => exact hfits.rest l (hrest ▸ List.mem_cons_self)

theorem lastSpan : Reads t c p lastSpan fun span _ => t.Holds span := by
  refine get fun s _ hfits => .pure ?_
  cases hlast : s.last with
  | none => exact t.holds_zero
  | some l => exact hfits.last l hlast

theorem spanFrom (h : t.Holds start) : Reads t c p (spanFrom start) fun span _ => t.Holds span :=
  lastSpan.bind fun _ _ _ hlast => .pure (t.holds_cover h hlast)

theorem spanOf {i : NodeId} (h : t.Near p i) : Reads t c p (spanOf i) fun span _ => t.Holds span :=
  get fun _ hs _ => .pure (hs ▸ h.span)

theorem locate {span : Span} (h : t.Holds span) : Reads t c p (locate span) fun loc _ =>
    loc = ⟨some t.module, span⟩ ∧ t.Known loc :=
  read fun hc => .pure ⟨by rw [hc], hc ▸ t.known h⟩

theorem advance : Reads t c p advance fun span _ => t.Holds span := by
  rintro _ s rfl hfits
  rw [Yields, advance_apply]
  cases hrest : s.rest with
  | nil => exact ⟨{ hfits with rest := List.forall_mem_nil _ }, .refl _ _, t.holds_zero⟩
  | cons l rest =>
    have hspans := hfits.rest
    rw [hrest, List.forall_mem_cons] at hspans
    refine ⟨⟨?_, hspans.2, hfits.placed, hfits.bodied⟩, .refl _ _, hspans.1⟩
    rintro _ ⟨⟩
    exact hspans.1

theorem failWanting (wanted : Wanted) : Reads t c p (failWanting wanted : Parse α) Q :=
  peek.bind fun _ _ _ _ => peekSpan.bind fun _ _ _ hspan => .failAt hspan rfl

theorem looking (token : Token) : Scans t c p (looking token) :=
  peek.bind fun _ _ _ _ => .pure trivial

theorem eat (token : Token) : Scans t c p (eat token) := by
  refine (looking token).bind fun b q _ _ => ?_
  split
  · exact advance.bind fun _ _ _ _ => .pure trivial
  · exact .pure trivial

theorem expect (token : Token) : Reads t c p (expect token) fun span _ => t.Holds span := by
  refine (looking token).bind fun b q _ _ => ?_
  split
  · exact advance
  · exact .failWanting _

theorem expectIdent : Reads t c p expectIdent fun ident _ => t.Holds ident.2 := by
  refine peek.bind fun token q _ _ => ?_
  split
  · exact advance.bind fun _ _ _ hspan => .pure hspan
  · exact .failWanting _

theorem repeatFrom {step : σ → Parse (ForInStep σ)} {I : σ → Program → Prop} {a : σ} (hI : I a p)
    (hstep : ∀ a q, t.Follows p q → I a q → Reads t c q (step a) fun r => I r.value) :
    Reads t c p (repeatFrom step a) I := by
  refine get fun s _ _ => ?_
  generalize s.rest.length + 1 = n
  have hfrom (q : Program) (hq : t.Follows p q) (a : σ) (hI : I a q) :
      Reads t c q (repeatUpTo step n a) I := by
    induction n generalizing q a with
    | zero => exact .pure hI
    | succ n ih =>
      refine .bind (hstep a q hq hI) fun r q' hq' hr => ?_
      cases r with
      | done b => exact .pure hr
      | yield b => exact ih q' (hq.trans hq') b hr
  exact hfrom p (.refl _ _) a hI

theorem listUntil {item : Parse α} (close : Symbol)
    (hitem : ∀ q, t.Follows p q → Scans t c q item) : Scans t c p (listUntil close item) := by
  refine .bind (repeatFrom (I := fun _ _ => True) trivial fun items q hq _ => ?_) fun _ _ _ _ =>
    (expect _).bind fun _ _ _ _ => .pure trivial
  refine (looking _).bind fun b q₁ hq₁ _ => ?_
  split
  · exact .pure trivial
  · refine (hitem q₁ (hq.trans hq₁)).bind fun _ _ _ _ => (eat _).bind fun b _ _ _ => ?_
    split <;> exact .pure trivial

theorem onProgram {f : Program → α × Program} (hplaced : p.Placed t.Known → (f p).2.Placed t.Known)
    (hbodied : p.Bodied → (f p).2.Bodied) (hfollows : t.Follows p (f p).2)
    (hQ : Q (f p).1 (f p).2) : Reads t c p (onProgram f) Q := by
  rintro _ s rfl hfits
  exact ⟨⟨hfits.last, hfits.rest, hplaced hfits.placed, hbodied hfits.bodied⟩, hfollows, hQ⟩

theorem edit {f : Program → Program} (hplaced : p.Placed t.Known → (f p).Placed t.Known)
    (hbodied : p.Bodied → (f p).Bodied) (hfollows : t.Follows p (f p)) : Scans t c p (edit f) := by
  rintro _ s rfl hfits
  exact ⟨⟨hfits.last, hfits.rest, hplaced hfits.placed, hbodied hfits.bodied⟩, hfollows, trivial⟩

end Reads

section Parts

variable {i : NodeId} {form : Form} {span : Span}

theorem rootName_reads (segment : String) : Scans t c p (rootName segment) :=
  .onProgram (fun h => ⟨h.nodes, h.vars, h.methods, h.functions, h.classes, h.params⟩) id
    (.of_eq rfl (grows_intern _ _) rfl) trivial

theorem childName_reads (parent : NameId) (segment : String) :
    Scans t c p (childName parent segment) :=
  .onProgram (fun h => ⟨h.nodes, h.vars, h.methods, h.functions, h.classes, h.params⟩) id
    (.of_eq rfl (grows_intern _ _) rfl) trivial

theorem addNode_reads (h : t.Holds span) {form : Form} : Finds t c p (addNode form span) := by
  refine (Reads.locate h).bind fun loc q _ ⟨hloc, hknown⟩ => ?_
  have hget (j : NodeId) : (q.nodes.push { form, loc }).2.get j = if j = ⟨q.nodes.size⟩
    then { form, loc } else q.nodes.get j := get_push _ _ _
  refine .onProgram (fun h =>
    ⟨forall_push (g := Node.loc) h.nodes hknown, h.vars, h.methods, h.functions, h.classes,
      h.params⟩) id ⟨⟨rfl, .refl _⟩, fun j hj => ?_⟩ ?_
  · have hsame : (q.nodes.push { form, loc }).2.get j = q.nodes.get j := get_push_of_valid hj.valid
    refine ⟨(Arena.Grows.push _ _).valid hj.valid, ?_, ?_⟩
    · show ((q.nodes.push { form, loc }).2.get j).loc.module? = _
      rw [hsame]
      exact hj.module
    · show t.Holds ((q.nodes.push { form, loc }).2.get j).loc.span
      rw [hsame]
      exact hj.span
  · have hnew : (q.nodes.push { form, loc }).2.get ⟨q.nodes.size⟩ = { form, loc } :=
      (hget _).trans (if_pos rfl)
    refine ⟨valid_push.2 (.inr rfl), ?_, ?_⟩
    · show ((q.nodes.push { form, loc }).2.get ⟨q.nodes.size⟩).loc.module? = _
      rw [hnew, hloc]
    · show t.Holds ((q.nodes.push { form, loc }).2.get ⟨q.nodes.size⟩).loc.span
      rw [hnew, hloc]
      exact h

theorem addNodeFrom_reads (h : t.Holds start) {form : Form} :
    Finds t c p (spanFrom start >>= fun span => addNode form span) :=
  .bind (.spanFrom h) fun _ _ _ hspan => addNode_reads hspan

theorem finishNode_reads (hi : t.Near p i) (h : t.Holds start) {form : Form} :
    Scans t c p (finishNode i form start) := by
  refine (Reads.spanFrom h).bind fun span q hq hspan => ?_
  have hi := hq.near i hi
  have hget (j : NodeId) :
    (q.nodes.modify i fun n => { n with form, loc := { n.loc with span } }).get j = if i = j ∧
    q.nodes.Valid i then { q.nodes.get j with form, loc := { (q.nodes.get j).loc with span } }
    else q.nodes.get j := get_modify _ _ _ _
  have hnew : (⟨(q.loc i).module?, span⟩ : Location) = ⟨some t.module, span⟩ := by rw [hi.module]
  refine .edit (fun h =>
    ⟨forall_modify (g := Node.loc) h.nodes fun _ => ?_, h.vars, h.methods, h.functions, h.classes,
      h.params⟩) id ⟨⟨rfl, .refl _⟩, fun j hj => ?_⟩
  · show t.Known ⟨(q.loc i).module?, span⟩
    rw [hnew]
    exact t.known hspan
  · refine ⟨valid_modify.2 hj.valid, ?_, ?_⟩
    · show ((q.nodes.modify i _).get j).loc.module? = _
      rw [hget]
      split <;> exact hj.module
    · show t.Holds ((q.nodes.modify i _).get j).loc.span
      rw [hget]
      split
      · exact hspan
      · exact hj.span

theorem addVar_reads {var : Var} (h : t.Known var.loc) : Scans t c p (addVar var) :=
  .onProgram (fun hp => ⟨hp.nodes, forall_push (g := Var.loc) hp.vars h, hp.methods, hp.functions,
    hp.classes, hp.params⟩) id (.of_eq rfl (.refl _) rfl) trivial

theorem addBinding_reads {cond : NodeId} (h : t.Near p cond) : Scans t c p (addBinding cond) :=
  (rootName_reads _).bind fun _ _ hq _ => (Reads.spanOf (hq.near _ h)).bind fun _ _ _ hspan =>
    (Reads.locate hspan).bind fun _ _ _ hloc => addVar_reads hloc.2

theorem addTemp_reads {init : NodeId} (h : t.Near p init) : Scans t c p (addTemp init) := by
  refine Reads.get fun s _ _ => (rootName_reads _).bind fun name q hq _ => ?_
  have hcount : Scans t c q (modify fun s => { s with temps := s.temps + 1 }) := by
    rintro _ s rfl hfits
    exact ⟨⟨hfits.last, hfits.rest, hfits.placed, hfits.bodied⟩, .refl _ _, trivial⟩
  refine hcount.bind fun _ q' hq' _ => Reads.get fun s' hs' _ => (addVar_reads ?_).bind
    fun _ _ _ _ => .pure trivial
  rw [hs']
  exact ((hq.trans hq').near _ h).known

end Parts

end Grammar

end ClassLang
