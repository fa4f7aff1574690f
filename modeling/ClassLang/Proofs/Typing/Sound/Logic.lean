import ClassLang.Proofs.Typing.Sound.Steps

namespace ClassLang

open List Program TypeTable

variable {α β : Type} {p0 : Program} {G : Atlas} {n : Nat} {s s' : PassState} {t u : TypeId}
  {f g : Typing.Focus}

theorem Program.Says.step {r : Region} (h : p0.Says G s.program r t) (hs : Typing.Inv p0 s)
    (hst : Typing.Step p0 f s s') : p0.Says G s'.program r t := h.keeps hst.keeps hs.coherent

theorem Program.Mends.and {p : Program} {m : Edit α} {Q Q' : α → Program → Prop} (h : p.Mends m Q)
    (h' : p.Interns m Q') : p.Mends m fun a q => Q a q ∧ Q' a q :=
  mends_iff.2 (Yields.imp (Yields.and (mends_iff.1 h) h')
    (fun _ _ ⟨h, h'⟩ => ⟨h.1, h.2.1, h.2.2, h'.2⟩) fun _ _ h => h.1)

def Event.typings (events : List Event) : List Nat :=
  events.filterMap fun
    | .typing i _ => some i
    | _ => none

namespace Typing

abbrev Said (p0 : Program) (G : Atlas) (o : Option ClassId) (t : TypeId) (s : PassState) : Prop :=
  p0.Says G s.program ⟨o, false⟩ t

structure Grounded (p0 : Program) (G : Atlas) : Prop where
  wired : p0.Wired
  charted : p0.Charted G

structure Once (s : PassState) : Prop where
  nodup : (Event.typings s.events).Nodup
  begun : ∀ i ∈ Event.typings s.events, s.program.slot ⟨i⟩ ≠ .empty

structure Ready (p0 : Program) (G : Atlas) (c : Context) (s : PassState) :
    Prop extends Grounded p0 G where
  inv : Inv p0 s
  sound : p0.Sound G s.program
  once : Once s
  this : ∀ i, c.this = some i → s.program.insts.Valid i

/-- What holds where a computation fails. What can be kept is still all that is kept, and the reason
is not that something is broken, unless a jump leads out of a field. -/
structure Halted (p0 : Program) (e : Fault TypeCause) (s : PassState) :
    Prop extends Stopped p0 s where
  lasting : p0.Lasting s.program
  entered : (Event.typings s.events).Nodup
  spot : p0.Spot e.loc
  whole : p0.Contained → ∀ what, e.cause ≠ .internal what

/-- From `s`, where at most `n` is left to do, `m` and `m'` do the same. With success they go on by
a step, and give what `Q` says. -/
def Walks {α : Type} (p0 : Program) (G : Atlas) (n : Nat) (f : Focus) (c : Context) (s : PassState)
    (m m' : Check α) (Q : α → PassState → Prop) : Prop :=
  p0.remaining s.program ≤ n →
    Agrees s (m c) (m' c) (fun a s' => Step p0 f s s' ∧ Ready p0 G c s' ∧ Q a s') (Halted p0)

abbrev Goes {α : Type} (p0 : Program) (G : Atlas) (n : Nat) (f : Focus) (c : Context)
    (s : PassState) (m : Check α) (Q : α → PassState → Prop) : Prop := Walks p0 G n f c s m m Q

variable {c : Context} {m m' : Check α} {k k' : α → Check β} {loc : Location}
  {Q Q' : α → PassState → Prop} {P : β → PassState → Prop} {z : Setting} {i : NodeId} {x : InstId}
  {d : ClassId} {owner : Option ClassId}

section

variable (hs : Ready p0 G c s)
include hs

theorem Ready.step (hst : Step p0 f s s') (hd : p0.Sound G s'.program)
    (hevents : Event.typings s'.events = Event.typings s.events) : Ready p0 G c s' :=
  { hs with
    inv := hst.inv
    sound := hd
    once := ⟨hevents ▸ hs.once.nodup, fun i hi =>
      mt (hst.empty ⟨i⟩) (hs.once.begun i (hevents ▸ hi))⟩
    this := fun i hi => hst.keeps.insts.valid (hs.this i hi) }

theorem Ready.coherent : s.program.Coherent := hs.inv.coherent

theorem Ready.alike : p0.Alike s.program := hs.inv.alike

theorem Ready.under : p0.Under s.program := ⟨hs.alike, hs.sound.grows⟩

theorem Ready.valid (hi : p0.ScopedAt G c.chain z i) : s.program.nodes.Valid i :=
  hs.sound.nodes i (hs.charted.valid _ i hi.mem)

theorem Ready.spot (hi : s.program.nodes.Valid i) : p0.Spot (s.program.loc i) := hs.sound.spots i hi

theorem Ready.spot_of_mem {r : Region} (hi : G r i) : p0.Spot (s.program.loc i) :=
  hs.spot (hs.sound.nodes i (hs.charted.valid r i hi))

theorem Ready.varSpot {v : VarId} (hv : p0.vars.Valid v) : p0.Spot (s.program.vars.get v).loc := by
  rw [show (s.program.vars.get v).loc = (p0.vars.get v).loc
    from (congrArg Var.loc (hs.alike.var v) :)]
  exact fun _ hK => hK.vars v hv

theorem Ready.valid_basic (ht : TypeTable.basic.Valid t) : s.program.types.Valid t :=
  hs.coherent.tables.types.valid_basic ht

theorem Ready.valid_slot (ht : s.program.slot i = .fixed t) : s.program.types.Valid t :=
  hs.coherent.nodeTypes i t ht

theorem Ready.holds (ht : s.program.types.Valid t) {x : Ty} (hx : s.program.types.get t = x) :
    s.program.Holds x :=
  hx ▸ hs.coherent.tables.holds ht

theorem Ready.valid_ref (ht : s.program.types.Valid t) {kind : RefKind}
    (hx : s.program.types.ref? t = some (kind, x)) : s.program.insts.Valid x :=
  holds_ref.1 (hs.holds ht (ref?_eq_some.1 hx))

theorem Ready.lambda {params : List TypeId} {result : TypeId} (ht : s.program.types.Valid t)
    (h : s.program.types.get t = .lambda params result) :
    (∀ u ∈ params, s.program.types.Valid u) ∧ s.program.types.Valid result :=
  holds_lambda.1 (hs.holds ht h)

theorem Ready.signature {cold : ColdId} (h : (s.program.colds.lookup cold).signature = some t) :
    s.program.types.Valid t ∧ ∃ params result, s.program.types.get t = .lambda params result := by
  obtain ⟨params, result, hget⟩ := hs.coherent.colds.signatures _ t h
  exact ⟨valid_of_get hget nofun, params, result, hget⟩

theorem Ready.halted {e : Fault TypeCause} (hloc : p0.Spot e.loc)
    (h : p0.Contained → ∀ what, e.cause ≠ .internal what) : Halted p0 e s :=
  ⟨hs.inv.stopped, hs.sound.lasting, hs.once.nodup, hloc, h⟩

end

theorem editing_yields {m : Edit α} {Q : α → Program → Prop} {E : TypeCause → Program → Prop}
    (h : Yields s.program m Q E) (loc : Location) :
    Yields s (editing loc m c) (fun a s' => s' = { s with program := s'.program } ∧ Q a s'.program)
      fun e s' => s' = { s with program := s'.program } ∧ e.loc = loc ∧ E e.cause s'.program := by
  unfold Yields at h ⊢
  unfold editing
  cases hm : m s.program with
  | ok a q =>
    rw [hm] at h
    exact ⟨rfl, h⟩
  | error e q =>
    rw [hm] at h
    exact ⟨rfl, rfl, h⟩

theorem agrees_write {w : Write} {k k' : Unit → Check α} {Q : α → PassState → Prop}
    {E : Fault TypeCause → PassState → Prop} (h : Agrees (s.after w) (k () c) (k' () c) Q E) :
    Agrees s ((write w >>= k) c) ((write w >>= k') c) Q E := h

namespace Walks

section

variable (h : Walks p0 G n f c s m m' Q)
include h

theorem imp (hQ : ∀ a s', Step p0 f s s' → Ready p0 G c s' → Q a s' → Step p0 g s s' ∧ Q' a s') :
    Walks p0 G n g c s m m' Q' :=
  fun hn => (h hn).imp (fun a s' ⟨hst, hs', hq⟩ =>
    ⟨(hQ a s' hst hs' hq).1, hs', (hQ a s' hst hs' hq).2⟩) fun _ _ => id

theorem post (hQ : ∀ a s', Step p0 f s s' → Ready p0 G c s' → Q a s' → Q' a s') :
    Walks p0 G n f c s m m' Q' :=
  h.imp fun a s' hst hs' hq => ⟨hst, hQ a s' hst hs' hq⟩

theorem bindBy (hg : ∀ s', Step p0 f s s' → Step p0 g s s')
    (hk : ∀ a s', Step p0 f s s' → Ready p0 G c s' → Q a s' → Walks p0 G n g c s' (k a) (k' a) P) :
    Walks p0 G n g c s (m >>= k) (m' >>= k') P :=
  fun hn => Agrees.bind (m := m c) (h hn) fun a s' ⟨hst, hs', hq⟩ =>
    (hk a s' hst hs' hq (Nat.le_trans hst.winds.remaining hn)).imp
    (fun _ _ hb => ⟨(hg s' hst).trans hb.1, hb.2⟩) fun _ _ => id

theorem bindIn
    (hk : ∀ a s', Step p0 f s s' → Ready p0 G c s' → Q a s' → Walks p0 G n f c s' (k a) (k' a) P) :
    Walks p0 G n f c s (m >>= k) (m' >>= k') P := h.bindBy (fun _ => id) hk

theorem orMismatch (expected actual : TypeId) (hloc : p0.Spot loc) :
    Walks p0 G n f c s (MonadExcept.tryCatch m fun _ => Typing.mismatch expected actual loc)
      (MonadExcept.tryCatch m' fun _ => Typing.mismatch expected actual loc) Q :=
  fun hn => Agrees.tryCatch (m := m c) (h hn) fun _ _ he =>
    ⟨he.toStopped, he.lasting, he.entered, hloc, fun _ => nofun⟩

end

theorem widen (h : Walks p0 G n {} c s m m' Q) : Walks p0 G n f c s m m' Q :=
  h.imp fun _ _ hst _ hQ => ⟨hst.widen, hQ⟩

theorem bind (h : Walks p0 G n {} c s m m' Q)
    (hk : ∀ a s', Step p0 {} s s' → Ready p0 G c s' → Q a s' → Walks p0 G n f c s' (k a) (k' a) P) :
    Walks p0 G n f c s (m >>= k) (m' >>= k') P := h.bindBy (fun _ => Step.widen) hk

theorem program {k k' : Program → Check β} (h : Walks p0 G n f c s (k s.program) (k' s.program) P) :
    Walks p0 G n f c s (Typing.program >>= k) (Typing.program >>= k') P := h

theorem read {k k' : Context → Check β} (h : Walks p0 G n f c s (k c) (k' c) P) :
    Walks p0 G n f c s (MonadReader.read >>= k) (MonadReader.read >>= k') P := h

theorem typeOf {k k' : Ty → Check β}
    (h : Walks p0 G n f c s (k (s.program.types.get t)) (k' (s.program.types.get t)) P) :
    Walks p0 G n f c s (Typing.typeOf t >>= k) (Typing.typeOf t >>= k') P := h

theorem ref? {k k' : Option (RefKind × InstId) → Check β}
    (h : Walks p0 G n f c s (k (s.program.types.ref? t)) (k' (s.program.types.ref? t)) P) :
    Walks p0 G n f c s (Typing.ref? t >>= k) (Typing.ref? t >>= k') P := h

theorem locOf {k k' : Location → Check β}
    (h : Walks p0 G n f c s (k (s.program.loc i)) (k' (s.program.loc i)) P) :
    Walks p0 G n f c s (Typing.locOf i >>= k) (Typing.locOf i >>= k') P := h

section

variable (hs : Ready p0 G c s)
include hs

theorem pure {a : α} (hQ : Q a s) : Goes p0 G n f c s (Pure.pure a) Q :=
  fun _ => ⟨rfl, .refl hs.inv, hs, hQ⟩

omit hs in
theorem discard {Q : PassState → Prop} (h : Walks p0 G n f c s m m' fun _ s' => Q s') :
    Walks p0 G n f c s (Functor.discard m) (Functor.discard m') fun _ s' => Q s' :=
  h.bindIn fun _ _ _ hs' hq => pure hs' hq

theorem fail {cause : TypeCause} (h : ∀ what, cause ≠ .internal what) (hloc : p0.Spot loc) :
    Goes p0 G n f c s (failAt cause loc) Q := fun _ => ⟨rfl, hs.halted hloc fun _ => h⟩

theorem mismatch (expected actual : TypeId) (hloc : p0.Spot loc) :
    Goes p0 G n f c s (Typing.mismatch expected actual loc) Q :=
  fail hs nofun hloc

/-- Where a jump leads out of a field. -/
theorem broken (h : ¬ p0.Contained) (what : Broken) (hloc : p0.Spot loc) :
    Goes p0 G n f c s (Typing.broken what loc) Q :=
  fun _ => ⟨rfl, hs.halted hloc fun hc => absurd hc h⟩

theorem write {w : Write} (hst : Step p0 f s (s.after w)) (hd : p0.Sound G (s.after w).program) :
    Goes p0 G n f c s (Typing.write w) fun _ s' => s' = s.after w :=
  fun _ => ⟨rfl, hst, hs.step hst hd rfl, rfl⟩

theorem edit {g : Program → Program} (hst : Step p0 f s { s with program := g s.program })
    (hd : p0.Sound G (g s.program)) :
    Goes p0 G n f c s (Typing.edit g) fun _ s' => s' = { s with program := g s.program } :=
  fun _ => ⟨rfl, hst, hs.step hst hd rfl, rfl⟩

theorem emit {e : Event} (h : Event.typings [e] = []) :
    Goes p0 G n f c s (Typing.emit e) fun _ s' => s'.program = s.program := by
  have hst : Step p0 f s { s with events := s.events ++ [e] } := .emit hs.inv _
  refine fun _ => ⟨rfl, hst, hs.step hst hs.sound ?_, rfl⟩
  rw [Event.typings, filterMap_append]
  exact (congrArg _ h).trans (append_nil _)

theorem adds {q : Program} (hadds : s.program.Adds q) (hq : q.Neat) :
    Step p0 f s { s with program := q } ∧ Ready p0 G c { s with program := q } :=
  have hst : Step p0 f s { s with program := q } := .adds hs.inv hadds
  ⟨hst, hs.step hst (hs.sound.adds hs.charted hs.coherent hadds hq) rfl⟩

theorem editing {m : Edit α} {Q : α → Program → Prop} (h : Works Neat s.program m Q False)
    (loc : Location) : Goes p0 G n f c s (Typing.editing loc m) fun a s' => Q a s'.program := by
  refine fun _ => ((editing_yields h loc).imp (fun a s' ⟨hs', hadds, hneat, hQ⟩ => ?_) fun _ _ h =>
    h.2.2.2.elim).agrees
  have hboth := adds (f := f) hs hadds hneat
  rw [← hs'] at hboth
  exact ⟨hboth.1, hboth.2, hQ⟩

section Loops

variable {xs : List α}

theorem foldlM {g g' : β → α → Check β} {b : β} {I : List α → β → PassState → Prop} (hI : I [] b s)
    (hg : ∀ done x rest b s', xs = done ++ x :: rest → Step p0 f s s' → Ready p0 G c s' →
      I done b s' → Walks p0 G n f c s' (g b x) (g' b x) (I (done ++ [x]))) :
    Walks p0 G n f c s (xs.foldlM g b) (xs.foldlM g' b) (I xs) := by
  intro hn
  rw [foldlM_apply, foldlM_apply]
  refine Agrees.foldlM (I := fun done b s' => Step p0 f s s' ∧ Ready p0 G c s' ∧ I done b s')
    ⟨.refl hs.inv, hs, hI⟩ fun done x rest b s' hxs ⟨hst, hs', hI⟩ => ?_
  exact (hg done x rest b s' hxs hst hs' hI (Nat.le_trans hst.winds.remaining hn)).imp
    (fun _ _ h => ⟨hst.trans h.1, h.2⟩) fun _ _ => id

theorem forEach {g g' : α → Check Unit} {I : List α → PassState → Prop} (hI : I [] s)
    (hg : ∀ done x rest s', xs = done ++ x :: rest → Step p0 f s s' → Ready p0 G c s' → I done s' →
      Walks p0 G n f c s' (g x) (g' x) fun _ => I (done ++ [x])) :
    Walks p0 G n f c s (xs.forM g) (xs.forM g') fun _ => I xs := by
  rw [forM_eq_foldlM, forM_eq_foldlM]
  exact foldlM (I := fun done _ => I done) hs hI fun done x rest _ => hg done x rest

theorem forM {g g' : α → Check Unit} {P : α → PassState → Prop}
    (hP : ∀ x s s', Ready p0 G c s → Step p0 f s s' → P x s → P x s')
    (hg : ∀ x ∈ xs, ∀ s', Step p0 f s s' → Ready p0 G c s' → Walks p0 G n f c s' (g x) (g' x)
      fun _ s'' => P x s'') :
    Walks p0 G n f c s (xs.forM g) (xs.forM g') fun _ s' => ∀ x ∈ xs, P x s' := by
  refine forEach (I := fun done s => ∀ x ∈ done, P x s) hs (forall_mem_nil _)
    fun done x rest s' hxs hst hs' hI => ?_
  refine (hg x (by simp [hxs]) s' hst hs').post fun _ s'' hst' _ hx => ?_
  exact forall_mem_append.2 ⟨fun y hy => hP y s' s'' hs' hst' (hI y hy), forall_mem_singleton.2 hx⟩

theorem mapKeeping {g g' : α → Check β} {J : PassState → Prop} {P : α → β → PassState → Prop}
    (hJ : J s) (hP : ∀ x b s s', Ready p0 G c s → Step p0 f s s' → P x b s → P x b s')
    (hg : ∀ x ∈ xs, ∀ s', Step p0 f s s' → Ready p0 G c s' → J s' → Walks p0 G n f c s' (g x) (g' x)
      fun b s'' => J s'' ∧ P x b s'') :
    Walks p0 G n f c s (xs.mapM g) (xs.mapM g') fun bs s' => J s' ∧
      Forall₂ (fun x b => P x b s') xs bs := by
  intro hn
  rw [mapM_apply, mapM_apply]
  refine Agrees.mapM (I := fun done bs s' => Step p0 f s s' ∧ Ready p0 G c s' ∧ J s' ∧
    Forall₂ (fun x b => P x b s') done bs) ⟨.refl hs.inv, hs, hJ, .nil⟩
    fun done bs x rest s' hxs ⟨hst, hs', hJ, hbs⟩ => ?_
  refine (hg x (by simp [hxs]) s' hst hs' hJ (Nat.le_trans hst.winds.remaining hn)).imp
    (fun b s'' ⟨hst', hs'', hJ', hx⟩ => ⟨hst.trans hst', hs'', hJ', ?_⟩) fun _ _ => id
  exact rel_append (hbs.imp fun y b' => hP y b' s' s'' hs' hst') (.cons hx .nil)

theorem mapM {g g' : α → Check β} {P : α → β → PassState → Prop}
    (hP : ∀ x b s s', Ready p0 G c s → Step p0 f s s' → P x b s → P x b s')
    (hg : ∀ x ∈ xs, ∀ s', Step p0 f s s' → Ready p0 G c s' →
      Walks p0 G n f c s' (g x) (g' x) (P x)) :
    Walks p0 G n f c s (xs.mapM g) (xs.mapM g') fun bs s' => Forall₂ (fun x b => P x b s') xs bs :=
  (mapKeeping (J := fun _ => True) hs trivial hP fun x hx s' hst hs' _ =>
    (hg x hx s' hst hs').post fun _ _ _ _ h => ⟨trivial, h⟩).post fun _ _ _ _ h => h.2

end Loops

section Types

theorem onTypes {g : TypeTable → α × TypeTable}
    (hadds : s.program.Adds { s.program with types := (g s.program.types).2 })
    (hT : TypeTable.Interned s.program.types (g s.program.types).2)
    (hflat : TypeTable.Flat (g s.program.types).2) :
    Goes p0 G n f c s (Typing.onTypes g) fun a s' => a = (g s.program.types).1 ∧
      s' = { s with program := { s.program with types := (g s.program.types).2 } } :=
  have h := adds hs hadds ⟨hs.sound.tidy.interned hadds hT, hflat⟩
  fun _ => ⟨rfl, h.1, h.2, rfl, rfl⟩

theorem intern {x : Ty} (hx : s.program.Holds x)
    (hlast : ∀ u, x = .array u → TypeTable.isTemporary s.program.types u = false)
    (hflat : ∀ w depth, x ≠ .optional w depth) :
    Goes p0 G n f c s (Typing.intern x) fun t s' => s.program.Adds s'.program ∧
      s'.program.types.Valid t ∧ s'.program.types.get t = x := by
  have hadds := hs.coherent.tables.intern hx
  have h := adds (f := f) hs hadds
    ⟨hs.sound.tidy.intern hx hlast, hs.sound.neat.flat.intern_other hflat⟩
  exact fun _ => ⟨rfl, h.1, h.2, hadds, Pool.valid_intern _ _, Pool.get_intern_self _ _⟩

variable {r : Region} (ht : s.program.types.Valid t) (hsaid : p0.Says G s.program r t)
include ht hsaid

theorem optional :
    Goes p0 G n f c s (Typing.onTypes (·.optional t)) fun u s' => s.program.Adds s'.program ∧
      s'.program.types.Valid u ∧ s'.program.types.optional t = (u, s'.program.types) ∧
      p0.Says G s'.program r u := by
  have hy := optional_yields hs.coherent.tables.types ht
  have hadds := hs.coherent.tables.yields hy
  refine (onTypes (g := (·.optional t)) hs hadds (optional_interned _ t)
    (hs.sound.neat.flat.optional ht)).post fun u s' _ _ ⟨hu, hs'⟩ => ?_
  subst hu hs'
  have hopt := optional_settled ht (.refl _)
  exact ⟨hadds, hy.valid, hopt, (hsaid.keeps (hadds.keeps hs.coherent) hs.coherent).optional hopt⟩

theorem pinned :
    Goes p0 G n f c s (Typing.onTypes (·.pinned t)) fun u s' => s.program.Adds s'.program ∧
      s'.program.types.Valid u ∧ s'.program.types.pinned t = (u, s'.program.types) ∧
      p0.Says G s'.program r u := by
  have hy := pinned_yields hs.coherent.tables.types ht
  have hadds := hs.coherent.tables.yields hy
  refine (onTypes (g := (·.pinned t)) hs hadds (pinned_interned _ t)
    (hs.sound.neat.flat.pinned t)).post fun u s' _ _ ⟨hu, hs'⟩ => ?_
  subst hu hs'
  have hpin := pinned_settled hs.coherent.tables.types ht (.refl _)
  exact ⟨hadds, hy.valid, hpin, (hsaid.keeps (hadds.keeps hs.coherent) hs.coherent).pinned hpin⟩

theorem readType :
    Goes p0 G n f c s (Typing.onTypes (·.read t)) fun u s' =>
      (s'.program.types.Valid u ∧ p0.Says G s'.program r u) ∧
      ∀ x, s'.program.types.get u ≠ .ref .own x := by
  have hy := read_yields hs.coherent.tables.types ht
  have hadds := hs.coherent.tables.yields hy
  have hk := hadds.keeps hs.coherent
  refine (onTypes (g := (·.read t)) hs hadds (read_interned _ t)
    (hs.sound.neat.flat.read t)).post fun u s' _ _ ⟨hu, hs'⟩ => ?_
  subst hu hs'
  refine ⟨⟨hy.valid, fun hsealed => ?_⟩, read_ne_own _ t⟩
  have hover := Over.read (hsaid (hsealed.back hk hs.coherent))
  exact Over.mono hover (.refl _) (fun _ hi => hi.grows (.refl _)) fun _ hc => ⟨hc.1, hc.2.keeps hk⟩

theorem unwrap :
    Goes p0 G n f c s (Typing.onTypes (·.unwrap t)) fun o s' => ∀ u, o = some u →
      s'.program.types.Valid u ∧ s'.program.types.unwrap t = (some u, s'.program.types) ∧
      p0.Says G s'.program r u := by
  have hadds : s.program.Adds { s.program with types := (s.program.types.unwrap t).2 } := by
    cases hu : (s.program.types.unwrap t).1 with
    | none =>
      rw [unwrap_eq_of_none hu]
      exact .refl hs.coherent.tables
    | some u => exact hs.coherent.tables.yields (unwrap_yields hs.coherent.tables.types ht hu)
  refine (onTypes (g := (·.unwrap t)) hs hadds (unwrap_interned _ t)
    (hs.sound.neat.flat.unwrap t)).post fun o s' _ _ ⟨ho, hs'⟩ u hu => ?_
  subst ho hs'
  have hsame := (unwrap_settled ht (.refl _)).trans (congrArg (·, _) hu)
  exact ⟨(unwrap_yields hs.coherent.tables.types ht hu).valid, hsame,
    (hsaid.keeps (hadds.keeps hs.coherent) hs.coherent).unwrap hsame⟩

end Types

theorem isSubinst {y : InstId} (hx : s.program.insts.Valid x) (hy : s.program.insts.Valid y)
    (loc : Location) :
    Goes p0 G n f c s (Typing.editing loc (Program.isSubinst x y)) fun b s' =>
      s'.program.Again (Program.isSubinst x y) b :=
  (editing hs (((isSubinst_mends hs.wired hs.under hs.sound.tidy hx hy).and
    (isSubinst_interns hs.coherent.tables hs.coherent.shaped.bases hx hy)).neat
    (isSubinst_spares x y) hs.sound.neat) loc).post fun _ _ _ _ h => h.2

theorem signatureOf {sig : List TypeId × TypeId} (ht : s.program.types.Valid t)
    (hsig : s.program.types.signature? t = some sig) (what : Broken) (loc : Location) :
    Goes p0 G n f c s (Typing.signatureOf t what loc) fun sig' s' => s' = s ∧ sig' = sig ∧
      (∀ u ∈ sig.1, s.program.types.Valid u) ∧ s.program.types.Valid sig.2 := by
  have hvalid : (∀ u ∈ sig.1, s.program.types.Valid u) ∧ s.program.types.Valid sig.2 := by
    have hholds := hs.coherent.tables.holds ht
    unfold TypeTable.signature? at hsig
    split at hsig <;> cases hsig <;> rename_i hget <;> rw [hget] at hholds
    · exact holds_function.1 hholds
    · exact holds_lambda.1 hholds
  unfold Typing.signatureOf
  refine program ?_
  rw [hsig]
  exact pure hs ⟨rfl, rfl, hvalid⟩

end

theorem withReader {g : Context → Context} (hthis : (g c).this = c.this)
    (h : Walks p0 G n f (g c) s m m' Q) : Walks p0 G n f c s (withReader g m) (withReader g m') Q :=
  fun hn => Agrees.imp (m := m (g c)) (h hn)
    (fun _ _ ⟨hst, hs, hQ⟩ => ⟨hst, { hs with this := fun i hi => hs.this i (hthis.trans hi) }, hQ⟩)
    fun _ _ => id

end Walks

structure At (p0 : Program) (G : Atlas) (p : Program) (c : Context) (e : Setting) : Prop where
  this : ∀ d, e.owner = some d → p0.classes.Valid d ∧ ∃ i, c.this = some i ∧ p.IsThis d i
  chain : ∀ v ∈ c.chain, v ∈ e.vars ∧ (p0.vars.get v).role = .localVar ∧ (p0.vars.get v).init.isSome
  vars : ∀ v ∈ e.vars, p.VarKnown v ∧ ∃ b, p0.Home G ⟨e.owner, b⟩ v
  targets : ∀ t ∈ e.targets, G ⟨e.owner, false⟩ t ∧ p.slot t ≠ .empty ∨ (∀ g, ¬ G g t) ∧
    ¬ p0.Contained

section Begun

variable {sites : List LambdaId} {entries : List FunctionId} {colds : List ColdId}
  {tables : ClassId → Prop} {methods : MethodId → Prop} {functions : FunctionId → Prop}

theorem Step.stays_begun
    (h : Step p0 ⟨none, sites, entries, colds, tables, methods, functions⟩ s s')
    (hi : s.program.slot i ≠ .empty) : s'.program.slot i ≠ .empty := by
  cases hslot : s.program.slot i with
  | empty => exact absurd hslot hi
  | fixed t =>
    rw [h.keeps.slots i t hslot]
    nofun
  | inProgress =>
    rcases (h.begun i nofun hslot).2 with hp | ⟨⟨t, ht⟩, _⟩
    · rw [hp]
      nofun
    · rw [ht]
      nofun

theorem At.keeps {p q : Program} (h : At p0 G p c z) (hk : p.Keeps q)
    (hstays : ∀ i, p.slot i ≠ .empty → q.slot i ≠ .empty) : At p0 G q c z where
  this d hd := by
    obtain ⟨hv, i, hi, hthis⟩ := h.this d hd
    exact ⟨hv, i, hi, hthis.grows hk.insts (hk.alike.classParams d)⟩
  chain := h.chain
  vars v hv := ⟨hk.vars v (h.vars v hv).1, (h.vars v hv).2⟩
  targets t ht := (h.targets t ht).imp_left fun ⟨hg, hslot⟩ => ⟨hg, hstays t hslot⟩

theorem At.step (h : At p0 G s.program c z)
    (hst : Step p0 ⟨none, sites, entries, colds, tables, methods, functions⟩ s s') :
    At p0 G s'.program c z :=
  h.keeps hst.keeps fun _ => hst.stays_begun

end Begun

theorem At.starts {p : Program} (h : At p0 G p c ⟨⟨owner, []⟩, []⟩) (hi : p0.Opens [] i) :
    p0.Opens c.chain i := by
  rwa [eq_nil_iff_forall_not_mem.2 fun v hv => nomatch (h.chain v hv).1]

/-- Where nothing can be named yet, more can be. -/
theorem At.enter {p : Program} (h : At p0 G p c ⟨⟨owner, []⟩, []⟩) (hz : z.owner = owner)
    (hvars : ∀ v ∈ z.vars, p.VarKnown v ∧ ∃ b, p0.Home G ⟨z.owner, b⟩ v)
    (htargets : ∀ t ∈ z.targets, (∀ g, ¬ G g t) ∧ ¬ p0.Contained) : At p0 G p c z where
  this d hd := h.this d (hz.symm.trans hd)
  chain v hv := nomatch (h.chain v hv).1
  vars := hvars
  targets t ht := .inr (htargets t ht)

theorem classThis_walks (hs : Ready p0 G c s) (hc : p0.classes.Valid d) :
    Goes p0 G n f c s (onProgram (·.thisInst d)) fun i s' => s'.program.IsThis d i := by
  have hadds := (thisInst_adds hs.coherent.tables d).1
  obtain ⟨hneat, hthis⟩ := thisInst_keeps neat_lawful hs.sound.neat hs.sound.tidy.canonical
    (Nat.lt_of_lt_of_eq hc hs.alike.classesSize.symm)
  have h := Walks.adds (f := f) hs hadds hneat
  exact fun _ => ⟨rfl, h.1, h.2, hthis⟩

/-- In a class, `this` refers to the class applied to its own parameters. -/
theorem within_walks (hs : Ready p0 G c s) (howner : ∀ d ∈ owner, p0.classes.Valid d)
    (h : ∀ c' s', Step p0 {} s s' → Ready p0 G c' s' → At p0 G s'.program c' ⟨⟨owner, []⟩, []⟩ →
      Walks p0 G n f c' s' m m' Q) : Walks p0 G n f c s (within owner m) (within owner m') Q := by
  have hback {c' : Context} {s1 : PassState} (hs1 : Ready p0 G c s1)
    (h : Walks p0 G n f c' s1 m m' Q) : Walks p0 G n f c s1 (fun _ => m c') (fun _ => m' c') Q :=
    fun hn => (h hn).imp (fun _ _ ⟨hst, hs', hQ⟩ =>
      ⟨hst, { hs' with this := fun i hi => hst.keeps.insts.valid (hs1.this i hi) }, hQ⟩)
    fun _ _ => id
  cases owner with
  | none =>
    exact hback hs (h {} s (.refl hs.inv) { hs with this := nofun } ⟨nofun, nofun, nofun, nofun⟩)
  | some d =>
    have hc := howner d rfl
    have hwalk : Goes p0 G n {} c s ((some d).mapM fun c => onProgram (·.thisInst c)) fun o s' =>
        ∃ i, o = some i ∧ s'.program.IsThis d i :=
      (classThis_walks hs hc).bind fun i s1 _ hs1 hthis => .pure hs1 ⟨i, rfl, hthis⟩
    refine hwalk.bind fun o s1 hst1 hs1 ⟨i, ho, hthis⟩ => ?_
    subst ho
    exact hback hs1 (h { this := some i } s1 hst1
      { hs1 with this := fun _ hi => Option.some.inj hi ▸ hthis.1 }
      ⟨fun d' hd' => Option.some.inj hd' ▸ ⟨hc, i, rfl, hthis⟩, nofun, nofun, nofun⟩)

end Typing

end ClassLang
