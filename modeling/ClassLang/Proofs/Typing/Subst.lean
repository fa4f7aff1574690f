import ClassLang.Proofs.Outline
import ClassLang.Proofs.Yields
import ClassLang.Typing.Subst
import Mathlib.Data.List.Forall2

namespace ClassLang.Program

open Arena Pool List

structure Tables (p : Program) : Prop where
  types : TypeTable.Sound p.types p.insts.size
  insts : ∀ i, ∀ a ∈ (p.insts.get i).args, a.index < i.index
  colds : ∀ t c, p.types.get t = .cold c → p.colds.Valid c

structure Holds (p : Program) (x : Ty) : Prop where
  parts : ∀ u ∈ x.parts, p.types.Valid u
  inst : ∀ i, x.inst? = some i → p.insts.Valid i
  cold : ∀ c, x = .cold c → p.colds.Valid c

structure Adds (p q : Program) : Prop where
  rest : q = { p with types := q.types, insts := q.insts }
  types : p.types.Grows q.types
  insts : p.insts.Grows q.insts
  tables : q.Tables

structure Under (p q : Program) : Prop where
  alike : p.Alike q
  insts : p.insts.Grows q.insts

/-- Work on the tables only adds to them; with success it gives what `Q` says. -/
def Interns {α : Type} (p : Program) (m : Edit α) (Q : α → Program → Prop) : Prop :=
  Yields p m (fun a q => p.Adds q ∧ Q a q) fun _ q => p.Adds q

/-- Where all that `m` would add is there, it gives `a` and changes nothing. -/
def Again {α : Type} (p : Program) (m : Edit α) (a : α) : Prop := ∀ q, p.Under q → m q = .ok a q

variable {α β : Type} {p q r : Program} {a : α} {Q : α → Program → Prop} {m : Edit α}
  {f : α → Edit β} {xs : List α} {R : α → β → Prop} {context : InstId}
  {below : InstId → Edit (Option InstId)} {ancestor : ClassId} {inst : Inst} {bs : List β} {n : Nat}

section

variable {params : List TypeId} {t u : TypeId} {i : InstId} {c : ColdId} {kind : RefKind}
  {depth : Nat}

@[simp] theorem holds_ref : p.Holds (.ref kind i) ↔ p.insts.Valid i :=
  ⟨fun h => h.inst i rfl, fun h => ⟨by simp [Ty.parts], by simpa [Ty.inst?] using h, by simp⟩⟩

@[simp] theorem holds_classOf : p.Holds (.classOf i) ↔ p.insts.Valid i :=
  ⟨fun h => h.inst i rfl, fun h => ⟨by simp [Ty.parts], by simpa [Ty.inst?] using h, by simp⟩⟩

@[simp] theorem holds_optional : p.Holds (.optional t depth) ↔ p.types.Valid t :=
  ⟨fun h => h.parts t (by simp [Ty.parts]), fun h =>
    ⟨by simpa [Ty.parts] using h, by simp [Ty.inst?], by simp⟩⟩

@[simp] theorem holds_array : p.Holds (.array t) ↔ p.types.Valid t :=
  ⟨fun h => h.parts t (by simp [Ty.parts]), fun h =>
    ⟨by simpa [Ty.parts] using h, by simp [Ty.inst?], by simp⟩⟩

@[simp] theorem holds_cold : p.Holds (.cold c) ↔ p.colds.Valid c :=
  ⟨fun h => h.cold c rfl, fun h => ⟨by simp [Ty.parts], by simp [Ty.inst?], by simpa using h⟩⟩

theorem valid_parts :
    (∀ u ∈ params ++ [t], p.types.Valid u) ↔ (∀ u ∈ params, p.types.Valid u) ∧ p.types.Valid t := by
  simp only [forall_mem_append, forall_mem_singleton]

@[simp] theorem holds_lambda :
    p.Holds (.lambda params t) ↔ (∀ u ∈ params, p.types.Valid u) ∧ p.types.Valid t :=
  ⟨fun h => valid_parts.1 h.parts, fun h => ⟨valid_parts.2 h, by simp [Ty.inst?], by simp⟩⟩

@[simp] theorem holds_function :
    p.Holds (.function params t) ↔ (∀ u ∈ params, p.types.Valid u) ∧ p.types.Valid t :=
  ⟨fun h => valid_parts.1 h.parts, fun h => ⟨valid_parts.2 h, by simp [Ty.inst?], by simp⟩⟩

theorem Tables.holds (h : p.Tables) (ht : p.types.Valid t) : p.Holds (p.types.get t) :=
  ⟨fun _ => h.types.valid_part ht, h.types.insts t, h.colds t⟩

end

theorem Tables.congr (h : p.Tables) (htypes : q.types = p.types) (hinsts : q.insts = p.insts)
    (hcolds : p.colds.size ≤ q.colds.size) : q.Tables where
  types := htypes ▸ hinsts ▸ h.types
  insts := hinsts ▸ h.insts
  colds t c hc := Nat.lt_of_lt_of_le (h.colds t c (htypes ▸ hc)) hcolds

theorem Adds.refl (h : p.Tables) : p.Adds p := ⟨rfl, .refl _, .refl _, h⟩

theorem Adds.trans (h : p.Adds q) (h' : q.Adds r) : p.Adds r := by
  refine ⟨?_, h.types.trans h'.types, h.insts.trans h'.insts, h'.tables⟩
  rw [h'.rest, h.rest]

theorem Adds.under (h : p.Adds q) : p.Under q := by
  refine ⟨?_, h.insts⟩
  rw [h.rest]
  rfl

theorem Under.refl (p : Program) : p.Under p := ⟨.refl p, .refl _⟩

theorem Under.trans (h : p.Under q) (h' : q.Under r) : p.Under r :=
  ⟨h.alike.trans h'.alike, h.insts.trans h'.insts⟩

theorem Interns.pure (h : p.Tables) (hQ : Q a p) : Interns p (Pure.pure a) Q := ⟨.refl h, hQ⟩

theorem Interns.throw (h : p.Tables) {e : TypeCause} : Interns p (MonadExcept.throw e) Q :=
  Adds.refl h

theorem Interns.bind {Q' : β → Program → Prop} (h : Interns p m Q)
    (hf : ∀ a q, p.Adds q → Q a q → Interns q (f a) fun b r => q.Adds r → Q' b r) :
    Interns p (m >>= f) Q' :=
  Yields.bind h fun a q ⟨hadds, hQ⟩ =>
    (hf a q hadds hQ).imp (fun _ _ h => ⟨hadds.trans h.1, h.2 h.1⟩) fun _ _ => hadds.trans

theorem Interns.get {f : Program → Edit α} (h : Interns p (f p) Q) :
    Interns p (MonadState.get >>= f) Q := h

theorem Interns.imp {Q' : α → Program → Prop} (h : Interns p m Q)
    (hQ : ∀ a q, p.Adds q → Q a q → Q' a q) : Interns p m Q' :=
  Yields.post h fun a q h => ⟨h.1, hQ a q h.1 h.2⟩

theorem Again.mono (h : Again p m a) (hpq : p.Under q) : Again q m a :=
  fun r hr => h r (hpq.trans hr)

theorem Again.pure (a : α) : Again p (Pure.pure a) a := fun _ _ => rfl

theorem Again.bind {b : β} (h : Again p m a) (hf : Again p (f a) b) : Again p (m >>= f) b := by
  intro q hq
  simp only [Bind.bind, EStateM.bind, h q hq]
  exact hf q hq

theorem Again.get {f : Program → Edit α} (h : ∀ q, p.Under q → f q q = .ok a q) :
    Again p (MonadState.get >>= f) a := h

section

variable (h : p.Tables)
include h

theorem Tables.internInst (ha : ∀ a ∈ inst.args, p.insts.Valid a) :
    p.Adds { p with insts := (p.insts.intern inst).2 } := by
  have hgrow := grows_intern p.insts inst
  exact ⟨rfl, .refl _, hgrow, ⟨h.types.mono hgrow.size_le, args_intern h.insts ha, h.colds⟩⟩

theorem internInst_interns (ha : ∀ a ∈ inst.args, p.insts.Valid a) :
    Interns p (Program.internInst inst) fun i q => q.insts.Valid i ∧
      Again q (Program.internInst inst) i := by
  refine ⟨h.internInst ha, valid_intern p.insts inst, fun q hq => ?_⟩
  have hf := intern_of_find? (hq.insts.find? (find?_intern p.insts inst))
  show EStateM.Result.ok (q.insts.intern inst).1 { q with insts := (q.insts.intern inst).2 } = _
  rw [hf]
  rfl

theorem Tables.intern {x : Ty} (hx : p.Holds x) :
    p.Adds { p with types := (p.types.intern x).2 } := by
  refine ⟨rfl, grows_intern _ _, .refl _,
    ⟨h.types.intern hx.parts hx.inst, h.insts, fun i c hic => ?_⟩⟩
  obtain he | ⟨_, he⟩ := get_intern p.types x i
  · exact h.colds i c (he.symm.trans hic)
  · exact hx.cold c (he.symm.trans hic)

theorem Tables.yields {t : TypeId} {T : TypeTable}
    (hy : TypeTable.Yields p.types p.insts.size t T) : p.Adds { p with types := T } :=
  ⟨rfl, hy.grows, .refl _, ⟨hy.sound, h.insts, fun u c hu => h.colds u c (hy.colds u c hu)⟩⟩

theorem Interns.mapM {P : α → β → Program → Prop} (hP : ∀ x b q r, q.Adds r → P x b q → P x b r)
    (hf : ∀ x ∈ xs, ∀ q, p.Adds q → Interns q (f x) (P x)) :
    Interns p (xs.mapM f) fun bs q => Forall₂ (fun x b => P x b q) xs bs := by
  induction xs generalizing p with
  | nil => exact .pure h .nil
  | cons x xs ih =>
    rw [mapM_cons]
    refine (hf x mem_cons_self p (.refl h)).bind fun b q hq hb => ?_
    have hrest := ih hq.tables fun y hy r hr => hf y (mem_cons_of_mem x hy) r (hq.trans hr)
    refine hrest.bind fun bs r hr hbs => .pure hr.tables fun _ _ => ?_
    exact .cons (hP x b q r hr hb) hbs

end

theorem forall_of_forall₂ {P : β → Prop} (h : Forall₂ R xs bs) (hR : ∀ x b, R x b → P b) :
    ∀ b ∈ bs, P b := by
  induction h with
  | nil => simp
  | cons hx _ ih => exact forall_mem_cons.2 ⟨hR _ _ hx, ih⟩

theorem forall₂_trans {S : β → γ → Prop} {T : α → γ → Prop} {ys : List β} {zs : List γ}
    (h : Forall₂ R xs ys) (h' : Forall₂ S ys zs) (hT : ∀ x y z, R x y → S y z → T x z) :
    Forall₂ T xs zs := by
  induction h generalizing zs with
  | nil =>
    cases h'
    exact .nil
  | cons hx _ ih =>
    cases h' with
    | cons hy h' => exact .cons (hT _ _ _ hx hy) (ih h')

theorem Again.mapM (h : Forall₂ (fun x b => Again p (f x) b) xs bs) : Again p (xs.mapM f) bs := by
  induction h with
  | nil => exact Again.pure []
  | cons hx _ ih =>
    rw [mapM_cons]
    exact hx.bind (ih.bind (Again.pure _))

theorem Under.get_inst (h : p.Under q) {i : InstId} (hi : p.insts.Valid i) :
    q.insts.get i = p.insts.get i :=
  h.insts.get_eq hi

namespace Substitution

variable {s : Substitution}

def instAt (s : Substitution) (below : InstId → Edit InstId) (p : Program) (i : InstId) :
    Edit InstId :=
  match p.insts.get i with
  | ⟨.param q, _⟩ =>
    let param := p.params.get q
    if param.owner = s.cls then
      match s.args[param.index]? with
      | some arg => return arg
      | none => throw (.internal (.missingArgument param.index s.cls i))
    else return i
  | ⟨.cls c, args⟩ => do internInst ⟨.cls c, ← args.mapM below⟩

theorem instUpTo_succ (n : Nat) (i : InstId) :
    s.instUpTo (n + 1) i = get >>= fun p => s.instAt (s.instUpTo n) p i := rfl

theorem instAt_of_under {below : InstId → Edit InstId} {i : InstId} (hi : p.insts.Valid i)
    (h : p.Under q) : s.instAt below q i = s.instAt below p i := by
  rw [instAt, h.get_inst hi, h.alike.params, instAt]

section

variable (h : p.Tables) (hs : ∀ a ∈ s.args, p.insts.Valid a)
include h hs

/-- A second run needs no more fuel than there are instances before `i`. -/
theorem instUpTo_interns {i : InstId} (hi : p.insts.Valid i) (hn : i.index < n) :
    Interns p (s.instUpTo n i) fun a q => q.insts.Valid a ∧ ∀ k, i.index < k →
      Again q (s.instUpTo k i) a := by
  induction n generalizing p i with
  | zero => exact absurd hn (Nat.not_lt_zero _)
  | succ n ih =>
    have hstep : Interns p (s.instAt (s.instUpTo n) p i) fun a q =>
        q.insts.Valid a ∧ ∀ k, i.index ≤ k → Again q (s.instAt (s.instUpTo k) p i) a := by
      unfold instAt
      split
      · dsimp only
        split
        · split
          · rename_i arg harg
            exact .pure h ⟨hs arg (mem_of_getElem? harg), fun _ _ => Again.pure arg⟩
          · exact .throw h
        · exact .pure h ⟨hi, fun _ _ => Again.pure i⟩
      · rename_i c args hget
        have hargs : ∀ a ∈ args, a.index < i.index :=
          fun a ha => h.insts i a (by rw [hget]; exact ha)
        refine (Interns.mapM (P := fun x b q => q.insts.Valid b ∧ ∀ k, x.index < k →
          Again q (s.instUpTo k x) b) h
          (fun x b q r hqr hb => ⟨hqr.insts.valid hb.1, fun k hk => (hb.2 k hk).mono hqr.under⟩)
          fun a ha q hq => ih hq.tables (fun b hb => hq.insts.valid (hs b hb))
          (hq.insts.valid (Nat.lt_trans (hargs a ha) hi)) ?_).bind fun bs q hq hbs => ?_
        · have := hargs a ha
          omega
        · have hbs' := forall_of_forall₂ hbs fun _ _ hb => hb.1
          refine (internInst_interns hq.tables hbs').imp fun j r hr hj _ => ⟨hj.1, fun k hk => ?_⟩
          refine Again.bind (Again.mapM ?_) hj.2
          refine ((forall₂_and_left _ _).2 ⟨hargs, hbs⟩).imp fun x b hb => ?_
          exact (hb.2.2 k (Nat.lt_of_lt_of_le hb.1 hk)).mono hr.under
    rw [instUpTo_succ]
    refine .get (hstep.imp fun a q hq ha => ⟨ha.1, fun k hk => ?_⟩)
    obtain ⟨k, rfl⟩ := Nat.exists_eq_add_of_le' (Nat.lt_of_le_of_lt (Nat.zero_le _) hk)
    rw [instUpTo_succ]
    refine Again.get fun r hr => ?_
    rw [instAt_of_under hi (hq.under.trans hr)]
    exact ha.2 k (Nat.le_of_lt_succ hk) r hr

theorem inst_interns {i : InstId} (hi : p.insts.Valid i) :
    Interns p (s.inst i) fun a q => q.insts.Valid a ∧ Again q (s.inst i) a := by
  unfold inst
  refine .get ((instUpTo_interns h hs hi hi).imp fun a q hq ha => ⟨ha.1, Again.get fun r hr => ?_⟩)
  exact ha.2 r.insts.size ((hq.insts.trans hr.insts).valid hi) r hr

end

end Substitution

section

variable (h : p.Tables)
include h

theorem valid_of_substitution {s : Substitution} (hs : p.substitution? context = some s) :
    ∀ a ∈ s.args, p.insts.Valid a := by
  intro a ha
  have hctx : a ∈ (p.insts.get context).args := by
    unfold substitution? at hs
    split at hs
    · rename_i hget
      cases hs
      rw [hget]
      exact ha
    · cases hs
  by_cases hv : p.insts.Valid context
  · exact Nat.lt_trans (h.insts context a hctx) hv
  · rw [get_of_not_valid hv] at hctx
    cases hctx

theorem stripInst_interns {i : InstId} (hi : p.insts.Valid i) (hc : p.insts.Valid context) :
    Interns p (stripInst i context) fun j q => q.insts.Valid j ∧
      Again q (stripInst i context) j := by
  have hagain {q : Program} (hq : p.Under q) : q.substitution? context =
      p.substitution? context := by
    rw [substitution?, hq.get_inst hc, substitution?]
  unfold stripInst
  refine .get ?_
  split
  · rename_i s hs
    refine (Substitution.inst_interns h (valid_of_substitution h hs) hi).imp
      fun j q hq hj => ⟨hj.1, ?_⟩
    refine Again.get fun r hr => ?_
    rw [hagain (hq.under.trans hr), hs]
    exact hj.2 r hr
  · rename_i hs
    refine .pure h ⟨hi, Again.get fun r hr => ?_⟩
    rw [hagain hr, hs]
    rfl

theorem firstSome_interns {f : α → Edit (Option β)} {P : β → Program → Prop}
    (hf : ∀ x ∈ xs, ∀ q, p.Adds q → Interns q (f x) fun b r => (∀ y ∈ b, P y r) ∧ Again r (f x) b) :
    Interns p (firstSome f xs) fun b q => (∀ y ∈ b, P y q) ∧ Again q (firstSome f xs) b := by
  induction xs generalizing p with
  | nil => exact .pure h ⟨by simp, Again.pure none⟩
  | cons x xs ih =>
    refine (hf x mem_cons_self p (.refl h)).bind fun b q hq hb => ?_
    cases b with
    | some y => exact .pure hq.tables fun _ => ⟨hb.1, hb.2.bind (Again.pure _)⟩
    | none =>
      have hrest := ih hq.tables fun y hy r hr => hf y (mem_cons_of_mem x hy) r (hq.trans hr)
      exact hrest.imp fun b r hr hb' _ => ⟨hb'.1, (hb.2.mono hr.under).bind hb'.2⟩

end

def BasesValid (p : Program) : Prop :=
  ∀ c, ∀ b ∈ (p.classes.get c).bases, ∀ i, b.inst = some i → p.insts.Valid i

theorem Under.bases (h : p.Under q) (hb : p.BasesValid) : q.BasesValid := by
  intro c b hbc i hi
  rw [h.alike.bases] at hbc
  exact h.insts.valid (hb c b hbc i hi)

def upcastFrom (bases : List Base) (further : Bool) (below : InstId → Edit (Option InstId))
    (c ancestor : ClassId) (i : InstId) : Edit (Option InstId) := do
  if c = ancestor then return some i
  if !further then return none
  firstSome (fun base => do below (← stripInst base i)) (bases.filterMap Base.inst)

def upcastAt (p : Program) (below : InstId → Edit (Option InstId)) (i : InstId)
    (ancestor : ClassId) : Edit (Option InstId) :=
  match p.classOf? i with
  | none => return none
  | some c => do
    let i ←
      match (p.insts.get i).target with
      | .cls _ => pure i
      | .param _ => internInst ⟨.cls c, []⟩
    upcastFrom (p.classes.get c).bases (p.derivesFrom c ancestor) below c ancestor i

theorem upcastUpTo_succ (n : Nat) (i : InstId) (ancestor : ClassId) :
    upcastUpTo (n + 1) i ancestor = get >>= fun p =>
      p.upcastAt (upcastUpTo n · ancestor) i ancestor := by
  rw [upcastUpTo]
  congr 1
  funext p
  unfold upcastAt
  cases p.classOf? i <;> rfl

theorem upcastFrom_interns {bases : List Base} (further : Bool) (c ancestor : ClassId) {i : InstId}
    (h : p.Tables) (hi : p.insts.Valid i) (hb : ∀ b ∈ bases, ∀ j, b.inst = some j → p.insts.Valid j)
    (hbelow : ∀ q, p.Adds q → ∀ j, q.insts.Valid j → Interns q (below j) fun b r =>
      (∀ k ∈ b, r.insts.Valid k) ∧ Again r (below j) b) :
    Interns p (upcastFrom bases further below c ancestor i) fun b q => (∀ j ∈ b, q.insts.Valid j) ∧
      Again q (upcastFrom bases further below c ancestor i) b := by
  unfold upcastFrom
  split
  · exact .pure h ⟨by simpa using hi, Again.pure _⟩
  · split
    · exact .pure h ⟨by simp, Again.pure _⟩
    · refine firstSome_interns (P := fun j q => q.insts.Valid j) h fun base hbase q hq => ?_
      obtain ⟨b, hbm, hbi⟩ := mem_filterMap.1 hbase
      refine (stripInst_interns hq.tables (hq.insts.valid (hb b hbm base hbi))
        (hq.insts.valid hi)).bind fun j r hr hj => ?_
      refine (hbelow r (hq.trans hr) j hj.1).imp fun b' r' hr' hb' _ => ⟨hb'.1, ?_⟩
      exact (hj.2.mono hr'.under).bind hb'.2

theorem Under.classOf? (h : p.Under q) {i : InstId} (hi : p.insts.Valid i) :
    q.classOf? i = p.classOf? i := by
  rw [Program.classOf?, h.get_inst hi, h.alike.params, Program.classOf?]

theorem upcastAt_of_under {i : InstId} (hi : p.insts.Valid i) (h : p.Under q) :
    q.upcastAt below i ancestor = p.upcastAt below i ancestor := by
  simp only [upcastAt, h.classOf? hi, h.get_inst hi, h.alike.bases, derivesFrom, h.alike.ancestors]

section

variable (h : p.Tables) (hb : p.BasesValid)
include h hb

theorem upcastUpTo_interns {i : InstId} (hi : p.insts.Valid i) :
    Interns p (upcastUpTo n i ancestor) fun b q => (∀ j ∈ b, q.insts.Valid j) ∧
      Again q (upcastUpTo n i ancestor) b := by
  induction n generalizing p i with
  | zero => exact .pure h ⟨by simp, Again.pure none⟩
  | succ n ih =>
    have hfrom {q : Program} (hq : p.Adds q) (c : ClassId) {j : InstId} (hj : q.insts.Valid j) :=
      upcastFrom_interns (p.derivesFrom c ancestor) c ancestor hq.tables hj
        (fun b hbc k hk => hq.insts.valid (hb c b hbc k hk))
        (fun r hr k hk => ih hr.tables ((hq.trans hr).under.bases hb) hk)
    have hat : Interns p (p.upcastAt (upcastUpTo n · ancestor) i ancestor) fun b q =>
        (∀ j ∈ b, q.insts.Valid j) ∧
        Again q (p.upcastAt (upcastUpTo n · ancestor) i ancestor) b := by
      unfold upcastAt
      split
      · exact .pure h ⟨by simp, Again.pure none⟩
      · rename_i c _
        split
        · exact hfrom (.refl h) c hi
        · refine (internInst_interns h (by simp)).bind fun j q hq hj => ?_
          refine (hfrom hq c hj.1).imp fun b r hr hbr _ => ⟨hbr.1, ?_⟩
          exact (hj.2.mono hr.under).bind hbr.2
    rw [upcastUpTo_succ]
    refine .get (hat.imp fun b q hq hbq => ⟨hbq.1, Again.get fun r hr => ?_⟩)
    rw [upcastAt_of_under hi (hq.under.trans hr)]
    exact hbq.2 r hr

theorem upcast_interns {i : InstId} (hi : p.insts.Valid i) :
    Interns p (upcast i ancestor) fun b q => (∀ j ∈ b, q.insts.Valid j) ∧
      Again q (upcast i ancestor) b := by
  unfold upcast
  refine .get ((upcastUpTo_interns h hb hi).imp fun b q hq hbq => ⟨hbq.1, Again.get fun r hr => ?_⟩)
  rw [(hq.under.trans hr).alike.classesSize]
  exact hbq.2 r hr

theorem isSubinst_interns {i target : InstId} (hi : p.insts.Valid i) (ht : p.insts.Valid target) :
    Interns p (isSubinst i target) fun b q => Again q (isSubinst i target) b := by
  unfold isSubinst
  split
  · exact .pure h (Again.pure true)
  · refine .get ?_
    have hagain {q : Program} (hq : p.Under q) : q.insts.get target = p.insts.get target :=
      hq.get_inst ht
    split
    · rename_i c hc
      refine (upcast_interns h hb hi).bind fun b q hq hbq => .pure hq.tables fun _ => ?_
      refine Again.get fun r hr => ?_
      rw [hagain (hq.under.trans hr), hc]
      exact (Again.bind (f := fun b => pure (decide (b = some target))) hbq.2 (Again.pure _)) r hr
    · rename_i c hc
      refine .pure h (Again.get fun r hr => ?_)
      rw [hagain hr, hc]
      rfl

end

theorem again_isSubinst_self (p : Program) (x : InstId) : p.Again (isSubinst x x) true := by
  intro q _
  rw [isSubinst, if_pos rfl]
  rfl

def internParam (acc : List InstId × InstTable) (param : ParamId) : List InstId × InstTable :=
  (acc.1 ++ [(acc.2.intern ⟨.param param, []⟩).1], (acc.2.intern ⟨.param param, []⟩).2)

theorem foldl_internParam (params : List ParamId) {acc : List InstId × InstTable}
    (h : p.Adds { p with insts := acc.2 }) (ha : ∀ a ∈ acc.1, acc.2.Valid a) :
    p.Adds { p with insts := (params.foldl internParam acc).2 } ∧
      ∀ a ∈ (params.foldl internParam acc).1, (params.foldl internParam acc).2.Valid a := by
  induction params generalizing acc with
  | nil => exact ⟨h, ha⟩
  | cons param params ih =>
    have hadd : Adds _ { p with insts := (internParam acc param).2 } :=
      h.tables.internInst (by simp)
    refine ih (h.trans hadd) (forall_mem_append.2 ⟨fun a hm => hadd.insts.valid (ha a hm), ?_⟩)
    exact forall_mem_singleton.2 (valid_intern _ _)

theorem thisInst_adds (h : p.Tables) (c : ClassId) :
    p.Adds (p.thisInst c).2 ∧ (p.thisInst c).2.insts.Valid (p.thisInst c).1 := by
  have hempty : ∀ a ∈ (([], p.insts) : List InstId × InstTable).1, p.insts.Valid a :=
    forall_mem_nil _
  obtain ⟨hadd, hargs⟩ := foldl_internParam (p.classes.get c).params (Adds.refl h) hempty
  exact ⟨hadd.trans (hadd.tables.internInst hargs), valid_intern _ _⟩

end ClassLang.Program
