import ClassLang.Proofs.Arena
import ClassLang.Proofs.Arrivals
import ClassLang.Proofs.Ends
import ClassLang.Scope.Inheritance
import Mathlib.Data.List.Perm.Subperm
import Mathlib.Logic.Relation

namespace ClassLang

open Arena List

def ClassDef.unflattened (c : ClassDef) : ClassDef :=
  { c with members := {}, ancestors := [], flattened := false }

namespace Program

variable {p q r : Program} {c d : ClassId} {below order below' : List ClassId} {b : Base}
  {own : MemberTable}

def baseOf? (p : Program) (b : Base) : Option (InstId × ClassId) :=
  b.inst.bind fun i =>
    match (p.insts.get i).target with
    | .cls d => some (i, d)
    | .param _ => none

theorem baseOf?_eq_some {x : InstId × ClassId} :
    p.baseOf? b = some x ↔ b.inst = some x.1 ∧ (p.insts.get x.1).target = .cls x.2 := by
  obtain ⟨i, d⟩ := x
  rw [baseOf?, Option.bind_eq_some_iff]
  constructor
  · rintro ⟨j, hj, hd⟩
    split at hd
    · cases hd
      exact ⟨hj, ‹_›⟩
    · cases hd
  · rintro ⟨hi, hd⟩
    exact ⟨i, hi, by rw [hd]⟩

theorem classOf?_of_baseOf? {x : InstId × ClassId} (h : p.baseOf? b = some x) :
    b.inst.bind p.classOf? = some x.2 := by
  obtain ⟨hi, hd⟩ := baseOf?_eq_some.1 h
  rw [hi, Option.bind_some, classOf?, hd]

def basesOf (p : Program) (c : ClassId) : List (InstId × ClassId) :=
  (p.classes.get c).bases.filterMap p.baseOf?

def HasBase (p : Program) (c d : ClassId) : Prop := ∃ i, (i, d) ∈ p.basesOf c

def concrete (p : Program) (bases : List (InstId × ClassId)) : List (InstId × ClassId) :=
  bases.filter fun x => !(p.classes.get x.2).isInterface

/-- A class declaration that can be flattened once its bases are. -/
@[mk_iff]
structure Proper (p : Program) (c : ClassId) : Prop where
  bound : ∀ b ∈ (p.classes.get c).bases, (p.baseOf? b).isSome
  distinct : ((p.basesOf c).map Prod.snd).Nodup
  interface : (p.classes.get c).isInterface = true →
    ∀ x ∈ p.basesOf c, (p.classes.get x.2).isInterface = true
  single : (p.concrete (p.basesOf c)).length ≤ 1
  names : ((p.ownMembers (p.classes.get c)).map Prod.fst).Nodup

section Split

variable {bases rest : List (InstId × ClassId)} {x : InstId × ClassId} (h : p.Proper c)
  (hsplit : p.basesOf c = bases ++ x :: rest)
include h hsplit

theorem Proper.fresh : x.2 ∉ bases.map Prod.snd := by
  have hnodup := h.distinct
  rw [hsplit, map_append, map_cons] at hnodup
  exact fun hmem => disjoint_of_nodup_append hnodup hmem mem_cons_self

theorem Proper.sort : (p.classes.get x.2).isInterface = true ∨
    (p.classes.get c).isInterface = false ∧ (p.concrete bases).length = 0 := by
  cases hi : (p.classes.get x.2).isInterface with
  | true => exact .inl rfl
  | false =>
    refine .inr ⟨Bool.eq_false_iff.2 fun hc => ?_, ?_⟩
    · exact nomatch hi.symm.trans (h.interface hc x (by simp [hsplit]))
    · have hsingle := h.single
      simp only [hsplit, concrete, filter_append, length_append, filter_cons, hi, Bool.not_false,
        if_true, length_cons] at hsingle ⊢
      omega

end Split

/-- A class that is proper, as are all classes above it; no class is above itself then. -/
inductive Heritable (p : Program) : ClassId → Prop
  | intro {c : ClassId} : p.Proper c → (∀ d, p.HasBase c d → p.Heritable d) → p.Heritable c

theorem Heritable.proper (h : p.Heritable c) : p.Proper c := by
  cases h
  assumption

theorem Heritable.above (h : p.Heritable c) (hd : p.HasBase c d) : p.Heritable d := by
  cases h with
  | intro _ habove => exact habove d hd

theorem Heritable.not_cyclic (h : p.Heritable c) : ¬ Relation.TransGen p.HasBase c c := by
  induction h with
  | intro _ _ ih =>
    intro hc
    obtain ⟨d, hd, hdc⟩ := Relation.TransGen.head'_iff.1 hc
    exact ih d hd (Relation.TransGen.tail' hdc hd)

def declaredTable (members : List (NameId × Member × Location)) : MemberTable where
  order := members.map Prod.fst
  entries := members.map fun x => (x.1, [⟨x.2.1, []⟩])

/-- The members that a class declares make up a table exactly if their names differ. -/
theorem ownTable_eq_ok {members : List (NameId × Member × Location)} :
    ownTable members = .ok own ↔ (members.map Prod.fst).Nodup ∧ own = declaredTable members := by
  have hfrom (t : MemberTable) (ht : t.Tidy) :
      (members.foldlM (fun table x => if (table.insertOwn x.1 x.2.1).1 then .ok
        (table.insertOwn x.1 x.2.1).2 else .error ⟨.duplicate x.1, x.2.2⟩) t :
        Except (Fault NameCause) MemberTable) = .ok own ↔ (t.order ++ members.map Prod.fst).Nodup ∧
      own = ⟨t.order ++ (declaredTable members).order,
        t.entries ++ (declaredTable members).entries⟩ := by
    induction members generalizing t with
    | nil =>
      rw [foldlM_nil]
      simp [declaredTable, ht.nodup, eq_comm, pure, Except.pure]
    | cons x members ih =>
      obtain ⟨name, member, loc⟩ := x
      rw [foldlM_cons, map_cons]
      by_cases hname : name ∈ t.order
      · have htaken : ¬ (t.order ++ name :: members.map Prod.fst).Nodup := fun h =>
          disjoint_of_nodup_append h hname mem_cons_self
        simp [ht.insertOwn_of_mem hname, bind, Except.bind, htaken]
      · have hnew : t.insertOwn name member = _ := ht.insertOwn_of_not_mem hname
        have hadded : t.inherit name ⟨member, []⟩ =
            ⟨t.order ++ [name], t.entries ++ [(name, [⟨member, []⟩])]⟩ := by
          rw [MemberTable.insertOwn, if_neg (mt ht.contains_iff.1 hname),
            Assoc.put_of_not_mem (ht.keys ▸ hname)] at hnew
          exact (congrArg Prod.snd hnew).symm
        have hrest := ih (t.inherit name ⟨member, []⟩) ht.inherit
        rw [hadded, append_assoc, append_assoc, append_assoc] at hrest
        simp only [hnew, hadded]
        exact hrest
  exact hfrom {} MemberTable.tidy_empty

structure Flat (p : Program) (c : ClassId) : Prop extends p.Proper c where
  members : ∃ own, ownTable (p.ownMembers (p.classes.get c)) = .ok own ∧
    (p.classes.get c).members = p.memberTable own (p.basesOf c)
  ancestors : (p.classes.get c).ancestors = p.ancestorsOver (p.basesOf c)

def Laid (p : Program) : List ClassId → Prop
  | [] => True
  | c :: order => c ∉ order ∧ p.Flat c ∧ (∀ x ∈ p.basesOf c, x.2 ∈ order) ∧ p.Laid order

def Layered (p : Program) : Prop :=
  ∃ order, p.Laid order ∧ ∀ c, (p.classes.get c).flattened = true ↔ c ∈ order

/-- `q` is what `p` becomes by flattening classes, none of those in `below` among them. -/
structure Flattens (p : Program) (below : List ClassId) (q : Program) : Prop where
  rest : { p with classes := q.classes } = q
  size : q.classes.size = p.classes.size
  heads : ∀ c, (q.classes.get c).unflattened = (p.classes.get c).unflattened
  kept : ∀ c, (p.classes.get c).flattened = true → q.classes.get c = p.classes.get c
  below : ∀ c ∈ below, (q.classes.get c).flattened = (p.classes.get c).flattened
  layered : q.Layered

theorem Flattens.refl (h : p.Layered) : p.Flattens below p :=
  ⟨rfl, rfl, fun _ => rfl, fun _ _ => rfl, fun _ _ => rfl, h⟩

theorem Flattens.trans (h : p.Flattens below q) (h' : q.Flattens below r) : p.Flattens below r where
  rest := by rw [← h'.rest, ← h.rest]
  size := h'.size.trans h.size
  heads c := (h'.heads c).trans (h.heads c)
  kept c hc := by
    have hq := h.kept c hc
    rw [← hq] at hc
    exact (h'.kept c hc).trans hq
  below c hc := (h'.below c hc).trans (h.below c hc)
  layered := h'.layered

theorem Flattens.shrink (h : p.Flattens below q) (hsub : below' ⊆ below) : p.Flattens below' q :=
  { h with below := fun c hc => h.below c (hsub hc) }

section Frames

variable (h : p.Flattens below q)
include h

theorem Flattens.insts : q.insts = p.insts := (congrArg Program.insts h.rest).symm

theorem Flattens.vars : q.vars = p.vars := (congrArg Program.vars h.rest).symm

theorem Flattens.methods : q.methods = p.methods := (congrArg Program.methods h.rest).symm

theorem Flattens.baseOf? (b : Base) : q.baseOf? b = p.baseOf? b := by
  rw [Program.baseOf?, h.insts, Program.baseOf?]

theorem Flattens.bases (c : ClassId) : (q.classes.get c).bases = (p.classes.get c).bases :=
  (congrArg ClassDef.bases (h.heads c) :)

theorem Flattens.fields (c : ClassId) : (q.classes.get c).fields = (p.classes.get c).fields :=
  (congrArg ClassDef.fields (h.heads c) :)

theorem Flattens.ownMethods (c : ClassId) : (q.classes.get c).methods = (p.classes.get c).methods :=
  (congrArg ClassDef.methods (h.heads c) :)

theorem Flattens.isInterface (c : ClassId) :
    (q.classes.get c).isInterface = (p.classes.get c).isInterface :=
  (congrArg ClassDef.isInterface (h.heads c) :)

theorem Flattens.basesOf (c : ClassId) : q.basesOf c = p.basesOf c := by
  rw [Program.basesOf, h.bases, Program.basesOf]
  exact filterMap_congr fun b _ => h.baseOf? b

theorem Flattens.ownMembers (c : ClassId) :
    q.ownMembers (q.classes.get c) = p.ownMembers (p.classes.get c) := by
  simp only [Program.ownMembers, h.fields, h.ownMethods, h.vars, h.methods]

theorem Flattens.concrete (bases : List (InstId × ClassId)) :
    q.concrete bases = p.concrete bases := by
  simp only [Program.concrete, h.isInterface]

theorem Flattens.hasBase_eq : q.HasBase = p.HasBase := by
  funext c d
  rw [HasBase, h.basesOf, HasBase]

theorem Flattens.proper_iff : q.Proper c ↔ p.Proper c := by
  simp only [Program.proper_iff, h.bases, h.baseOf?, h.basesOf, h.isInterface, h.concrete,
    h.ownMembers]

theorem Flattens.heritable_iff : q.Heritable c ↔ p.Heritable c := by
  constructor
  · intro hc
    induction hc with
    | intro hproper _ ih => exact .intro (h.proper_iff.1 hproper) (h.hasBase_eq ▸ ih)
  · intro hc
    induction hc with
    | intro hproper _ ih => exact .intro (h.proper_iff.2 hproper) (h.hasBase_eq ▸ ih)

end Frames

section Layers

variable {bases : List (InstId × ClassId)} (h : ∀ x ∈ bases, q.classes.get x.2 = p.classes.get x.2)
include h

theorem memberTable_congr (own : MemberTable) : q.memberTable own bases = p.memberTable own bases :=
  foldl_ext _ _ _ fun table (inst, base) hx => by
    have hbase : q.classes.get base = p.classes.get base := h (inst, base) hx
    simp only [hbase]

theorem ancestorsOver_congr : q.ancestorsOver bases = p.ancestorsOver bases :=
  foldl_ext _ _ _ fun found (inst, base) hx => by
    have hbase : q.classes.get base = p.classes.get base := h (inst, base) hx
    simp only [hbase]

theorem concrete_congr : q.concrete bases = p.concrete bases :=
  filter_congr fun x hx => by rw [h x hx]

end Layers

/-- What the order says about its classes depends on these classes only. -/
theorem Laid.congr (h : p.Laid order) (hclasses : ∀ c ∈ order, q.classes.get c = p.classes.get c)
    (hbase : ∀ c ∈ order, ∀ b ∈ (p.classes.get c).bases, q.baseOf? b = p.baseOf? b)
    (hown : ∀ c ∈ order, q.ownMembers (p.classes.get c) = p.ownMembers (p.classes.get c)) :
    q.Laid order := by
  induction order with
  | nil => trivial
  | cons c order ih =>
    obtain ⟨hnew, hflat, hbases, hrest⟩ := h
    have hc := hclasses c mem_cons_self
    have hbasesOf : q.basesOf c = p.basesOf c := by
      rw [basesOf, hc, basesOf]
      exact filterMap_congr fun b hb => hbase c mem_cons_self b hb
    have hsame (x : InstId × ClassId) (hx : x ∈ p.basesOf c) :=
      hclasses x.2 (mem_cons_of_mem c (hbases x hx))
    have hproper : q.Proper c := by
      refine ⟨fun b hb => ?_, hbasesOf ▸ hflat.distinct, fun hc' x hx => ?_, ?_, ?_⟩
      · rw [hc] at hb
        rw [hbase c mem_cons_self b hb]
        exact hflat.bound b hb
      · rw [hbasesOf] at hx
        rw [hc] at hc'
        rw [hsame x hx]
        exact hflat.interface hc' x hx
      · rw [hbasesOf, concrete_congr hsame]
        exact hflat.single
      · rw [hc, hown c mem_cons_self]
        exact hflat.names
    refine ⟨hnew, ⟨hproper, ?_, ?_⟩, hbasesOf ▸ hbases, ih hrest
      (fun d hd => hclasses d (mem_cons_of_mem c hd)) (fun d hd => hbase d (mem_cons_of_mem c hd))
      fun d hd => hown d (mem_cons_of_mem c hd)⟩
    · obtain ⟨own, hok, hmembers⟩ := hflat.members
      rw [hc, hbasesOf]
      exact ⟨own, by rw [hown c mem_cons_self, hok], by rw [hmembers, memberTable_congr hsame]⟩
    · rw [hc, hbasesOf, ancestorsOver_congr hsame]
      exact hflat.ancestors

theorem Laid.flat (h : p.Laid order) (hc : c ∈ order) : p.Flat c := by
  induction order with
  | nil => cases hc
  | cons d order ih =>
    obtain ⟨_, hflat, _, hrest⟩ := h
    rcases mem_cons.1 hc with rfl | hc
    · exact hflat
    · exact ih hrest hc

theorem Laid.heritable (h : p.Laid order) (hc : c ∈ order) : p.Heritable c := by
  induction order generalizing c with
  | nil => cases hc
  | cons d order ih =>
    obtain ⟨_, hflat, hbases, hrest⟩ := h
    rcases mem_cons.1 hc with rfl | hc
    · exact .intro hflat.toProper fun d ⟨i, hd⟩ => ih hrest (hbases (i, d) hd)
    · exact ih hrest hc

theorem layered_of_unflattened (h : ∀ c ∈ p.classes.ids, (p.classes.get c).flattened = false) :
    p.Layered := by
  refine ⟨[], trivial, fun c => ?_⟩
  by_cases hc : p.classes.Valid c
  · simp [h c (mem_ids.2 hc)]
  · rw [get_of_not_valid hc]
    exact iff_of_false nofun nofun

def Interned (p : Program) : Prop :=
  ∀ c ∈ p.classes.ids, ∀ b ∈ (p.classes.get c).bases, b.inst.isSome ∧
    ∀ x ∈ p.baseOf? b, p.classes.Valid x.2

instance (p : Program) : Decidable p.Interned :=
  inferInstanceAs (Decidable (∀ c ∈ p.classes.ids, ∀ b ∈ (p.classes.get c).bases, _ ∧
    ∀ x ∈ p.baseOf? b, _))

namespace Flatten

variable {done : List Base} {acc : List (InstId × ClassId) × Nat} {n : Nat} {decl : Base}

structure Checked (p : Program) (c : ClassId) (done : List Base)
    (acc : List (InstId × ClassId) × Nat) : Prop where
  bound : ∀ b ∈ done, (p.baseOf? b).isSome
  found : acc.1 = done.filterMap p.baseOf?
  distinct : (acc.1.map Prod.snd).Nodup
  flattened : ∀ x ∈ acc.1, (p.classes.get x.2).flattened = true
  interface : (p.classes.get c).isInterface = true →
    ∀ x ∈ acc.1, (p.classes.get x.2).isInterface = true
  counted : acc.2 = (p.concrete acc.1).length
  single : acc.2 ≤ 1

theorem Checked.flattens (h : Checked p c done acc) (hq : p.Flattens below q) :
    Checked q c done acc where
  bound b hb := hq.baseOf? b ▸ h.bound b hb
  found := h.found.trans (filterMap_congr fun b _ => (hq.baseOf? b).symm)
  distinct := h.distinct
  flattened x hx := by
    rw [hq.kept x.2 (h.flattened x hx)]
    exact h.flattened x hx
  interface hc x hx := by
    rw [hq.isInterface] at hc ⊢
    exact h.interface hc x hx
  counted := h.counted.trans (by rw [hq.concrete])
  single := h.single

theorem Checked.nil : Checked p c [] ([], 0) :=
  ⟨nofun, rfl, .nil, nofun, fun _ => nofun, rfl, Nat.zero_le 1⟩

theorem Checked.snoc {bases : List (InstId × ClassId)} {x : InstId × ClassId}
    (h : Checked p c done (bases, n)) (hx : p.baseOf? decl = some x)
    (hnew : x.2 ∉ bases.map Prod.snd) (hflat : (p.classes.get x.2).flattened = true)
    (hsort : (p.classes.get x.2).isInterface = true ∨
      (p.classes.get c).isInterface = false ∧ n = 0) :
    Checked p c (done ++ [decl])
      (bases ++ [x], if (p.classes.get x.2).isInterface then n else n + 1) := by
  refine ⟨forall_mem_append.2 ⟨h.bound, forall_mem_singleton.2 ?_⟩, ?_, ?_,
    forall_mem_append.2 ⟨h.flattened, forall_mem_singleton.2 hflat⟩,
    fun hc => forall_mem_append.2 ⟨h.interface hc, forall_mem_singleton.2 ?_⟩, ?_, ?_⟩
  · rw [hx]
    rfl
  · rw [filterMap_append, ← h.found]
    simp [hx]
  · rw [map_append, nodup_append]
    refine ⟨h.distinct, nodup_singleton _, fun d hd e he hde => hnew ?_⟩
    rwa [← mem_singleton.1 he, ← hde]
  · rcases hsort with hi | ⟨hi, _⟩
    · exact hi
    · rw [hc] at hi
      cases hi
  · have hn : n = (p.concrete bases).length := h.counted
    cases hi : (p.classes.get x.2).isInterface <;> simp [concrete, hi, hn]
  · have hn : n ≤ 1 := h.single
    rcases hsort with hi | ⟨_, rfl⟩
    · simpa [hi] using hn
    · split <;> simp

section Agreement

variable {f f' : ClassId → Pass NameCause Unit} {s : PassState} {I J : PassState → Prop}
  {E : Fault NameCause → PassState → Prop}

/-- `I` goes on to hold, if it does so where the bases are flattened. -/
theorem checkBase_agrees (hs : I s)
    (hf : ∀ i d, s.program.baseOf? b = some (i, d) → Agrees s (f d) (f' d) (fun _ => I) E)
    (hE : ∀ cause s', I s' → E ⟨cause, s.program.loc b.reference⟩ s')
    (acc : List (InstId × ClassId) × Nat) :
    Agrees s (checkBase f c b acc) (checkBase f' c b acc) (fun _ => I) E := by
  obtain ⟨bases, concrete⟩ := acc
  rw [checkBase, checkBase]
  refine .program ?_
  dsimp only
  split
  · rename_i i hi
    refine .program ?_
    split
    · rename_i d hd
      split
      · exact Yields.agrees (.fail_bind (hE _ s hs))
      · refine .bind (hf i d (baseOf?_eq_some.2 ⟨hi, hd⟩)) fun _ s1 hs1 =>
          Yields.agrees (.program ?_)
        split
        · exact .pure hs1
        · split
          · exact .fail_bind (hE _ s1 hs1)
          · split
            · exact .fail_bind (hE _ s1 hs1)
            · exact .pure hs1
    · exact Yields.agrees (.fail (hE _ s hs))
  · exact Yields.agrees (.fail (hE _ s hs))

/-- Only a class of the program has bases to be flattened. -/
theorem classStep_agrees (hs : I s) (hflat : (s.program.classes.get c).flattened = true → J s)
    (hself : c ∈ below → E ⟨.selfInheritance c, (s.program.classes.get c).loc⟩ s)
    (hf : c ∉ below → s.program.classes.Valid c → ∀ d s', I s' →
      (∃ b ∈ (s.program.classes.get c).bases, ∃ i, s'.program.baseOf? b = some (i, d)) →
      Agrees s' (f d) (f' d) (fun _ => I) E)
    (hE : ∀ b ∈ (s.program.classes.get c).bases, ∀ s1, I s1 → ∀ cause s', I s' →
      E ⟨cause, s1.program.loc b.reference⟩ s')
    (hown : ∀ s' e, I s' → ownTable (s'.program.ownMembers (s.program.classes.get c)) = .error e →
      E e s')
    (hdone : ∀ s' members ancestors events, I s' →
      J { s' with program := s'.program.modifyClass c fun d =>
        { d with members, ancestors, flattened := true }, events }) :
    Agrees s (classStep f below c) (classStep f' below c) (fun _ => J) E := by
  unfold classStep
  refine .program ?_
  dsimp only
  split
  · exact Yields.agrees (.pure (hflat ‹_›))
  split
  · exact Yields.agrees (.fail_bind (hself ‹_›))
  rename_i hbelow
  refine .bind (.foldlM (I := fun _ _ => I) hs fun done b rest acc s1 hbases hs1 => ?_)
    fun acc s1 hs1 => Yields.agrees (.program ?_)
  · have hb : b ∈ (s.program.classes.get c).bases := by simp [hbases]
    have hc : s.program.classes.Valid c := valid_of_get_ne fun h => by
      rw [h] at hb
      cases hb
    exact checkBase_agrees hs1 (fun i d hd => hf hbelow hc d s1 hs1 ⟨b, hb, i, hd⟩)
      (hE b hb s1 hs1) acc
  · cases hrun : ownTable (s1.program.ownMembers (s.program.classes.get c)) with
    | error e => exact .fail_bind (hown s1 e hs1 hrun)
    | ok own => exact hdone s1 _ _ _ hs1

end Agreement

/-- What stands in the way of a base also stands in the way of the class. -/
theorem checkBase_ends {flatten : ClassId → Pass NameCause Unit} {rest : List Base}
    {H : ClassId → Prop} (hdecl : (p.classes.get c).bases = done ++ decl :: rest)
    (hflatten : ∀ d, p.HasBase c d →
      Ends p (flatten d) (fun _ q => p.Flattens below q ∧ (q.classes.get d).flattened = true)
      fun q => p.Flattens below q ∧ (H d → ¬ p.Heritable d)) (hp : p.Layered)
    (hacc : Checked p c done acc) :
    Ends p (checkBase flatten c decl acc)
      (fun acc' q => p.Flattens below q ∧ Checked q c (done ++ [decl]) acc') fun q =>
      p.Flattens below q ∧ ((∀ d, p.HasBase c d → H d) → ¬ p.Heritable c) := by
  obtain ⟨bases, n⟩ := acc
  have hmem : decl ∈ (p.classes.get c).bases := by simp [hdecl]
  have hunbound (h : ∀ x, p.baseOf? decl ≠ some x) : ¬ p.Heritable c := fun hc => by
    obtain ⟨x, hx⟩ := Option.isSome_iff_exists.1 (hc.proper.bound decl hmem)
    exact h x hx
  rw [checkBase]
  refine .program ?_
  extract_lets loc
  split
  · rename_i inst hinst
    refine .program ?_
    split
    · rename_i base hbase
      have hx : p.baseOf? decl = some (inst, base) := baseOf?_eq_some.2 ⟨hinst, hbase⟩
      have hsplit : p.basesOf c = bases ++ (inst, base) :: rest.filterMap p.baseOf? := by
        rw [basesOf, hdecl, filterMap_append, ← hacc.found, filterMap_cons_some hx]
      have hext : p.HasBase c base := ⟨inst, by simp [hsplit]⟩
      extract_lets done' concreteOnly next
      have hany : bases.any (·.2 = base) = true ↔ base ∈ bases.map Prod.snd := by simp
      split
      · rename_i hdup
        exact .fail_bind _ ⟨.refl hp, fun _ hc => hc.proper.fresh hsplit (hany.1 hdup)⟩
      · rename_i hnew
        rw [hany] at hnew
        refine .bind ((hflatten base hext).imp (fun _ q h => h) fun q ⟨hq, hbad⟩ =>
          ⟨hq, fun hH hc => hbad (hH base hext) (hc.above hext)⟩) fun _ q ⟨hq, hflat⟩ => .program ?_
        have hacc := hacc.flattens hq
        have hxq : q.baseOf? decl = some (inst, base) := (hq.baseOf? decl).trans hx
        have hsort (hc : p.Heritable c) := hc.proper.sort hsplit
        rw [← hq.isInterface, ← hq.isInterface, ← hq.concrete, ← hacc.counted] at hsort
        split
        · rename_i hi
          have hdone := hacc.snoc hxq hnew hflat (.inl hi)
          rw [if_pos hi] at hdone
          exact .pure ⟨hq, hdone⟩
        · rename_i hi
          split
          · rename_i hc
            refine .fail_bind _ ⟨hq, fun _ hher => ?_⟩
            exact nomatch hc.symm.trans ((hsort hher).resolve_left hi).1
          · rename_i hc
            dsimp only [concreteOnly]
            split
            · rename_i hn
              exact .fail_bind _ ⟨hq, fun _ hher => hn ((hsort hher).resolve_left hi).2⟩
            · rename_i hn
              have hdone := hacc.snoc hxq hnew hflat (.inr ⟨Bool.eq_false_iff.2 hc, not_not.1 hn⟩)
              rw [if_neg hi] at hdone
              exact .pure ⟨hq, hdone⟩
    · rename_i hparam
      refine .fail _ ⟨.refl hp, fun _ => hunbound fun (i, d) hx => ?_⟩
      obtain ⟨hi, hd⟩ := baseOf?_eq_some.1 hx
      cases hinst.symm.trans hi
      exact hparam d hd
  · rename_i hinst
    exact .fail _ ⟨.refl hp, fun _ => hunbound fun x hx => hinst x.1 (baseOf?_eq_some.1 hx).1⟩

/-- All bases of `c` have been flattened, and now `c` itself is. -/
theorem flattens_class {bases : List (InstId × ClassId)} (hq : p.Layered)
    (hnew : (p.classes.get c).flattened = false) (hc : p.classes.Valid c)
    (hbases : Checked p c (p.classes.get c).bases (bases, n))
    (hown : ownTable (p.ownMembers (p.classes.get c)) = .ok own) (hbelow : c ∉ below) :
    p.Flattens below (p.modifyClass c fun d => { d with
      members := p.memberTable own bases
      ancestors := p.ancestorsOver bases
      flattened := true }) := by
  generalize hq' : (p.modifyClass c _ : Program) = q
  have hself : q.classes.get c = { p.classes.get c with
      members := p.memberTable own bases
      ancestors := p.ancestorsOver bases
      flattened := true } := by
    rw [← hq']
    exact get_modify_self hc
  have hother (d : ClassId) (hd : c ≠ d) : q.classes.get d = p.classes.get d := by
    rw [← hq']
    exact get_modify_of_ne hd
  have hrest : { p with classes := q.classes } = q := by rw [← hq']; rfl
  have hkept (d : ClassId) (hd : (p.classes.get d).flattened = true) :
      q.classes.get d = p.classes.get d := by
    refine hother d ?_
    rintro rfl
    rw [hnew] at hd
    cases hd
  obtain ⟨order, hlaid, hmem⟩ := hq
  have hc' : c ∉ order := fun h => by
    rw [← hmem, hnew] at h
    cases h
  have hbase (b : Base) : q.baseOf? b = p.baseOf? b := by
    rw [Program.baseOf?, ← congrArg Program.insts hrest, Program.baseOf?]
  have hbasesOf : q.basesOf c = bases := by
    have hfound : bases = (p.classes.get c).bases.filterMap p.baseOf? := hbases.found
    rw [Program.basesOf, hself, hfound]
    exact filterMap_congr fun b _ => hbase b
  have hsame (x : InstId × ClassId) (hx : x ∈ bases) := hkept x.2 (hbases.flattened x hx)
  refine ⟨hrest, ?_, fun d => ?_, hkept, fun d hd => ?_, c :: order, ⟨hc', ?_, ?_, ?_⟩, fun d => ?_⟩
  · rw [← hq']
    exact size_modify _ _ _
  · by_cases hd : c = d
    · subst hd
      rw [hself]
      rfl
    · rw [hother d hd]
  · rw [hother d fun he => hbelow (he ▸ hd)]
  · refine ⟨⟨fun b hb => ?_, by rw [hbasesOf]; exact hbases.distinct, fun hi x hx => ?_, ?_, ?_⟩,
      ⟨own, ?_, ?_⟩, ?_⟩
    · rw [hself] at hb
      rw [hbase]
      exact hbases.bound b hb
    · rw [hself] at hi
      rw [hbasesOf] at hx
      rw [hsame x hx]
      exact hbases.interface hi x hx
    · rw [hbasesOf, concrete_congr hsame, ← hbases.counted]
      exact hbases.single
    · rw [hself, ← hrest]
      exact (ownTable_eq_ok.1 hown).1
    · rw [hself, ← hown, ← hq']
      rfl
    · rw [hself, hbasesOf, memberTable_congr hsame]
    · rw [hself, hbasesOf, ancestorsOver_congr hsame]
  · rw [hbasesOf]
    exact fun x hx => (hmem x.2).1 (hbases.flattened x hx)
  · refine hlaid.congr (fun d hd => hkept d ((hmem d).2 hd)) (fun _ _ b _ => hbase b) fun d _ => ?_
    rw [← hrest]
    rfl
  · rw [mem_cons]
    by_cases hd : c = d
    · subst hd
      rw [hself]
      exact iff_of_true rfl (.inl rfl)
    · rw [hother d hd, hmem d]
      exact ⟨.inr, fun h => h.resolve_left fun he => hd he.symm⟩

/-- There is fuel for a chain of bases from the classes in `below` over `c` that meets no class
twice. -/
structure Room (p : Program) (n : Nat) (below : List ClassId) (c : ClassId) : Prop where
  fuel : p.classes.size < n + below.length
  nodup : below.Nodup
  valid : ∀ d ∈ below, p.classes.Valid d
  under : ∀ d ∈ below, Relation.TransGen p.HasBase d c

theorem length_le_size {below : List ClassId} (hnodup : below.Nodup)
    (hvalid : ∀ d ∈ below, p.classes.Valid d) : below.length ≤ p.classes.size := by
  rw [← length_ids]
  exact (subperm_of_subset hnodup fun d hd => mem_ids.2 (hvalid d hd)).length_le

theorem Room.not_zero (h : Room p 0 below c) : False := by
  have hfuel := h.fuel
  have hlen := length_le_size h.nodup h.valid
  omega

theorem Room.above (h : Room p (n + 1) below c) (hc : p.classes.Valid c) (hnew : c ∉ below)
    (hd : p.HasBase c d) : Room p n (c :: below) d where
  fuel := by
    have hfuel := h.fuel
    rw [length_cons]
    omega
  nodup := nodup_cons.2 ⟨hnew, h.nodup⟩
  valid := forall_mem_cons.2 ⟨hc, h.valid⟩
  under := forall_mem_cons.2 ⟨.single hd, fun e he => (h.under e he).tail hd⟩

theorem Room.flattens (h : Room p n below c) (hq : p.Flattens below' q) : Room q n below c where
  fuel := hq.size ▸ h.fuel
  nodup := h.nodup
  valid d hd := by
    rw [Valid, hq.size]
    exact h.valid d hd
  under := hq.hasBase_eq ▸ h.under

def Closed (p : Program) : Prop := ∀ c d, p.HasBase c d → p.classes.Valid d

theorem Closed.flattens (h : Closed p) (hq : p.Flattens below q) : Closed q := fun c d hd => by
  rw [Valid, hq.size]
  exact h c d (hq.hasBase_eq ▸ hd)

/-- A class is flattened, or it is not heritable. No class is flattened while its own bases are: it
is in `below` then. -/
theorem classUpTo_ends (n : Nat) (hp : p.Layered) (hclosed : Closed p) (hc : p.classes.Valid c) :
    Ends p (classUpTo n below c)
      (fun _ q => p.Flattens below q ∧ (q.classes.get c).flattened = true) fun q =>
      p.Flattens below q ∧ (Room p n below c → ¬ p.Heritable c) := by
  induction n generalizing below c p with
  | zero => exact .program (.fail _ ⟨.refl hp, fun hroom => hroom.not_zero.elim⟩)
  | succ n ih =>
    unfold classUpTo classStep
    refine .program ?_
    extract_lets decl
    split
    · exact .pure ⟨.refl hp, ‹_›⟩
    · rename_i hflat
      split
      · rename_i hbelow
        exact .fail_bind _ ⟨.refl hp, fun hroom hher => hher.not_cyclic (hroom.under c hbelow)⟩
      · rename_i hbelow
        refine .bind (Ends.foldlM (I := fun done acc q => p.Flattens (c :: below) q ∧
          Checked q c done acc) ⟨.refl hp, .nil⟩ fun done b rest acc q hdecl ⟨hq, hacc⟩ => ?_)
          fun (bases, _) q ⟨hq, hbases⟩ => .program ?_
        · rw [show decl.bases = (q.classes.get c).bases from (hq.bases c).symm] at hdecl
          refine (checkBase_ends (H := Room q n (c :: below)) hdecl
            (fun d hd => ih hq.layered (hclosed.flattens hq) (hclosed.flattens hq c d hd))
            hq.layered hacc).imp (fun _ r ⟨hr, hacc⟩ => ⟨hq.trans hr, hacc⟩) fun r ⟨hr, hbad⟩ => ?_
          refine ⟨(hq.trans hr).shrink (subset_cons_self c below), fun hroom hher => ?_⟩
          refine hbad (fun d hd => ?_) (hq.heritable_iff.2 hher)
          exact (hroom.above hc hbelow (hq.hasBase_eq ▸ hd)).flattens hq
        · have hnew : (q.classes.get c).flattened = false := by
            rw [hq.below c mem_cons_self]
            exact Bool.eq_false_iff.2 hflat
          have hown : q.ownMembers decl = q.ownMembers (q.classes.get c) := by
            simp only [ownMembers, hq.fields, hq.ownMethods]
            rfl
          have hq' := hq.shrink (subset_cons_self c below)
          rw [hown]
          cases htable : ownTable (q.ownMembers (q.classes.get c)) with
          | error e =>
            refine .fail_bind e ⟨hq', fun _ hher => ?_⟩
            have hok : ownTable _ = .ok _ :=
              ownTable_eq_ok.2 ⟨(hq.proper_iff.2 hher.proper).names, rfl⟩
            rw [htable] at hok
            cases hok
          | ok own =>
            have hc' : q.classes.Valid c := by
              rw [Valid, hq.size]
              exact hc
            refine .bind (.pure (Q := fun a r => own = a ∧ q = r) ⟨rfl, rfl⟩) ?_
            rintro _ _ ⟨rfl, rfl⟩
            refine .bind (.emit (Q := fun _ r => q = r) rfl) ?_
            rintro _ _ rfl
            refine .edit ⟨hq'.trans
              (flattens_class hq.layered hnew hc' (hq.bases c ▸ hbases) htable hbelow), ?_⟩
            exact congrArg ClassDef.flattened (get_modify_self hc')

/-- Every class is flattened in the end, or one of them is not heritable. -/
theorem classes_end (hp : p.Layered) (hclosed : Closed p) (ids : List ClassId)
    (hids : ∀ c ∈ ids, p.classes.Valid c) :
    Ends p (classes ids) (fun _ q => p.Flattens [] q ∧ ∀ c ∈ ids, (q.classes.get c).flattened =
      true) fun q => p.Flattens [] q ∧ ∃ c ∈ ids, ¬ p.Heritable c := by
  refine .program (Ends.forM
    (I := fun done q => p.Flattens [] q ∧ ∀ c ∈ done, (q.classes.get c).flattened = true)
    ⟨.refl hp, nofun⟩ fun done c hc q ⟨hq, hdone⟩ => ?_)
  have hc' : q.classes.Valid c := Nat.lt_of_lt_of_eq (hids c hc) hq.size.symm
  refine (classUpTo_ends _ hq.layered (hclosed.flattens hq) hc').imp
    (fun _ r ⟨hr, hflat⟩ => ⟨hq.trans hr, ?_⟩) fun r ⟨hr, hbad⟩ =>
    ⟨hq.trans hr, c, hc, fun hher => hbad ⟨?_, .nil, nofun, nofun⟩ (hq.heritable_iff.2 hher)⟩
  · refine forall_mem_append.2 ⟨fun d hd => ?_, forall_mem_singleton.2 hflat⟩
    rw [hr.kept d (hdone d hd)]
    exact hdone d hd
  · rw [hq.size]
    exact Nat.lt_succ_self _

end Flatten

end Program

end ClassLang
