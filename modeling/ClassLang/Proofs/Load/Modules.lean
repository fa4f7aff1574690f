import ClassLang.Proofs.Grammar.Header
import ClassLang.Proofs.Load.Places
import Mathlib.Data.List.Chain
import Mathlib.Data.List.Perm.Subperm
import Mathlib.Order.WellFounded

namespace ClassLang

open Arena Pool List

def Asks (provide : String → Option String) (a b : String) : Prop :=
  ∃ text h, provide a = some text ∧ Grammar.headerOf? text = some h ∧ b ∈ h.imports.map (·.1)

structure Circular (provide : String → Option String) (path : List String) : Prop where
  ends : path.head? = path.getLast?
  length : 2 ≤ path.length
  chain : path.IsChain (Asks provide)

namespace Program

def Needs (p : Program) (i j : ModuleId) : Prop :=
  ∃ x ∈ (p.modules.get i).imports, x.module? = some j

structure Equipped (p : Program) (wanted : String × Nat × Span) (x : Import) : Prop where
  version : x.version = wanted.2.1
  span : x.span = wanted.2.2
  module : ∃ j, x.module? = some j ∧ p.Names j wanted.1 ∧ x.name = (p.modules.get j).name ∧
    wanted.2.1 ≤ (p.modules.get j).version

def Stocked (provide : String → Option String) (p : Program) (i : ModuleId) (name : String) :
    Prop :=
  ∃ text h, provide name = some text ∧ Grammar.headerOf? text = some h ∧
    (p.modules.get i).version = h.version ∧ Forall₂ p.Equipped h.imports (p.modules.get i).imports

structure Assembled (provide : String → Option String) (p : Program) : Prop where
  stocked : ∀ i, p.modules.Valid i → ∃ a, p.Names i a ∧ p.Stocked provide i a
  distinct : ∀ i j a, p.Names i a → p.Names j a → i = j
  acyclic : ∀ i, ¬ Relation.TransGen p.Needs i i

structure Preserves (p q : Program) : Prop where
  names : p.names.Grows q.names
  valid : ∀ {i}, p.modules.Valid i → q.modules.Valid i
  head : ∀ {i}, p.modules.Valid i → (q.modules.get i).head = (p.modules.get i).head

variable {provide : String → Option String} {p q r : Program} {i j : ModuleId}
  {a b name text : String} {active : List String} {wanted : String × Nat × Span}
  {header : Grammar.Header} {imports : List Import} {x : Import}

theorem Names.unique (h : p.Names i a) (h' : p.Names i b) : a = b := by
  have hentry := (find?_eq_some.1 h.found).2
  rw [(find?_eq_some.1 h'.found).2] at hentry
  exact (congrArg NameEntry.segment hentry).symm

@[refl] theorem Preserves.refl (p : Program) : p.Preserves p := ⟨.refl _, id, fun _ => rfl⟩

theorem Preserves.trans (h : p.Preserves q) (h' : q.Preserves r) : p.Preserves r :=
  ⟨h.names.trans h'.names, fun hi => h'.valid (h.valid hi), fun hi =>
    (h'.head (h.valid hi)).trans (h.head hi)⟩

theorem Heads.preserves (h : p.Heads q) : p.Preserves q :=
  ⟨h.names, fun hi => Nat.lt_of_lt_of_eq hi (size_of_map_eq h.modules).symm, fun _ =>
    get_of_map_eq rfl h.modules _⟩

theorem Preserves.onward (h : p.Preserves q) : p.Onward q := fun _ _ hi =>
  hi.of_eq (h.valid hi.valid) (congrArg Module.name (h.head hi.valid) :) h.names

theorem Preserves.modify (h : p.Preserves q) (hi : ¬ p.modules.Valid i) (f : Module → Module) :
    p.Preserves (q.modifyModule i f) := by
  refine ⟨h.names, fun hj => valid_modify.2 (h.valid hj), fun {j} hj => ?_⟩
  rw [← h.head hj]
  exact congrArg Module.head (get_modify_of_ne fun he => hi (he ▸ hj))

theorem Equipped.of_eq (h : p.Equipped wanted x)
    (hsame : ∀ j, x.module? = some j → p.Names j wanted.1 → q.Names j wanted.1 ∧
      (q.modules.get j).name = (p.modules.get j).name ∧
      (q.modules.get j).version = (p.modules.get j).version) : q.Equipped wanted x := by
  obtain ⟨j, hj, hnames, hid, hversion⟩ := h.module
  obtain ⟨hnames', hid', hversion'⟩ := hsame j hj hnames
  exact ⟨h.version, h.span, j, hj, hnames', hid.trans hid'.symm, hversion'.symm ▸ hversion⟩

theorem Equipped.preserves (h : p.Equipped wanted x) (hq : p.Preserves q) : q.Equipped wanted x :=
  h.of_eq fun j _ hj => ⟨hq.onward j _ hj, (congrArg Module.name (hq.head hj.valid) :),
    (congrArg Module.version (hq.head hj.valid) :)⟩

theorem Stocked.of_eq (h : p.Stocked provide i a)
    (himports : (q.modules.get i).imports = (p.modules.get i).imports)
    (hversion : (q.modules.get i).version = (p.modules.get i).version)
    (hsame : ∀ j b, p.Needs i j → p.Names j b → q.Names j b ∧
      (q.modules.get j).name = (p.modules.get j).name ∧
      (q.modules.get j).version = (p.modules.get j).version) : q.Stocked provide i a := by
  obtain ⟨text, header, htext, hheader, hv, hsupplied⟩ := h
  refine ⟨text, header, htext, hheader, hversion.trans hv, ?_⟩
  rw [himports]
  have hmem := ((forall₂_and_left _ _).2 ⟨fun x hx => hx, hsupplied.flip⟩).flip
  exact hmem.imp fun wanted x ⟨hx, hsupplied⟩ => hsupplied.of_eq fun j hj => hsame j _ ⟨x, hx, hj⟩

/-- What was loaded, while the imports of the modules `active` are being loaded. -/
structure Shelf (provide : String → Option String) (active : List String) (s : PassState) :
    Prop where
  bodied : s.program.Bodied
  -- The modules are in the order in which they were asked for.
  count : (Event.requests s.events).length = s.program.modules.size
  named : ∀ i, s.program.modules.Valid i → ∃ a, (Event.requests s.events)[i.index]? = some a ∧
    s.program.Names i a
  distinct : (Event.requests s.events).Nodup
  opened : ∀ a ∈ active, (provide a).isSome ∧ ∃ i, s.program.Names i a ∧
    (s.program.modules.get i).imports = []
  nested : active.Nodup
  chain : active.IsChain (Asks provide)
  closed : ∀ i j, s.program.Needs i j → ∃ b, s.program.Names j b ∧ b ∉ active
  stocked : ∀ i a, s.program.Names i a → a ∉ active → s.program.Stocked provide i a
  acyclic : ∀ i, Acc (fun j i => s.program.Needs i j) i

namespace Shelf

variable {s s' : PassState} (h : Shelf provide active s)
include h

theorem request (hi : s.program.Names i a) : (Event.requests s.events)[i.index]? = some a := by
  obtain ⟨b, hrequest, hnames⟩ := h.named i hi.valid
  rw [hrequest, hnames.unique hi]

theorem unique (hi : s.program.Names i a) (hj : s.program.Names j a) : i = j := by
  have hlt : i.index < (Event.requests s.events).length := Nat.lt_of_lt_of_eq hi.valid h.count.symm
  exact Id.eq_iff.2 ((getElem?_inj hlt h.distinct).1 ((h.request hi).trans (h.request hj).symm))

theorem mem_requests (hi : s.program.Names i a) : a ∈ Event.requests s.events :=
  mem_of_getElem? (h.request hi)

theorem exists_names (ha : a ∈ Event.requests s.events) : ∃ i, s.program.Names i a := by
  obtain ⟨k, hk, hget⟩ := mem_iff_getElem.1 ha
  obtain ⟨b, hrequest, hnames⟩ := h.named ⟨k⟩ (Nat.lt_of_lt_of_eq hk h.count)
  rw [getElem?_eq_getElem hk, hget] at hrequest
  cases hrequest
  exact ⟨⟨k⟩, hnames⟩

theorem touch (hevents : Event.requests s'.events = Event.requests s.events)
    (hbodied : s'.program.Bodied) (hsize : s'.program.modules.size = s.program.modules.size)
    (hnames : s.program.names.Grows s'.program.names)
    (hname : ∀ i, (s'.program.modules.get i).name = (s.program.modules.get i).name)
    (himports : ∀ i, (s'.program.modules.get i).imports = (s.program.modules.get i).imports)
    (hversion : ∀ i a, s.program.Names i a → a ∉ active → (s'.program.modules.get i).version =
      (s.program.modules.get i).version) : Shelf provide active s' := by
  have hup (i : ModuleId) (a : String) (hi : s.program.Names i a) : s'.program.Names i a :=
    hi.of_eq (Nat.lt_of_lt_of_eq hi.valid hsize.symm) (hname i) hnames
  have hdown (i : ModuleId) (a : String) (hi : s'.program.Names i a) : s.program.Names i a := by
    obtain ⟨b, -, hb⟩ := h.named i (Nat.lt_of_lt_of_eq hi.valid hsize)
    exact hi.unique (hup i b hb) ▸ hb
  have hneeds (i j : ModuleId) : s'.program.Needs i j ↔ s.program.Needs i j := by
    rw [Needs, himports, Needs]
  refine ⟨hbodied, ?_, fun i hi => ?_, hevents ▸ h.distinct, fun a ha => ?_, h.nested, h.chain,
    fun i j hij => ?_, fun i a hi ha => ?_, fun i => ?_⟩
  · rw [hevents, hsize]
    exact h.count
  · obtain ⟨a, hrequest, ha⟩ := h.named i (Nat.lt_of_lt_of_eq hi hsize)
    exact ⟨a, hevents ▸ hrequest, hup i a ha⟩
  · obtain ⟨hsome, i, hi, hopen⟩ := h.opened a ha
    exact ⟨hsome, i, hup i a hi, (himports i).trans hopen⟩
  · obtain ⟨b, hb, hactive⟩ := h.closed i j ((hneeds i j).1 hij)
    exact ⟨b, hup j b hb, hactive⟩
  · refine (h.stocked i a (hdown i a hi) ha).of_eq (himports i) (hversion i a (hdown i a hi) ha)
      fun j b hj hb => ?_
    obtain ⟨b', hb', hactive⟩ := h.closed i j hj
    exact ⟨hup j b hb, hname j, hversion j b' hb' hactive⟩
  · exact Subrelation.accessible (fun hij => (hneeds _ _).1 hij) (h.acyclic i)

theorem push (hnew : a ∉ Event.requests s.events) (hsome : (provide a).isSome)
    (hchain : (active ++ [a]).IsChain (Asks provide)) {d : Module}
    (hname : s.program.names.find? ⟨none, a⟩ = some d.name) (himports : d.imports = [])
    (hevents : Event.requests s'.events = Event.requests s.events ++ [a])
    (hprogram : s'.program = { s.program with modules := (s.program.modules.push d).2 }) :
    Shelf provide (active ++ [a]) s' ∧ s.program.Preserves s'.program ∧
      s'.program.Names ⟨s.program.modules.size⟩ a := by
  have hget (i : ModuleId) : s'.program.modules.get i = if i = ⟨s.program.modules.size⟩ then d
      else s.program.modules.get i := by
    rw [hprogram]
    exact get_push _ _ _
  have hvalid (i : ModuleId) : s'.program.modules.Valid i ↔ s.program.modules.Valid i ∨
      i = ⟨s.program.modules.size⟩ := by
    rw [hprogram]
    exact valid_push
  have hkeeps : s.program.Preserves s'.program := by
    refine ⟨hprogram ▸ .refl _, fun hi => (hvalid _).2 (.inl hi), fun {i} hi => ?_⟩
    rw [hget, if_neg (fun he => not_valid_size _ (he ▸ hi))]
  have hlast : s'.program.Names ⟨s.program.modules.size⟩ a := by
    refine ⟨(hvalid _).2 (.inr rfl), ?_⟩
    rw [hget, if_pos rfl, hprogram]
    exact hname
  have hneeds (i j : ModuleId) (hij : s'.program.Needs i j) : s.program.Needs i j := by
    rw [Needs, hget] at hij
    split at hij
    · rw [himports] at hij
      obtain ⟨_, hx, _⟩ := hij
      cases hx
    · exact hij
  refine ⟨⟨hprogram ▸ h.bodied, ?_, fun i hi => ?_, ?_, fun b hb => ?_, ?_, hchain, fun i j hij =>
    ?_, fun i b hi hb => ?_, fun i => ?_⟩, hkeeps, hlast⟩
  · rw [hevents, length_append, h.count, hprogram]
    exact (size_push _ _).symm
  · rw [hevents]
    rcases (hvalid i).1 hi with hi | rfl
    · obtain ⟨b, hrequest, hb⟩ := h.named i hi
      exact ⟨b, getElem?_append_left (by rw [h.count]; exact hi) ▸ hrequest, hkeeps.onward i b hb⟩
    · refine ⟨a, ?_, hlast⟩
      rw [← h.count, getElem?_append_right (Nat.le_refl _), Nat.sub_self]
      rfl
  · rw [hevents]
    exact nodup_append.2 ⟨h.distinct, nodup_singleton a, by grind⟩
  · rcases mem_append.1 hb with hb | hb
    · obtain ⟨hb', i, hi, hopen⟩ := h.opened b hb
      exact ⟨hb', i, hkeeps.onward i b hi,
        (congrArg Module.imports (hkeeps.head hi.valid) :).trans hopen⟩
    · obtain rfl := mem_singleton.1 hb
      exact ⟨hsome, _, hlast, by rw [hget, if_pos rfl, himports]⟩
  · have hactive : a ∉ active := by
      intro ha
      obtain ⟨_, _, hi, _⟩ := h.opened a ha
      exact hnew (h.mem_requests hi)
    exact nodup_append.2 ⟨h.nested, nodup_singleton a, by grind⟩
  · obtain ⟨b, hb, hactive⟩ := h.closed i j (hneeds i j hij)
    have hne : b ≠ a := fun he => hnew (he ▸ h.mem_requests hb)
    exact ⟨b, hkeeps.onward j b hb, by simp [hactive, hne]⟩
  · rw [mem_append, mem_singleton, not_or] at hb
    rcases (hvalid i).1 hi.valid with hv | rfl
    · obtain ⟨b', _, hb'⟩ := h.named i hv
      obtain rfl := (hkeeps.onward i b' hb').unique hi
      exact (h.stocked i b' hb' hb.1).of_eq (congrArg Module.imports (hkeeps.head hv) :)
        (congrArg Module.version (hkeeps.head hv) :) fun j c _ hc =>
        ⟨hkeeps.onward j c hc, (congrArg Module.name (hkeeps.head hc.valid) :),
          (congrArg Module.version (hkeeps.head hc.valid) :)⟩
    · exact absurd (hi.unique hlast) hb.2
  · exact Subrelation.accessible (fun {j i} hij => hneeds i j hij) (h.acyclic i)

end Shelf

theorem Shelf.close {s s' : PassState} (h : Shelf provide (active ++ [a]) s)
    (hi : s.program.Names i a) (htext : provide a = some text)
    (hheader : Grammar.headerOf? text = some header)
    (hversion : (s.program.modules.get i).version = header.version)
    (hsupplied : Forall₂ s.program.Equipped header.imports imports)
    (hclosed : ∀ x ∈ imports, ∀ j, x.module? = some j → ∃ b, s.program.Names j b ∧
      b ∉ active ++ [a]) (hevents : Event.requests s'.events = Event.requests s.events)
    (hprogram : s'.program = s.program.modifyModule i fun d => { d with imports }) :
    Shelf provide active s' := by
  obtain ⟨hnested, -, hdisjoint⟩ := nodup_append.1 h.nested
  have hsize : s'.program.modules.size = s.program.modules.size := by
    rw [hprogram]
    exact size_modify _ _ _
  have hsame (k : ModuleId) : (s'.program.modules.get k).name = (s.program.modules.get k).name ∧
      (s'.program.modules.get k).version = (s.program.modules.get k).version := by
    rw [hprogram]
    exact ⟨get_modify_eq Module.name (fun _ => by rfl) k,
      get_modify_eq Module.version (fun _ => by rfl) k⟩
  have hself : (s'.program.modules.get i).imports = imports := by
    rw [hprogram]
    exact (congrArg Module.imports (get_modify_self hi.valid) :)
  have hother (k : ModuleId) (hk : k ≠ i) : (s'.program.modules.get k).imports =
      (s.program.modules.get k).imports := by
    rw [hprogram]
    exact (congrArg Module.imports (get_modify_of_ne hk.symm) :)
  have hup (k : ModuleId) (b : String) (hk : s.program.Names k b) : s'.program.Names k b :=
    hk.of_eq (Nat.lt_of_lt_of_eq hk.valid hsize.symm) (hsame k).1 (hprogram ▸ .refl _)
  have hdown (k : ModuleId) (b : String) (hk : s'.program.Names k b) : s.program.Names k b := by
    obtain ⟨c, -, hc⟩ := h.named k (Nat.lt_of_lt_of_eq hk.valid hsize)
    exact hk.unique (hup k c hc) ▸ hc
  have hneeds (k j : ModuleId) (hk : k ≠ i) (hkj : s'.program.Needs k j) : s.program.Needs k j := by
    rwa [Needs, hother k hk] at hkj
  -- What is needed is closed already, so it is not this module.
  have houtside (k j : ModuleId) (hkj : s'.program.Needs k j) : ∃ b, s.program.Names j b ∧
      b ∉ active ++ [a] := by
    by_cases hk : k = i
    · subst hk
      obtain ⟨x, hx, hj⟩ := hkj
      rw [hself] at hx
      exact hclosed x hx j hj
    · exact h.closed k j (hneeds k j hk hkj)
  have hne (k j : ModuleId) (hkj : s'.program.Needs k j) : j ≠ i := by
    rintro rfl
    obtain ⟨b, hb, hactive⟩ := houtside k j hkj
    exact hactive (by simp [hb.unique hi])
  have hacc (k : ModuleId) (hk : k ≠ i) : Acc (fun j i => s'.program.Needs i j) k := by
    induction h.acyclic k with
    | intro k _ ih => exact ⟨k, fun j hkj => ih j (hneeds k j hk hkj) (hne k j hkj)⟩
  refine ⟨hprogram ▸ h.bodied, ?_, fun k hk => ?_, hevents ▸ h.distinct, fun b hb => ?_, hnested,
    h.chain.left_of_append, fun k j hkj => ?_, fun k b hk hb => ?_, fun k => ?_⟩
  · rw [hevents, hsize]
    exact h.count
  · obtain ⟨b, hrequest, hb⟩ := h.named k (Nat.lt_of_lt_of_eq hk hsize)
    exact ⟨b, hevents ▸ hrequest, hup k b hb⟩
  · obtain ⟨hsome, k, hk, hopen⟩ := h.opened b (mem_append_left _ hb)
    refine ⟨hsome, k, hup k b hk, (hother k ?_).trans hopen⟩
    rintro rfl
    exact hdisjoint b hb a (mem_singleton_self a) (hk.unique hi)
  · obtain ⟨b, hb, hactive⟩ := houtside k j hkj
    exact ⟨b, hup j b hb, fun hmem => hactive (mem_append_left _ hmem)⟩
  · by_cases hk' : k = i
    · subst hk'
      obtain rfl := (hdown k b hk).unique hi
      refine ⟨text, header, htext, hheader, (hsame k).2.trans hversion, hself ▸ hsupplied.imp
        fun wanted x hx => ?_⟩
      exact hx.of_eq fun j _ hj => ⟨hup j _ hj, hsame j⟩
    · have hba : b ≠ a := fun he => hk' (h.unique (he ▸ hdown k b hk) hi)
      refine (h.stocked k b (hdown k b hk) (by simp [hb, hba])).of_eq (hother k hk') (hsame k).2
        fun j c _ hc => ?_
      exact ⟨hup j c hc, hsame j⟩
  · by_cases hk : k = i
    · exact ⟨k, fun j hkj => hacc j (hne k j hkj)⟩
    · exact hacc k hk

/-- What goes wrong is no cycle, or the way that it names is one. No module was asked for twice. -/
def Refuses (provide : String → Option String) (e : ParseFault) (s : PassState) : Prop :=
  (Event.requests s.events).Nodup ∧ ∀ path, e.cause = .importCycle path → Circular provide path

theorem Refuses.of_isGrammar {s : PassState} {e : ParseFault} (h : (Event.requests s.events).Nodup)
    (he : e.cause.isGrammar) : Refuses provide e s := by
  refine ⟨h, fun path hpath => ?_⟩
  rw [hpath] at he
  cases he

theorem circular_of_mem (hchain : (active ++ [a]).IsChain (Asks provide)) (hb : b ∈ active ++ [a])
    (hasks : Asks provide a b) : Circular provide ((active ++ [a]).dropWhile (· ≠ b) ++ [b]) := by
  have hlast : (active ++ [a]).getLast? = some a := getLast?_concat
  obtain ⟨before, behind, heq, hbefore⟩ := eq_append_cons_of_mem hb
  rw [heq] at hchain hlast ⊢
  have hdrop : (before ++ b :: behind).dropWhile (· ≠ b) = b :: behind := by
    have hne (x : String) (hx : x ∈ before) : decide (x ≠ b) = true :=
      decide_eq_true (ne_of_mem_of_not_mem hx hbefore)
    rw [dropWhile_append_of_pos hne, dropWhile_cons_of_neg (by simp)]
  rw [hdrop]
  refine ⟨getLast?_concat.symm, by simp,
    isChain_append.2 ⟨hchain.right_of_append, .singleton b, ?_⟩⟩
  rw [getLast?_append_of_ne_nil _ (cons_ne_nil _ _)] at hlast
  intro x hx y hy
  rw [hlast, Option.mem_some_iff] at hx
  cases hy
  exact hx ▸ hasks

namespace Load

variable {s : PassState} {m : ModuleId}

theorem bindImport_agrees {load load' : String → Location → Load ModuleId}
    (hload : ∀ b loc (s : PassState), Shelf provide (active ++ [a]) s →
      b ∉ Event.requests s.events → Asks provide a b →
      Agrees s (load b loc) (load' b loc)
      (fun j s' => Shelf provide (active ++ [a]) s' ∧ s.program.Preserves s'.program ∧
        s'.program.Names j b) (Refuses provide)) (h : Shelf provide (active ++ [a]) s)
    (hasks : Asks provide a wanted.1) :
    Agrees s (bindImport load m (active ++ [a]) wanted) (bindImport load' m (active ++ [a]) wanted)
      (fun x s' => Shelf provide (active ++ [a]) s' ∧ s.program.Preserves s'.program ∧
        s'.program.Equipped wanted x ∧ wanted.1 ∉ active ++ [a]) (Refuses provide) := by
  obtain ⟨b, required, span⟩ := wanted
  rw [bindImport, bindImport]
  split
  · rename_i hb
    refine Yields.agrees (.fail_bind ⟨h.distinct, fun path hpath => ?_⟩)
    cases hpath
    exact circular_of_mem h.chain hb hasks
  · rename_i hb
    have hroot : Yields s (rootName b)
        (fun i s' => Shelf provide (active ++ [a]) s' ∧ s.program.Preserves s'.program ∧
          s'.program.names.find? ⟨none, b⟩ = some i) (Refuses provide) := by
      have hheads : s.program.Heads { s.program with names := (s.program.names.root b).2 } :=
        ⟨rfl, grows_intern _ _⟩
      refine .onProgram ⟨?_, hheads.preserves, find?_intern _ _⟩
      exact h.touch rfl h.bodied rfl hheads.names (fun _ => rfl) (fun _ => rfl) fun _ _ _ _ => rfl
    refine .bind hroot.agrees fun nameId s1 h1 => ?_
    obtain ⟨h1, hk1, hfound⟩ := h1
    refine .bind (Yields.agrees (Q := fun p s' => p = s1.program ∧ s' = s1) ⟨rfl, rfl⟩)
      fun p s1' hs => ?_
    obtain ⟨hp, hs⟩ := hs
    subst hs
    subst hp
    extract_lets finish
    have hfinish (j : ModuleId) (s2 : PassState) (h2 : Shelf provide (active ++ [a]) s2)
        (hk2 : s1'.program.Preserves s2.program) (hj : s2.program.Names j b) : Agrees s2 (finish j)
        (finish j) (fun x s' => Shelf provide (active ++ [a]) s' ∧ s.program.Preserves s'.program ∧
          s'.program.Equipped (b, required, span) x ∧ b ∉ active ++ [a]) (Refuses provide) := by
      refine Yields.agrees (.program ?_)
      extract_lets actual done
      split
      · exact .fail_bind ⟨h2.distinct, fun path hpath => by cases hpath⟩
      · rename_i hversion
        refine .pure ⟨h2, hk1.trans hk2, ⟨rfl, rfl, j, rfl, hj, ?_, Nat.le_of_not_lt hversion⟩, hb⟩
        exact Option.some.inj ((hk2.names.find? hfound).symm.trans hj.found)
    cases hexisting : s1'.program.moduleByName? nameId with
    | some j =>
      have hj : s1'.program.Names j b := by
        refine ⟨mem_ids.1 (mem_of_find?_eq_some hexisting), ?_⟩
        rw [of_decide_eq_true (find?_some hexisting :)]
        exact hfound
      exact hfinish j s1' h1 (.refl _) hj
    | none =>
      have hnew : b ∉ Event.requests s1'.events := by
        intro hmem
        obtain ⟨i, hi⟩ := h1.exists_names hmem
        have hne := find?_eq_none.1 hexisting i (mem_ids.2 hi.valid)
        exact hne (decide_eq_true (Option.some.inj (hi.found.symm.trans hfound)))
      exact .bind (hload b _ s1' h1 hnew hasks) fun j s2 h2 => hfinish j s2 h2.1 h2.2.1 h2.2.2

def blank (m : ModuleId) : Grammar.Page where
  module := m
  Holds _ := True
  Known _ := True
  holds_zero := trivial
  holds_cover _ _ := trivial
  known _ := trivial

theorem parsing_blank {α : Type} {rule : Grammar.Parse α} {last : Option Lexeme}
    {rest : List Lexeme} {Q : α → Program → Prop}
    (hrule : ∀ c, Grammar.Reads (blank m) c s.program rule Q) (h : Shelf provide active s) :
    Yields s (parsing m last rest rule)
      (fun _ s' => Shelf provide active s' ∧ s.program.Preserves s'.program) (Refuses provide) := by
  refine (parsing_reads (t := blank m) (hrule _) (fun _ _ => trivial) (fun _ _ => trivial)
    (placed_true _) h.bodied).imp ?_ ?_
  · rintro a s' ⟨hevents, hheads, hfits, -⟩
    have hhead (i : ModuleId) := get_of_map_eq rfl hheads.modules i
    refine ⟨h.touch (by rw [hevents]) hfits.bodied (size_of_map_eq hheads.modules) hheads.names ?_
      ?_ ?_, hheads.preserves⟩
    · exact fun i => (congrArg Module.name (hhead i) :)
    · exact fun i => (congrArg Module.imports (hhead i) :)
    · exact fun i _ _ _ => (congrArg Module.version (hhead i) :)
  · rintro e s' ⟨hevents, -, -, hgrammar⟩
    exact .of_isGrammar (hevents ▸ h.distinct) hgrammar

theorem parsing_header {lexemes : List Lexeme} (h : Shelf provide active s)
    (hlexemes : tokenize text = .ok lexemes) :
    Yields s (parsing m none lexemes Grammar.header)
      (fun x s' => s' = s ∧ Grammar.headerOf? text = some x.1) (Refuses provide) := by
  have hblank : Yields s (parsing m none lexemes Grammar.header) _ (Refuses provide) :=
    parsing_blank (fun c => Grammar.header_reads (t := blank m)) h
  rw [Yields, parsing_apply] at hblank ⊢
  cases hrun : Grammar.header { module := m, moduleName := (s.program.modules.get m).name }
      { last := none, rest := lexemes, program := s.program } with
  | ok header t =>
    have hprogram := (Grammar.Detached.header _ _ header t hrun).1
    refine ⟨?_, Grammar.headerOf?_eq_some hlexemes hrun⟩
    show ({ s with program := t.program } : PassState) = s
    rw [hprogram]
  | error e t =>
    rw [hrun] at hblank
    exact hblank

theorem opening_yields (h : Shelf provide active s) (hnew : a ∉ Event.requests s.events)
    (hsome : (provide a).isSome) (hchain : (active ++ [a]).IsChain (Asks provide)) {s1 : PassState}
    (hs1 : s1.program = s.program)
    (hevents : Event.requests s1.events = Event.requests s.events ++ [a]) :
    Yields s1 (rootName a)
      (fun nameId s2 => Yields s2 (addModule { name := nameId })
        (fun i s' => Shelf provide (active ++ [a]) s' ∧ s.program.Preserves s'.program ∧
          s'.program.Names i a ∧ ¬ s.program.modules.Valid i) (Refuses provide))
      (Refuses provide) := by
  have hheads : s.program.Heads { s.program with names := (s.program.names.root a).2 } :=
    ⟨rfl, grows_intern _ _⟩
  have hnamed : Shelf provide active
    { s with program := { s.program with names := (s.program.names.root a).2 } } :=
    h.touch rfl h.bodied rfl hheads.names (fun _ => rfl) (fun _ => rfl) fun _ _ _ _ => rfl
  refine .onProgram (.onProgram ?_)
  rw [hs1]
  obtain ⟨hshelf, hkeeps, hlast⟩ : Shelf provide (active ++ [a]) ⟨{ s.program with
      names := (s.program.names.root a).2, modules :=
        (s.program.modules.push { name := (s.program.names.root a).1 }).2 },
      s1.events, s1.writes⟩ ∧ _ ∧ _ :=
    hnamed.push hnew hsome hchain (d := { name := (s.program.names.root a).1 })
      (find?_intern _ _) rfl hevents rfl
  exact ⟨hshelf, hheads.preserves.trans hkeeps, hlast, not_valid_size _⟩

section

variable (h : Shelf provide (active ++ [a]) s) (hk : p.Preserves s.program)
  (hi : s.program.Names i a) (hfresh : ¬ p.modules.Valid i)
include h hk hi hfresh

theorem editVersion_yields (version : Nat) :
    Yields s (editModule i fun d => { d with version })
      (fun _ s' => Shelf provide (active ++ [a]) s' ∧ p.Preserves s'.program ∧
        s'.program.Names i a ∧ (s'.program.modules.get i).version = version) (Refuses provide) := by
  have hname (j : ModuleId) :
    ((s.program.modifyModule i fun d => { d with version }).modules.get j).name =
    (s.program.modules.get j).name := get_modify_eq Module.name (fun _ => by rfl) j
  refine .edit ⟨h.touch rfl h.bodied (size_modify _ _ _) (.refl _) hname ?_ ?_,
    hk.modify hfresh _, ?_, ?_⟩
  · exact fun j => get_modify_eq Module.imports (fun _ => by rfl) j
  · intro j b hj hb
    have hne : i ≠ j := by
      rintro rfl
      exact hb (by simp [hj.unique hi])
    exact (congrArg Module.version (get_modify_of_ne hne) :)
  · exact hi.of_eq (valid_modify.2 hi.valid) (hname i) (.refl _)
  · exact (congrArg Module.version (get_modify_self hi.valid) :)

theorem editImports_yields (htext : provide a = some text)
    (hheader : Grammar.headerOf? text = some header)
    (hversion : (s.program.modules.get i).version = header.version)
    (himports : Forall₂ (fun wanted x => s.program.Equipped wanted x ∧ wanted.1 ∉ active ++ [a])
      header.imports imports) :
    Yields s (editModule i fun d => { d with imports })
      (fun _ s' => Shelf provide active s' ∧ p.Preserves s'.program ∧ s'.program.Names i a)
      (Refuses provide) := by
  have htargets : Forall₂
      (fun x _ => (∀ j, x.module? = some j → ∃ b, s.program.Names j b ∧ b ∉ active ++ [a]) ∧ True)
      imports header.imports := by
    refine himports.flip.imp fun x wanted ⟨hsupplied, hactive⟩ => ⟨fun j hj => ?_, trivial⟩
    obtain ⟨j', hj', hnames, -⟩ := hsupplied.module
    obtain rfl : j = j' := Option.some.inj (hj.symm.trans hj')
    exact ⟨wanted.1, hnames, hactive⟩
  refine .edit ⟨h.close hi htext hheader hversion (himports.imp fun _ _ hx => hx.1) ?_ rfl rfl,
    hk.modify hfresh _, ?_⟩
  · exact ((forall₂_and_left _ _).1 htargets).1
  · exact hi.of_eq (valid_modify.2 hi.valid) (get_modify_eq Module.name (fun _ => by rfl) i)
      (.refl _)

end

theorem moduleStep_agrees {load load' : List String → String → Location → Load ModuleId}
    (hload : ∀ b loc (s : PassState), Shelf provide (active ++ [a]) s →
      b ∉ Event.requests s.events → Asks provide a b →
      Agrees s (load (active ++ [a]) b loc) (load' (active ++ [a]) b loc)
      (fun j s' => Shelf provide (active ++ [a]) s' ∧ s.program.Preserves s'.program ∧
        s'.program.Names j b) (Refuses provide)) (h : Shelf provide active s)
    (hnew : a ∉ Event.requests s.events) (hchain : (active ++ [a]).IsChain (Asks provide))
    (requestedAt : Location) :
    Agrees s (moduleStep provide load active a requestedAt)
      (moduleStep provide load' active a requestedAt)
      (fun i s' => Shelf provide active s' ∧ s.program.Preserves s'.program ∧ s'.program.Names i a)
      (Refuses provide) := by
  unfold moduleStep
  refine .bind (Yields.agrees
    (Q := fun _ s' => s'.program = s.program ∧ s'.events = s.events ++ [.requested a])
    (.emit ⟨rfl, rfl⟩)) fun _ s1 ⟨hs1, he1⟩ => ?_
  have hrequests1 : Event.requests s1.events = Event.requests s.events ++ [a] := by
    rw [he1]; exact filterMap_append
  have hdistinct : (Event.requests s1.events).Nodup := by
    rw [hrequests1]
    exact nodup_append.2 ⟨h.distinct, nodup_singleton a, by grind⟩
  cases htext : provide a with
  | none => exact Yields.agrees (.fail ⟨hdistinct, fun path hpath => nomatch hpath⟩)
  | some text =>
    dsimp -zeta only
    refine .bind (opening_yields h hnew (htext ▸ rfl) hchain hs1 hrequests1).agrees
      fun nameId s2 hadd => ?_
    refine .bind hadd.agrees fun id s3 ⟨h3, hk3, hid3, hfresh⟩ => ?_
    extract_lets active' read read'
    have hread (lexemes : List Lexeme) (hlexemes : tokenize text = .ok lexemes) :
        Agrees s3 (read lexemes) (read' lexemes)
        (fun i s' => Shelf provide active s' ∧ s.program.Preserves s'.program ∧
          s'.program.Names i a) (Refuses provide) := by
      refine .bind (parsing_header h3 hlexemes).agrees fun (header, last, rest) s3' ⟨hs, hheader⟩ =>
        ?_
      subst hs
      dsimp -zeta only at hheader ⊢
      extract_lets body body'
      have hbody : Agrees s3' (body ()) (body' ())
          (fun i s' => Shelf provide active s' ∧ s.program.Preserves s'.program ∧
            s'.program.Names i a) (Refuses provide) := by
        refine .bind (editVersion_yields h3 hk3 hid3 hfresh header.version).agrees
          fun _ s4 ⟨h4, hk4, hid4, hversion⟩ => ?_
        refine .bind (.mapM (I := fun done xs s' => Shelf provide (active ++ [a]) s' ∧
          s4.program.Preserves s'.program ∧
          Forall₂ (fun wanted x => s'.program.Equipped wanted x ∧ wanted.1 ∉ active ++ [a]) done xs)
          ⟨h4, .refl _, .nil⟩ fun done xs wanted rest s' heq ⟨h', hk', hdone⟩ => ?_)
          fun imports s5 ⟨h5, hk5, himports⟩ => ?_
        · have hasks : Asks provide a wanted.1 :=
            ⟨text, header, htext, hheader, mem_map_of_mem (by simp [heq])⟩
          refine (bindImport_agrees hload h' hasks).imp
            (fun x s'' ⟨h'', hk'', hx⟩ => ⟨h'', hk'.trans hk'', ?_⟩) fun _ _ he => he
          exact rel_append (hdone.imp fun _ _ hy => ⟨hy.1.preserves hk'', hy.2⟩) (.cons hx .nil)
        have hversion5 := (congrArg Module.version (hk5.head hid4.valid) :).trans hversion
        refine .bind (editImports_yields h5 (hk4.trans hk5) (hk5.onward _ _ hid4) hfresh htext
          hheader hversion5 himports).agrees fun _ s6 ⟨h6, hk6, hid6⟩ => ?_
        refine .bind (parsing_blank (fun c => Grammar.moduleBody_reads) h6).agrees
          fun _ s7 ⟨h7, hk7⟩ => Yields.agrees (.program ?_)
        refine .bind (Q := fun _ s' => Shelf provide active s' ∧ s'.program = s7.program)
          (.emit ⟨?_, rfl⟩) fun _ s8 ⟨h8, hs8⟩ => ?_
        · exact h7.touch (filterMap_append.trans (append_nil _)) h7.bodied rfl (.refl _)
            (fun _ => rfl) (fun _ => rfl) fun _ _ _ _ => rfl
        · exact .pure ⟨h8, hs8 ▸ hk6.trans hk7, hs8 ▸ hk7.onward _ _ hid6⟩
      split
      · split
        · exact Yields.agrees (.fail_bind ⟨h3.distinct, fun path hpath => nomatch hpath⟩)
        · exact hbody
      · exact hbody
    cases hlexemes : tokenize text with
    | ok lexemes => exact hread lexemes hlexemes
    | error e => exact Yields.agrees (.fail_bind ⟨h3.distinct, fun path hpath => nomatch hpath⟩)

/-- Loads a module with all that it imports, where `out` takes over from the depth `n` on. -/
def moduleWithin (provide : String → Option String)
    (out : List String → String → Location → Load ModuleId) :
    Nat → List String → String → Location → Load ModuleId
  | 0 => out
  | n + 1 => moduleStep provide (moduleWithin provide out n)

theorem module_eq_within (n : Nat) :
    module provide n = moduleWithin provide
      (fun _ name requestedAt => throw ⟨.missingModule name, requestedAt⟩) n := by
  induction n with
  | zero => rfl
  | succ n ih =>
    funext active name requestedAt
    rw [module, ih, moduleWithin]

/-- Each module that is being loaded has one of the texts, so there is no module deeper in than
there are texts. -/
theorem moduleWithin_agrees {names : List String} (hknown : ∀ a, (provide a).isSome → a ∈ names)
    (out out' : List String → String → Location → Load ModuleId) {n k : Nat}
    (hn : names.length < active.length + n) (hk : names.length < active.length + k)
    (h : Shelf provide active s) (hnew : a ∉ Event.requests s.events)
    (hchain : (active ++ [a]).IsChain (Asks provide)) (requestedAt : Location) :
    Agrees s (moduleWithin provide out n active a requestedAt)
      (moduleWithin provide out' k active a requestedAt)
      (fun i s' => Shelf provide active s' ∧ s.program.Preserves s'.program ∧ s'.program.Names i a)
      (Refuses provide) := by
  induction n generalizing k active a requestedAt s with
  | zero =>
    have hle := (subperm_of_subset h.nested fun a ha => hknown a (h.opened a ha).1).length_le
    omega
  | succ n ih =>
    cases k with
    | zero =>
      have hle := (subperm_of_subset h.nested fun a ha => hknown a (h.opened a ha).1).length_le
      omega
    | succ k =>
      refine moduleStep_agrees (fun b loc s hs hb hasks => ?_) h hnew hchain requestedAt
      refine ih (by simp; omega) (by simp; omega) hs hb ?_ loc
      refine isChain_append.2 ⟨hchain, .singleton b, ?_⟩
      rintro x hx y ⟨⟩
      rw [getLast?_concat, Option.mem_some_iff] at hx
      exact hx ▸ hasks

end Load

theorem shelf_empty (provide : String → Option String) : Shelf provide [] { program := {} } where
  bodied := bodied_empty
  count := rfl
  named _ hi := nomatch hi
  distinct := .nil
  opened _ ha := nomatch ha
  nested := .nil
  chain := .nil
  closed _ _ := fun ⟨_, hx, _⟩ => nomatch hx
  stocked _ _ hi := nomatch hi.valid
  acyclic i := ⟨i, fun _ ⟨_, hx, _⟩ => nomatch hx⟩

theorem Shelf.assembled {s : PassState} (h : Shelf provide [] s) : s.program.Assembled provide := by
  refine ⟨fun i hi => ?_, fun i j a => h.unique, fun i hcycle => ?_⟩
  · obtain ⟨a, -, ha⟩ := h.named i hi
    exact ⟨a, ha, h.stocked i a ha not_mem_nil⟩
  · have hwf : WellFounded (Relation.TransGen fun j i => s.program.Needs i j) :=
      ⟨fun k => (h.acyclic k).transGen⟩
    have hswap := Relation.transGen_swap.2 hcycle
    exact hwf.asymmetric i i hswap hswap

/-- A module is loaded with all that it imports, at whatever depth, and no text is asked for twice.
If all goes well, each module has what its text asks for, in versions that are new enough, and none
needs itself. A cycle that is complained about is one. -/
theorem load_modules {names : List String} {texts : Nat}
    (hknown : ∀ a, (provide a).isSome → a ∈ names) (htexts : names.length ≤ texts) (root : String) :
    (∀ out n, names.length < n →
      (Load.moduleWithin provide out n [] root {}).outcome {} = load {} provide texts root) ∧
    (Event.requests (load {} provide texts root).events).Nodup ∧
    match (load {} provide texts root).result with
    | .ok i =>
      (load {} provide texts root).program.Names i root ∧
        (load {} provide texts root).program.Assembled provide
    | .error e => ∀ path, e.cause = .importCycle path → Circular provide path := by
  have hagrees (out : List String → String → Location → Load ModuleId) {n : Nat}
    (hn : names.length < n) :=
    Load.moduleWithin_agrees hknown out
    (fun _ name requestedAt => throw ⟨.missingModule name, requestedAt⟩) (a := root)
    (k := texts + 1) (by simpa using hn) (by simp; omega) (shelf_empty provide) List.not_mem_nil
    (.singleton root) {}
  have hload := (hagrees (fun _ name requestedAt => throw ⟨.missingModule name, requestedAt⟩)
    (n := texts + 1) (by omega)).2.outcome
  refine ⟨fun out n hn => ?_, ?_⟩
  · have hrun := (hagrees out hn).1
    rw [load, Load.module_eq_within, Pass.outcome, Pass.outcome, EStateM.run, EStateM.run, hrun]
  · rw [← Load.module_eq_within] at hload
    rw [load]
    split at hload
    · rename_i i hok
      obtain ⟨hshelf, -, hroot⟩ := hload
      refine ⟨hshelf.distinct, ?_⟩
      rw [hok]
      exact ⟨hroot, hshelf.assembled⟩
    · rename_i e herror
      refine ⟨hload.1, ?_⟩
      rw [herror]
      exact hload.2

def libraryTexts : String → Option String
  | "main" => some "using lists; using texts.2;"
  | "lists" => some "using texts.1;"
  | "texts" => some "module texts.3;"
  | "even" => some "using odd;"
  | "odd" => some "using texts; using even;"
  | _ => none

theorem mem_of_libraryTexts {a : String} (h : (libraryTexts a).isSome) :
    a ∈ ["main", "lists", "texts", "even", "odd"] := by
  unfold libraryTexts at h
  split at h <;> simp_all

/-- The shared module is loaded once, and the cycle is found behind it. -/
theorem load_modules_library :
    (Event.requests (load {} libraryTexts 5 "main").events = ["main", "lists", "texts"] ∧
      (load {} libraryTexts 5 "main").program.Assembled libraryTexts) ∧
    ∃ e, (load {} libraryTexts 5 "even").result = .error e ∧
      e.cause = .importCycle ["even", "odd", "even"] ∧
      Circular libraryTexts ["even", "odd", "even"] := by
  have hrun : Event.requests (load {} libraryTexts 5 "main").events = ["main", "lists", "texts"] ∧
      (load {} libraryTexts 5 "main").result.toOption.isSome ∧
      (load {} libraryTexts 5 "even").result = .error
      ⟨.importCycle ["even", "odd", "even"], ⟨some ⟨1⟩, ⟨13, 24⟩⟩⟩ := by
    decide +kernel
  have hmain := load_modules (fun _ => mem_of_libraryTexts) (Nat.le_refl 5) "main"
  have heven := load_modules (fun _ => mem_of_libraryTexts) (Nat.le_refl 5) "even"
  generalize load {} libraryTexts 5 "main" = o at hrun hmain ⊢
  generalize load {} libraryTexts 5 "even" = o' at hrun heven ⊢
  obtain ⟨hrequests, hsome, herror⟩ := hrun
  rw [herror] at heven
  refine ⟨⟨hrequests, ?_⟩, _, herror, rfl, heven.2.2 _ rfl⟩
  cases hok : o.result with
  | ok i =>
    rw [hok] at hmain
    exact hmain.2.2.2
  | error e =>
    rw [hok] at hsome
    cases hsome

end Program

end ClassLang
