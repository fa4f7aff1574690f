import ClassLang.Inst
import ClassLang.Proofs.Names
import ClassLang.Proofs.Types

/-!
Names, types and instances are interned: an id stands for one value for ever, and a value has one
id. Values are made of earlier ones, so that following them ends.
-/

namespace ClassLang

open Arena Pool List

def Pool.Dense {e : Entity} {α : Type} [DecidableEq α] (t : Pool e α) : Prop :=
  (∀ i, (t.get? i).isSome ↔ i.index < t.size) ∧
    ∀ x, (t.intern x).2 = t ∨ (t.intern x).1 = ⟨t.size⟩ ∧ (t.intern x).2.size = t.size + 1

theorem Pool.dense {e : Entity} {α : Type} [DecidableEq α] (t : Pool e α) : t.Dense := by
  refine ⟨fun i => by simp [Arena.get?, Arena.size], fun x => ?_⟩
  obtain ⟨h, -⟩ | ⟨h, -, hid⟩ := t.intern_cases x
  · exact .inl h
  · exact .inr ⟨hid, by rw [h, size_push]⟩

def Ty.deeper (t : TypeId) : Ty → Ty
  | .optional wrapped depth => .optional wrapped (depth + 1)
  | _ => .optional t 1

def Ty.shallower? (T : TypeTable) : Ty → Option Ty
  | .optional wrapped depth =>
    some (if depth = 1 then T.get wrapped else .optional wrapped (depth - 1))
  | _ => none

def Ty.lent (T : TypeTable) : Ty → Ty
  | .ref .own inst => .ref .pin inst
  | .optional wrapped depth =>
    match T.get wrapped with
    | .ref .own inst => .optional (T.intern (.ref .pin inst)).1 depth
    | _ => .optional wrapped depth
  | x => x

def Ty.seen (T : TypeTable) : Ty → Ty
  | .ref .weak inst => .optional (T.intern (.ref .pin inst)).1 1
  | x => x.lent T

theorem TypeTable.optional_eq (T : TypeTable) (t : TypeId) :
    T.optional t = T.intern ((T.get t).deeper t) := by
  unfold TypeTable.optional
  split
  · rename_i hget
    rw [hget, Ty.deeper]
  · rename_i hget
    rw [Ty.deeper.eq_2 _ _ hget]

theorem TypeTable.find?_optional (T : TypeTable) (t : TypeId) :
    (T.optional t).2.find? ((T.get t).deeper t) = some (T.optional t).1 := by
  rw [optional_eq]
  exact find?_intern T _

theorem TypeTable.find?_pinned {T : TypeTable} {t : TypeId} (ht : T.Valid t) :
    (T.pinned t).2.find? ((T.get t).lent T) = some (T.pinned t).1 := by
  unfold TypeTable.pinned
  split
  · rename_i inst hget
    rw [hget]
    exact find?_intern T _
  · rename_i wrapped depth hget
    rw [hget, Ty.lent]
    cases T.get wrapped with
    | ref kind inst =>
      cases kind with
      | own => exact find?_intern (T.intern (.ref .pin inst)).2 _
      | pin | weak => exact find?_eq_some.2 ⟨ht, hget⟩
    | _ => exact find?_eq_some.2 ⟨ht, hget⟩
  · rename_i hown hoptional
    rw [Ty.lent.eq_3 _ _ hown hoptional]
    exact find?_eq_some.2 ⟨ht, rfl⟩

theorem TypeTable.find?_read {T : TypeTable} {t : TypeId} (ht : T.Valid t) :
    (T.read t).2.find? ((T.get t).seen T) = some (T.read t).1 := by
  unfold TypeTable.read
  split
  · rename_i inst hget
    have hpin := get_intern_self T (.ref .pin inst)
    have hfind := TypeTable.find?_optional (T.intern (.ref .pin inst)).2
      (T.intern (.ref .pin inst)).1
    rw [hpin] at hfind
    rw [hget]
    exact hfind
  · rename_i hweak
    rw [Ty.seen.eq_2 _ _ hweak]
    exact find?_pinned ht

theorem TypeTable.unwrap_cases {T : TypeTable} {n : Nat} {t : TypeId} (h : T.Sound n)
    (ht : T.Valid t) :
    ((T.get t).shallower? T = none ∧ T.unwrap t = (none, T)) ∨
      ∃ y r, (T.get t).shallower? T = some y ∧ (T.unwrap t).1 = some r ∧
      (T.unwrap t).2.find? y = some r := by
  unfold TypeTable.unwrap
  split
  · rename_i wrapped hget
    have hw : T.Valid wrapped := h.valid_part ht (by simp [hget, Ty.parts])
    exact .inr ⟨_, wrapped, by rw [hget, Ty.shallower?, if_pos rfl], rfl, find?_eq_some.2 ⟨hw, rfl⟩⟩
  · rename_i wrapped depth hne hget
    refine .inr ⟨_, _, by rw [hget, Ty.shallower?, if_neg hne], rfl, find?_intern T _⟩
  · rename_i hone hother
    exact .inl ⟨Ty.shallower?.eq_2 _ _ hother, rfl⟩

structure Tables where
  names : NameTable := {}
  types : TypeTable := TypeTable.basic
  insts : InstTable := {}

namespace Tables

inductive Value
  | name (x : NameEntry)
  | type (x : Ty)
  | inst (x : Inst)

inductive Key
  | name (i : NameId)
  | type (t : TypeId)
  | inst (i : InstId)

def value? (s : Tables) : Key → Option Value
  | .name i => (s.names.get? i).map .name
  | .type t => (s.types.get? t).map .type
  | .inst i => (s.insts.get? i).map .inst

def key? (s : Tables) : Value → Option Key
  | .name x => (s.names.find? x).map .name
  | .type x => (s.types.find? x).map .type
  | .inst x => (s.insts.find? x).map .inst

inductive Op
  | name (op : NameTable.Op)
  | type (x : Ty)
  | optional (t : TypeId)
  | unwrap (t : TypeId)
  | pinned (t : TypeId)
  | read (t : TypeId)
  | plain (target : Target)
  | instantiate (target : Target) (args : List InstId)

/-- What an operation refers to is in the tables, placeholders aside. -/
def Defined (s : Tables) : Op → Prop
  | .name op => ∀ i ∈ op.ids, s.names.Valid i
  | .type x => (∀ t ∈ x.parts, s.types.Valid t) ∧ ∀ i ∈ x.inst?, s.insts.Valid i
  | .optional t | .unwrap t | .pinned t | .read t => s.types.Valid t
  | .plain _ => True
  | .instantiate _ args => ∀ a ∈ args, s.insts.Valid a

/-- The value that an operation asks for, if it can be had. -/
def asked (s : Tables) : Op → Option Value
  | .name op => some (.name (s.names.asked op))
  | .type x => some (.type x)
  | .optional t => some (.type ((s.types.get t).deeper t))
  | .unwrap t => ((s.types.get t).shallower? s.types).map .type
  | .pinned t => some (.type ((s.types.get t).lent s.types))
  | .read t => some (.type ((s.types.get t).seen s.types))
  | .plain target => some (.inst ⟨target, []⟩)
  | .instantiate (.param _) (_ :: _) => none
  | .instantiate target args => some (.inst ⟨target, args⟩)

def step (s : Tables) : Op → Option Key × Tables
  | .name op => (some (.name (s.names.run op).1), { s with names := (s.names.run op).2 })
  | .type x => (some (.type (s.types.intern x).1), { s with types := (s.types.intern x).2 })
  | .optional t => (some (.type (s.types.optional t).1), { s with types := (s.types.optional t).2 })
  | .unwrap t => ((s.types.unwrap t).1.map .type, { s with types := (s.types.unwrap t).2 })
  | .pinned t => (some (.type (s.types.pinned t).1), { s with types := (s.types.pinned t).2 })
  | .read t => (some (.type (s.types.read t).1), { s with types := (s.types.read t).2 })
  | .plain target =>
    (some (.inst (s.insts.plain target).1), { s with insts := (s.insts.plain target).2 })
  | .instantiate target args =>
    match s.insts.instantiate? target args with
    | none => (none, s)
    | some (i, insts) => (some (.inst i), { s with insts })

structure Applied (t : InstTable) : Prop where
  args : ∀ i, ∀ a ∈ (t.get i).args, a.index < i.index
  params : ∀ i q, (t.get i).target = .param q → (t.get i).args = []

structure Sound (s : Tables) : Prop where
  names : s.names.Sorted
  types : s.types.Sound s.insts.size
  insts : Applied s.insts

structure Grows (s u : Tables) : Prop where
  names : s.names.Grows u.names
  types : s.types.Grows u.types
  insts : s.insts.Grows u.insts

variable {s u : Tables} {t : InstTable} {x : Inst} {v : Value} {k : Key} {op : Op}

/-- In each table the index and the entries are inverse to each other. -/
theorem key?_eq_some : s.key? v = some k ↔ s.value? k = some v := by
  cases v <;> cases k <;>
    simp [key?, value?, Pool.find?, Arena.get?, s.names.inverse, s.types.inverse, s.insts.inverse]

theorem Grows.refl (s : Tables) : s.Grows s := ⟨.refl _, .refl _, .refl _⟩

theorem Grows.trans {w : Tables} (h : s.Grows u) (h' : u.Grows w) : s.Grows w :=
  ⟨h.names.trans h'.names, h.types.trans h'.types, h.insts.trans h'.insts⟩

theorem Grows.value? (h : s.Grows u) (hk : s.value? k = some v) : u.value? k = some v := by
  rw [← key?_eq_some] at hk ⊢
  cases v <;> obtain ⟨i, hi, rfl⟩ := Option.map_eq_some_iff.1 hk
  · exact Option.map_eq_some_iff.2 ⟨i, h.names.find? hi, rfl⟩
  · exact Option.map_eq_some_iff.2 ⟨i, h.types.find? hi, rfl⟩
  · exact Option.map_eq_some_iff.2 ⟨i, h.insts.find? hi, rfl⟩

theorem Applied.intern (h : Applied t) (ha : ∀ a ∈ x.args, t.Valid a)
    (hp : ∀ q, x.target = .param q → x.args = []) : Applied (t.intern x).2 := by
  refine ⟨fun i a hi => ?_, fun i q hq => ?_⟩ <;> obtain he | ⟨rfl, he⟩ := get_intern t x i
  · exact h.args i a (he ▸ hi)
  · exact ha a (he ▸ hi)
  · rw [he] at hq ⊢
    exact h.params i q hq
  · rw [he] at hq ⊢
    exact hp q hq

/-- An operation keeps the tables sound and what is in them, and answers with the id of what was
asked for. -/
structure Stepped (s : Tables) (op : Op) : Prop where
  sound : (s.step op).2.Sound
  grows : s.Grows (s.step op).2
  answer : (s.step op).1.map (s.step op).2.value? = (s.asked op).map some

theorem answer_of (hk : (s.step op).1 = some k) (hv : s.asked op = some v)
    (h : (s.step op).2.key? v = some k) :
    (s.step op).1.map (s.step op).2.value? = (s.asked op).map some := by
  rw [hk, hv, Option.map_some, Option.map_some, key?_eq_some.1 h]

theorem instantiate_cases (s : Tables) (target : Target) (args : List InstId) :
    (s.asked (.instantiate target args) = none ∧ s.step (.instantiate target args) = (none, s)) ∨
      s.asked (.instantiate target args) = some (.inst ⟨target, args⟩) ∧
      s.step (.instantiate target args) = (some (.inst (s.insts.intern ⟨target, args⟩).1),
        { s with insts := (s.insts.intern ⟨target, args⟩).2 }) ∧
      ∀ q, target = .param q → args = [] := by
  cases target with
  | cls c => exact .inr ⟨rfl, rfl, nofun⟩
  | param q =>
    cases args with
    | nil => exact .inr ⟨rfl, rfl, fun _ _ => rfl⟩
    | cons a args => exact .inl ⟨rfl, rfl⟩

section Step

variable (h : s.Sound)
include h

theorem Sound.setTypes {types : TypeTable} (hg : s.types.Grows types)
    (ht : types.Sound s.insts.size) : Sound { s with types } ∧ s.Grows { s with types } :=
  ⟨⟨h.names, ht, h.insts⟩, .refl _, hg, .refl _⟩

theorem Sound.internInst (ha : ∀ a ∈ x.args, s.insts.Valid a)
    (hp : ∀ q, x.target = .param q → x.args = []) :
    Sound { s with insts := (s.insts.intern x).2 } ∧
      s.Grows { s with insts := (s.insts.intern x).2 } := by
  have hg := grows_intern s.insts x
  exact ⟨⟨h.names, h.types.mono hg.size_le, h.insts.intern ha hp⟩, .refl _, .refl _, hg⟩

theorem Sound.step (hop : s.Defined op) : s.Stepped op := by
  cases op with
  | name op =>
    obtain ⟨hsorted, hgrows⟩ := h.names.run hop
    exact ⟨⟨hsorted, h.types, h.insts⟩, ⟨hgrows, .refl _, .refl _⟩,
      answer_of rfl rfl (congrArg (Option.map Key.name) (s.names.find?_run op))⟩
  | type x =>
    obtain ⟨hsound, hgrows⟩ := h.setTypes (grows_intern s.types x) (h.types.intern hop.1 hop.2)
    exact ⟨hsound, hgrows,
      answer_of rfl rfl (congrArg (Option.map Key.type) (find?_intern s.types x))⟩
  | optional t =>
    have hy := TypeTable.optional_yields h.types hop
    obtain ⟨hsound, hgrows⟩ := h.setTypes hy.grows hy.sound
    exact ⟨hsound, hgrows,
      answer_of rfl rfl (congrArg (Option.map Key.type) (s.types.find?_optional t))⟩
  | unwrap t =>
    obtain ⟨hnone, hsame⟩ | ⟨y, r, hy, hr, hfind⟩ := TypeTable.unwrap_cases h.types hop
    · have hstep : s.step (.unwrap t) = (none, s) := by
        rw [Tables.step, hsame]
        rfl
      refine ⟨hstep ▸ h, hstep ▸ .refl s, ?_⟩
      rw [hstep, asked, hnone]
      rfl
    · have hyields := TypeTable.unwrap_yields h.types hop hr
      obtain ⟨hsound, hgrows⟩ := h.setTypes hyields.grows hyields.sound
      exact ⟨hsound, hgrows, answer_of (congrArg (Option.map Key.type) hr)
        (congrArg (Option.map Value.type) hy) (congrArg (Option.map Key.type) hfind)⟩
  | pinned t =>
    have hy := TypeTable.pinned_yields h.types hop
    obtain ⟨hsound, hgrows⟩ := h.setTypes hy.grows hy.sound
    exact ⟨hsound, hgrows,
      answer_of rfl rfl (congrArg (Option.map Key.type) (TypeTable.find?_pinned hop))⟩
  | read t =>
    have hy := TypeTable.read_yields h.types hop
    obtain ⟨hsound, hgrows⟩ := h.setTypes hy.grows hy.sound
    exact ⟨hsound, hgrows,
      answer_of rfl rfl (congrArg (Option.map Key.type) (TypeTable.find?_read hop))⟩
  | plain target =>
    obtain ⟨hsound, hgrows⟩ := h.internInst (x := ⟨target, []⟩) nofun fun _ _ => rfl
    exact ⟨hsound, hgrows,
      answer_of rfl rfl (congrArg (Option.map Key.inst) (find?_intern s.insts _))⟩
  | instantiate target args =>
    obtain ⟨hnone, hrefused⟩ | ⟨hasked, hmade, hp⟩ := instantiate_cases s target args
    · refine ⟨hrefused ▸ h, hrefused ▸ .refl s, ?_⟩
      rw [hrefused, hnone]
      rfl
    · obtain ⟨hsound, hgrows⟩ := h.internInst (x := ⟨target, args⟩) hop hp
      refine ⟨hmade ▸ hsound, hmade ▸ hgrows, ?_⟩
      rw [hmade, hasked]
      exact congrArg some (key?_eq_some.1 (congrArg (Option.map Key.inst) (find?_intern s.insts _)))

end Step

theorem sound_empty : Sound {} := ⟨NameTable.sorted_empty, TypeTable.basic_sound, nofun, nofun⟩

/-- Tables, and for each answer that they gave the value asked for and the id. -/
structure Session where
  tables : Tables := {}
  log : List (Value × Key) := []

namespace Session

def step (s : Session) (op : Op) : Session :=
  ⟨(s.tables.step op).2, s.log ++ (s.tables.asked op).toList.zip (s.tables.step op).1.toList⟩

inductive Onward (s : Session) : Session → Prop
  | refl : Onward s s
  | step {u : Session} (op : Op) : Onward s u → u.tables.Defined op → Onward s (u.step op)

structure Sound (s : Session) : Prop where
  tables : s.tables.Sound
  log : ∀ a ∈ s.log, s.tables.value? a.2 = some a.1

variable {s u : Session} {op : Op}

theorem Sound.step (h : s.Sound) (hop : s.tables.Defined op) : (s.step op).Sound := by
  have hstep := h.tables.step hop
  refine ⟨hstep.sound, fun a ha => ?_⟩
  rcases mem_append.1 ha with ha | ha
  · exact hstep.grows.value? (h.log a ha)
  · obtain ⟨v, k⟩ := a
    have hasked := Option.mem_toList.1 (of_mem_zip ha).1
    have hanswer := hstep.answer
    rw [Option.mem_toList.1 (of_mem_zip ha).2, hasked] at hanswer
    exact Option.some.inj hanswer

theorem Onward.sound (hu : s.Onward u) (h : s.Sound) :
    u.Sound ∧ s.tables.Grows u.tables ∧ s.log <+: u.log := by
  induction hu with
  | refl => exact ⟨h, .refl _, prefix_rfl⟩
  | step op _ hop ih =>
    obtain ⟨hsound, hgrows, hlog⟩ := ih
    exact ⟨hsound.step hop, hgrows.trans (hsound.tables.step hop).grows,
      hlog.trans (prefix_append _ _)⟩

theorem sound_empty : Sound {} := ⟨Tables.sound_empty, nofun⟩

theorem Sound.log_inj (h : s.Sound) {a b : Value × Key} (ha : a ∈ s.log) (hb : b ∈ s.log) :
    a.2 = b.2 ↔ a.1 = b.1 := by
  have hva := h.log a ha
  have hvb := h.log b hb
  refine ⟨fun hk => ?_, fun hv => ?_⟩
  · rw [hk] at hva
    exact Option.some.inj (hva.symm.trans hvb)
  · rw [← key?_eq_some] at hva hvb
    rw [hv] at hva
    exact Option.some.inj (hva.symm.trans hvb)

end Session

theorem wellFounded_of_index {e : Entity} {r : Id e → Id e → Prop}
    (h : ∀ i j, r i j → i.index < j.index) : WellFounded r :=
  Subrelation.wf (h _ _) (measure Id.index).wf

theorem instantiate_eq_none (s : Tables) (target : Target) (args : List InstId) :
    (s.step (.instantiate target args)).1 = none ↔ (∃ q, target = .param q) ∧ args ≠ [] := by
  cases target <;> cases args <;> simp [step, InstTable.instantiate?]

/-- Interning is canonical and stable: `s` is any state of the tables, and `u` any later one. -/
theorem interning_canonical {s u : Session} (hs : Session.Onward {} s) (hu : s.Onward u) :
    (∀ v k, u.tables.key? v = some k ↔ u.tables.value? k = some v) ∧
    (∀ a ∈ u.log, u.tables.value? a.2 = some a.1 ∧ ∀ b ∈ u.log, a.2 = b.2 ↔ a.1 = b.1) ∧
    (s.log <+: u.log ∧ ∀ k v, s.tables.value? k = some v → u.tables.value? k = some v) ∧
    (∀ op, u.tables.Defined op →
      (u.tables.step op).1.map (u.tables.step op).2.value? = (u.tables.asked op).map some) ∧
    (u.tables.names.Dense ∧ u.tables.types.Dense ∧ u.tables.insts.Dense) ∧
    (∀ i p, u.tables.names.parent i = some p → p.index < i.index) ∧
    (∀ t, (∀ v ∈ (u.tables.types.get t).parts, v.index < t.index) ∧
      ∀ i ∈ (u.tables.types.get t).inst?, u.tables.insts.Valid i) ∧
    (∀ i, ∀ a ∈ (u.tables.insts.get i).args, a.index < i.index) ∧
    (WellFounded (fun p i => u.tables.names.parent i = some p) ∧
      WellFounded (fun v t => v ∈ (u.tables.types.get t).parts) ∧
      WellFounded fun a i => a ∈ (u.tables.insts.get i).args) ∧
    (∀ i, u.tables.names.Valid i → u.tables.names.segments i =
      ((u.tables.names.parent i).map u.tables.names.segments).getD [] ++
        [u.tables.names.segment i]) ∧
    (∀ i q, (u.tables.insts.get i).target = .param q → (u.tables.insts.get i).args = []) ∧
    ∀ target args,
      ((u.tables.step (.instantiate target args)).1 = none ↔
        (∃ q, target = .param q) ∧ args ≠ []) ∧
      ((u.tables.step (.instantiate target args)).1 = none →
        u.step (.instantiate target args) = u) := by
  obtain ⟨hsound, hgrows, hlog⟩ := hu.sound (hs.sound Session.sound_empty).1
  have htables := hsound.tables
  refine ⟨fun v k => key?_eq_some, fun a ha => ⟨hsound.log a ha, fun b hb => hsound.log_inj ha hb⟩,
    ⟨hlog, fun k v => hgrows.value?⟩, fun op hop => (htables.step hop).answer,
    ⟨dense _, dense _, dense _⟩, htables.names.parents, fun t =>
    ⟨htables.types.parts t, htables.types.insts t⟩, htables.insts.args,
    ⟨wellFounded_of_index fun p i => htables.names.parents i p, wellFounded_of_index fun v t =>
      htables.types.parts t v, wellFounded_of_index fun a i => htables.insts.args i a⟩, fun i =>
    NameTable.segments_eq htables.names, htables.insts.params, fun target args =>
    ⟨instantiate_eq_none u.tables target args, fun hnone => ?_⟩⟩
  obtain ⟨hasked, hrefused⟩ | ⟨-, hmade, -⟩ := instantiate_cases u.tables target args
  · rw [Session.step, hrefused, hasked]
    exact congrArg (Session.mk u.tables) (append_nil u.log)
  · rw [hmade] at hnone
    cases hnone

/-- A class with an argument, a type of it, an array of that, and the same class again. -/
theorem interning_canonical_array :
    let s : Session := Session.step {} (.plain (.cls ⟨0⟩))
    let u := (((s.step (.instantiate (.cls ⟨1⟩) [⟨0⟩])).step (.type (.ref .own ⟨1⟩))).step
      (.type (.array ⟨6⟩))).step (.plain (.cls ⟨0⟩))
    Session.Onward {} s ∧ s.Onward u ∧
      u.log.map Prod.snd = [.inst ⟨0⟩, .inst ⟨1⟩, .type ⟨6⟩, .type ⟨7⟩, .inst ⟨0⟩] ∧
      u.tables.key? (.type (.array ⟨6⟩)) = some (.type ⟨7⟩) ∧
      ∀ v ∈ (u.tables.types.get ⟨7⟩).parts, v.index < 7 := by
  intro s u
  have hs : Session.Onward {} s := .step (.plain (.cls ⟨0⟩)) .refl trivial
  have hu : s.Onward u :=
    .step (.plain (.cls ⟨0⟩))
    (.step (.type (.array ⟨6⟩))
      (.step (.type (.ref .own ⟨1⟩))
        (.step (.instantiate (.cls ⟨1⟩) [⟨0⟩]) .refl (by unfold Defined; decide +kernel))
        (by unfold Defined; decide +kernel)) (by unfold Defined; decide +kernel)) trivial
  obtain ⟨hinverse, _, _, _, _, _, htypes, _⟩ := interning_canonical hs hu
  exact ⟨hs, hu, rfl, (hinverse _ _).2 rfl, (htypes ⟨7⟩).1⟩

end Tables

end ClassLang
