import ClassLang.Proofs.Scope.Members
import ClassLang.Proofs.Typing.Replace

namespace ClassLang

open Arena Pool List TypeTable

variable {i : InstId}

namespace TypeTable

variable {T U : TypeTable} {t u : TypeId} {n : Nat} {kind : RefKind}

def Plain (T : TypeTable) (t : TypeId) : Prop := Over T (fun _ => True) (fun _ => False) t

theorem isTemporary_optional (hu : optional T t = (u, T)) : isTemporary T u = isTemporary T t := by
  have hself {x : Ty} (hx : T.intern x = (u, T)) : T.get u = x := by
    have h := get_intern_self T x
    rwa [hx] at h
  unfold optional at hu
  rw [Bool.eq_iff_iff, isTemporary_iff, isTemporary_iff]
  cases ht : T.get t <;> rw [ht] at hu <;> simp [hself hu, ht]

structure Declarable (T : TypeTable) (t : TypeId) : Prop where
  lasting : isTemporary T t = false
  plain : Plain T t

namespace Declarable

theorem grows (h : Declarable T t) (hs : Sound T n) (hT : T.Grows U) : Declarable U t :=
  ⟨(isTemporary_of_grows hs hT h.plain.valid).trans h.lasting, Over.grows h.plain hT⟩

theorem basic (hs : Sound T n) (ht : TypeTable.basic.Valid t)
    (hlast : isTemporary TypeTable.basic t = false) : Declarable T t :=
  ⟨(isTemporary_of_grows basic_sound hs.basic ht).trans hlast, .basic hs ht⟩

theorem make {x : Ty} (ht : T.Valid t) (hget : T.get t = x) (href : ∀ i, x ≠ .ref .pin i)
    (hoptional : ∀ w depth, x ≠ .optional w depth) (hcold : ∀ c, x ≠ .cold c)
    (hparts : ∀ u ∈ x.parts, Plain T u) : Declarable T t := by
  refine ⟨?_, .node ht (fun _ _ => trivial) (fun c hc => hcold c (hget.symm.trans hc))
    (hget ▸ hparts)⟩
  rw [Bool.eq_false_iff, Ne, isTemporary_iff, hget]
  rintro (⟨i, hi⟩ | ⟨w, depth, _, hw, _⟩)
  · exact href i hi
  · exact hoptional w depth hw

theorem ref (ht : T.Valid t) (hget : T.get t = .ref kind i) (hkind : kind ≠ .pin) :
    Declarable T t := by
  refine .make ht hget (fun j hj => ?_) nofun nofun nofun
  cases hj
  exact hkind rfl

theorem optional (h : Declarable T t) (hu : TypeTable.optional T t = (u, T)) : Declarable T u := by
  have hplain := Over.optional h.plain
  rw [hu] at hplain
  exact ⟨(isTemporary_optional hu).trans h.lasting, hplain⟩

end Declarable

end TypeTable

namespace Program

variable {p q : Program} {s : Substitution} {a b : List ParamId} {I : InstId → Prop}
  {C : ColdId → Prop}

def Waiting (p : Program) (a : List ParamId) (c : ColdId) : Prop :=
  ∃ l, (p.lambdas.get l).cold = some c ∧ p.formals (p.lambdas.get l).owner = a

/-- A type that mentions no parameters but those in `a`; if it is a declared one, there are no
placeholders in it. -/
def Speaks (p : Program) (a : List ParamId) (declared : Bool) (t : TypeId) : Prop :=
  Over p.types (p.Within a) (fun c => declared = false ∧ p.Waiting a c) t

theorem Speaks.plain {t : TypeId} (h : p.Speaks a true t) : Plain p.types t :=
  Over.mono h (.refl _) (fun _ _ => trivial) fun _ h => nomatch h.1

theorem Speaks.of_plain {declared : Bool} {t : TypeId} (h : p.Speaks a declared t)
    (hplain : Plain p.types t) : Over p.types (p.Within a) C t :=
  Over.mono (Over.and h hplain) (.refl _) (fun _ h => h.1) fun _ h => h.2.elim

theorem Within.mono (h : p.Within a i) (hab : ∀ x ∈ a, x ∈ b) : p.Within b i := by
  induction h with
  | node hi hparam _ ih => exact .node hi (fun x hx => hab x (hparam x hx)) ih

section Replacing

variable (hb : ∀ x ∈ b, (p.params.get x).owner = s.cls) (ha : ∀ i ∈ s.args, p.Within a i)
include hb ha

/-- Where all parameters are replaced, only those of the arguments are left. -/
theorem Replaced.within {j : InstId} (h : p.Replaced s i j) (hi : p.Within b i) : p.Within a j := by
  induction h with
  | own _ _ _ harg => exact ha _ (mem_of_getElem? harg)
  | other _ hget howner =>
    cases hi with
    | node _ hparam _ => exact absurd (hb _ (hparam _ (by rw [hget]))) howner
  | @cls i j c args args' _ hget hj hgetj hlen _ ih =>
    refine .node hj (by simp [hgetj]) fun y hy => ?_
    rw [hgetj] at hy
    obtain ⟨x, hxy⟩ := exists_zip_of_mem hlen hy
    refine ih _ hxy ?_
    cases hi with
    | node _ _ hargs => exact hargs x (by rw [hget]; exact (of_mem_zip hxy).1)

theorem Retyped.over {t u : TypeId} (h : p.Retyped s t u) (ht : Over p.types (p.Within b) C t) :
    Over p.types (p.Within a) C u := by
  induction h with
  | @node t u _ hu hshape _ hinst ih =>
    refine .node hu (fun j hj => ?_) (fun c hc => ht.cold ?_) fun y hy => ?_
    · have hsome := Ty.isSome_inst? hshape
      rw [hj] at hsome
      obtain ⟨i, hi⟩ := Option.isSome_iff_exists.1 hsome
      exact (hinst i j hi hj).within hb ha (ht.inst hi)
    · rw [hc] at hshape
      cases hget : p.types.get t <;> rw [hget] at hshape <;> cases hshape
      rfl
    · obtain ⟨x, hxy⟩ := exists_zip_of_mem (Ty.length_parts hshape) hy
      exact ih _ hxy (ht.part (of_mem_zip hxy).1)

end Replacing

theorem Stripped.over_of_target (hp : p.Canonical) {d : ClassId} {t u : TypeId}
    (h : p.Stripped i t u) (hi : p.Within a i) (hd : (p.insts.get i).target = .cls d)
    (ht : Over p.types (p.Within (p.classes.get d).params) C t) :
    Over p.types (p.Within a) C u := by
  obtain ⟨args, hget⟩ : ∃ args, p.insts.get i = ⟨.cls d, args⟩ := ⟨_, by rw [← hd]⟩
  unfold Stripped substitution? at h
  rw [hget] at h
  cases hi with
  | node _ _ hargs =>
    exact h.over (fun _ hx => (hp.param hx).2) (fun j hj => hargs j (by rw [hget]; exact hj)) ht

/-- As seen from an instance, a type of its class mentions only what the instance mentions. -/
theorem Stripped.over (hp : p.Tidy) {d : ClassId} {t u : TypeId} (h : p.Stripped i t u)
    (hi : p.Within a i) (hd : p.classOf? i = some d)
    (ht : Over p.types (p.Within (p.classes.get d).params) C t) :
    Over p.types (p.Within a) C u := by
  unfold classOf? at hd
  cases htarget : (p.insts.get i).target with
  | cls c =>
    rw [htarget] at hd
    cases hd
    exact h.over_of_target hp.canonical hi htarget ht
  | param x =>
    rw [htarget] at hd
    unfold Stripped substitution? at h
    rw [show p.insts.get i = ⟨.param x, (p.insts.get i).args⟩ by rw [← htarget]] at h
    cases h
    rw [(hp.bounds x d hd).2] at ht
    exact ht.mono (.refl _) (fun _ hw => hw.mono nofun) fun _ => id

inductive Chain (p : Program) : ClassId → List InstId → ClassId → Prop
  | nil {c : ClassId} : Chain p c [] c
  | cons {c d e : ClassId} {i : InstId} {way : List InstId} : (p.insts.get i).target = .cls d →
      p.Within (p.classes.get c).params i → Chain p d way e → Chain p c (i :: way) e

/-- The bases of a class mention only its own parameters. -/
theorem Path.chain {c d : ClassId} {way : List InstId}
    (hbases : ∀ e, ∀ x ∈ p.basesOf e, p.Within (p.classes.get e).params x.1) (h : p.Path c way d) :
    p.Chain c way d := by
  induction h with
  | nil => exact .nil
  | cons hi _ ih =>
    obtain ⟨base, _, hbase⟩ := mem_filterMap.1 hi
    exact .cons (baseOf?_eq_some.1 hbase).2 (hbases _ _ hi) ih

theorem Chain.over (hp : p.Canonical) {c d : ClassId} {way : List InstId} {t u : TypeId}
    (hway : p.Chain c way d) (h : p.StrippedAlong way.reverse t u)
    (ht : Over p.types (p.Within (p.classes.get d).params) C t) :
    Over p.types (p.Within (p.classes.get c).params) C u := by
  induction hway generalizing u with
  | nil =>
    cases h
    exact ht
  | @cons c d e i way hi hwithin _ ih =>
    rw [reverse_cons] at h
    obtain ⟨w, hw, v, hv, rfl⟩ := StrippedAlong.of_append h
    exact hv.over_of_target hp hwithin hi (ih hw ht)

end Program

end ClassLang
