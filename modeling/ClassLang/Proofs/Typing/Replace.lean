import ClassLang.Proofs.Scope.Setting
import ClassLang.Proofs.Typing.Subst

namespace ClassLang

open Arena Pool List

variable {u w : TypeId}

namespace Ty

def skeleton : Ty → Ty
  | .optional _ depth => .optional default depth
  | .function params _ => .function (params.map fun _ => default) default
  | .lambda params _ => .lambda (params.map fun _ => default) default
  | .array _ => .array default
  | .classOf _ => .classOf default
  | .ref kind _ => .ref kind default
  | t => t

variable {x y : Ty} {params : List TypeId} {result : TypeId}

section

variable (h : x.skeleton = y.skeleton)
include h

theorem length_parts : x.parts.length = y.parts.length := by
  cases x <;> cases y <;> simp_all [skeleton, parts]

theorem eq_of_skeleton (hparts : x.parts = y.parts) (hinst : x.inst? = y.inst?) : x = y := by
  cases x <;> cases y <;> simp_all [skeleton, parts, inst?]

theorem isSome_inst? : x.inst?.isSome = y.inst?.isSome := by
  cases x <;> cases y <;> simp_all [skeleton, inst?]

end

theorem array_of_skeleton (h : x.skeleton = (Ty.array u).skeleton) : ∃ w, x = .array w := by
  cases x <;> cases h
  exact ⟨_, rfl⟩

section

variable (h : x.skeleton = y.skeleton)
include h

theorem ref_of_skeleton {kind : RefKind} {i : InstId} (hy : y = .ref kind i) :
    ∃ j, x = .ref kind j := by
  subst hy
  cases x <;> cases h
  exact ⟨_, rfl⟩

theorem optional_of_skeleton {depth : Nat} (hy : y = .optional w depth) :
    ∃ v, x = .optional v depth := by
  subst hy
  cases x <;> cases h
  exact ⟨_, rfl⟩

theorem classOf_of_skeleton {i : InstId} (hy : y = .classOf i) : ∃ j, x = .classOf j := by
  subst hy
  cases x <;> cases h
  exact ⟨_, rfl⟩

theorem lambda_of_skeleton (hy : y = .lambda params result) :
    ∃ params' result', x = .lambda params' result' ∧ params.length = params'.length := by
  subst hy
  cases x with
  | lambda params' result' =>
    exact ⟨_, _, rfl, by simpa using (congrArg length (Ty.lambda.inj h).1).symm⟩
  | _ => cases h

theorem function_of_skeleton (hy : y = .function params result) :
    ∃ params' result', x = .function params' result' ∧ params.length = params'.length := by
  subst hy
  cases x with
  | function params' result' =>
    exact ⟨_, _, rfl, by simpa using (congrArg length (Ty.function.inj h).1).symm⟩
  | _ => cases h

end

theorem leaf (href : ∀ kind i, x ≠ .ref kind i) (hclass : ∀ i, x ≠ .classOf i)
    (hoptional : ∀ w depth, x ≠ .optional w depth) (harray : ∀ w, x ≠ .array w)
    (hlambda : ∀ params result, x ≠ .lambda params result)
    (hfunction : ∀ params result, x ≠ .function params result) : x.parts = [] ∧ x.inst? = none := by
  cases x with
  | ref kind i => exact absurd rfl (href kind i)
  | classOf i => exact absurd rfl (hclass i)
  | optional w depth => exact absurd rfl (hoptional w depth)
  | array w => exact absurd rfl (harray w)
  | lambda params result => exact absurd rfl (hlambda params result)
  | function params result => exact absurd rfl (hfunction params result)
  | _ => exact ⟨rfl, rfl⟩

end Ty

namespace TypeTable

theorem isTemporary_iff {T : TypeTable} {t : TypeId} :
    isTemporary T t = true ↔ (∃ i, T.get t = .ref .pin i) ∨
      ∃ w depth i, T.get t = .optional w depth ∧ T.get w = .ref .pin i := by
  unfold isTemporary
  split
  · rename_i i hget
    simp [hget]
  · rename_i w depth hget
    split
    · rename_i i hw
      simp [hget, hw]
    · rename_i hw
      simpa [hget] using hw
  · rename_i href hoptional
    refine iff_of_false (by simp) ?_
    rintro (⟨i, hi⟩ | ⟨w, depth, _, hget, _⟩)
    · exact href i hi
    · exact hoptional w depth hget

def Lasting (T : TypeTable) : Prop := ∀ t u, T.get t = .array u → isTemporary T u = false

inductive Interned (T : TypeTable) : TypeTable → Prop
  | refl : Interned T T
  | intern {U : TypeTable} {x : Ty} : Interned T U → (∀ u, x ≠ .array u) → Interned T (U.intern x).2

variable {T U : TypeTable} {n : Nat}

theorem Interned.grows (h : Interned T U) : T.Grows U := by
  induction h with
  | refl => exact .refl _
  | intern _ _ ih => exact ih.trans (grows_intern _ _)

theorem Interned.arrays (h : Interned T U) {t : TypeId} (ht : U.get t = .array u) :
    T.get t = .array u := by
  induction h with
  | refl => exact ht
  | @intern U x _ hx ih =>
    obtain he | ⟨_, he⟩ := get_intern U x t
    · exact ih (he.symm.trans ht)
    · exact absurd (he.symm.trans ht) (hx u)

theorem Lasting.interned (hT : Lasting T) (hs : Sound T n) (h : Interned T U) : Lasting U := by
  intro t u ht
  have hget := h.arrays ht
  have hu : T.Valid u := hs.valid_part (valid_of_get hget nofun) (by simp [hget, Ty.parts])
  rw [isTemporary_of_grows hs h.grows hu]
  exact hT t u hget

theorem Lasting.intern (hT : Lasting T) (hs : Sound T n) {x : Ty}
    (hx : ∀ u, x = .array u → T.Valid u ∧ isTemporary T u = false) : Lasting (T.intern x).2 := by
  intro t u ht
  have hgrows := grows_intern T x
  obtain he | ⟨_, he⟩ := get_intern T x t
  · have hget := he.symm.trans ht
    rw [isTemporary_of_grows hs hgrows
      (hs.valid_part (valid_of_get hget nofun) (by simp [hget, Ty.parts]))]
    exact hT t u hget
  · obtain ⟨hu, hlast⟩ := hx u (he.symm.trans ht)
    rwa [isTemporary_of_grows hs hgrows hu]

theorem basic_lasting : Lasting basic := by
  intro t u ht
  have hall : ∀ t ∈ basic.ids, (basic.get t).skeleton ≠ .array default := by decide
  exact absurd (congrArg Ty.skeleton ht) (hall t (mem_ids.2 (valid_of_get ht nofun)))

section Operations

variable (T : TypeTable) (t : TypeId)

theorem optional_interned : Interned T (optional T t).2 := by
  unfold optional
  split <;> exact .intern .refl nofun

theorem unwrap_interned : Interned T (unwrap T t).2 := by
  unfold unwrap
  split
  · exact .refl
  · exact .intern .refl nofun
  · exact .refl

theorem pinned_interned : Interned T (pinned T t).2 := by
  unfold pinned
  split
  · exact .intern .refl nofun
  · split
    · exact .intern (.intern .refl nofun) nofun
    · exact .refl
  · exact .refl

theorem read_interned : Interned T (read T t).2 := by
  unfold read
  split
  · unfold optional
    dsimp only
    split <;> exact .intern (.intern .refl nofun) nofun
  · exact pinned_interned T t

end Operations

end TypeTable

namespace Program

variable {α β : Type} {p q r : Program} {s : Substitution} {j : InstId} {xs : List α}
  {P : β → Program → Prop} {path path' : List InstId} {ys : List β}

/-- Instances are made as their classes ask for, and a class parameter is where it says it is.
Bounds are classes without parameters. What arrays hold can be kept. -/
structure Tidy (p : Program) : Prop where
  tables : p.Tables
  instances : p.Instances
  lasting : TypeTable.Lasting p.types
  bases : p.BasesValid
  params : ∀ c k x, (p.classes.get c).params[k]? = some x ↔
    p.params.Valid x ∧ (p.params.get x).owner = c ∧ (p.params.get x).index = k
  bounds : ∀ x c, (p.params.get x).bound = some c → p.classes.Valid c ∧
    (p.classes.get c).params = []

structure Canonical (p : Program) : Prop where
  tables : p.Tables
  bare : ∀ i x, p.insts.Valid i → (p.insts.get i).target = .param x → p.params.Valid x ∧
    (p.insts.get i).args = []
  params : ∀ c k x, (p.classes.get c).params[k]? = some x ↔
    p.params.Valid x ∧ (p.params.get x).owner = c ∧ (p.params.get x).index = k

theorem Tidy.canonical (h : p.Tidy) : p.Canonical where
  tables := h.tables
  bare i x hi hx := by
    have hformed := h.instances.formed i hi
    rwa [Formed, hx] at hformed
  params := h.params

theorem Canonical.param (h : p.Canonical) {c : ClassId} {x : ParamId}
    (hx : x ∈ (p.classes.get c).params) : p.params.Valid x ∧ (p.params.get x).owner = c := by
  obtain ⟨k, hk⟩ := mem_iff_getElem?.1 hx
  exact ((h.params c k x).1 hk).imp_right And.left

inductive Replaced (p : Program) (s : Substitution) : InstId → InstId → Prop
  | own {i a : InstId} {x : ParamId} {args : List InstId} : p.insts.Valid i →
      p.insts.get i = ⟨.param x, args⟩ →
      (p.params.get x).owner = s.cls → s.args[(p.params.get x).index]? = some a → Replaced p s i a
  | other {i : InstId} {x : ParamId} {args : List InstId} : p.insts.Valid i →
      p.insts.get i = ⟨.param x, args⟩ →
      (p.params.get x).owner ≠ s.cls → Replaced p s i i
  | cls {i j : InstId} {c : ClassId} {args args' : List InstId} : p.insts.Valid i →
      p.insts.get i = ⟨.cls c, args⟩ →
      p.insts.Valid j → p.insts.get j = ⟨.cls c, args'⟩ → args.length = args'.length →
      (∀ x ∈ args.zip args', Replaced p s x.1 x.2) → Replaced p s i j

inductive Retyped (p : Program) (s : Substitution) : TypeId → TypeId → Prop
  | node {t u : TypeId} : p.types.Valid t → p.types.Valid u →
      (p.types.get t).skeleton = (p.types.get u).skeleton →
      (∀ x ∈ (p.types.get t).parts.zip (p.types.get u).parts, Retyped p s x.1 x.2) →
      (∀ i j, (p.types.get t).inst? = some i → (p.types.get u).inst? = some j → p.Replaced s i j) →
        Retyped p s t u

section Growth

variable (hinsts : p.insts.Grows q.insts) (hparams : q.params = p.params)
include hinsts hparams

theorem Replaced.grows {i : InstId} (h : p.Replaced s i j) : q.Replaced s i j := by
  induction h with
  | own hi hget howner harg =>
    exact .own (hinsts.valid hi) ((hinsts.get_eq hi).trans hget) (by rwa [hparams])
      (by rwa [hparams])
  | other hi hget howner =>
    exact .other (hinsts.valid hi) ((hinsts.get_eq hi).trans hget) (by rwa [hparams])
  | cls hi hget hj hget' hlen _ ih =>
    exact .cls (hinsts.valid hi) ((hinsts.get_eq hi).trans hget) (hinsts.valid hj)
      ((hinsts.get_eq hj).trans hget') hlen ih

theorem Retyped.grows (htypes : p.types.Grows q.types) {t : TypeId} (h : p.Retyped s t u) :
    q.Retyped s t u := by
  induction h with
  | node ht hu hshape _ hinst ih =>
    have hgt := htypes.get_eq ht
    have hgu := htypes.get_eq hu
    refine .node (htypes.valid ht) (htypes.valid hu) (by rw [hgt, hgu]; exact hshape)
      (by rw [hgt, hgu]; exact ih) ?_
    rw [hgt, hgu]
    exact fun i j hi hj => (hinst i j hi hj).grows hinsts hparams

end Growth

theorem Replaced.valid {i : InstId} (h : p.Replaced s i j) (hs : ∀ a ∈ s.args, p.insts.Valid a) :
    p.insts.Valid j := by
  cases h with
  | own _ _ _ harg => exact hs _ (mem_of_getElem? harg)
  | other hi _ _ => exact hi
  | cls _ _ hj _ _ _ => exact hj

theorem Retyped.valid {t : TypeId} (h : p.Retyped s t u) : p.types.Valid u := by
  cases h
  assumption

theorem Retyped.isTemporary {t : TypeId} (h : p.Retyped s t u) :
    TypeTable.isTemporary p.types u = TypeTable.isTemporary p.types t := by
  have hskeleton {t u : TypeId} (h : p.Retyped s t u) : (p.types.get t).skeleton =
      (p.types.get u).skeleton := by
    cases h
    assumption
  cases h with
  | node _ _ hshape hparts _ =>
    rw [Bool.eq_iff_iff, TypeTable.isTemporary_iff, TypeTable.isTemporary_iff]
    refine or_congr ⟨fun ⟨_, hi⟩ => Ty.ref_of_skeleton hshape hi, fun ⟨_, hi⟩ =>
      Ty.ref_of_skeleton hshape.symm hi⟩ ⟨?_, ?_⟩
    · rintro ⟨v, depth, i, hu, hv⟩
      obtain ⟨w, ht⟩ := Ty.optional_of_skeleton hshape hu
      rw [ht, hu] at hparts
      obtain ⟨j, hw⟩ := Ty.ref_of_skeleton (hskeleton (hparts (w, v) (mem_singleton_self _))) hv
      exact ⟨w, depth, j, ht, hw⟩
    · rintro ⟨w, depth, i, ht, hw⟩
      obtain ⟨v, hu⟩ := Ty.optional_of_skeleton hshape.symm ht
      rw [ht, hu] at hparts
      obtain ⟨j, hv⟩ := Ty.ref_of_skeleton
        (hskeleton (hparts (w, v) (mem_singleton_self _))).symm hw
      exact ⟨v, depth, j, hu, hv⟩

/-- Lists that are related to one list by what has one answer only are the same. -/
theorem eq_of_zip {R : α → β → Prop} {zs : List β} (hy : xs.length = ys.length)
    (hz : xs.length = zs.length) (h : ∀ x ∈ xs.zip ys, ∀ b, R x.1 b → b = x.2)
    (hR : ∀ x ∈ xs.zip zs, R x.1 x.2) : zs = ys := by
  induction xs generalizing ys zs with
  | nil =>
    rw [eq_nil_of_length_eq_zero hy.symm, eq_nil_of_length_eq_zero hz.symm]
  | cons x xs ih =>
    cases ys with
    | nil => cases hy
    | cons y ys =>
      cases zs with
      | nil => cases hz
      | cons z zs =>
        rw [zip_cons_cons, forall_mem_cons] at h hR
        rw [h.1 z hR.1, ih (Nat.succ.inj hy) (Nat.succ.inj hz) h.2 hR.2]

theorem exists_zip_of_mem (h : xs.length = ys.length) {y : β} (hy : y ∈ ys) :
    ∃ x, (x, y) ∈ xs.zip ys := by
  rw [← map_snd_zip (Nat.le_of_eq h.symm)] at hy
  obtain ⟨⟨x, _⟩, hxy, rfl⟩ := mem_map.1 hy
  exact ⟨x, hxy⟩

theorem exists_zip_of_mem_left (h : xs.length = ys.length) {x : α} (hx : x ∈ xs) :
    ∃ y, (x, y) ∈ xs.zip ys := by
  rw [← map_fst_zip (Nat.le_of_eq h)] at hx
  obtain ⟨⟨_, y⟩, hxy, rfl⟩ := mem_map.1 hx
  exact ⟨y, hxy⟩

theorem Replaced.unique {i k : InstId} (h : p.Replaced s i j) (h' : p.Replaced s i k) : k = j := by
  induction h generalizing k with
  | own _ hget howner harg =>
    cases h' with
    | own _ hget' _ harg' =>
      cases hget.symm.trans hget'
      exact Option.some.inj (harg'.symm.trans harg)
    | other _ hget' howner' =>
      cases hget.symm.trans hget'
      exact absurd howner howner'
    | cls _ hget' _ _ _ _ => cases hget.symm.trans hget'
  | other _ hget howner =>
    cases h' with
    | own _ hget' howner' _ =>
      cases hget.symm.trans hget'
      exact absurd howner' howner
    | other _ _ _ => rfl
    | cls _ hget' _ _ _ _ => cases hget.symm.trans hget'
  | cls _ hget hj hgetj hlen _ ih =>
    cases h' with
    | own _ hget' _ _ => cases hget.symm.trans hget'
    | other _ hget' _ => cases hget.symm.trans hget'
    | cls _ hget' hk hgetk hlen' hargs' =>
      cases hget.symm.trans hget'
      refine get_inj hk hj ?_
      rw [hgetk, hgetj, eq_of_zip hlen hlen' (fun x hx b hb => ih x hx hb) hargs']

theorem Retyped.unique {t : TypeId} (h : p.Retyped s t u) (h' : p.Retyped s t w) : w = u := by
  induction h generalizing w with
  | @node t u _ hu hshape _ hinst ih =>
    cases h' with
    | node _ hw hshape' hparts' hinst' =>
      refine get_inj hw hu (Ty.eq_of_skeleton (hshape'.symm.trans hshape) ?_ ?_)
      · exact eq_of_zip (Ty.length_parts hshape) (Ty.length_parts hshape')
          (fun x hx b hb => ih x hx hb) hparts'
      · have hsome := Ty.isSome_inst? hshape
        have hsome' := Ty.isSome_inst? hshape'
        cases hi : (p.types.get t).inst? with
        | none =>
          rw [hi] at hsome hsome'
          rw [Option.isSome_eq_false_iff.1 hsome.symm |> Option.isNone_iff_eq_none.1,
            Option.isSome_eq_false_iff.1 hsome'.symm |> Option.isNone_iff_eq_none.1]
        | some i =>
          rw [hi] at hsome hsome'
          obtain ⟨j, hj⟩ := Option.isSome_iff_exists.1 hsome.symm
          obtain ⟨k, hk⟩ := Option.isSome_iff_exists.1 hsome'.symm
          rw [hj, hk, (hinst i j hi hj).unique (hinst' i k hi hk)]

section Runs

variable {I : Program → Prop} {F F' : Prop} {m : Edit α} {Q Q' : α → Program → Prop} {inst : Inst}
  {f : α → Edit β}

def Works (I : Program → Prop) (p : Program) (m : Edit α) (Q : α → Program → Prop) (F : Prop) :
    Prop :=
  Yields p m (fun a q => p.Adds q ∧ I q ∧ Q a q) fun _ q => p.Adds q ∧ F

namespace Works

theorem imp (h : Works I p m Q F) (hQ : ∀ a q, p.Adds q → I q → Q a q → Q' a q) (hF : F → F') :
    Works I p m Q' F' :=
  Yields.imp h (fun a q ⟨hadds, hI, hq⟩ => ⟨hadds, hI, hQ a q hadds hI hq⟩) fun _ _ =>
    And.imp_right hF

theorem post (h : Works I p m Q F) (hQ : ∀ a q, p.Adds q → I q → Q a q → Q' a q) :
    Works I p m Q' F := h.imp hQ id

theorem sure (h : Works I p m Q F) (hF : ¬ F) : Works I p m Q F' :=
  h.imp (fun _ _ _ _ h => h) fun h => absurd h hF

theorem pure (ht : p.Tables) (hp : I p) {a : α} (hQ : Q a p) : Works I p (Pure.pure a) Q F :=
  ⟨.refl ht, hp, hQ⟩

theorem throw {e : TypeCause} (ht : p.Tables) (h : F) : Works I p (MonadExcept.throw e) Q F :=
  ⟨.refl ht, h⟩

theorem get {f : Program → Edit α} (h : Works I p (f p) Q F) :
    Works I p (MonadState.get >>= f) Q F := h

theorem bind (h : Works I p m Q F) (hf : ∀ a q, p.Adds q → I q → Q a q → Works I q (f a) P F) :
    Works I p (m >>= f) P F :=
  Yields.bind h fun a q ⟨hadds, hI, hq⟩ =>
    Yields.imp (hf a q hadds hI hq) (fun _ _ h => ⟨hadds.trans h.1, h.2⟩) fun _ _ h =>
    ⟨hadds.trans h.1, h.2⟩

theorem mapM {P : α → β → Program → Prop} (ht : ∀ p, I p → p.Tables) (hp : I p)
    (hP : ∀ x b q r, q.Adds r → P x b q → P x b r)
    (hf : ∀ x ∈ xs, ∀ q, p.Adds q → I q → Works I q (f x) (P x) F) :
    Works I p (xs.mapM f) (fun bs q => xs.length = bs.length ∧ ∀ y ∈ xs.zip bs, P y.1 y.2 q) F := by
  induction xs generalizing p with
  | nil => exact .pure (ht p hp) hp ⟨rfl, nofun⟩
  | cons x xs ih =>
    rw [mapM_cons]
    refine (hf x mem_cons_self p (.refl (ht p hp)) hp).bind fun b q hq hI hb => ?_
    refine (ih hI fun y hy r hr => hf y (mem_cons_of_mem x hy) r (hq.trans hr)).bind
      fun bs r hr hI hbs => ?_
    refine .pure hr.tables hI ⟨congrArg Nat.succ hbs.1, ?_⟩
    rw [zip_cons_cons, forall_mem_cons]
    exact ⟨hP x b q r hr hb, hbs.2⟩

end Works

def Mends (p : Program) (m : Edit α) (Q : α → Program → Prop) : Prop :=
  match m p with
  | .ok a q => p.Adds q ∧ q.Tidy ∧ Q a q
  | .error _ _ => False

theorem mends_iff : Mends p m Q ↔ Works Tidy p m Q False := by
  unfold Mends Works Yields
  cases m p with
  | ok => rfl
  | error => simp

theorem Mends.imp (h : Mends p m Q) (hQ : ∀ a q, p.Adds q → q.Tidy → Q a q → Q' a q) :
    Mends p m Q' :=
  mends_iff.2 ((mends_iff.1 h).post hQ)

theorem Mends.pure (hp : p.Tidy) {a : α} (hQ : Q a p) : Mends p (Pure.pure a) Q :=
  ⟨.refl hp.tables, hp, hQ⟩

theorem Mends.get {f : Program → Edit α} (h : Mends p (f p) Q) : Mends p (MonadState.get >>= f) Q :=
  h

theorem Mends.bind (h : Mends p m Q) (hf : ∀ a q, p.Adds q → q.Tidy → Q a q → Mends q (f a) P) :
    Mends p (m >>= f) P :=
  mends_iff.2 ((mends_iff.1 h).bind fun a q hadds htidy hq => mends_iff.1 (hf a q hadds htidy hq))

theorem Mends.mapM {P : α → β → Program → Prop} (hp : p.Tidy)
    (hP : ∀ x b q r, q.Adds r → P x b q → P x b r)
    (hf : ∀ x ∈ xs, ∀ q, p.Adds q → q.Tidy → Mends q (f x) (P x)) :
    Mends p (xs.mapM f) fun bs q => xs.length = bs.length ∧ ∀ y ∈ xs.zip bs, P y.1 y.2 q :=
  mends_iff.2 (.mapM (fun _ h => h.tables) hp hP fun x hx q hq htidy =>
    mends_iff.1 (hf x hx q hq htidy))

section

variable (h : p.Adds q)
include h

theorem Adds.params : q.params = p.params := (congrArg Program.params h.rest :)

theorem Adds.classes : q.classes = p.classes := (congrArg Program.classes h.rest :)

theorem Adds.formed (hi : p.Formed inst) : q.Formed inst := by
  unfold Formed at hi ⊢
  rw [h.classes, h.params]
  exact hi

theorem Adds.replaced {i : InstId} (hi : p.Replaced s i j) : q.Replaced s i j :=
  hi.grows h.insts h.params

theorem Adds.retyped {t : TypeId} (ht : p.Retyped s t u) : q.Retyped s t u :=
  ht.grows h.insts h.params h.types

end

theorem Tidy.internInst (hp : p.Tidy) (ha : ∀ a ∈ inst.args, p.insts.Valid a) (hf : p.Formed inst) :
    ({ p with insts := (p.insts.intern inst).2 } : Program).Tidy := by
  have hadds := hp.tables.internInst ha
  refine { hp with
    tables := hadds.tables
    instances := ⟨fun i hi => ?_⟩
    bases := hadds.under.bases hp.bases }
  rcases valid_or_get_intern hi with hi | hget
  · rw [hadds.insts.get_eq hi]
    exact hadds.formed (hp.instances.formed i hi)
  · rw [hget]
    exact hadds.formed hf

theorem Tidy.intern (hp : p.Tidy) {x : Ty} (hx : p.Holds x)
    (hlast : ∀ u, x = .array u → TypeTable.isTemporary p.types u = false) :
    ({ p with types := (p.types.intern x).2 } : Program).Tidy := by
  have hadds := hp.tables.intern hx
  exact { hp with
    tables := hadds.tables
    instances := ⟨fun i hi => hadds.formed (hp.instances.formed i hi)⟩
    lasting := hp.lasting.intern hp.tables.types fun u hu => ⟨holds_array.1 (hu ▸ hx), hlast u hu⟩ }

theorem Tidy.interned (hp : p.Tidy) {T : TypeTable} (hadds : p.Adds { p with types := T })
    (hT : TypeTable.Interned p.types T) : ({ p with types := T } : Program).Tidy :=
  { hp with
    tables := hadds.tables
    instances := ⟨fun i hi => hadds.formed (hp.instances.formed i hi)⟩
    lasting := hp.lasting.interned hp.tables.types hT }

theorem Canonical.internInst (hp : p.Canonical) (ha : ∀ a ∈ inst.args, p.insts.Valid a)
    (hbare : ∀ x, inst.target = .param x → p.params.Valid x ∧ inst.args = []) :
    ({ p with insts := (p.insts.intern inst).2 } : Program).Canonical := by
  have hadds := hp.tables.internInst ha
  refine { hp with
    tables := hadds.tables
    bare := fun i x hi hx => ?_ }
  rcases valid_or_get_intern hi with hi | hget
  · rw [hadds.insts.get_eq hi] at hx ⊢
    exact hp.bare i x hi hx
  · rw [hget] at hx ⊢
    exact hbare x hx

theorem Canonical.interned (hp : p.Canonical) {T : TypeTable}
    (hadds : p.Adds { p with types := T }) : ({ p with types := T } : Program).Canonical :=
  { hp with tables := hadds.tables }

theorem internInst_mends (hp : p.Tidy) (ha : ∀ a ∈ inst.args, p.insts.Valid a)
    (hf : p.Formed inst) :
    Mends p (Program.internInst inst) fun i q => q.insts.Valid i ∧ q.insts.get i = inst :=
  ⟨hp.tables.internInst ha, hp.internInst ha hf, valid_intern _ _, get_intern_self _ _⟩

/-- An invariant that holds on when parameters and classes applied to their parameters are added,
and what differs from an instance or a type in its arguments only. -/
structure Lawful (I : Program → Prop) : Prop where
  tables : ∀ {p : Program}, I p → p.Tables
  param : ∀ {p : Program} {x : ParamId}, I p → p.params.Valid x →
    I { p with insts := (p.insts.intern ⟨.param x, []⟩).2 }
  this : ∀ {p : Program} {c : ClassId} {args : List InstId}, I p → p.classes.Valid c →
    (∀ a ∈ args, p.insts.Valid a) → args.length = (p.classes.get c).params.length →
    I { p with insts := (p.insts.intern ⟨.cls c, args⟩).2 }
  inst : ∀ {p : Program} {i : InstId} {c : ClassId} {args args' : List InstId}, I p →
    p.insts.Valid i → p.insts.get i = ⟨.cls c, args⟩ → args.length = args'.length →
    (∀ a ∈ args', p.insts.Valid a) → I { p with insts := (p.insts.intern ⟨.cls c, args'⟩).2 }
  type : ∀ {p : Program} {s : Substitution} {t : TypeId} {x : Ty}, I p → p.types.Valid t →
    p.Holds x → (p.types.get t).skeleton = x.skeleton →
    (∀ y ∈ (p.types.get t).parts.zip x.parts, p.Retyped s y.1 y.2) →
    I { p with types := (p.types.intern x).2 }

theorem canonical_lawful : Lawful Canonical where
  tables := Canonical.tables
  param hp hx := hp.internInst (forall_mem_nil _) fun _ h => by
    cases h
    exact ⟨hx, rfl⟩
  this hp _ ha _ := hp.internInst ha nofun
  inst hp _ _ _ ha := hp.internInst ha nofun
  type hp _ hx _ _ := hp.interned (hp.tables.intern hx)

theorem tidy_lawful : Lawful Tidy where
  tables := Tidy.tables
  param hp hx := hp.internInst (forall_mem_nil _) ⟨hx, rfl⟩
  this hp hc ha hlen := hp.internInst ha ⟨hc, hlen⟩
  inst {p i _ _ _} hp hi hget hlen ha := by
    have hformed := hp.instances.formed i hi
    rw [hget] at hformed
    exact hp.internInst ha (by simpa only [Formed, ← hlen] using hformed)
  type {p _ t _} hp ht hx hshape hparts := by
    -- An array is made of an array, whose elements last.
    refine hp.intern hx fun v hv => ?_
    subst hv
    obtain ⟨w, hw⟩ := Ty.array_of_skeleton hshape
    rw [hw] at hparts
    rw [(hparts (w, v) (mem_singleton_self _)).isTemporary]
    exact hp.lasting t w hw

end Runs

def answered (p : Program) (s : Substitution) : List ParamId :=
  p.params.ids.filter fun x => (p.params.get x).owner = s.cls →
    (p.params.get x).index < s.args.length

theorem mem_answered {x : ParamId} :
    x ∈ p.answered s ↔ p.params.Valid x ∧
      ((p.params.get x).owner = s.cls → (p.params.get x).index < s.args.length) := by
  rw [answered, mem_filter, mem_ids, decide_eq_true_iff]

theorem Adds.within_answered {i : InstId} (h : p.Adds q) (hi : p.Within (p.answered s) i) :
    q.Within (q.answered s) i := by
  have hanswered : q.answered s = p.answered s := by rw [answered, h.params, answered]
  rw [hanswered]
  exact hi.grows h.insts

/-- What is replaced has an answer for all its parameters. -/
theorem Replaced.within_answered (hp : p.Canonical) {i : InstId} (h : p.Replaced s i j) :
    p.Within (p.answered s) i := by
  have hparam {i : InstId} {x : ParamId} {args : List InstId} (hi : p.insts.Valid i)
      (hget : p.insts.get i = ⟨.param x, args⟩)
      (hx : (p.params.get x).owner = s.cls → (p.params.get x).index < s.args.length) :
      p.Within (p.answered s) i := by
    obtain ⟨hvalid, hargs⟩ := hp.bare i x hi (by rw [hget])
    refine .node hi (fun y hy => ?_) (by rw [hargs]; exact forall_mem_nil _)
    rw [hget] at hy
    cases hy
    exact mem_answered.2 ⟨hvalid, hx⟩
  induction h with
  | own hi hget _ harg => exact hparam hi hget fun _ => (List.getElem?_eq_some_iff.1 harg).1
  | other hi hget howner => exact hparam hi hget fun h => absurd h howner
  | cls hi hget _ _ hlen _ ih =>
    refine .node hi (by rw [hget]; nofun) fun a ha => ?_
    rw [hget] at ha
    obtain ⟨b, hab⟩ := exists_zip_of_mem_left hlen ha
    exact ih (a, b) hab

theorem Retyped.over_answered (hp : p.Canonical) {t : TypeId} (h : p.Retyped s t u) :
    TypeTable.Over p.types (p.Within (p.answered s)) (fun _ => True) t := by
  induction h with
  | @node t u ht _ hshape _ hinst ih =>
    refine .node ht (fun i hi => ?_) (fun _ _ => trivial) fun w hw => ?_
    · have hsome := Ty.isSome_inst? hshape
      rw [hi] at hsome
      obtain ⟨j, hj⟩ := Option.isSome_iff_exists.1 hsome.symm
      exact (hinst i j hi hj).within_answered hp
    · obtain ⟨v, hv⟩ := exists_zip_of_mem_left (Ty.length_parts hshape) hw
      exact ih (w, v) hv

namespace Substitution

section

variable {I : Program → Prop} (hI : Lawful I) (hp : I p) (hs : ∀ a ∈ s.args, p.insts.Valid a)
include hI hp hs

theorem instUpTo_works {n : Nat} {i : InstId} (hi : p.insts.Valid i) (hn : i.index < n) :
    Works I p (s.instUpTo n i) (fun a q => q.Replaced s i a) (¬ p.Within (p.answered s) i) := by
  induction n generalizing p i with
  | zero => exact absurd hn (Nat.not_lt_zero _)
  | succ n ih =>
    have ht := hI.tables hp
    rw [instUpTo_succ]
    refine .get ?_
    unfold instAt
    split
    · rename_i x args hget
      dsimp only
      split
      · rename_i howner
        split
        · rename_i arg harg
          exact .pure ht hp (.own hi hget howner harg)
        · rename_i harg
          refine .throw ht fun hwithin => ?_
          cases hwithin with
          | node _ hparam _ =>
            have hlt := (mem_answered.1 (hparam x (by rw [hget]))).2 howner
            exact absurd harg (by simp [hlt])
      · rename_i howner
        exact .pure ht hp (.other hi hget howner)
    · rename_i c args hget
      have hargs (a : InstId) (ha : a ∈ args) : a.index < i.index :=
        ht.insts i a (by rw [hget]; exact ha)
      refine (Works.mapM (P := fun x b q => q.Replaced s x b) (fun _ => hI.tables) hp
        (fun _ _ _ _ hqr h => hqr.replaced h) fun a ha q hq hIq => ?_).bind
        fun bs q hq hIq ⟨hlen, hbs⟩ => ?_
      · have hlt := hargs a ha
        refine (ih hIq (fun b hb => hq.insts.valid (hs b hb)) (hq.insts.valid (Nat.lt_trans hlt hi))
          (by omega)).imp (fun _ _ _ _ h => h) fun hnot hwithin => hnot (hq.within_answered ?_)
        cases hwithin with
        | node _ _ hall => exact hall a (by rw [hget]; exact ha)
      · have hvalid : ∀ b ∈ bs, q.insts.Valid b := by
          intro b hb
          obtain ⟨a, hab⟩ := exists_zip_of_mem hlen hb
          exact (hbs _ hab).valid fun a ha => hq.insts.valid (hs a ha)
        have hadds : Adds _ { q with insts := (q.insts.intern ⟨.cls c, bs⟩).2 } :=
          (hI.tables hIq).internInst hvalid
        have hgetq := (hq.insts.get_eq hi).trans hget
        refine ⟨hadds, hI.inst hIq (hq.insts.valid hi) hgetq hlen hvalid, ?_⟩
        exact .cls (hadds.insts.valid (hq.insts.valid hi))
          ((hadds.insts.get_eq (hq.insts.valid hi)).trans hgetq) (valid_intern _ _)
          (get_intern_self _ _) hlen fun x hx => hadds.replaced (hbs x hx)

theorem inst_works {i : InstId} (hi : p.insts.Valid i) :
    Works I p (s.inst i) (fun a q => q.Replaced s i a) (¬ p.Within (p.answered s) i) :=
  .get (instUpTo_works hI hp hs hi hi)

section Types

variable {F : Prop} {t : TypeId} {find : TypeId → Edit TypeId} (ht : p.types.Valid t)
  (hfind : ∀ {u : TypeId}, u ∈ (p.types.get t).parts → ∀ {q : Program}, p.Adds q → I q →
    Works I q (find u) (fun v r => r.Retyped s u v) F)

include ht

omit hp hs in
/-- What is made of the parts is what the type with the parts replaced is. -/
theorem internType_works (hq : p.Adds q) (hIq : I q) {x : Ty} (hx : q.Holds x)
    (hshape : (p.types.get t).skeleton = x.skeleton)
    (hparts : ∀ y ∈ (p.types.get t).parts.zip x.parts, q.Retyped s y.1 y.2)
    (hinst : ∀ i j, (p.types.get t).inst? = some i → x.inst? = some j → q.Replaced s i j) :
    Works I q (internType x) (fun u r => r.Retyped s t u) F := by
  have htq := hq.types.valid ht
  rw [← hq.types.get_eq ht] at hshape hparts hinst
  have hmade : Works I q (internType x) (fun u r => r.types.Valid u ∧ r.types.get u = x) F :=
    ⟨(hI.tables hIq).intern hx, hI.type hIq htq hx hshape hparts, valid_intern _ _,
      get_intern_self _ _⟩
  refine hmade.post fun u r hr _ ⟨hu, hgetu⟩ => ?_
  refine .node (hr.types.valid htq) hu ?_ ?_ ?_ <;> rw [hr.types.get_eq htq, hgetu]
  · exact hshape
  · exact fun y hy => hr.retyped (hparts y hy)
  · exact fun i j hi hj => hr.replaced (hinst i j hi hj)

theorem instType_works {i : InstId} (make : InstId → Ty) (hget : p.types.get t = make i)
    (hholds : ∀ (q : Program) j, q.Holds (make j) ↔ q.insts.Valid j)
    (hshape : ∀ j, (make i).skeleton = (make j).skeleton)
    (hinst : ∀ j, (make j).inst? = some j) (hparts : ∀ j, (make j).parts = [])
    (hfails : ¬ p.Within (p.answered s) i → F) :
    Works I p (do internType (make (← s.inst i))) (fun u q => q.Retyped s t u) F := by
  have hi := (hholds p i).1 (hget ▸ (hI.tables hp).holds ht)
  refine ((inst_works hI hp hs hi).imp (fun _ _ _ _ h => h) hfails).bind fun j q hq hIq hj => ?_
  have hj' := hj.valid fun a ha => hq.insts.valid (hs a ha)
  refine internType_works hI ht hq hIq ((hholds q j).2 hj') (by rw [hget]; exact hshape j) ?_ ?_
  · rw [hparts, zip_nil_right]
    exact forall_mem_nil _
  · rw [hget]
    intro k l hk hl
    cases (hinst i).symm.trans hk
    cases (hinst j).symm.trans hl
    exact hj

omit hs
include hfind

theorem wrapType_works {w : TypeId} (make : TypeId → Ty) (hget : p.types.get t = make w)
    (hholds : ∀ (q : Program) v, q.Holds (make v) ↔ q.types.Valid v)
    (hshape : ∀ v, (make w).skeleton = (make v).skeleton) (hinst : ∀ v, (make v).inst? = none)
    (hparts : ∀ v, (make v).parts = [v]) :
    Works I p (do internType (make (← find w))) (fun u q => q.Retyped s t u) F := by
  have hw : w ∈ (p.types.get t).parts := by
    rw [hget, hparts]
    exact mem_singleton_self w
  refine (hfind hw (.refl (hI.tables hp)) hp).bind fun v q hq hIq hv => ?_
  refine internType_works hI ht hq hIq ((hholds q v).2 hv.valid)
    (by rw [hget]; exact hshape v) ?_ ?_
  · rw [hget, hparts, hparts]
    exact forall_mem_singleton.2 hv
  · rw [hget]
    intro k l hk hl
    cases (hinst w).symm.trans hk

theorem callType_works {params : List TypeId} {result : TypeId} (make : List TypeId → TypeId → Ty)
    (hget : p.types.get t = make params result)
    (hholds : ∀ (q : Program) ps v,
      q.Holds (make ps v) ↔ (∀ u ∈ ps, q.types.Valid u) ∧ q.types.Valid v)
    (hshape : ∀ ps v, params.length = ps.length →
      (make params result).skeleton = (make ps v).skeleton)
    (hinst : ∀ ps v, (make ps v).inst? = none) (hparts : ∀ ps v, (make ps v).parts = ps ++ [v]) :
    Works I p (do
      let params ← params.mapM find
      internType (make params (← find result))) (fun u q => q.Retyped s t u) F := by
  rw [hget, hparts] at hfind
  refine (Works.mapM (P := fun x u q => q.Retyped s x u) (fun _ => hI.tables) hp
    (fun _ _ _ _ hqr h => hqr.retyped h) fun u hu q hq hIq =>
      hfind (mem_append_left _ hu) hq hIq).bind fun ps q hq hIq ⟨hlen, hps⟩ => ?_
  refine (hfind (mem_append_right _ (mem_singleton_self _)) hq hIq).bind fun v r hr hIr hv => ?_
  refine internType_works hI ht (hq.trans hr) hIr ((hholds r ps v).2 ⟨fun u hu => ?_, hv.valid⟩)
    (by rw [hget]; exact hshape ps v hlen) ?_ ?_
  · obtain ⟨x, hx⟩ := exists_zip_of_mem hlen hu
    exact hr.types.valid (hps _ hx).valid
  · rw [hget, hparts, hparts, zip_append hlen, forall_mem_append]
    exact ⟨fun x hx => hr.retyped (hps x hx), forall_mem_singleton.2 hv⟩
  · rw [hget]
    intro k l hk hl
    cases (hinst params result).symm.trans hk

end Types

theorem typeUpTo_works {n : Nat} {t : TypeId} (ht : p.types.Valid t) (hn : t.index < n) :
    Works I p (s.typeUpTo n t) (fun u q => q.Retyped s t u)
      (¬ TypeTable.Over p.types (p.Within (p.answered s)) (fun _ => True) t) := by
  induction n generalizing p t with
  | zero => exact absurd hn (Nat.not_lt_zero _)
  | succ n ih =>
    generalize hF : (¬ TypeTable.Over p.types (p.Within (p.answered s)) (fun _ => True) t) = F
    have hfind {u : TypeId} (hu : u ∈ (p.types.get t).parts) {q : Program} (hq : p.Adds q)
        (hIq : I q) : Works I q (s.typeUpTo n u) (fun v r => r.Retyped s u v) F := by
      have hlt := (hI.tables hp).types.parts t u hu
      refine (ih hIq (fun a ha => hq.insts.valid (hs a ha)) (hq.types.valid (Nat.lt_trans hlt ht))
        (by omega)).imp (fun _ _ _ _ h => h) fun hnot => hF ▸ fun hover => hnot ?_
      exact (hover.part hu).mono hq.types (fun _ => hq.within_answered) fun _ => id
    have hfails {i : InstId} (hi : (p.types.get t).inst? = some i)
        (hnot : ¬ p.Within (p.answered s) i) : F := hF ▸ fun hover => hnot (hover.inst hi)
    unfold typeUpTo
    refine .get ?_
    split
    · rename_i kind i hget
      exact instType_works hI hp hs ht (.ref kind) hget (fun _ _ => holds_ref) (fun _ => rfl)
        (fun _ => rfl) (fun _ => rfl) (hfails (by rw [hget]; rfl))
    · rename_i i hget
      exact instType_works hI hp hs ht .classOf hget (fun _ _ => holds_classOf) (fun _ => rfl)
        (fun _ => rfl) (fun _ => rfl) (hfails (by rw [hget]; rfl))
    · rename_i w depth hget
      exact wrapType_works hI hp ht hfind (.optional · depth) hget (fun _ _ => holds_optional)
        (fun _ => rfl) (fun _ => rfl) fun _ => rfl
    · rename_i w hget
      exact wrapType_works hI hp ht hfind .array hget (fun _ _ => holds_array) (fun _ => rfl)
        (fun _ => rfl) fun _ => rfl
    · rename_i params result hget
      exact callType_works hI hp ht hfind .lambda hget (fun _ _ _ => holds_lambda)
        (fun ps v hlen => by simp [Ty.skeleton, hlen]) (fun _ _ => rfl) fun _ _ => rfl
    · rename_i params result hget
      exact callType_works hI hp ht hfind .function hget (fun _ _ _ => holds_function)
        (fun ps v hlen => by simp [Ty.skeleton, hlen]) (fun _ _ => rfl) fun _ _ => rfl
    · rename_i href hclass hoptional harray hlambda hfunction
      obtain ⟨hparts, hinst⟩ := Ty.leaf href hclass hoptional harray hlambda hfunction
      refine .pure (hI.tables hp) hp (.node ht ht rfl ?_ ?_)
      · rw [hparts]
        exact forall_mem_nil _
      · rw [hinst]
        nofun

end

end Substitution

/-- `u` is the type `t`, in terms of the parameters of a class, as seen from an instance of it. -/
def Stripped (p : Program) (context : InstId) (t u : TypeId) : Prop :=
  match p.substitution? context with
  | some s => p.Retyped s t u
  | none => u = t

def StrippedInst (p : Program) (context i j : InstId) : Prop :=
  match p.substitution? context with
  | some s => p.Replaced s i j
  | none => j = i

def StrippedAlong (p : Program) : List InstId → TypeId → TypeId → Prop
  | [], t, u => u = t
  | i :: path, t, u => ∃ w, p.Stripped i t w ∧ StrippedAlong p path w u

section Stripping

variable (hinsts : p.insts.Grows q.insts) (hparams : q.params = p.params)
include hinsts

theorem substitution?_of_grows {i : InstId} (hi : p.insts.Valid i) :
    q.substitution? i = p.substitution? i := by
  rw [substitution?, hinsts.get_eq hi, substitution?]

include hparams

theorem Stripped.grows {i : InstId} {t : TypeId} (h : p.Stripped i t u) (hi : p.insts.Valid i)
    (htypes : p.types.Grows q.types) : q.Stripped i t u := by
  unfold Stripped at h ⊢
  rw [substitution?_of_grows hinsts hi]
  split at h
  · exact h.grows hinsts hparams htypes
  · exact h

theorem StrippedAlong.grows {t : TypeId} (h : p.StrippedAlong path t u)
    (hpath : ∀ i ∈ path, p.insts.Valid i) (htypes : p.types.Grows q.types) :
    q.StrippedAlong path t u := by
  induction path generalizing t with
  | nil => exact h
  | cons i path ih =>
    obtain ⟨w, hw, hrest⟩ := h
    rw [forall_mem_cons] at hpath
    exact ⟨w, hw.grows hinsts hparams hpath.1 htypes, ih hrest hpath.2⟩

end Stripping

theorem StrippedAlong.append {t : TypeId} (h : p.StrippedAlong path t u)
    (h' : p.StrippedAlong path' u w) : p.StrippedAlong (path ++ path') t w := by
  induction path generalizing t with
  | nil =>
    cases h
    exact h'
  | cons i path ih =>
    obtain ⟨v, hv, hrest⟩ := h
    exact ⟨v, hv, ih hrest⟩

theorem StrippedAlong.of_append {t : TypeId} (h : p.StrippedAlong (path ++ path') t w) :
    ∃ u, p.StrippedAlong path t u ∧ p.StrippedAlong path' u w := by
  induction path generalizing t with
  | nil => exact ⟨t, rfl, h⟩
  | cons i path ih =>
    obtain ⟨v, hv, hrest⟩ := h
    obtain ⟨u, hu, hu'⟩ := ih hrest
    exact ⟨u, ⟨v, hv, hu⟩, hu'⟩

def AnswersInst (p : Program) (context i : InstId) : Prop :=
  ∀ s, p.substitution? context = some s → p.Within (p.answered s) i

def Answers (p : Program) (context : InstId) (t : TypeId) : Prop :=
  ∀ s, p.substitution? context = some s → TypeTable.Over p.types (p.Within (p.answered s))
    (fun _ => True) t

section Answering

variable {t : TypeId} {i context : InstId}

theorem Adds.answers (h : p.Adds q) (hc : p.insts.Valid context) (ht : p.Answers context t) :
    q.Answers context t := by
  intro s hs
  rw [substitution?_of_grows h.insts hc] at hs
  exact (ht s hs).mono h.types (fun _ => h.within_answered) fun _ => id

theorem Stripped.answers (hp : p.Canonical) (h : p.Stripped context t u) : p.Answers context t := by
  intro s hs
  unfold Stripped at h
  rw [hs] at h
  exact h.over_answered hp

section

variable {I : Program → Prop} (hI : Lawful I) (hp : I p)
include hI hp

theorem strip_works (ht : p.types.Valid t) (hc : p.insts.Valid context) :
    Works I p (strip t context) (fun u q => q.types.Valid u ∧ q.Stripped context t u)
      (¬ p.Answers context t) := by
  have htables := hI.tables hp
  unfold strip
  refine .get ?_
  split
  · rename_i s hs
    refine .get ((Substitution.typeUpTo_works hI hp (valid_of_substitution htables hs) ht ht).imp
      (fun u q hq _ hu => ⟨hu.valid, ?_⟩) fun hnot hanswers => hnot (hanswers s hs))
    rw [Stripped, substitution?_of_grows hq.insts hc, hs]
    exact hu
  · rename_i hs
    refine .pure htables hp ⟨ht, ?_⟩
    rw [Stripped, hs]

theorem stripInst_works (hi : p.insts.Valid i) (hc : p.insts.Valid context) :
    Works I p (stripInst i context) (fun j q => q.insts.Valid j ∧ q.StrippedInst context i j)
      (¬ p.AnswersInst context i) := by
  have htables := hI.tables hp
  unfold stripInst
  refine .get ?_
  split
  · rename_i s hs
    have hargs := valid_of_substitution htables hs
    refine (Substitution.inst_works hI hp hargs hi).imp
      (fun j q hq _ hj => ⟨hj.valid fun a ha => hq.insts.valid (hargs a ha), ?_⟩)
      fun hnot hanswers => hnot (hanswers s hs)
    rw [StrippedInst, substitution?_of_grows hq.insts hc, hs]
    exact hj
  · rename_i hs
    refine .pure htables hp ⟨hi, ?_⟩
    rw [StrippedInst, hs]

end

end Answering

def Saturated (p : Program) (i : InstId) : Prop :=
  ∀ s, p.substitution? i = some s → s.args.length = (p.classes.get s.cls).params.length

section Saturation

variable {t : TypeId} {i context : InstId}

theorem saturated_cls {c : ClassId} {args : List InstId} (h : p.insts.get i = ⟨.cls c, args⟩) :
    p.Saturated i ↔ args.length = (p.classes.get c).params.length := by
  rw [Saturated, substitution?, h]
  exact ⟨fun h => h _ rfl, fun hlen s hs => by cases hs; exact hlen⟩

theorem Adds.saturated (h : p.Adds q) (hi : p.insts.Valid i) (hs : p.Saturated i) :
    q.Saturated i := by
  intro s hs'
  rw [substitution?_of_grows h.insts hi] at hs'
  rw [h.classes]
  exact hs s hs'

variable (hp : p.Canonical)
include hp

/-- The argument that a parameter asks for is there. -/
theorem Canonical.within_answered (hs : s.args.length = (p.classes.get s.cls).params.length)
    {i : InstId} (hi : p.insts.Valid i) : p.Within (p.answered s) i := by
  have hbelow : ∀ a ∈ (p.insts.get i).args, a.index < i.index := hp.tables.insts i
  refine .node hi (fun x hx => ?_) fun a ha =>
    Canonical.within_answered hs (Nat.lt_trans (hbelow a ha) hi)
  have hvalid := (hp.bare i x hi hx).1
  refine mem_answered.2 ⟨hvalid, fun howner => ?_⟩
  rw [hs]
  exact (List.getElem?_eq_some_iff.1 ((hp.params _ _ x).2 ⟨hvalid, howner, rfl⟩)).1
termination_by i.index
decreasing_by exact hbelow a ha

theorem Canonical.answersInst (hc : p.Saturated context) (hi : p.insts.Valid i) :
    p.AnswersInst context i :=
  fun s hs => hp.within_answered (hc s hs) hi

theorem Canonical.answers (hc : p.Saturated context) (ht : p.types.Valid t) : p.Answers context t :=
  fun s hs => hp.tables.types.over (fun _ => hp.within_answered (hc s hs)) ht

variable {I : Program → Prop} (hI : Lawful I) (hp' : I p) (hc : p.insts.Valid context)
  (hs : p.Saturated context)
include hI hp' hc hs

theorem strip_saturated (ht : p.types.Valid t) :
    Works I p (strip t context) (fun u q => q.types.Valid u ∧ q.Stripped context t u) False :=
  (strip_works hI hp' ht hc).sure (not_not_intro (hp.answers hs ht))

theorem stripInst_saturated (hi : p.insts.Valid i) :
    Works I p (stripInst i context)
      (fun j q => q.insts.Valid j ∧ q.StrippedInst context i j) False :=
  (stripInst_works hI hp' hi hc).sure (not_not_intro (hp.answersInst hs hi))

end Saturation

section Stripping

variable {i context : InstId} (hp : p.Tidy)
include hp

theorem Tidy.saturated (hi : p.insts.Valid i) : p.Saturated i := by
  intro s hs
  have hformed := hp.instances.formed i hi
  unfold substitution? at hs
  split at hs
  · rename_i hget
    cases hs
    rw [hget] at hformed
    exact hformed.2
  · cases hs

theorem stripInst_mends (hi : p.insts.Valid i) (hc : p.insts.Valid context) :
    Mends p (stripInst i context) fun j q => q.insts.Valid j ∧ q.StrippedInst context i j :=
  mends_iff.2 (stripInst_saturated hp.canonical tidy_lawful hp hc (hp.saturated hc) hi)

end Stripping

section Paths

variable {I : Program → Prop} {t : TypeId} {receiver : InstId}

section

variable (hI : Lawful I) (hcan : ∀ p, I p → p.Canonical) (hp : I p) (ht : p.types.Valid t)
  (hpath : ∀ j ∈ path, p.insts.Valid j ∧ p.Saturated j)
include hI hcan hp ht hpath

theorem stripAlong_works :
    Works I p (path.foldlM strip t)
      (fun u q => q.types.Valid u ∧ q.StrippedAlong path t u) False := by
  induction path generalizing p t with
  | nil => exact .pure (hI.tables hp) hp ⟨ht, rfl⟩
  | cons j path ih =>
    rw [forall_mem_cons] at hpath
    rw [foldlM_cons]
    refine (strip_saturated (hcan p hp) hI hp hpath.1.1 hpath.1.2 ht).bind
      fun w q hq hIq ⟨hw, hstripped⟩ => ?_
    refine (ih hIq hw fun k hk => ?_).post fun u r hr _ ⟨hu, hrest⟩ => ⟨hu, w, ?_, hrest⟩
    · obtain ⟨hvalid, hsat⟩ := hpath.2 k hk
      exact ⟨hq.insts.valid hvalid, hq.saturated hvalid hsat⟩
    · exact hstripped.grows hr.insts hr.params (hq.insts.valid hpath.1.1) hr.types

theorem stripPath_works (hr : p.insts.Valid receiver) (hsat : p.Saturated receiver) :
    Works I p (stripPath t path receiver)
      (fun u q => q.types.Valid u ∧ q.StrippedAlong (path.reverse ++ [receiver]) t u) False := by
  have hwhole : stripPath t path receiver = (path.reverse ++ [receiver]).foldlM strip t := by
    rw [foldlM_append]
    simp [stripPath]
  rw [hwhole]
  refine stripAlong_works hI hcan hp ht fun j hj => ?_
  rcases mem_append.1 hj with hj | hj
  · exact hpath j (mem_reverse.1 hj)
  · exact mem_singleton.1 hj ▸ ⟨hr, hsat⟩

end

theorem stripPath_mends (hp : p.Tidy) (ht : p.types.Valid t) (hpath : ∀ j ∈ path, p.insts.Valid j)
    (hr : p.insts.Valid receiver) :
    Mends p (stripPath t path receiver) fun u q => q.types.Valid u ∧
      q.StrippedAlong (path.reverse ++ [receiver]) t u :=
  mends_iff.2 (stripPath_works tidy_lawful (fun _ => Tidy.canonical) hp ht
    (fun j hj => ⟨hpath j hj, hp.saturated (hpath j hj)⟩) hr (hp.saturated hr))

end Paths

section This

variable {c : ClassId}

def IsThis (p : Program) (c : ClassId) (i : InstId) : Prop :=
  p.insts.Valid i ∧ ∃ args, p.insts.get i = ⟨.cls c, args⟩ ∧
    Forall₂ (fun x a => p.insts.Valid a ∧ p.insts.get a = ⟨.param x, []⟩)
    (p.classes.get c).params args

theorem IsThis.grows {i : InstId} (h : p.IsThis c i) (hinsts : p.insts.Grows q.insts)
    (hparams : (q.classes.get c).params = (p.classes.get c).params) : q.IsThis c i := by
  obtain ⟨hi, args, hget, hargs⟩ := h
  refine ⟨hinsts.valid hi, args, (hinsts.get_eq hi).trans hget, ?_⟩
  rw [hparams]
  exact hargs.imp fun _ a ha => ⟨hinsts.valid ha.1, (hinsts.get_eq ha.1).trans ha.2⟩

theorem IsThis.within {i : InstId} (h : p.IsThis c i) : p.Within (p.classes.get c).params i := by
  obtain ⟨hi, args, hget, hargs⟩ := h
  refine .node hi (by simp [hget]) fun a ha => ?_
  rw [hget] at ha
  obtain ⟨x, hx, hax⟩ := exists_of_forall₂ hargs ha
  exact .node hax.1 (fun y hy => by rw [hax.2] at hy; cases hy; exact hx) (by simp [hax.2])

theorem IsThis.classOf? {i : InstId} (h : p.IsThis c i) : p.classOf? i = some c := by
  obtain ⟨_, args, hget, _⟩ := h
  rw [Program.classOf?, hget]

section

variable {I : Program → Prop} (hI : Lawful I)
include hI

theorem foldl_internParam_keeps {params : List ParamId} (done : List ParamId)
    (acc : List InstId × InstTable) (hp : I { p with insts := acc.2 })
    (hx : ∀ x ∈ params, p.params.Valid x)
    (hacc : Forall₂ (fun x a => acc.2.Valid a ∧ acc.2.get a = ⟨.param x, []⟩) done acc.1) :
    I { p with insts := (params.foldl internParam acc).2 } ∧
      Forall₂ (fun x a => (params.foldl internParam acc).2.Valid a ∧
        (params.foldl internParam acc).2.get a = ⟨.param x, []⟩) (done ++ params)
      (params.foldl internParam acc).1 := by
  induction params generalizing done acc with
  | nil =>
    rw [append_nil]
    exact ⟨hp, hacc⟩
  | cons x params ih =>
    rw [forall_mem_cons] at hx
    have hnext : I { p with insts := (internParam acc x).2 } := hI.param hp hx.1
    have hgrows := grows_intern acc.2 ⟨.param x, []⟩
    have happ := ih (done ++ [x]) _ hnext hx.2
      (rel_append (hacc.imp fun _ a ha => ⟨hgrows.valid ha.1, (hgrows.get_eq ha.1).trans ha.2⟩)
        (.cons ⟨valid_intern _ _, get_intern_self _ _⟩ .nil))
    rwa [append_assoc, singleton_append] at happ

theorem thisInst_keeps (hp : I p) (hcan : p.Canonical) (hc : p.classes.Valid c) :
    I (p.thisInst c).2 ∧ (p.thisInst c).2.IsThis c (p.thisInst c).1 := by
  obtain ⟨hkeeps, hargs⟩ :=
    foldl_internParam_keeps hI [] ([], p.insts) hp (fun x hx => (hcan.param hx).1) .nil
  rw [nil_append] at hargs
  set acc := (p.classes.get c).params.foldl internParam ([], p.insts) with hacc
  have hvalid : ∀ a ∈ acc.1, acc.2.Valid a := forall_of_forall₂ hargs fun _ _ h => h.1
  have hgrows := grows_intern acc.2 ⟨.cls c, acc.1⟩
  refine ⟨hI.this hkeeps hc hvalid hargs.length_eq.symm, valid_intern _ _, acc.1,
    get_intern_self _ _, ?_⟩
  exact hargs.imp fun _ a ha => ⟨hgrows.valid ha.1, (hgrows.get_eq ha.1).trans ha.2⟩

end

end This

end Program

end ClassLang
