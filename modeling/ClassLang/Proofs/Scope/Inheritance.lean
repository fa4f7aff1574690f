import ClassLang.Program.Load
import ClassLang.Proofs.Scope.Flatten
import ClassLang.Scope.Resolve

namespace ClassLang.Program

open Arena List

variable {p q r : Program} {c d e : ClassId} {order ids : List ClassId}

theorem Interned.closed (h : p.Interned) : Flatten.Closed p := by
  rintro c d ⟨i, hd⟩
  obtain ⟨b, hb, hx⟩ := mem_filterMap.1 hd
  by_cases hc : p.classes.Valid c
  · exact (h c (mem_ids.2 hc) b hb).2 (i, d) hx
  · rw [get_of_not_valid hc] at hb
    cases hb

namespace Flatten.Closed

variable (h : Closed p) (hp : p.Layered) (hids : ∀ c ∈ ids, p.classes.Valid c)
include h hp hids

theorem flatten_flattens : p.Flattens [] (p.flatten ids).program := by
  rcases (classes_end hp h ids hids).outcome with ⟨_, _, h, _⟩ | ⟨_, h, _⟩
  · exact h
  · exact h

theorem flattened_of_flatten (hok : (p.flatten ids).result = .ok ()) (hc : c ∈ ids) :
    ((p.flatten ids).program.classes.get c).flattened = true := by
  rcases (classes_end hp h ids hids).outcome with ⟨_, _, _, h⟩ | ⟨⟨e, he⟩, _⟩
  · exact h c hc
  · rw [show ((classes ids).outcome p).result = .ok () from hok] at he
    cases he

theorem flatten_ok_iff : (p.flatten ids).result = .ok () ↔ ∀ c ∈ ids, p.Heritable c := by
  constructor
  · intro hok c hc
    have hq := h.flatten_flattens hp hids
    obtain ⟨order, hlaid, horder⟩ := hq.layered
    rw [← hq.heritable_iff]
    exact hlaid.heritable ((horder c).1 (h.flattened_of_flatten hp hids hok hc))
  · intro hall
    rcases (classes_end hp h ids hids).outcome with ⟨_, hok, _⟩ | ⟨_, _, c, hc, hbad⟩
    · exact hok
    · exact absurd (hall c hc) hbad

end Flatten.Closed

section Runs

variable (hp : p.Layered) (hi : p.Interned) (hids : ∀ c ∈ ids, p.classes.Valid c)
include hp hi hids

theorem flatten_flattens : p.Flattens [] (p.flatten ids).program :=
  hi.closed.flatten_flattens hp hids

theorem flattened_of_flatten (hok : (p.flatten ids).result = .ok ()) (hc : c ∈ ids) :
    ((p.flatten ids).program.classes.get c).flattened = true :=
  hi.closed.flattened_of_flatten hp hids hok hc

theorem flatten_ok_iff : (p.flatten ids).result = .ok () ↔ ∀ c ∈ ids, p.Heritable c :=
  hi.closed.flatten_ok_iff hp hids

end Runs

/-! ### Order -/

theorem Laid.base (h : p.Laid order) (hc : c ∈ order) {x : InstId × ClassId}
    (hx : x ∈ p.basesOf c) : x.2 ∈ order := by
  induction order with
  | nil => cases hc
  | cons d order ih =>
    obtain ⟨_, _, hbases, hrest⟩ := h
    rcases mem_cons.1 hc with rfl | hc
    · exact mem_cons_of_mem c (hbases x hx)
    · exact mem_cons_of_mem d (ih hrest hc)

section Layers

variable (h : p.Layered) (hc : (p.classes.get c).flattened = true)
include h hc

theorem Layered.flat : p.Flat c := by
  obtain ⟨order, hlaid, horder⟩ := h
  exact hlaid.flat ((horder c).1 hc)

theorem Layered.heritable : p.Heritable c := by
  obtain ⟨order, hlaid, horder⟩ := h
  exact hlaid.heritable ((horder c).1 hc)

theorem Layered.base {x : InstId × ClassId} (hx : x ∈ p.basesOf c) :
    (p.classes.get x.2).flattened = true := by
  obtain ⟨order, hlaid, horder⟩ := h
  exact (horder x.2).2 (hlaid.base ((horder c).1 hc) hx)

end Layers

/-- Two ways of flattening the same declarations agree on a class that both flatten. -/
theorem Heritable.eq_of_flattens (h : p.Heritable c) (hq : p.Flattens [] q) (hr : p.Flattens [] r)
    (hcq : (q.classes.get c).flattened = true) (hcr : (r.classes.get c).flattened = true) :
    q.classes.get c = r.classes.get c := by
  induction h with
  | @intro c _ _ ih =>
    have hflatq := hq.layered.flat hcq
    have hflatr := hr.layered.flat hcr
    have hbasesOf : q.basesOf c = r.basesOf c := (hq.basesOf c).trans (hr.basesOf c).symm
    have hsame (x : InstId × ClassId) (hx : x ∈ r.basesOf c) : q.classes.get x.2 =
      r.classes.get x.2 := ih x.2 ⟨x.1, hr.basesOf c ▸ hx⟩ (hq.layered.base hcq (hbasesOf ▸ hx))
      (hr.layered.base hcr hx)
    obtain ⟨own, hown, hmembers⟩ := hflatq.members
    obtain ⟨own', hown', hmembers'⟩ := hflatr.members
    rw [hq.ownMembers, ← hr.ownMembers, hown'] at hown
    cases hown
    have hhead : (q.classes.get c).unflattened = (r.classes.get c).unflattened :=
      (hq.heads c).trans (hr.heads c).symm
    have htable : (q.classes.get c).members = (r.classes.get c).members := by
      rw [hmembers, hmembers', hbasesOf, memberTable_congr hsame]
    have hancestors : (q.classes.get c).ancestors = (r.classes.get c).ancestors := by
      rw [hflatq.ancestors, hflatr.ancestors, hbasesOf, ancestorsOver_congr hsame]
    have hflattened := hcq.trans hcr.symm
    generalize q.classes.get c = x at *
    generalize r.classes.get c = y at *
    cases x
    cases y
    simp only [ClassDef.unflattened, ClassDef.mk.injEq] at *
    simp only [hhead, htable, hancestors, hflattened, and_self]

theorem Flattens.eq (hq : p.Flattens [] q) (hr : p.Flattens [] r)
    (hflat : ∀ c, p.classes.Valid c → (q.classes.get c).flattened = true ∧
      (r.classes.get c).flattened = true) : q = r := by
  have hclasses : q.classes = r.classes := by
    apply Arena.ext_get (hq.size.trans hr.size.symm)
    intro c
    by_cases hc : p.classes.Valid c
    · obtain ⟨hcq, hcr⟩ := hflat c hc
      exact (hq.heritable_iff.1 (hq.layered.heritable hcq)).eq_of_flattens hq hr hcq hcr
    · have hc' : ¬ q.classes.Valid c := by rwa [Valid, hq.size]
      have hc'' : ¬ r.classes.Valid c := by rwa [Valid, hr.size]
      rw [get_of_not_valid hc', get_of_not_valid hc'']
  rw [← hq.rest, ← hr.rest, hclasses]

theorem flatten_of_flattened (h : ∀ c ∈ ids, (p.classes.get c).flattened = true) :
    p.flatten ids = ⟨.ok (), p, [], []⟩ := by
  have hstep (n : Nat) (c : ClassId) (hc : (p.classes.get c).flattened = true) :
      Flatten.classUpTo (n + 1) [] c { program := p } = .ok () { program := p } := by
    unfold Flatten.classUpTo Flatten.classStep
    show (if (p.classes.get c).flattened = true then _ else _ : Pass NameCause Unit)
      { program := p } = _
    rw [if_pos hc]
    rfl
  have hall (n : Nat) : (ids.forM (Flatten.classUpTo (n + 1) []) : Pass NameCause Unit)
      { program := p } = .ok () { program := p } := by
    induction ids with
    | nil => rfl
    | cons c ids ih =>
      rw [forall_mem_cons] at h
      change EStateM.bind (Flatten.classUpTo (n + 1) [] c)
        (fun _ => ids.forM (Flatten.classUpTo (n + 1) [])) _ = _
      rw [EStateM.bind, hstep n c h.1]
      exact ih h.2
  have hrun : (Flatten.classes ids).run { program := p } = .ok () { program := p } :=
    hall p.classes.size
  rw [flatten, Pass.outcome, hrun]

/-- The order in which classes are flattened does not matter, and flattening twice is the same as
once. -/
theorem flatten_order (hi : p.Interned)
    (hnew : ∀ c ∈ p.classes.ids, (p.classes.get c).flattened = false) {xs ys : List ClassId}
    (hxs : xs.Perm p.classes.ids) (hys : ys.Perm p.classes.ids) :
    ((p.flatten xs).result = .ok () ↔ (p.flatten ys).result = .ok ()) ∧
    ((p.flatten xs).result = .ok () →
      (∀ c ∈ p.classes.ids, ((p.flatten xs).program.classes.get c).flattened = true) ∧
      (p.flatten xs).program = (p.flatten ys).program ∧
      ∀ zs, (∀ c ∈ zs, c ∈ p.classes.ids) →
        (p.flatten xs).program.flatten zs = ⟨.ok (), (p.flatten xs).program, [], []⟩) := by
  have hp : p.Layered := layered_of_unflattened hnew
  have hvx : ∀ c ∈ xs, p.classes.Valid c := fun c hc => Arena.mem_ids.1 (hxs.mem_iff.1 hc)
  have hvy : ∀ c ∈ ys, p.classes.Valid c := fun c hc => Arena.mem_ids.1 (hys.mem_iff.1 hc)
  have hiff : (p.flatten xs).result = .ok () ↔ (p.flatten ys).result = .ok () := by
    rw [flatten_ok_iff hp hi hvx, flatten_ok_iff hp hi hvy]
    simp only [hxs.mem_iff, hys.mem_iff]
  refine ⟨hiff, fun hok => ?_⟩
  have hflat (c : ClassId) (hc : c ∈ p.classes.ids) :
    ((p.flatten xs).program.classes.get c).flattened = true :=
    flattened_of_flatten hp hi hvx hok (hxs.mem_iff.2 hc)
  have hflat' (c : ClassId) (hc : c ∈ p.classes.ids) :
    ((p.flatten ys).program.classes.get c).flattened = true :=
    flattened_of_flatten hp hi hvy (hiff.1 hok) (hys.mem_iff.2 hc)
  refine ⟨hflat, ?_, fun zs hzs => flatten_of_flattened fun c hc => hflat c (hzs c hc)⟩
  exact (flatten_flattens hp hi hvx).eq (flatten_flattens hp hi hvy) fun c hc =>
    ⟨hflat c (Arena.mem_ids.2 hc), hflat' c (Arena.mem_ids.2 hc)⟩

def sharedBaseText : String :=
  "interface I { m(); } interface J { +I } interface K { +I } class C { +J; +K }"

def diamond : Program := (loadText {} "test" sharedBaseText).program.resolve.program.unflatten

theorem diamond_flattens :
    diamond.Interned ∧ (∀ c ∈ diamond.classes.ids, (diamond.classes.get c).flattened = false) ∧
      diamond.classes.ids = [⟨0⟩, ⟨1⟩, ⟨2⟩, ⟨3⟩] ∧ (diamond.flatten diamond.classes.ids).result =
      .ok () ∧ ((diamond.flatten diamond.classes.ids).program.classes.get ⟨3⟩).flattened = true ∧
      ((diamond.flatten diamond.classes.ids).program.classes.get ⟨3⟩).ancestors = [⟨1⟩, ⟨0⟩, ⟨2⟩] ∧
      ((diamond.flatten diamond.classes.ids).program.classes.get ⟨3⟩).members.get ⟨2⟩ =
      [⟨.method ⟨0⟩, [⟨1⟩, ⟨0⟩]⟩] := by
  decide +kernel

theorem flatten_order_diamond :
    (diamond.flatten diamond.classes.ids).result = .ok () ∧
    (diamond.flatten diamond.classes.ids.reverse).result = .ok () ∧
    (diamond.flatten diamond.classes.ids).program =
      (diamond.flatten diamond.classes.ids.reverse).program ∧
    (diamond.flatten diamond.classes.ids).program.flatten [⟨3⟩, ⟨1⟩] =
      ⟨.ok (), (diamond.flatten diamond.classes.ids).program, [], []⟩ := by
  obtain ⟨hi, hnew, hids, hok, _⟩ := diamond_flattens
  generalize diamond = p at hi hnew hids hok ⊢
  obtain ⟨hiff, hsame⟩ := flatten_order hi hnew (.refl _) p.classes.ids.reverse_perm
  obtain ⟨_, heq, hagain⟩ := hsame hok
  exact ⟨hok, hiff.1 hok, heq, hagain _ (by simp [hids])⟩

/-! ### The recursion ends by itself -/

namespace Flatten

/-- The recursion over the bases, with `out` where it would go further up than the given number of
classes. -/
def classWithin (out : List ClassId → ClassId → Pass NameCause Unit) :
    Nat → List ClassId → ClassId → Pass NameCause Unit
  | 0, below, c => out below c
  | n + 1, below, c => classStep (classWithin out n (c :: below)) below c

variable {n : Nat} {below : List ClassId} {s : PassState}

/-- No chain of bases without repetition is longer than the list of classes, so `out` is never
reached. -/
theorem classWithin_agrees (out : List ClassId → ClassId → Pass NameCause Unit) {k size : Nat}
    (hs : s.program.classes.size = size) (hn : size < n + below.length)
    (hk : size < k + below.length) (hnodup : below.Nodup)
    (hvalid : ∀ d ∈ below, s.program.classes.Valid d) :
    Agrees s (classUpTo k below c) (classWithin out n below c)
      (fun _ s' => s'.program.classes.size = size) fun _ s' => s'.program.classes.size = size := by
  have hlen := length_le_size hnodup hvalid
  induction n generalizing k below c s with
  | zero => omega
  | succ n ih =>
    cases k with
    | zero => omega
    | succ k =>
      rw [classWithin, classUpTo]
      refine classStep_agrees (I := fun s' => s'.program.classes.size = size) hs (fun _ => hs)
        (fun _ => hs) (fun hbelow hc d s' hs' _ => ?_) (fun _ _ _ _ _ _ => id) (fun _ _ h _ => h)
        fun _ _ _ _ h => (size_modify _ _ _).trans h
      have hvalid' : ∀ e ∈ c :: below, s'.program.classes.Valid e := by
        simp only [Valid, hs', ← hs]
        exact forall_mem_cons.2 ⟨hc, hvalid⟩
      have hnodup' := nodup_cons.2 ⟨hbelow, hnodup⟩
      apply ih hs' _ _ hnodup' hvalid' (length_le_size hnodup' hvalid')
      · rw [length_cons]
        omega
      · rw [length_cons]
        omega

/-- However far up the recursion may go, it does not. -/
theorem classWithin_outcome (out : List ClassId → ClassId → Pass NameCause Unit)
    (hn : p.classes.size < n) : ((ids.forM (classWithin out n [])).outcome p) = p.flatten ids := by
  have hrun : Agrees { program := p } (ids.forM (classUpTo (p.classes.size + 1) []))
    (ids.forM (classWithin out n [])) (fun _ s' => s'.program.classes.size = p.classes.size)
    fun _ s' => s'.program.classes.size = p.classes.size :=
    .forM (I := fun _ (s' : PassState) => s'.program.classes.size = p.classes.size) rfl
    fun _ _ _ _ _ hs' => classWithin_agrees out hs' hn (Nat.lt_succ_self _) .nil nofun
  rw [flatten, Pass.outcome, Pass.outcome, EStateM.run, EStateM.run, hrun.1]
  rfl

end Flatten

/-! ### The inheritance graph -/

def line (p : Program) (c : ClassId) : List ClassId := c :: (p.classes.get c).ancestors

section AncestorsOver

variable {bases : List (InstId × ClassId)} {acc ds : List ClassId}

theorem nodup_foldl_new (h : acc.Nodup) :
    (ds.foldl (fun acc c => if acc.contains c then acc else acc ++ [c]) acc).Nodup := by
  induction ds generalizing acc with
  | nil => exact h
  | cons e ds ih =>
    rw [foldl_cons]
    split
    · exact ih h
    · rename_i he
      rw [contains_iff_mem] at he
      apply ih
      rw [nodup_append]
      exact ⟨h, nodup_singleton e, fun a ha b hb hab => he (mem_singleton.1 hb ▸ hab ▸ ha)⟩

theorem mem_foldl_new :
    d ∈ ds.foldl (fun acc c => if acc.contains c then acc else acc ++ [c]) acc ↔
      d ∈ acc ∨ d ∈ ds := by
  induction ds generalizing acc with
  | nil => simp
  | cons e ds ih =>
    rw [foldl_cons, ih, mem_cons]
    split
    · rename_i he
      rw [contains_iff_mem] at he
      grind
    · simp [or_assoc]

theorem nodup_ancestorsOver : (p.ancestorsOver bases).Nodup :=
  List.foldlRecOn (motive := Nodup) _ _ .nil fun _ h _ _ => nodup_foldl_new h

theorem mem_ancestorsOver : d ∈ p.ancestorsOver bases ↔ ∃ x ∈ bases, d ∈ p.line x.2 := by
  have hall (acc : List ClassId) :
      d ∈ bases.foldl (fun acc x => (x.2 :: (p.classes.get x.2).ancestors).foldl
        (fun acc c => if acc.contains c then acc else acc ++ [c]) acc) acc ↔ d ∈ acc ∨
      ∃ x ∈ bases, d ∈ p.line x.2 := by
    induction bases generalizing acc with
    | nil => simp
    | cons x bases ih => rw [foldl_cons, ih, mem_foldl_new, exists_mem_cons_iff, or_assoc, line]
  refine (hall []).trans ?_
  simp

end AncestorsOver

theorem Flat.mem_ancestors (h : p.Flat c) :
    d ∈ (p.classes.get c).ancestors ↔ ∃ x ∈ p.basesOf c, d ∈ p.line x.2 := by
  rw [h.ancestors, mem_ancestorsOver]

theorem Laid.line_subset {order : List ClassId} (h : p.Laid order) (hc : c ∈ order) :
    p.line c ⊆ order := by
  induction order generalizing c with
  | nil => cases hc
  | cons e order ih =>
    obtain ⟨_, hflat, hbases, hrest⟩ := h
    intro d hd
    rcases mem_cons.1 hc with rfl | hc
    · rcases mem_cons.1 hd with rfl | hd
      · exact mem_cons_self
      · obtain ⟨x, hx, hd⟩ := hflat.mem_ancestors.1 hd
        exact mem_cons_of_mem _ (ih hrest (hbases x hx) hd)
    · exact mem_cons_of_mem _ (ih hrest hc hd)

theorem Laid.mem_ancestors_iff (h : p.Laid order) (hc : c ∈ order) :
    d ∈ (p.classes.get c).ancestors ↔ Relation.TransGen p.HasBase c d := by
  induction order generalizing c with
  | nil => cases hc
  | cons e order ih =>
    obtain ⟨_, hflat, hbases, hrest⟩ := h
    rcases mem_cons.1 hc with rfl | hc
    · rw [hflat.mem_ancestors, Relation.TransGen.head'_iff]
      constructor
      · rintro ⟨x, hx, hd⟩
        refine ⟨x.2, ⟨x.1, hx⟩, ?_⟩
        rcases mem_cons.1 hd with rfl | hd
        · exact .refl
        · exact ((ih hrest (hbases x hx)).1 hd).to_reflTransGen
      · rintro ⟨b, ⟨i, hb⟩, hd⟩
        refine ⟨(i, b), hb, ?_⟩
        rcases Relation.reflTransGen_iff_eq_or_transGen.1 hd with rfl | hd
        · exact mem_cons_self
        · exact mem_cons_of_mem _ ((ih hrest (hbases (i, b) hb)).2 hd)
    · exact ih hrest hc

theorem Laid.above (h : p.Laid order) (hc : c ∈ order) (hd : Relation.ReflTransGen p.HasBase c d) :
    d ∈ order := by
  rcases Relation.reflTransGen_iff_eq_or_transGen.1 hd with rfl | hd
  · exact hc
  · exact h.line_subset hc (mem_cons_of_mem c ((h.mem_ancestors_iff hc).2 hd))

/-- Only interfaces are above an interface. -/
theorem Heritable.interface (h : p.Heritable c) (hc : (p.classes.get c).isInterface = true)
    (hd : Relation.ReflTransGen p.HasBase c d) : (p.classes.get d).isInterface = true := by
  induction hd using Relation.ReflTransGen.head_induction_on with
  | refl => exact hc
  | head hbase _ ih =>
    obtain ⟨i, hx⟩ := hbase
    exact ih (h.above ⟨i, hx⟩) (h.proper.interface hc _ hx)

/-- Of two classes that are no interfaces one is above the other if both are above a third: there is
only one base to come over. -/
theorem Heritable.chain (h : p.Heritable c) (hd : Relation.TransGen p.HasBase c d)
    (he : Relation.TransGen p.HasBase c e) (hd' : (p.classes.get d).isInterface = false)
    (he' : (p.classes.get e).isInterface = false) :
    d = e ∨ Relation.TransGen p.HasBase d e ∨ Relation.TransGen p.HasBase e d := by
  induction h with
  | @intro c hproper habove ih =>
    obtain ⟨x, ⟨i, hx⟩, hxd⟩ := Relation.TransGen.head'_iff.1 hd
    obtain ⟨y, ⟨j, hy⟩, hye⟩ := Relation.TransGen.head'_iff.1 he
    have hconcrete {x d : ClassId} {i : InstId} (hx : (i, x) ∈ p.basesOf c)
        (hxd : Relation.ReflTransGen p.HasBase x d) (hd : (p.classes.get d).isInterface = false) :
        (i, x) ∈ p.concrete (p.basesOf c) := by
      refine mem_filter.2 ⟨hx, ?_⟩
      by_contra hi
      rw [Bool.not_eq_true, Bool.not_eq_false'] at hi
      rw [(habove x ⟨i, hx⟩).interface hi hxd] at hd
      cases hd
    have hx' := hconcrete hx hxd hd'
    have hy' := hconcrete hy hye he'
    have hxy : x = y := by
      have hsingle := hproper.single
      cases hlist : p.concrete (p.basesOf c) with
      | nil =>
        rw [hlist] at hx'
        cases hx'
      | cons z zs =>
        rw [hlist, length_cons] at hsingle
        have hzs : zs = [] := length_eq_zero_iff.1 (by omega)
        rw [hlist, hzs, mem_singleton] at hx' hy'
        exact congrArg Prod.snd (hx'.trans hy'.symm)
    subst hxy
    rcases Relation.reflTransGen_iff_eq_or_transGen.1 hxd with rfl | hxd
    · rcases Relation.reflTransGen_iff_eq_or_transGen.1 hye with rfl | hye
      · exact .inl rfl
      · exact .inr (.inl hye)
    · rcases Relation.reflTransGen_iff_eq_or_transGen.1 hye with rfl | hye
      · exact .inr (.inr hxd)
      · exact ih x ⟨i, hx⟩ hxd hye

/-- Classes are flattened by `flatten` only. Whatever else is done to a program leaves the classes
that are flattened as they are, with what their bases and members refer to. -/
inductive Flattening : Program → Prop
  | fresh {p : Program} : (∀ c ∈ p.classes.ids, (p.classes.get c).flattened = false) → Flattening p
  | run {p : Program} {ids : List ClassId} : Flattening p → p.Interned →
      (∀ c ∈ ids, p.classes.Valid c) →
      Flattening (p.flatten ids).program
  | edit {p q : Program} : Flattening p →
      (∀ c, (q.classes.get c).flattened = true ↔ (p.classes.get c).flattened = true) →
      (∀ c, (p.classes.get c).flattened = true → q.classes.get c = p.classes.get c ∧
        (∀ b ∈ (p.classes.get c).bases, q.baseOf? b = p.baseOf? b) ∧
          q.ownMembers (p.classes.get c) = p.ownMembers (p.classes.get c)) → Flattening q

theorem Flattening.layered (h : Flattening p) : p.Layered := by
  induction h with
  | fresh hnew => exact layered_of_unflattened hnew
  | run _ hi hids ih => exact (flatten_flattens ih hi hids).layered
  | edit _ hflat hsame ih =>
    obtain ⟨order, hlaid, horder⟩ := ih
    refine ⟨order, ?_, fun c => (hflat c).trans (horder c)⟩
    exact hlaid.congr (fun c hc => (hsame c ((horder c).2 hc)).1)
      (fun c hc => (hsame c ((horder c).2 hc)).2.1) fun c hc => (hsame c ((horder c).2 hc)).2.2

/-- Flattening ends, and the ancestors of a class are then the classes above it. -/
theorem flatten_graph (hp : Flattening p) (hi : p.Interned) (hids : ∀ c ∈ ids, p.classes.Valid c) :
    (∀ n out, p.classes.size < n →
      (ids.forM (Flatten.classWithin out n [])).outcome p = p.flatten ids) ∧
    ((p.flatten ids).result = .ok () →
      ∀ b ∈ ids, ∀ c, Relation.ReflTransGen p.HasBase b c →
        let q := (p.flatten ids).program
        let ancestors := (q.classes.get c).ancestors
        (∀ d, d ∈ ancestors ↔ Relation.TransGen p.HasBase c d) ∧ ancestors.Nodup ∧
        c ∉ ancestors ∧ ¬ Relation.TransGen p.HasBase c c ∧
        ((q.classes.get c).isInterface = true →
          ∀ d ∈ ancestors, (q.classes.get d).isInterface = true) ∧
        ∀ d ∈ ancestors, ∀ e ∈ ancestors, d ≠ e → (q.classes.get d).isInterface = false →
          (q.classes.get e).isInterface = false →
          q.derivesFrom d e = true ∨ q.derivesFrom e d = true) := by
  refine ⟨fun n out hn => Flatten.classWithin_outcome out hn, fun hok b hb c hc => ?_⟩
  have hq := flatten_flattens hp.layered hi hids
  have hflat := flattened_of_flatten hp.layered hi hids hok hb
  generalize (p.flatten ids).program = q at hq hflat ⊢
  obtain ⟨order, hlaid, horder⟩ := hq.layered
  rw [← hq.hasBase_eq] at hc ⊢
  have hc' : c ∈ order := hlaid.above ((horder b).1 hflat) hc
  have hher := hlaid.heritable hc'
  have hanc (d : ClassId) := hlaid.mem_ancestors_iff (d := d) hc'
  refine ⟨hanc, ?_, fun h => hher.not_cyclic ((hanc c).1 h), hher.not_cyclic, fun hic d hd =>
    hher.interface hic ((hanc d).1 hd).to_reflTransGen, fun d hd e he hne hd' he' => ?_⟩
  · rw [(hlaid.flat hc').ancestors]
    exact nodup_ancestorsOver
  · have hderives {d e : ClassId} (hd : d ∈ (q.classes.get c).ancestors)
        (hde : Relation.TransGen q.HasBase d e) : q.derivesFrom d e = true := by
      have hd' := hlaid.line_subset hc' (List.mem_cons_of_mem c hd)
      have hmem := (hlaid.mem_ancestors_iff hd').2 hde
      simp [derivesFrom, hmem]
    rcases hher.chain ((hanc d).1 hd) ((hanc e).1 he) hd' he' with rfl | hde | hed
    · exact absurd rfl hne
    · exact .inl (hderives hd hde)
    · exact .inr (hderives he hed)

theorem flatten_graph_diamond :
    (diamond.flatten diamond.classes.ids).result = .ok () ∧
      ((diamond.flatten diamond.classes.ids).program.classes.get ⟨3⟩).ancestors = [⟨1⟩, ⟨0⟩, ⟨2⟩] ∧
      (∀ d, d ∈ [⟨1⟩, ⟨0⟩, ⟨2⟩] ↔ Relation.TransGen diamond.HasBase ⟨3⟩ d) ∧
      ¬ Relation.TransGen diamond.HasBase ⟨3⟩ ⟨3⟩ := by
  obtain ⟨hi, hnew, hids, hok, _, hancestors, _⟩ := diamond_flattens
  generalize diamond = p at hi hnew hids hok hancestors ⊢
  obtain ⟨habove, _, _, hcycle, _⟩ :=
    (flatten_graph (.fresh hnew) hi fun c => Arena.mem_ids.1).2 hok ⟨3⟩ (by simp [hids]) ⟨3⟩ .refl
  rw [← hancestors]
  exact ⟨hok, rfl, habove, hcycle⟩

end ClassLang.Program
