import ClassLang.Proofs.Typing.Sound.Program

namespace ClassLang

open List

namespace Program

variable {p q : Program} {c d : ClassId} {m n target : MethodId}
  {table more : List (MethodId × MethodId)} {x : InstId × ClassId}

structure Orderly (p : Program) (table : List (MethodId × MethodId)) : Prop where
  keys : (table.map Prod.fst).Nodup
  values : ∀ x ∈ table, (p.methods.get x.2).base.isSome

theorem Orderly.nil : p.Orderly [] := ⟨nodup_nil, nofun⟩

section

variable (h : p.Orderly table)
include h

theorem Orderly.put (hn : (p.methods.get n).base.isSome) : p.Orderly (Assoc.put m n table) where
  keys := Assoc.keys_put h.keys
  values x hx := by
    rcases Assoc.mem_put hx with ⟨_, he⟩ | hx
    · exact he ▸ hn
    · exact h.values x hx

theorem Orderly.merge (hmore : ∀ x ∈ more, (p.methods.get x.2).base.isSome) :
    p.Orderly (Assoc.merge table more) := by
  induction more generalizing table with
  | nil => exact h
  | cons x more ih =>
    rw [forall_mem_cons] at hmore
    exact ih (h.put hmore.1) hmore.2

/-- What is overridden is no method that is given for a base, so that no entry is redirected twice.
-/
theorem Orderly.redirect_eq (htarget : (p.methods.get target).base = none) :
    Typing.redirect target n table = Assoc.put target n table := by
  rw [Typing.redirect]
  congr 1
  refine (map_congr_left fun x hx => ?_).trans (map_id table)
  have hne : x.2 ≠ target := by
    rintro rfl
    have hsome := h.values x hx
    rw [htarget] at hsome
    cases hsome
  show (x.1, if x.2 = target then n else x.2) = x
  rw [if_neg hne]

theorem Orderly.mem_iff : (m, n) ∈ table ↔ table.lookup m = some n := by
  refine ⟨fun hmem => ?_, fun hlookup => ?_⟩
  · obtain ⟨pre, post, rfl⟩ := append_of_mem hmem
    rw [lookup_eq_some_iff]
    refine ⟨pre, post, rfl, fun x hx => bne_iff_ne.2 fun he => ?_⟩
    have hkeys := h.keys
    rw [map_append, nodup_append] at hkeys
    exact hkeys.2.2 x.1 (mem_map.2 ⟨x, hx, rfl⟩) m (by simp) he.symm
  · obtain ⟨pre, post, rfl, _⟩ := lookup_eq_some_iff.1 hlookup
    simp

end

def Reimplements (p : Program) (c : ClassId) (m n : MethodId) : Prop :=
  ∃ b ∈ (p.classes.get c).bases, n ∈ b.overloads ∧ (p.methods.get n).overrides = some m

def own? (p : Program) (c : ClassId) (m : MethodId) : Option MethodId :=
  (p.overloadsOf c).reverse.find? fun n => (p.methods.get n).overrides = some m

theorem reimplements_of_own? (h : p.own? c m = some n) : p.Reimplements c m n := by
  obtain ⟨b, hb, hn⟩ := mem_flatMap.1 (mem_reverse.1 (mem_of_find?_eq_some h))
  exact ⟨b, hb, hn, of_decide_eq_true (find?_some h :)⟩

theorem own?_eq_none : p.own? c m = none ↔ ∀ n, ¬ p.Reimplements c m n := by
  refine ⟨fun h n ⟨b, hb, hn, hm⟩ => ?_, fun h => ?_⟩
  · have hnot := find?_eq_none.1 h n (mem_reverse.2 (mem_flatMap.2 ⟨b, hb, hn⟩))
    exact hnot (decide_eq_true hm)
  · cases hown : p.own? c m with
    | none => rfl
    | some n => exact absurd (reimplements_of_own? hown) (h n)

section Classes

variable (hw : p.Wired)
include hw

/-- What holds of a class when it holds of its bases holds of all classes. -/
theorem Wired.induction {P : ClassId → Prop}
    (hP : ∀ c, p.classes.Valid c → p.Flat c → (∀ x ∈ p.basesOf c, P x.2) → P c)
    (hc : p.classes.Valid c) : P c := by
  obtain ⟨order, hlaid, horder⟩ := hw.laid
  have hall : ∀ c ∈ order, P c := by
    have hvalid : ∀ c ∈ order, p.classes.Valid c := fun c hc => (horder c).1 hc
    clear horder
    induction order with
    | nil => nofun
    | cons d order ih =>
      obtain ⟨_, hflat, hbases, hrest⟩ := hlaid
      rw [forall_mem_cons] at hvalid ⊢
      exact ⟨hP d hvalid.1 hflat fun x hx => ih hrest hvalid.2 x.2 (hbases x hx), ih hrest hvalid.2⟩
  exact hall c ((horder c).2 hc)

/-- Only methods that a class declares for itself are overridden. -/
theorem Wired.overridden (h : (p.methods.get n).overrides = some m) :
    ∃ e, p.Owns e (.method m) := by
  obtain ⟨k, b, x, path, _, _, _, hlookup⟩ := hw.found n m h
  obtain ⟨e, _, howns, _⟩ := path_of_lookup hw ⟨.refl p, .refl _⟩ hlookup
  exact ⟨e, howns⟩

theorem Wired.overload_base (hn : n ∈ p.overloadsOf c) : (p.methods.get n).base.isSome := by
  obtain ⟨b, hb, hn⟩ := mem_flatMap.1 hn
  obtain ⟨k, hk⟩ := mem_iff_getElem?.1 hb
  rw [(hw.owned.overloads c k b hk n hn).2.2]
  rfl

theorem Orderly.overloads {ns : List MethodId} (h : p.Orderly table)
    (hns : ∀ n ∈ ns, (p.methods.get n).base.isSome) :
    p.Orderly (p.withOverloads table ns) ∧ ∀ m, (p.withOverloads table ns).lookup m =
      (ns.reverse.find? fun n => (p.methods.get n).overrides = some m).or (table.lookup m) := by
  induction ns generalizing table with
  | nil => exact ⟨h, fun m => rfl⟩
  | cons n ns ih =>
    rw [forall_mem_cons] at hns
    rw [withOverloads, foldl_cons, ← withOverloads]
    cases hover : (p.methods.get n).overrides with
    | none =>
      dsimp only
      obtain ⟨horderly, hlookup⟩ := ih h hns.2
      refine ⟨horderly, fun m => ?_⟩
      rw [hlookup, reverse_cons, find?_append, find?_singleton, hover]
      simp
    | some target =>
      dsimp only
      obtain ⟨e, howns⟩ := hw.overridden hover
      rw [h.redirect_eq (hw.owned.methods e target howns).2.2]
      obtain ⟨horderly, hlookup⟩ := ih (h.put hns.1) hns.2
      refine ⟨horderly, fun m => ?_⟩
      rw [hlookup, Assoc.lookup_put, reverse_cons, find?_append, find?_singleton, hover,
        Option.or_assoc]
      by_cases hm : m = target
      · simp [hm]
      · simp [hm, Ne.symm hm]

omit hw in
theorem Orderly.inherited {xs : List (InstId × ClassId)} (h : p.Orderly table)
    (hxs : ∀ x ∈ xs, p.Orderly (q.classes.get x.2).dispatch) :
    p.Orderly (xs.foldl (fun table x => Assoc.merge table (q.classes.get x.2).dispatch) table) ∧
      ∀ m, (xs.foldl (fun table x => Assoc.merge table (q.classes.get x.2).dispatch) table).lookup
      m = (xs.reverse.findSome? fun x => (q.classes.get x.2).dispatch.lookup m).or
      (table.lookup m) := by
  induction xs generalizing table with
  | nil => exact ⟨h, fun m => rfl⟩
  | cons x xs ih =>
    rw [forall_mem_cons] at hxs
    obtain ⟨horderly, hlookup⟩ := ih (h.merge hxs.1.values) hxs.2
    refine ⟨horderly, fun m => ?_⟩
    rw [foldl_cons, hlookup, Assoc.lookup_merge hxs.1.keys, reverse_cons, findSome?_append,
      Option.or_assoc]
    simp

/-- A method of a table is one that the class gives itself, or else comes from the last of its bases
that has one. -/
theorem Dispatched.lookup {built : List ClassId} (h : p.Dispatched built q c)
    (hbases : ∀ x ∈ p.basesOf c, p.Orderly (q.classes.get x.2).dispatch) :
    p.Orderly (q.classes.get c).dispatch ∧ ∀ m, (q.classes.get c).dispatch.lookup m =
      (p.own? c m).or ((p.basesOf c).reverse.findSome? fun x =>
        (q.classes.get x.2).dispatch.lookup m) := by
  obtain ⟨hinherited, hlookup⟩ := Orderly.inherited .nil hbases
  obtain ⟨horderly, hover⟩ := hinherited.overloads hw fun n hn => hw.overload_base (c := c) hn
  rw [h.table]
  refine ⟨horderly, fun m => (hover m).trans ?_⟩
  rw [hlookup, lookup_nil, Option.or_none, own?]

end Classes

section Lines

variable (hw : p.Wired) (hc : p.classes.Valid c)
include hw hc

theorem Wired.flat : p.Flat c := by
  obtain ⟨order, hlaid, horder⟩ := hw.laid
  obtain ⟨_, _, _, _, hflat, _⟩ := hlaid.after ((horder c).2 hc)
  exact hflat

/-- No class is its own ancestor. -/
theorem Wired.acyclic (hd : d ∈ (p.classes.get c).ancestors) : c ∉ p.line d := by
  obtain ⟨order, hlaid, horder⟩ := hw.laid
  obtain ⟨rest, _, _, hnew, hflat, hbases, hrest⟩ := hlaid.after ((horder c).2 hc)
  obtain ⟨x, hx, hd⟩ := hflat.mem_ancestors.1 hd
  exact fun hmem => hnew (hrest.line_subset (hrest.line_subset (hbases x hx) hd) hmem)

theorem Wired.valid_base (hx : x ∈ p.basesOf c) : p.classes.Valid x.2 := by
  obtain ⟨order, hlaid, horder⟩ := hw.laid
  exact (horder x.2).1 (hlaid.base ((horder c).2 hc) hx)

theorem Wired.line_base (hx : x ∈ p.basesOf c) : p.line x.2 ⊆ p.line c :=
  fun _ hd => mem_cons_of_mem _ ((hw.flat hc).mem_ancestors.2 ⟨x, hx, hd⟩)

end Lines

theorem Reimplements.owner (h : p.Reimplements c m n) (hw : p.Wired) :
    (p.methods.get n).owner = c := by
  obtain ⟨b, hb, hn, _⟩ := h
  obtain ⟨k, hk⟩ := mem_iff_getElem?.1 hb
  exact (hw.owned.overloads c k b hk n hn).2.1

def Unchanged (p : Program) (m : MethodId) (c : ClassId) : Prop :=
  ∀ d ∈ p.line c, ∀ n, ¬ p.Reimplements d m n

/-- The method that runs in place of `m` for a class: the last one that the class gives itself, or
else that of its last base over which there is one. -/
inductive Selects (p : Program) (m : MethodId) : ClassId → MethodId → Prop
  | own {c : ClassId} {n : MethodId} : p.own? c m = some n → Selects p m c n
  | base {c : ClassId} {n : MethodId} {pre post : List (InstId × ClassId)} {x : InstId × ClassId} :
      p.own? c m = none →
      p.basesOf c = pre ++ x :: post → (∀ y ∈ post, p.Unchanged m y.2) → Selects p m x.2 n →
        Selects p m c n

/-- Over the bases before the last one over which `m` is overridden, it is not overridden in classes
that derive from one that overrides it over that base. -/
def Ordered (p : Program) (m : MethodId) (c : ClassId) : Prop :=
  ∀ pre x post, p.basesOf c = pre ++ x :: post → (∀ y ∈ post, p.Unchanged m y.2) →
    ∀ y ∈ pre, ∀ d ∈ p.line y.2, ∀ e ∈ p.line x.2, (∃ n, p.Reimplements d m n) →
    (∃ n, p.Reimplements e m n) → e ∈ (p.classes.get d).ancestors → d ∈ p.line x.2

theorem Ordered.of_nil (h : p.basesOf c = []) : p.Ordered m c := by
  intro pre x post hbases
  rw [h] at hbases
  simp at hbases

/-- The bases are in order if the last one derives from all the others. -/
theorem Ordered.of_last {pre : List (InstId × ClassId)} (hbases : p.basesOf c = pre ++ [x])
    (hlast : ∀ y ∈ pre, p.line y.2 ⊆ p.line x.2) : p.Ordered m c := by
  intro pre' x' post hsplit hpost y hy d hd e _ hm _ _
  rw [hbases] at hsplit
  rcases eq_nil_or_concat post with rfl | ⟨post, z, rfl⟩
  · obtain ⟨rfl, hx⟩ := append_inj' hsplit rfl
    cases hx
    exact hlast y hy hd
  · rw [concat_eq_append, ← cons_append, ← append_assoc] at hsplit
    obtain ⟨rfl, hz⟩ := append_inj' hsplit rfl
    cases hz
    obtain ⟨n, hn⟩ := hm
    exact absurd hn (hpost x (by simp) d (hlast y (mem_append_left _ hy) hd) n)

section Selecting

variable (hw : p.Wired) (hc : p.classes.Valid c)
include hw hc

theorem Selects.owner (h : p.Selects m c n) :
    (p.methods.get n).owner ∈ p.line c ∧ p.Reimplements (p.methods.get n).owner m n := by
  induction h with
  | own hown =>
    have hreimplements := reimplements_of_own? hown
    rw [hreimplements.owner hw]
    exact ⟨mem_cons_self, hreimplements⟩
  | @base c n pre post x _ hbases _ _ ih =>
    have hx : x ∈ p.basesOf c := by simp [hbases]
    obtain ⟨hline, hreimplements⟩ := ih (hw.valid_base hc hx)
    exact ⟨hw.line_base hc hx hline, hreimplements⟩

/-- Where the bases are in order, no class with another method for `m` derives from the one whose
method runs. -/
theorem Selects.most_derived (h : p.Selects m c n)
    (hordered : ∀ x ∈ p.line c, p.own? x m = none → p.Ordered m x) (hd : d ∈ p.line c)
    (hm : ∃ k, p.Reimplements d m k) : (p.methods.get n).owner ∉ (p.classes.get d).ancestors := by
  induction h generalizing d with
  | own hown =>
    rw [(reimplements_of_own? hown).owner hw]
    intro hmem
    rcases mem_cons.1 hd with rfl | hd
    · exact hw.acyclic hc hmem mem_cons_self
    · exact hw.acyclic hc hd (mem_cons_of_mem _ hmem)
  | @base c n pre post x hown hbases hpost hselects ih =>
    have hx : x ∈ p.basesOf c := by simp [hbases]
    have hvalid := hw.valid_base hc hx
    have hbase {d : ClassId} (hd : d ∈ p.line x.2) (hm : ∃ k, p.Reimplements d m k) :
        (p.methods.get n).owner ∉ (p.classes.get d).ancestors :=
      ih hvalid (fun y hy => hordered y (hw.line_base hc hx hy)) hd hm
    rcases mem_cons.1 hd with rfl | hd
    · obtain ⟨k, hk⟩ := hm
      exact absurd hk (own?_eq_none.1 hown k)
    obtain ⟨y, hy, hd⟩ := (hw.flat hc).mem_ancestors.1 hd
    rw [hbases] at hy
    rcases mem_append.1 hy with hy | hy
    · obtain ⟨hline, hreimplements⟩ := hselects.owner hw hvalid
      intro hmem
      refine hbase ?_ hm hmem
      exact hordered c mem_cons_self hown pre x post hbases hpost y hy d hd _ hline hm
        ⟨n, hreimplements⟩ hmem
    rcases mem_cons.1 hy with rfl | hy
    · exact hbase hd hm
    · obtain ⟨k, hk⟩ := hm
      exact absurd hk (hpost y hy d hd k)

end Selecting

section Tables

variable {built : List ClassId} (hw : p.Wired)
  (hd : ∀ d, p.classes.Valid d → p.Dispatched built q d) (hc : p.classes.Valid c)
include hw hd hc

theorem orderly_dispatch : p.Orderly (q.classes.get c).dispatch :=
  hw.induction (fun c hc _ hbases => ((hd c hc).lookup hw hbases).1) hc

theorem lookup_dispatch (m : MethodId) :
    (q.classes.get c).dispatch.lookup m = (p.own? c m).or
      ((p.basesOf c).reverse.findSome? fun x => (q.classes.get x.2).dispatch.lookup m) :=
  ((hd c hc).lookup hw fun _ hx => orderly_dispatch hw hd (hw.valid_base hc hx)).2 m

theorem lookup_dispatch_none : (q.classes.get c).dispatch.lookup m = none ↔ p.Unchanged m c := by
  refine hw.induction (P := fun c => (q.classes.get c).dispatch.lookup m = none ↔ p.Unchanged m c)
    (fun c hc hflat ih => ?_) hc
  rw [lookup_dispatch hw hd hc, Option.or_eq_none_iff, own?_eq_none, findSome?_eq_none_iff]
  refine ⟨fun ⟨hown, hbases⟩ d hline => ?_, fun h => ⟨h c mem_cons_self, fun x hx => ?_⟩⟩
  · rcases mem_cons.1 hline with rfl | hline
    · exact hown
    · obtain ⟨x, hx, hline⟩ := hflat.mem_ancestors.1 hline
      exact (ih x hx).1 (hbases x (mem_reverse.2 hx)) d hline
  · have hx := mem_reverse.1 hx
    exact (ih x hx).2 fun d hline => h d (hw.line_base hc hx hline)

theorem selects_of_lookup (h : (q.classes.get c).dispatch.lookup m = some n) : p.Selects m c n := by
  revert h
  refine hw.induction (P := fun c => (q.classes.get c).dispatch.lookup m = some n → p.Selects m c n)
    (fun c hc _ ih h => ?_) hc
  rw [lookup_dispatch hw hd hc] at h
  cases hown : p.own? c m with
  | some k =>
    rw [hown] at h
    cases h
    exact .own hown
  | none =>
    rw [hown, Option.none_or] at h
    obtain ⟨post, x, pre, hbases, hx, hpost⟩ := findSome?_eq_some_iff.1 h
    have hsplit : p.basesOf c = pre.reverse ++ x :: post.reverse := by
      rw [← reverse_reverse (p.basesOf c), hbases]
      simp
    refine .base hown hsplit (fun y hy => ?_) (ih x (by simp [hsplit]) hx)
    have hy' : y ∈ p.basesOf c := by
      rw [hsplit]
      simp [mem_reverse.1 hy]
    exact (lookup_dispatch_none hw hd (hw.valid_base hc hy')).1 (hpost y (mem_reverse.1 hy))

end Tables

end Program

namespace Typing

variable {p : Program} {c d : ClassId} {m n : MethodId}

/-- What a class or an ancestor overrides has an entry in the table of the class. It is the last
override in the class itself, or else that of its last base over which there is one. If the bases
are in order, no class that overrides the method derives from the one whose override runs. -/
theorem check_dispatches (h : p.Resolved) (hok : p.check.result = .ok ()) (hc : p.classes.Valid c)
    (hd : d ∈ p.line c) (hn : p.Reimplements d m n) :
    ∃ k, (p.check.program.classes.get c).dispatch.lookup m = some k ∧ p.Selects m c k ∧
      (p.methods.get k).owner ∈ p.line c ∧ p.Reimplements (p.methods.get k).owner m k ∧
      ((∀ x ∈ p.line c, p.own? x m = none → p.Ordered m x) →
        (p.methods.get k).owner ∉ (p.classes.get d).ancestors) := by
  obtain ⟨built, hbuilt⟩ := (typed_of_check h hok).dispatched
  cases hlookup : (p.check.program.classes.get c).dispatch.lookup m with
  | none => exact absurd hn ((Program.lookup_dispatch_none h.wired hbuilt hc).1 hlookup d hd n)
  | some k =>
    have hselects := Program.selects_of_lookup h.wired hbuilt hc hlookup
    obtain ⟨hline, hreimplements⟩ := hselects.owner h.wired hc
    exact ⟨k, rfl, hselects, hline, hreimplements, fun hordered =>
      hselects.most_derived h.wired hc hordered hd ⟨n, hn⟩⟩

def lastText : String :=
  "interface I { m(); } interface J { +I { m() {} } } interface K { +J { m() {} } } class C { +J; +K }"

theorem check_dispatches_last :
    ∃ k, ((Program.ofText lastText).check.program.classes.get ⟨3⟩).dispatch.lookup ⟨0⟩ = some k ∧
      ((Program.ofText lastText).methods.get k).owner ∉
        ((Program.ofText lastText).classes.get ⟨2⟩).ancestors := by
  have hrun : Program.resolves lastText = true ∧ (Program.ofText lastText).check.result = .ok () ∧
      (Program.ofText lastText).classes.Valid ⟨3⟩ ∧ (Program.ofText lastText).line ⟨3⟩ =
      [⟨3⟩, ⟨1⟩, ⟨0⟩, ⟨2⟩] ∧ (Program.ofText lastText).own? ⟨2⟩ ⟨0⟩ = some ⟨2⟩ ∧
      (Program.ofText lastText).own? ⟨1⟩ ⟨0⟩ = some ⟨1⟩ ∧ (Program.ofText lastText).basesOf ⟨3⟩ =
      [(⟨1⟩, ⟨1⟩), (⟨2⟩, ⟨2⟩)] ∧ (Program.ofText lastText).basesOf ⟨0⟩ = [] ∧
      (Program.ofText lastText).line ⟨1⟩ ⊆ (Program.ofText lastText).line ⟨2⟩ := by
    decide +kernel
  have h := Program.resolved_ofText lastText hrun.1
  generalize Program.ofText lastText = p at h hrun ⊢
  obtain ⟨_, hok, hc, hline, hown₂, hown₁, hbases₃, hbases₀, hsub⟩ := hrun
  have hordered : ∀ x ∈ p.line ⟨3⟩, p.own? x ⟨0⟩ = none → p.Ordered ⟨0⟩ x := by
    rw [hline]
    simp only [List.forall_mem_cons, List.not_mem_nil, IsEmpty.forall_iff, implies_true, and_true]
    refine ⟨fun _ => ?_, fun hnone => ?_, fun _ => .of_nil hbases₀, fun hnone => ?_⟩
    · exact .of_last (hbases₃ : p.basesOf ⟨3⟩ = [(⟨1⟩, ⟨1⟩)] ++ [(⟨2⟩, ⟨2⟩)])
        (List.forall_mem_singleton.2 hsub)
    · exact nomatch hown₁.symm.trans hnone
    · exact nomatch hown₂.symm.trans hnone
  have hd : (⟨2⟩ : ClassId) ∈ p.line ⟨3⟩ := by simp [hline]
  obtain ⟨k, hlookup, _, _, _, hmost⟩ :=
    check_dispatches h hok hc hd (Program.reimplements_of_own? hown₂)
  exact ⟨k, hlookup, hmost hordered⟩

def firstText : String :=
  "interface I { m(); } interface J { +I { m() {} } } interface K { +J { m() {} } } class C { +K; +J }"

/-- The override of the interface wins over that of the one that derives from it. -/
theorem check_dispatches_first :
    (Program.ofText firstText).Resolved ∧ (Program.ofText firstText).check.result = .ok () ∧
      (⟨2⟩ : ClassId) ∈ (Program.ofText firstText).line ⟨3⟩ ∧
      (Program.ofText firstText).Reimplements ⟨2⟩ ⟨0⟩ ⟨2⟩ ∧
      ((Program.ofText firstText).check.program.classes.get ⟨3⟩).dispatch.lookup ⟨0⟩ = some ⟨1⟩ ∧
      ((Program.ofText firstText).methods.get ⟨1⟩).owner ∈
        ((Program.ofText firstText).classes.get ⟨2⟩).ancestors := by
  have hrun : Program.resolves firstText = true ∧ (Program.ofText firstText).check.result = .ok () ∧
      (⟨2⟩ : ClassId) ∈ (Program.ofText firstText).line ⟨3⟩ ∧ (Program.ofText firstText).own? ⟨2⟩
      ⟨0⟩ = some ⟨2⟩ ∧ ((Program.ofText firstText).check.program.classes.get ⟨3⟩).dispatch.lookup
      ⟨0⟩ = some ⟨1⟩ ∧ ((Program.ofText firstText).methods.get ⟨1⟩).owner ∈
      ((Program.ofText firstText).classes.get ⟨2⟩).ancestors := by
    decide +kernel
  obtain ⟨hresolves, hok, hline, hown, hlookup, howner⟩ := hrun
  exact ⟨Program.resolved_ofText firstText hresolves, hok, hline, Program.reimplements_of_own? hown,
    hlookup, howner⟩

/-- A method that a class gives for a base overrides one, and the last method of the class that
overrides it runs in its place. So it is dropped if and only if a later one of the class overrides
the same. -/
theorem check_overrides {pre post : List MethodId} (h : p.Resolved) (hok : p.check.result = .ok ())
    (hn : p.overloadsOf c = pre ++ n :: post) :
    ∃ m, (p.methods.get n).overrides = some m ∧
      (p.check.program.classes.get c).dispatch.lookup m =
        some ((post.reverse.find? fun k => (p.methods.get k).overrides = some m).getD n) ∧
      ((p.check.program.classes.get c).dispatch.lookup m = some n ↔
        ∀ k ∈ post, (p.methods.get k).overrides ≠ some m) := by
  have hmem : n ∈ p.overloadsOf c := by simp [hn]
  have hc : p.classes.Valid c := Program.valid_of_mem_allMethods (List.mem_append_right _ hmem)
  have hnew : n ∉ post := by
    have hnodup := (List.nodup_append.1 (h.wired.owned.distinctMethods c)).2.1
    rw [show (p.classes.get c).bases.flatMap (·.overloads) = pre ++ n :: post from hn] at hnodup
    exact (List.nodup_cons.1 (List.nodup_append.1 hnodup).2.1).1
  obtain ⟨built, hbuilt⟩ := (typed_of_check h hok).dispatched
  obtain ⟨b, hb, hnb⟩ := List.mem_flatMap.1 hmem
  obtain ⟨m, _, _, _, _, _, hover, _⟩ := (hbuilt c hc).replaces b hb n hnb
  have hlookup : (p.check.program.classes.get c).dispatch.lookup m =
      some ((post.reverse.find? fun k => (p.methods.get k).overrides = some m).getD n) := by
    rw [Program.lookup_dispatch h.wired hbuilt hc, Program.own?, hn, List.reverse_append,
      List.reverse_cons, List.find?_append, List.find?_append, List.find?_singleton]
    cases post.reverse.find? fun k => (p.methods.get k).overrides = some m <;> simp [hover]
  refine ⟨m, hover, hlookup, ?_⟩
  rw [hlookup, Option.some_inj]
  cases hfind : post.reverse.find? fun k => (p.methods.get k).overrides = some m with
  | none =>
    exact iff_of_true rfl fun k hk he => List.find?_eq_none.1 hfind k (List.mem_reverse.2 hk)
      (decide_eq_true he)
  | some k =>
    have hk := List.mem_reverse.1 (List.mem_of_find?_eq_some hfind)
    exact iff_of_false (fun he => hnew (he ▸ hk)) fun hall =>
      hall k hk (of_decide_eq_true (List.find?_some hfind :))

def apartText : String :=
  "interface I { m(); } interface J { k(); } class C { +I { m() {} } +J { k() {} } }"

theorem check_overrides_apart :
    ((Program.ofText apartText).check.program.classes.get ⟨2⟩).dispatch.lookup ⟨0⟩ = some ⟨2⟩ := by
  have hrun : Program.resolves apartText = true ∧ (Program.ofText apartText).check.result = .ok () ∧
      (Program.ofText apartText).overloadsOf ⟨2⟩ = [] ++ ⟨2⟩ :: [⟨3⟩] ∧
      ((Program.ofText apartText).methods.get ⟨2⟩).overrides = some ⟨0⟩ ∧
      ((Program.ofText apartText).methods.get ⟨3⟩).overrides = some ⟨1⟩ := by decide +kernel
  have h := Program.resolved_ofText apartText hrun.1
  generalize Program.ofText apartText = p at h hrun ⊢
  obtain ⟨_, hok, hn, hover, hnext⟩ := hrun
  obtain ⟨m, hm, _, hiff⟩ := check_overrides h hok hn
  cases hover.symm.trans hm
  refine hiff.2 (List.forall_mem_singleton.2 ?_)
  rw [hnext]
  decide

def rivalText : String :=
  "interface I { m(); } interface A { +I } interface B { +I } class C { +A { m() {} } +B { m() {} } }"

/-- The method that is given at the first is dropped. -/
theorem check_overrides_rival :
    (Program.ofText rivalText).Resolved ∧ (Program.ofText rivalText).check.result = .ok () ∧
      (⟨1⟩ : MethodId) ∈ (Program.ofText rivalText).overloadsOf ⟨3⟩ ∧
      ((Program.ofText rivalText).methods.get ⟨1⟩).overrides = some ⟨0⟩ ∧
      ((Program.ofText rivalText).check.program.classes.get ⟨3⟩).dispatch.lookup ⟨0⟩ =
        some ⟨2⟩ := by
  have hrun : Program.resolves rivalText = true ∧ (Program.ofText rivalText).check.result = .ok () ∧
      (⟨1⟩ : MethodId) ∈ (Program.ofText rivalText).overloadsOf ⟨3⟩ ∧
      ((Program.ofText rivalText).methods.get ⟨1⟩).overrides = some ⟨0⟩ ∧
      ((Program.ofText rivalText).check.program.classes.get ⟨3⟩).dispatch.lookup
      ⟨0⟩ = some ⟨2⟩ := by
    decide +kernel
  exact ⟨Program.resolved_ofText rivalText hrun.1, hrun.2⟩

end Typing

end ClassLang
