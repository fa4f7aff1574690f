import ClassLang.Proofs.Scope.Inheritance
import ClassLang.Proofs.Scope.Members

namespace ClassLang

open List

namespace MemberTable

variable {t own base : MemberTable} {name n : NameId} {entry e : MemberEntry}
  {es new : List MemberEntry} {inst : InstId}

theorem Tidy.get_of_mem (h : t.Tidy) (he : (n, es) ∈ t.entries) : t.get n = es := by
  obtain ⟨l1, l2, hsplit⟩ := append_of_mem he
  have hlookup : t.entries.lookup n = some es := by
    refine lookup_eq_some_iff.2 ⟨l1, l2, hsplit, fun x hx => ?_⟩
    have hkeys := h.nodup
    rw [← h.keys, hsplit, map_append, map_cons] at hkeys
    rw [bne_iff_ne]
    rintro rfl
    exact disjoint_of_nodup_append hkeys (mem_map_of_mem hx) mem_cons_self
  rw [get, hlookup, Option.getD_some]

theorem Tidy.get_of_not_mem (h : t.Tidy) (hn : n ∉ t.order) : t.get n = [] :=
  not_not.1 (mt h.mem_order_iff.2 hn)

def merge (es new : List MemberEntry) : List MemberEntry := new.foldl (fun es e => addEntry e es) es

theorem merge_cons : merge es (e :: new) = merge (addEntry e es) new := rfl

theorem members_addEntry {m : Member} :
    m ∈ (addEntry entry es).map (·.member) ↔ m ∈ es.map (·.member) ∨ m = entry.member := by
  rw [map_member_addEntry]
  split
  · rename_i he
    exact ⟨.inl, fun hm => hm.elim id fun hm => hm ▸ he⟩
  · rw [mem_append, mem_singleton]

theorem members_merge {m : Member} :
    m ∈ (merge es new).map (·.member) ↔ m ∈ es.map (·.member) ∨ m ∈ new.map (·.member) := by
  induction new generalizing es with
  | nil => simp [merge]
  | cons e new ih => rw [merge_cons, ih, members_addEntry, map_cons, mem_cons, or_assoc]

theorem mem_addEntry_iff :
    e ∈ addEntry entry es ↔ e ∈ es ∨ e = entry ∧ e.member ∉ es.map (·.member) := by
  unfold addEntry
  split
  · rename_i h
    obtain ⟨e', he', hm⟩ := any_eq_true.1 h
    constructor
    · exact .inl
    · rintro (he | ⟨rfl, hnew⟩)
      · exact he
      · exact absurd (mem_map.2 ⟨e', he', of_decide_eq_true hm⟩) hnew
  · rename_i h
    have hnew : entry.member ∉ es.map (·.member) := fun hmem => by
      obtain ⟨e', he', hm⟩ := mem_map.1 hmem
      exact h (any_eq_true.2 ⟨e', he', decide_eq_true hm⟩)
    rw [mem_append, mem_singleton]
    constructor
    · rintro (he | rfl)
      · exact .inl he
      · exact .inr ⟨rfl, hnew⟩
    · rintro (he | ⟨rfl, _⟩)
      · exact .inl he
      · exact .inr rfl

theorem nodup_addEntry (h : (es.map (·.member)).Nodup) :
    ((addEntry entry es).map (·.member)).Nodup := by
  rw [map_member_addEntry]
  split
  · exact h
  · rename_i hnew
    exact h.append (nodup_singleton _) (disjoint_singleton.2 hnew)

theorem nodup_merge (h : (es.map (·.member)).Nodup) : ((merge es new).map (·.member)).Nodup := by
  induction new generalizing es with
  | nil => exact h
  | cons e new ih => exact ih (nodup_addEntry h)

theorem mem_merge (h : (new.map (·.member)).Nodup) :
    e ∈ merge es new ↔ e ∈ es ∨ e ∈ new ∧ e.member ∉ es.map (·.member) := by
  induction new generalizing es with
  | nil => simp [merge]
  | cons e' new ih =>
    rw [map_cons, nodup_cons] at h
    rw [merge_cons, ih h.2, mem_addEntry_iff, members_addEntry, mem_cons]
    constructor
    · rintro ((he | ⟨rfl, hnew⟩) | ⟨he, hnew⟩)
      · exact .inl he
      · exact .inr ⟨.inl rfl, hnew⟩
      · exact .inr ⟨.inr he, fun hmem => hnew (.inl hmem)⟩
    · rintro (he | ⟨rfl | he, hnew⟩)
      · exact .inl (.inl he)
      · exact .inl (.inr ⟨rfl, hnew⟩)
      · refine .inr ⟨he, ?_⟩
        rintro (hmem | hmem)
        · exact hnew hmem
        · exact h.1 (hmem ▸ mem_map_of_mem he)

theorem get_inherits :
    (new.foldl (fun t e => t.inherit name e) t).get n = if n = name then merge
      (t.get n) new else t.get n := by
  induction new generalizing t with
  | nil => simp [merge]
  | cons e new ih =>
    rw [foldl_cons, ih, get_inherit, merge_cons]
    split <;> rfl

theorem Tidy.inherits (h : t.Tidy) : (new.foldl (fun t e => t.inherit name e) t).Tidy :=
  List.foldlRecOn (motive := Tidy) _ _ h fun _ h _ _ => h.inherit

theorem Tidy.order_inherits {l : List NameId} (h : t.Tidy) (ht : t.order = l.eraseDups)
    (hnew : new ≠ []) :
    (new.foldl (fun t e => t.inherit name e) t).order = (l ++ [name]).eraseDups := by
  have hstep {t : MemberTable} {l : List NameId} {e : MemberEntry} (h : t.Tidy)
      (ht : t.order = l.eraseDups) : (t.inherit name e).order = (l ++ [name]).eraseDups := by
    rw [h.order_inherit, eraseDups_concat, ht]
    simp only [mem_eraseDups]
  have hrest {t : MemberTable} (new : List MemberEntry) (h : t.Tidy)
      (ht : t.order = (l ++ [name]).eraseDups) : (new.foldl (fun t e => t.inherit name e) t).order =
      (l ++ [name]).eraseDups := by
    induction new generalizing t with
    | nil => exact ht
    | cons e new ih =>
      apply ih h.inherit
      rw [hstep h ht, eraseDups_concat, if_pos (by simp)]
  cases new with
  | nil => exact absurd rfl hnew
  | cons e new => exact hrest new h.inherit (hstep h ht)

end MemberTable

def MemberEntry.over (inst : InstId) (e : MemberEntry) : MemberEntry :=
  { e with path := inst :: e.path }

namespace Program

open MemberTable

variable {p : Program} {own table base : MemberTable} {inst : InstId} {name n : NameId}
  {bases : List (InstId × ClassId)}

def inheritNames (own : MemberTable) (inst : InstId) (base : MemberTable) (names : List NameId)
    (table : MemberTable) : MemberTable :=
  names.foldl (fun table name => if own.contains name then table
    else ((base.get name).map (.over inst)).foldl (fun table e => table.inherit name e) table) table

theorem inheritFrom_eq :
    inheritFrom own table inst base = inheritNames own inst base base.order table := by
  rw [inheritFrom, inheritNames, MemberTable.rows, foldl_map]
  simp only [foldl_map]
  rfl

theorem tidy_inheritNames {names : List NameId} (h : table.Tidy) :
    (inheritNames own inst base names table).Tidy := by
  refine List.foldlRecOn (motive := Tidy) _ _ h fun t ht x _ => ?_
  split
  · exact ht
  · exact ht.inherits

theorem tidy_inheritFrom (h : table.Tidy) : (inheritFrom own table inst base).Tidy := by
  rw [inheritFrom_eq]
  exact tidy_inheritNames h

section Own

variable (hown : own.Tidy)
include hown

theorem get_inheritNames {names : List NameId} (h : names.Nodup) (table : MemberTable) :
    (inheritNames own inst base names table).get n = if n ∈ names ∧
      n ∉ own.order then merge (table.get n) ((base.get n).map (.over inst)) else table.get n := by
  induction names generalizing table with
  | nil => simp [inheritNames]
  | cons k names ih =>
    rw [nodup_cons] at h
    rw [inheritNames, foldl_cons, ← inheritNames, ih h.2]
    simp only [hown.contains_iff]
    by_cases hk : n = k
    · subst hk
      rw [if_neg fun hn => h.1 hn.1]
      by_cases hn : n ∈ own.order
      · rw [if_pos hn, if_neg fun h => h.2 hn]
      · rw [if_neg hn, get_inherits, if_pos rfl, if_pos ⟨mem_cons_self, hn⟩]
    · have hsame : (if k ∈ own.order then table else
          ((base.get k).map (MemberEntry.over inst)).foldl (fun table e => table.inherit k e)
          table).get n = table.get n := by
        split
        · rfl
        · rw [get_inherits, if_neg hk]
      simp only [hsame, mem_cons, hk, false_or]

theorem get_inheritFrom (h : base.Tidy) : (inheritFrom own table inst base).get n =
    if n ∈ own.order then table.get n else merge (table.get n) ((base.get n).map (.over inst)) := by
  rw [inheritFrom_eq, get_inheritNames hown h.nodup]
  by_cases hn : n ∈ own.order
  · rw [if_pos hn, if_neg fun h => h.2 hn]
  · rw [if_neg hn]
    by_cases hb : n ∈ base.order
    · rw [if_pos ⟨hb, hn⟩]
    · rw [if_neg fun h => hb h.1, h.get_of_not_mem hb]
      rfl

theorem order_inheritNames {names l : List NameId} (hbase : ∀ n ∈ names, base.get n ≠ [])
    (h : table.Tidy) (htable : table.order = l.eraseDups) (hsub : own.order ⊆ l) :
    (inheritNames own inst base names table).order = (l ++ names).eraseDups := by
  induction names generalizing table l with
  | nil => simpa [inheritNames] using htable
  | cons k names ih =>
    rw [forall_mem_cons] at hbase
    rw [inheritNames, foldl_cons, ← inheritNames, append_cons]
    refine ih hbase.2 ?_ ?_ fun a ha => mem_append_left _ (hsub ha)
    · split
      · exact h
      · exact h.inherits
    · split
      · rename_i hk
        rw [eraseDups_concat, if_pos (hsub (hown.contains_iff.1 hk)), htable]
      · exact h.order_inherits htable (by simpa using hbase.1)

theorem order_inheritFrom {l : List NameId} (hbase : base.Tidy) (h : table.Tidy)
    (htable : table.order = l.eraseDups) (hsub : own.order ⊆ l) :
    (inheritFrom own table inst base).order = (l ++ base.order).eraseDups := by
  rw [inheritFrom_eq]
  exact order_inheritNames hown (fun _ => hbase.mem_order_iff.1) h htable hsub

end Own

section Tables

variable (hown : own.Tidy) (h : ∀ x ∈ bases, (p.classes.get x.2).members.Tidy)
include hown h

theorem order_memberTable : (p.memberTable own bases).order =
    (own.order ++ bases.flatMap fun x => (p.classes.get x.2).members.order).eraseDups := by
  have hfold (table : MemberTable) (l : List NameId) (ht : table.Tidy)
      (htable : table.order = l.eraseDups) (hsub : own.order ⊆ l) :
      (bases.foldl (fun table x => inheritFrom own table x.1 (p.classes.get x.2).members)
        table).order = (l ++ bases.flatMap fun x =>
        (p.classes.get x.2).members.order).eraseDups := by
    induction bases generalizing table l with
    | nil => simp [htable]
    | cons x bases ih =>
      rw [forall_mem_cons] at h
      rw [foldl_cons, flatMap_cons, ← append_assoc]
      exact ih h.2 _ _ (tidy_inheritFrom ht) (order_inheritFrom hown h.1 ht htable hsub)
        fun a ha => mem_append_left _ (hsub ha)
  exact hfold own own.order hown (eraseDups_of_nodup hown.nodup).symm (Subset.refl _)

theorem get_memberTable : (p.memberTable own bases).get n = if n ∈ own.order then own.get n else
    bases.foldl (fun es x => merge es (((p.classes.get x.2).members.get n).map (.over x.1)))
      [] := by
  have hfold (table : MemberTable) :
      (bases.foldl (fun table x => inheritFrom own table x.1 (p.classes.get x.2).members) table).get
      n = if n ∈ own.order then table.get n else
        bases.foldl (fun es x => merge es (((p.classes.get x.2).members.get n).map (.over x.1)))
          (table.get n) := by
    induction bases generalizing table with
    | nil => simp
    | cons x bases ih =>
      rw [forall_mem_cons] at h
      rw [foldl_cons, ih h.2, get_inheritFrom hown h.1, foldl_cons]
      split <;> rfl
  refine (hfold own).trans ?_
  split
  · rfl
  · rename_i hn
    rw [hown.get_of_not_mem hn]

end Tables

theorem tidy_memberTable (h : own.Tidy) : (p.memberTable own bases).Tidy :=
  List.foldlRecOn (motive := Tidy) _ _ h fun _ ht _ _ => tidy_inheritFrom ht

section Merging

variable {α : Type} {g : α → List MemberEntry} {xs : List α} {es : List MemberEntry}
  {e : MemberEntry}

theorem members_foldl_merge {m : Member} :
    m ∈ (xs.foldl (fun es x => merge es (g x)) es).map (·.member) ↔ m ∈ es.map (·.member) ∨
      ∃ x ∈ xs, m ∈ (g x).map (·.member) := by
  induction xs generalizing es with
  | nil => simp
  | cons x xs ih => rw [foldl_cons, ih, members_merge, exists_mem_cons_iff, or_assoc]

theorem nodup_foldl_merge (h : (es.map (·.member)).Nodup) :
    ((xs.foldl (fun es x => merge es (g x)) es).map (·.member)).Nodup := by
  induction xs generalizing es with
  | nil => exact h
  | cons x xs ih => exact ih (nodup_merge h)

theorem mem_foldl_merge (h : ∀ x ∈ xs, ((g x).map (·.member)).Nodup) :
    e ∈ xs.foldl (fun es x => merge es (g x)) es ↔ e ∈ es ∨ e.member ∉ es.map (·.member) ∧
      ∃ l x l', xs = l ++ x :: l' ∧ e ∈ g x ∧ ∀ y ∈ l, e.member ∉ (g y).map (·.member) := by
  induction xs generalizing es with
  | nil => simp
  | cons x xs ih =>
    rw [forall_mem_cons] at h
    rw [foldl_cons, ih h.2, mem_merge h.1, members_merge]
    constructor
    · rintro ((he | ⟨he, hnew⟩) | ⟨hnew, l, y, l', rfl, he, hl⟩)
      · exact .inl he
      · exact .inr ⟨hnew, [], x, xs, rfl, he, nofun⟩
      · rw [not_or] at hnew
        exact .inr ⟨hnew.1, x :: l, y, l', rfl, he, forall_mem_cons.2 ⟨hnew.2, hl⟩⟩
    · rintro (he | ⟨hnew, l, y, l', heq, he, hl⟩)
      · exact .inl (.inl he)
      · cases l with
        | nil =>
          cases heq
          exact .inl (.inr ⟨he, hnew⟩)
        | cons z l =>
          cases heq
          rw [forall_mem_cons] at hl
          exact .inr ⟨not_or.2 ⟨hnew, hl.1⟩, l, y, l', rfl, he, hl.2⟩

end Merging

/-! ### Members by the way to their declarations -/

def Introduces (p : Program) (c : ClassId) (n : NameId) : Prop :=
  ∃ m, p.Owns c m ∧ p.memberName m = n

/-- The path of base instances from a class up to one that declares the member `m`, which has the
name `n`. No class on the way declares a member of that name. -/
inductive Shows (p : Program) (n : NameId) (m : Member) : ClassId → List InstId → Prop
  | own {c : ClassId} : p.Owns c m → p.memberName m = n → Shows p n m c []
  | base {c d : ClassId} {i : InstId} {path : List InstId} : ¬ p.Introduces c n →
      (i, d) ∈ p.basesOf c → Shows p n m d path →
      Shows p n m c (i :: path)

inductive Before (p : Program) : ClassId → List InstId → List InstId → Prop
  | here {c d e : ClassId} {i j : InstId} {path path' : List InstId} : [(i, d), (j, e)].Sublist
      (p.basesOf c) →
      Before p c (i :: path) (j :: path')
  | above {c d : ClassId} {i : InstId} {path path' : List InstId} : (i, d) ∈ p.basesOf c →
      Before p d path path' →
      Before p c (i :: path) (i :: path')

def ShowsFirst (p : Program) (n : NameId) (m : Member) (c : ClassId) (path : List InstId) : Prop :=
  p.Shows n m c path ∧ ∀ path', p.Shows n m c path' → path' = path ∨ p.Before c path path'

variable {c d : ClassId} {m : Member} {path : List InstId} {order : List ClassId}

theorem ownMembers_iff :
    (∃ loc, (n, m, loc) ∈ p.ownMembers (p.classes.get c)) ↔ p.Owns c m ∧ p.memberName m = n := by
  constructor
  · rintro ⟨loc, h⟩
    exact owns_of_ownMembers h
  · rintro ⟨howns, rfl⟩
    cases m with
    | field f => exact ⟨_, mem_append_left _ (mem_map.2 ⟨f, howns, rfl⟩)⟩
    | method f => exact ⟨_, mem_append_right _ (mem_map.2 ⟨f, howns, rfl⟩)⟩

theorem introduces_iff : p.Introduces c n ↔ n ∈ (p.ownMembers (p.classes.get c)).map Prod.fst := by
  simp only [Introduces, ← ownMembers_iff]
  constructor
  · rintro ⟨m, loc, h⟩
    exact mem_map_of_mem h
  · intro h
    obtain ⟨⟨_, m, loc⟩, hmem, rfl⟩ := mem_map.1 h
    exact ⟨m, loc, hmem⟩

theorem Shows.declared (h : p.Shows n m c path) :
    ∃ d, p.Path c path d ∧ p.Owns d m ∧ p.memberName m = n := by
  induction h with
  | @own c howns hname => exact ⟨c, .nil, howns, hname⟩
  | base _ hx _ ih =>
    obtain ⟨d, hpath, howns⟩ := ih
    exact ⟨d, .cons hx hpath, howns⟩

theorem shows_of_introduces (h : p.Introduces c n) :
    p.Shows n m c path ↔ path = [] ∧ p.Owns c m ∧ p.memberName m = n := by
  constructor
  · intro hs
    cases hs with
    | own howns hname => exact ⟨rfl, howns, hname⟩
    | base hnot _ _ => exact absurd h hnot
  · rintro ⟨rfl, howns, hname⟩
    exact .own howns hname

theorem shows_of_not_introduces (h : ¬ p.Introduces c n) :
    p.Shows n m c path ↔ ∃ x ∈ p.basesOf c, ∃ path', path = x.1 :: path' ∧
      p.Shows n m x.2 path' := by
  constructor
  · intro hs
    cases hs with
    | own howns hname => exact absurd ⟨m, howns, hname⟩ h
    | @base _ d i path' _ hx hs => exact ⟨(i, d), hx, path', rfl, hs⟩
  · rintro ⟨⟨i, d⟩, hx, path', rfl, hs⟩
    exact .base h hx hs

theorem eq_of_mem_basesOf {x y : InstId × ClassId} (hx : x ∈ p.basesOf c) (hy : y ∈ p.basesOf c)
    (h : x.1 = y.1) : x = y := by
  obtain ⟨b, _, hb⟩ := mem_filterMap.1 hx
  obtain ⟨b', _, hb'⟩ := mem_filterMap.1 hy
  have hd := (baseOf?_eq_some.1 hb).2
  rw [h, (baseOf?_eq_some.1 hb').2] at hd
  exact Prod.ext h (Target.cls.inj hd).symm

theorem mem_of_sublist_append {α : Type} {x y : α} {l r : List α} (h : [x, y].Sublist (l ++ r)) :
    x ∈ l ∨ y ∈ r := by
  obtain ⟨l1, l2, heq, h1, h2⟩ := sublist_append_iff.1 h
  cases l1 with
  | nil =>
    rw [nil_append] at heq
    exact .inr (h2.subset (heq ▸ by simp))
  | cons z l1 =>
    rw [cons_append] at heq
    exact .inl (h1.subset ((List.cons.inj heq).1 ▸ mem_cons_self))

theorem before_cons {i j : InstId} {path' : List InstId} :
    p.Before c (i :: path) (j :: path') ↔ (∃ d e, [(i, d), (j, e)].Sublist (p.basesOf c)) ∨ i = j ∧
      ∃ d, (i, d) ∈ p.basesOf c ∧ p.Before d path path' := by
  constructor
  · intro h
    cases h with
    | here hsub => exact .inl ⟨_, _, hsub⟩
    | above hx hbefore => exact .inr ⟨rfl, _, hx, hbefore⟩
  · rintro (⟨d, e, hsub⟩ | ⟨rfl, d, hx, hbefore⟩)
    · exact .here hsub
    · exact .above hx hbefore

section First

variable (h : ¬ p.Introduces c n) (hdistinct : ((p.basesOf c).map Prod.snd).Nodup)
  {l l' : List (InstId × ClassId)} {x : InstId × ClassId} (hsplit : p.basesOf c = l ++ x :: l')
include h hdistinct hsplit

theorem ShowsFirst.of_base (hs : p.ShowsFirst n m c (x.1 :: path)) :
    p.ShowsFirst n m x.2 path ∧ ∀ y ∈ l, ∀ path', ¬ p.Shows n m y.2 path' := by
  have hnodup : (l ++ x :: l').Nodup := hsplit ▸ hdistinct.of_map
  have hdisjoint := disjoint_of_nodup_append hnodup
  have hx : x ∈ p.basesOf c := by simp [hsplit]
  obtain ⟨hs, hfirst⟩ := hs
  obtain ⟨x', hx', path', hpath, hs⟩ := (shows_of_not_introduces h).1 hs
  obtain ⟨hfst, rfl⟩ := List.cons.inj hpath
  cases eq_of_mem_basesOf hx hx' hfst
  refine ⟨⟨hs, fun path' hs' => ?_⟩, fun y hy path' hs' => ?_⟩
  · rcases hfirst (x.1 :: path') (.base h hx hs') with heq | hbefore
    · exact .inl (List.cons.inj heq).2
    rcases before_cons.1 hbefore with ⟨d, e, hsub⟩ | ⟨_, d, hd, hbefore⟩
    · have hd := eq_of_mem_basesOf hx (hsub.subset mem_cons_self) rfl
      have he := eq_of_mem_basesOf hx (hsub.subset (mem_cons_of_mem _ mem_cons_self)) rfl
      rw [← hd, ← he, hsplit] at hsub
      exact absurd rfl (pairwise_iff_forall_sublist.1 hnodup hsub)
    · rw [eq_of_mem_basesOf hx hd rfl]
      exact .inr hbefore
  · have hy' : y ∈ p.basesOf c := by
      rw [hsplit]
      exact mem_append_left _ hy
    have hne : x.1 ≠ y.1 := fun he => hdisjoint hy (eq_of_mem_basesOf hx hy' he ▸ mem_cons_self)
    rcases hfirst (y.1 :: path') (.base h hy' hs') with heq | hbefore
    · exact hne (List.cons.inj heq).1.symm
    rcases before_cons.1 hbefore with ⟨d, e, hsub⟩ | ⟨heq, _⟩
    · have hd := eq_of_mem_basesOf hx (hsub.subset mem_cons_self) rfl
      have he := eq_of_mem_basesOf hy' (hsub.subset (mem_cons_of_mem _ mem_cons_self)) rfl
      rw [← hd, ← he, hsplit] at hsub
      rcases mem_of_sublist_append hsub with hmem | hmem
      · exact hdisjoint hmem mem_cons_self
      · exact hdisjoint hy hmem
    · exact hne heq

omit hdistinct in
theorem ShowsFirst.over_base (hs : p.ShowsFirst n m x.2 path)
    (hnone : ∀ y ∈ l, ∀ path', ¬ p.Shows n m y.2 path') : p.ShowsFirst n m c (x.1 :: path) := by
  have hx : x ∈ p.basesOf c := by simp [hsplit]
  obtain ⟨hs, hfirst⟩ := hs
  refine ⟨.base h hx hs, fun path' hs' => ?_⟩
  obtain ⟨y, hy, path', rfl, hbase⟩ := (shows_of_not_introduces h).1 hs'
  rw [hsplit] at hy
  rcases mem_append.1 hy with hy | hy
  · exact absurd hbase (hnone y hy path')
  rcases mem_cons.1 hy with rfl | hy
  · rcases hfirst path' hbase with rfl | hbefore
    · exact .inl rfl
    · exact .inr (.above hx hbefore)
  · refine .inr (.here (d := x.2) (e := y.2) ?_)
    rw [hsplit]
    exact .trans (.cons_cons x (singleton_sublist.2 hy)) (sublist_append_right l (x :: l'))

end First

structure Collects (p : Program) (c : ClassId) : Prop where
  tidy : (p.classes.get c).members.Tidy
  distinct : ∀ n, (((p.classes.get c).members.get n).map (·.member)).Nodup
  shown : ∀ n m, m ∈ ((p.classes.get c).members.get n).map (·.member) ↔ ∃ path, p.Shows n m c path
  first : ∀ n m path, ⟨m, path⟩ ∈ (p.classes.get c).members.get n ↔ p.ShowsFirst n m c path
  order : (p.classes.get c).members.order = ((p.ownMembers (p.classes.get c)).map Prod.fst ++
    (p.basesOf c).flatMap fun x => (p.classes.get x.2).members.order).eraseDups

def declared (p : Program) (c : ClassId) : MemberTable :=
  declaredTable (p.ownMembers (p.classes.get c))

section Flat

variable (h : p.Flat c)
include h

theorem Flat.members_eq :
    (p.classes.get c).members = p.memberTable (p.declared c) (p.basesOf c) := by
  obtain ⟨own, hown, hmembers⟩ := h.members
  obtain ⟨_, rfl⟩ := ownTable_eq_ok.1 hown
  exact hmembers

theorem Flat.tidy_declared : (p.declared c).Tidy where
  nodup := h.names
  keys := map_map ..
  entry x hx := by
    obtain ⟨y, _, rfl⟩ := mem_map.1 hx
    simp

theorem Flat.get_declared (hm : p.Owns c m) : (p.declared c).get (p.memberName m) = [⟨m, []⟩] := by
  obtain ⟨loc, hmem⟩ := ownMembers_iff.2 ⟨hm, rfl⟩
  exact h.tidy_declared.get_of_mem (mem_map.2 ⟨_, hmem, rfl⟩)

theorem Flat.eq_of_owns {m' : Member} (hm : p.Owns c m) (hm' : p.Owns c m')
    (he : p.memberName m' = p.memberName m) : m' = m := by
  have hget := h.get_declared hm'
  rw [he, h.get_declared hm] at hget
  cases hget
  rfl

variable (hbases : ∀ x ∈ p.basesOf c, p.Collects x.2)
include hbases

theorem Flat.get_members :
    (p.classes.get c).members.get n = if n ∈ (p.declared c).order then (p.declared c).get n else
    (p.basesOf c).foldl (fun es x => merge es (((p.classes.get x.2).members.get n).map (.over x.1)))
      [] := by
  rw [h.members_eq, get_memberTable h.tidy_declared fun x hx => (hbases x hx).tidy]

theorem Flat.get_of_owns (hm : p.Owns c m) :
    (p.classes.get c).members.get (p.memberName m) = [⟨m, []⟩] := by
  rw [h.get_members hbases, if_pos, h.get_declared hm]
  exact introduces_iff.1 ⟨m, hm, rfl⟩

theorem Flat.get_of_not_introduces (hn : ¬ p.Introduces c n) :
    (p.classes.get c).members.get n = (p.basesOf c).foldl
      (fun es x => merge es (((p.classes.get x.2).members.get n).map (.over x.1))) [] := by
  rw [h.get_members hbases]
  exact if_neg (mt introduces_iff.2 hn)

omit h hbases in
theorem members_over (x : InstId × ClassId) :
    (((p.classes.get x.2).members.get n).map (MemberEntry.over x.1)).map (·.member) =
      ((p.classes.get x.2).members.get n).map (·.member) := by
  rw [map_map]
  rfl

theorem Flat.distinct_members : (((p.classes.get c).members.get n).map (·.member)).Nodup := by
  by_cases hn : p.Introduces c n
  · obtain ⟨m, hm, rfl⟩ := hn
    rw [h.get_of_owns hbases hm]
    exact nodup_singleton m
  · rw [h.get_of_not_introduces hbases hn]
    exact nodup_foldl_merge .nil

theorem Flat.shows_iff :
    m ∈ ((p.classes.get c).members.get n).map (·.member) ↔ ∃ path, p.Shows n m c path := by
  by_cases hn : p.Introduces c n
  · obtain ⟨m', hm', rfl⟩ := id hn
    rw [h.get_of_owns hbases hm', map_singleton, mem_singleton]
    constructor
    · rintro rfl
      exact ⟨[], .own hm' rfl⟩
    · rintro ⟨path, hs⟩
      obtain ⟨_, hm, hname⟩ := (shows_of_introduces hn).1 hs
      exact h.eq_of_owns hm' hm hname
  · rw [h.get_of_not_introduces hbases hn, members_foldl_merge]
    simp only [not_mem_nil, map_nil, false_or, members_over]
    constructor
    · rintro ⟨x, hx, hmem⟩
      obtain ⟨path, hs⟩ := ((hbases x hx).shown n m).1 hmem
      exact ⟨x.1 :: path, .base hn hx hs⟩
    · rintro ⟨path, hs⟩
      obtain ⟨x, hx, path', _, hs'⟩ := (shows_of_not_introduces hn).1 hs
      exact ⟨x, hx, ((hbases x hx).shown n m).2 ⟨path', hs'⟩⟩

theorem Flat.showsFirst_iff :
    ⟨m, path⟩ ∈ (p.classes.get c).members.get n ↔ p.ShowsFirst n m c path := by
  by_cases hn : p.Introduces c n
  · obtain ⟨m', hm', rfl⟩ := id hn
    rw [h.get_of_owns hbases hm', mem_singleton, ShowsFirst, shows_of_introduces hn]
    constructor
    · rintro ⟨⟩
      exact ⟨⟨rfl, hm', rfl⟩, fun path' hs => .inl ((shows_of_introduces hn).1 hs).1⟩
    · rintro ⟨⟨rfl, hm, hname⟩, _⟩
      rw [h.eq_of_owns hm' hm hname]
  · rw [h.get_of_not_introduces hbases hn, mem_foldl_merge fun x hx =>
      members_over x ▸ (hbases x hx).distinct n]
    simp only [not_mem_nil, map_nil, not_false_eq_true, true_and, false_or, members_over]
    constructor
    · rintro ⟨l, x, l', hsplit, he, hnone⟩
      have hx : x ∈ p.basesOf c := by simp [hsplit]
      obtain ⟨⟨m, path⟩, he', heq⟩ := mem_map.1 he
      cases heq
      apply ShowsFirst.over_base hn hsplit (((hbases x hx).first n m path).1 he')
      intro y hy path' hs
      exact hnone y hy (((hbases y (by simp [hsplit, hy])).shown n m).2 ⟨path', hs⟩)
    · intro hs
      obtain ⟨x, hx, path', rfl, _⟩ := (shows_of_not_introduces hn).1 hs.1
      obtain ⟨l, l', hsplit⟩ := append_of_mem hx
      obtain ⟨hs, hnone⟩ := hs.of_base hn h.distinct hsplit
      refine ⟨l, x, l', hsplit, mem_map.2 ⟨_, ((hbases x hx).first n m path').2 hs, rfl⟩,
        fun y hy hmem => ?_⟩
      obtain ⟨path'', hs'⟩ := ((hbases y (by simp [hsplit, hy])).shown n m).1 hmem
      exact hnone y hy path'' hs'

theorem Flat.collects : p.Collects c where
  tidy := by
    rw [h.members_eq]
    exact tidy_memberTable h.tidy_declared
  distinct _ := h.distinct_members hbases
  shown _ _ := h.shows_iff hbases
  first _ _ _ := h.showsFirst_iff hbases
  order := by
    rw [h.members_eq, order_memberTable h.tidy_declared fun x hx => (hbases x hx).tidy]
    rfl

end Flat

theorem Laid.collects (h : p.Laid order) (hc : c ∈ order) : p.Collects c := by
  induction order generalizing c with
  | nil => cases hc
  | cons d order ih =>
    obtain ⟨_, hflat, hbases, hrest⟩ := h
    rcases mem_cons.1 hc with rfl | hc
    · exact hflat.collects fun x hx => ih hrest (hbases x hx)
    · exact ih hrest hc

/-- The table of a flattened class lists the members that it declares or inherits, each one once and
by the first path to its declaration that no other member of that name is in the way of. -/
theorem flatten_tables (hp : Flattening p) (hi : p.Interned) {ids : List ClassId}
    (hids : ∀ c ∈ ids, p.classes.Valid c) :
    let q := (p.flatten ids).program
    ∀ c, (q.classes.get c).flattened = true →
      let table := (q.classes.get c).members
      (∀ n m, (∃ path, ⟨m, path⟩ ∈ table.get n) ↔ ∃ path, q.Shows n m c path) ∧
      (∀ n m path, ⟨m, path⟩ ∈ table.get n → q.Shows n m c path ∧
        (∀ path', q.Shows n m c path' → path' = path ∨ q.Before c path path') ∧
        (path = [] ↔ q.Owns c m)) ∧
      (∀ n, ((table.get n).map (·.member)).Nodup) ∧
      (∀ x ∈ table.entries, x.2 = table.get x.1 ∧ x.2 ≠ []) ∧ table.order.Nodup ∧
      table.entries.map Prod.fst = table.order ∧
      table.order = ((q.classes.get c).fields.map (fun f => (q.vars.get f).name) ++
        (q.classes.get c).methods.map (fun m => (q.methods.get m).name) ++
        (q.basesOf c).flatMap fun x => (q.classes.get x.2).members.order).eraseDups := by
  intro q c hc table
  obtain ⟨order, hlaid, horder⟩ := (flatten_flattens hp.layered hi hids).layered
  have htable := hlaid.collects ((horder c).1 hc)
  refine ⟨fun n m => ?_, fun n m path he => ?_, htable.distinct, fun x hx => ?_, htable.tidy.nodup,
    htable.tidy.keys, ?_⟩
  · rw [← htable.shown, List.mem_map]
    constructor
    · rintro ⟨path, he⟩
      exact ⟨_, he, rfl⟩
    · rintro ⟨⟨_, path⟩, he, rfl⟩
      exact ⟨path, he⟩
  · obtain ⟨hs, hfirst⟩ := (htable.first n m path).1 he
    refine ⟨hs, hfirst, ?_⟩
    constructor
    · rintro rfl
      cases hs with
      | own howns _ => exact howns
    · intro howns
      cases hs with
      | own _ _ => rfl
      | base hnot _ hs =>
        obtain ⟨_, _, _, hname⟩ := hs.declared
        exact absurd ⟨m, howns, hname⟩ hnot
  · exact ⟨(htable.tidy.get_of_mem hx).symm, htable.tidy.entry x hx⟩
  · rw [htable.order, ownMembers, List.map_append, List.map_map, List.map_map]
    rfl

theorem flatten_tables_diamond :
    let q := (diamond.flatten diamond.classes.ids).program
    (q.classes.get ⟨3⟩).members.get ⟨2⟩ = [⟨.method ⟨0⟩, [⟨1⟩, ⟨0⟩]⟩] ∧
    q.Shows ⟨2⟩ (.method ⟨0⟩) ⟨3⟩ [⟨1⟩, ⟨0⟩] ∧
    ∀ path, q.Shows ⟨2⟩ (.method ⟨0⟩) ⟨3⟩ path →
      path = [⟨1⟩, ⟨0⟩] ∨ q.Before ⟨3⟩ [⟨1⟩, ⟨0⟩] path := by
  obtain ⟨hi, hnew, hids, _, hflat, _, hget⟩ := diamond_flattens
  generalize diamond = p at hi hnew hids hflat hget ⊢
  obtain ⟨_, hentry, _⟩ := flatten_tables (.fresh hnew) hi (fun c => Arena.mem_ids.1) ⟨3⟩ hflat
  obtain ⟨hshows, hfirst, _⟩ := hentry ⟨2⟩ (.method ⟨0⟩) [⟨1⟩, ⟨0⟩] (hget ▸ List.mem_cons_self)
  exact ⟨hget, hshows, hfirst⟩

end Program

end ClassLang
