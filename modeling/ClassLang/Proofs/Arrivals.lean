import ClassLang.Member
import ClassLang.Proofs.Assoc
import Mathlib.Data.List.Induction

/-!
A table of members is what has arrived in it since it was last cleared, with repetitions left out:
names in order of arrival, and under each name the first arrival of each member.
-/

namespace ClassLang

open List

section EraseDups

variable {α : Type} [DecidableEq α] {l : List α} {a : α}

theorem eraseDups_concat (l : List α) (a : α) :
    (l ++ [a]).eraseDups = if a ∈ l then l.eraseDups else l.eraseDups ++ [a] := by
  rw [eraseDups_append]
  by_cases ha : a ∈ l
  · simp [removeAll, ha]
  · simp [removeAll, ha, eraseDups_cons]

theorem nodup_eraseDups (l : List α) : l.eraseDups.Nodup := by
  induction l using List.reverseRecOn with
  | nil => exact nodup_nil
  | append_singleton l a ih =>
    rw [eraseDups_concat]
    split
    · exact ih
    · rename_i ha
      exact ih.append (nodup_singleton a) (disjoint_singleton.2 (mt mem_eraseDups.1 ha))

theorem eraseDups_of_nodup (h : l.Nodup) : l.eraseDups = l := by
  induction l using List.reverseRecOn with
  | nil => rfl
  | append_singleton l a ih =>
    rw [eraseDups_concat, if_neg fun ha => disjoint_of_nodup_append h ha (mem_singleton_self a),
      ih h.of_append_left]

end EraseDups

namespace MemberTable

variable {t : MemberTable} {name n : NameId} {member : Member} {entry e : MemberEntry}
  {es new : List MemberEntry} {l : List (NameId × MemberEntry)}

theorem map_member_addEntry (es : List MemberEntry) (e : MemberEntry) :
    (addEntry e es).map (·.member) = if e.member ∈ es.map (·.member) then es.map (·.member)
      else es.map (·.member) ++ [e.member] := by
  by_cases he : e.member ∈ es.map (·.member)
  · have hany : es.any (·.member = e.member) = true := by simpa [any_eq_true] using he
    rw [addEntry, if_pos hany, if_pos he]
  · have hany : ¬ es.any (·.member = e.member) = true := by simpa [any_eq_true] using he
    rw [addEntry, if_neg hany, if_neg he, map_append]
    rfl

theorem addEntry_ne_nil : addEntry entry es ≠ [] := by
  unfold addEntry
  split
  · rename_i hany
    rintro rfl
    cases hany
  · simp

structure Tidy (t : MemberTable) : Prop where
  nodup : t.order.Nodup
  keys : t.entries.map Prod.fst = t.order
  entry : ∀ x ∈ t.entries, x.2 ≠ []

theorem tidy_empty : Tidy {} := ⟨.nil, rfl, nofun⟩

theorem get_inherit :
    (t.inherit name entry).get n = if n = name then addEntry entry (t.get n) else t.get n := by
  rw [get, inherit, Assoc.lookup_put]
  split
  · rename_i hn
    rw [hn, Option.getD_some]
  · rfl

section Tidy

variable (h : t.Tidy)
include h

theorem Tidy.contains_iff : t.contains n = true ↔ n ∈ t.order := by
  rw [← h.keys, contains, lookup_isSome_iff]
  simp

theorem Tidy.mem_order_iff : n ∈ t.order ↔ t.get n ≠ [] := by
  rw [← h.contains_iff, contains, get]
  cases hn : t.entries.lookup n with
  | none => simp
  | some es =>
    obtain ⟨l₁, l₂, hsplit, _⟩ := lookup_eq_some_iff.1 hn
    have hne := h.entry (n, es) (by simp [hsplit])
    simpa using hne

theorem Tidy.order_inherit :
    (t.inherit name entry).order = if name ∈ t.order then t.order else t.order ++ [name] := by
  simp only [inherit, h.contains_iff]

theorem Tidy.inherit : (t.inherit name entry).Tidy where
  nodup := by
    rw [h.order_inherit]
    split
    · exact h.nodup
    · rename_i hname
      exact h.nodup.append (nodup_singleton name) (disjoint_singleton.2 hname)
  keys := by
    rw [h.order_inherit, MemberTable.inherit, Assoc.map_fst_put, h.keys]
  entry := by
    rintro ⟨n, es⟩ hx
    rcases Assoc.mem_put hx with ⟨_, he⟩ | hx
    · rw [he]
      exact addEntry_ne_nil
    · exact h.entry _ hx

theorem Tidy.insertOwn_of_mem (hname : name ∈ t.order) : t.insertOwn name member = (false, t) :=
  if_pos (h.contains_iff.2 hname)

/-- Members that a class declares arrive like others, under names that are free. -/
theorem Tidy.insertOwn_of_not_mem (hname : name ∉ t.order) :
    t.insertOwn name member = (true, t.inherit name ⟨member, []⟩) := by
  have hget : t.get name = [] := not_not.1 (mt h.mem_order_iff.2 hname)
  have hcontains : ¬ t.contains name = true := mt h.contains_iff.1 hname
  rw [insertOwn, if_neg hcontains, MemberTable.inherit, if_neg hcontains, hget]
  rfl

end Tidy

inductive Op
  | insertOwn (name : NameId) (member : Member)
  | inherit (name : NameId) (entry : MemberEntry)
  | clear

def step (t : MemberTable) : Op → MemberTable
  | .insertOwn name member => (t.insertOwn name member).2
  | .inherit name entry => t.inherit name entry
  | .clear => t.clear

def run (ops : List Op) : MemberTable := ops.foldl step {}

/-- What has arrived after an operation, if `l` had before it. A member that is declared under a
name which is taken does not arrive. -/
def arrive (l : List (NameId × MemberEntry)) : Op → List (NameId × MemberEntry)
  | .insertOwn name member => if name ∈ l.map Prod.fst then l else l ++ [(name, ⟨member, []⟩)]
  | .inherit name entry => l ++ [(name, entry)]
  | .clear => []

def arrived (ops : List Op) : List (NameId × MemberEntry) := ops.foldl arrive []

def arrivals (name : NameId) (l : List (NameId × MemberEntry)) : List MemberEntry :=
  (l.filter (·.1 = name)).map Prod.snd

def firsts (es : List MemberEntry) : List MemberEntry := es.foldl (fun acc e => addEntry e acc) []

theorem firsts_concat (es : List MemberEntry) (e : MemberEntry) :
    firsts (es ++ [e]) = addEntry e (firsts es) := by
  simp [firsts, foldl_append]

theorem map_member_firsts (es : List MemberEntry) :
    (firsts es).map (·.member) = (es.map (·.member)).eraseDups := by
  induction es using List.reverseRecOn with
  | nil => simp [firsts]
  | append_singleton es e ih =>
    rw [firsts_concat, map_member_addEntry, ih, map_append, map_singleton, eraseDups_concat]
    simp

/-- An entry keeps the path that its member arrived with first. -/
theorem find?_of_mem_firsts (he : e ∈ firsts es) : es.find? (·.member = e.member) = some e := by
  induction es using List.reverseRecOn with
  | nil => cases he
  | append_singleton es e' ih =>
    rw [firsts_concat, addEntry] at he
    rw [find?_append]
    split at he
    · rw [ih he]
      rfl
    · rename_i hany
      rcases mem_append.1 he with he | he
      · rw [ih he]
        rfl
      · cases mem_singleton.1 he
        have hnone : es.find? (·.member = e.member) = none := by
          refine find?_eq_none.2 fun x hx hxe => hany ?_
          have hmem : x.member ∈ (firsts es).map (·.member) := by
            rw [map_member_firsts, mem_eraseDups]
            exact mem_map_of_mem hx
          obtain ⟨y, hy, hyx⟩ := mem_map.1 hmem
          exact any_eq_true.2 ⟨y, hy, by simpa [hyx] using hxe⟩
        simp [hnone]

theorem arrivals_concat (name : NameId) (l : List (NameId × MemberEntry))
    (x : NameId × MemberEntry) :
    arrivals name (l ++ [x]) = if x.1 = name then arrivals name l ++ [x.2]
      else arrivals name l := by
  by_cases hx : x.1 = name <;> simp [arrivals, hx]

structure Holds (t : MemberTable) (l : List (NameId × MemberEntry)) : Prop extends t.Tidy where
  order : t.order = (l.map Prod.fst).eraseDups
  get : ∀ name, t.get name = firsts (arrivals name l)

theorem Holds.inherit (h : t.Holds l) : (t.inherit name entry).Holds (l ++ [(name, entry)]) where
  toTidy := h.toTidy.inherit
  order := by
    rw [h.toTidy.order_inherit, h.order, map_append, map_singleton, eraseDups_concat]
    simp only [mem_eraseDups]
  get n := by
    rw [get_inherit, arrivals_concat, h.get]
    by_cases hn : n = name
    · rw [if_pos hn, if_pos hn.symm, firsts_concat]
    · rw [if_neg hn, if_neg (Ne.symm hn)]

theorem Holds.step (h : t.Holds l) (op : Op) : (t.step op).Holds (arrive l op) := by
  cases op with
  | inherit name entry => exact h.inherit
  | clear => exact ⟨tidy_empty, rfl, fun _ => rfl⟩
  | insertOwn name member =>
    have hmem : name ∈ t.order ↔ name ∈ l.map Prod.fst := by rw [h.order, mem_eraseDups]
    by_cases hname : name ∈ t.order
    · rw [MemberTable.step, h.toTidy.insertOwn_of_mem hname, arrive, if_pos (hmem.1 hname)]
      exact h
    · rw [MemberTable.step, h.toTidy.insertOwn_of_not_mem hname, arrive, if_neg (mt hmem.2 hname)]
      exact h.inherit

theorem run_holds (ops : List Op) : (run ops).Holds (arrived ops) := by
  induction ops using List.reverseRecOn with
  | nil => exact ⟨tidy_empty, rfl, fun _ => rfl⟩
  | append_singleton ops op ih =>
    rw [run, arrived, foldl_append, foldl_append]
    exact ih.step op

theorem lookup_cases (t : MemberTable) (name : NameId) : (t.lookup name = .none ↔ t.get name = []) ∧
    (∀ e, t.lookup name = .one e ↔ t.get name = [e]) ∧
    (t.lookup name = .many (t.get name) ↔ 2 ≤ (t.get name).length) := by
  unfold lookup
  match t.get name with
  | [] => simp
  | [x] => simp
  | x :: y :: xs => simp

/-- What a table of members holds after any operations on it: the names in `order` are those that
have entries, and both are what has arrived since it was last cleared. -/
theorem order_entries_agree (ops : List Op) :
    let t := run ops
    let names := ((arrived ops).map Prod.fst).eraseDups
    let members name := ((arrivals name (arrived ops)).map (·.member)).eraseDups
    (t.order = names ∧ names.Nodup) ∧
    (∀ name, (name ∈ t.order ↔ t.contains name = true) ∧ (name ∈ t.order ↔ t.get name ≠ [])) ∧
    (∀ name, (t.get name).map (·.member) = members name ∧ (members name).Nodup ∧
      ∀ e ∈ t.get name, (arrivals name (arrived ops)).find? (·.member = e.member) = some e) ∧
    (∀ name, (t.lookup name = .none ↔ (members name).length = 0) ∧
      ((∃ e, t.lookup name = .one e ∧ t.get name = [e]) ↔ (members name).length = 1) ∧
      (t.lookup name = .many (t.get name) ↔ 2 ≤ (members name).length)) ∧
    ∀ name member, ((t.insertOwn name member).1 = false ↔ name ∈ t.order) ∧
      (name ∈ t.order → t.insertOwn name member = (false, t)) := by
  intro t names members
  have h : t.Holds (arrived ops) := run_holds ops
  have hmembers (name : NameId) : (t.get name).map (·.member) = members name := by
    rw [h.get, map_member_firsts]
  have hlength (name : NameId) : (t.get name).length = (members name).length := by
    rw [← hmembers, length_map]
  refine ⟨⟨h.order, nodup_eraseDups _⟩, fun name =>
    ⟨h.toTidy.contains_iff.symm, h.toTidy.mem_order_iff⟩, fun name =>
    ⟨hmembers name, nodup_eraseDups _, fun e he => ?_⟩, fun name => ?_, fun name member =>
    ⟨⟨fun hno => ?_, fun hname => ?_⟩, h.toTidy.insertOwn_of_mem⟩⟩
  · rw [h.get] at he
    exact find?_of_mem_firsts he
  · obtain ⟨hnone, hone, hmany⟩ := lookup_cases t name
    rw [← hlength, hnone, length_eq_zero_iff, length_eq_one_iff, hmany]
    simp only [hone, and_self]
  · by_contra hname
    rw [h.toTidy.insertOwn_of_not_mem hname] at hno
    cases hno
  · rw [h.toTidy.insertOwn_of_mem hname]

end MemberTable

end ClassLang
