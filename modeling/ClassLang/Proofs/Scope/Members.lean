import ClassLang.Proofs.Scope.Flatten

namespace ClassLang

open List

namespace MemberTable

variable {t : MemberTable} {name n : NameId} {entry e : MemberEntry}

theorem mem_of_lookup (h : t.lookup name = .one e) : e ∈ t.get name :=
  ((t.lookup_cases name).2.1 e).1 h ▸ mem_singleton_self e

theorem mem_of_inherit (h : e ∈ (t.inherit name entry).get n) :
    (n = name ∧ e = entry) ∨ e ∈ t.get n := by
  rw [get_inherit] at h
  split at h
  · rename_i hn
    unfold addEntry at h
    split at h
    · exact .inr h
    · exact (mem_append.1 h).symm.imp_left fun he => ⟨hn, mem_singleton.1 he⟩
  · exact .inr h

end MemberTable

namespace Program

variable {p : Program} {c d : ClassId} {name : NameId} {e : MemberEntry} {own : MemberTable}
  {order : List ClassId}

theorem mem_of_inheritFrom {table base : MemberTable} {inst : InstId}
    (h : e ∈ (inheritFrom own table inst base).get name) :
    e ∈ table.get name ∨ ∃ e' ∈ base.get name, e = { e' with path := inst :: e'.path } := by
  unfold inheritFrom at h
  refine List.foldlRecOn (motive := fun t : MemberTable => e ∈ t.get name → e ∈ table.get name ∨
    ∃ e' ∈ base.get name, e = { e' with path := inst :: e'.path }) _ _ .inl
    (fun t ht (n, es) hes h => ?_) h
  obtain ⟨k, _, heq⟩ := mem_map.1 hes
  cases heq
  dsimp only at h
  split at h
  · exact ht h
  · refine List.foldlRecOn (motive := fun t : MemberTable => e ∈ t.get name → e ∈ table.get name ∨
      ∃ e' ∈ base.get name, e = { e' with path := inst :: e'.path }) _ _ ht
      (fun t ht e' he' h => ?_) h
    rcases MemberTable.mem_of_inherit h with ⟨rfl, rfl⟩ | h
    · exact .inr ⟨e', he', rfl⟩
    · exact ht h

theorem mem_of_memberTable {bases : List (InstId × ClassId)}
    (h : e ∈ (p.memberTable own bases).get name) :
    e ∈ own.get name ∨ ∃ x ∈ bases, ∃ e' ∈ (p.classes.get x.2).members.get name,
      e = { e' with path := x.1 :: e'.path } := by
  unfold memberTable at h
  refine List.foldlRecOn (motive := fun t : MemberTable => e ∈ t.get name → e ∈ own.get name ∨
    ∃ x ∈ bases, ∃ e' ∈ (p.classes.get x.2).members.get name,
    e = { e' with path := x.1 :: e'.path }) _ _ .inl (fun t ht (inst, base) hx h => ?_) h
  rcases mem_of_inheritFrom h with h | ⟨e', he', rfl⟩
  · exact ht h
  · exact .inr ⟨(inst, base), hx, e', he', rfl⟩

theorem mem_of_ownTable {members : List (NameId × Member × Location)}
    (h : ownTable members = .ok own) (he : e ∈ own.get name) :
    ∃ loc, (name, e.member, loc) ∈ members ∧ e.path = [] := by
  obtain ⟨_, rfl⟩ := ownTable_eq_ok.1 h
  unfold MemberTable.get at he
  cases hes : (declaredTable members).entries.lookup name with
  | none =>
    rw [hes] at he
    cases he
  | some es =>
    rw [hes] at he
    obtain ⟨l₁, l₂, hsplit, _⟩ := lookup_eq_some_iff.1 hes
    have hrow : (name, es) ∈ (declaredTable members).entries :=
      hsplit ▸ mem_append_right _ mem_cons_self
    obtain ⟨⟨n, member, loc⟩, hmem, heq⟩ := mem_map.1 hrow
    cases heq
    cases mem_singleton.1 he
    exact ⟨loc, hmem, rfl⟩

def memberName (p : Program) : Member → NameId
  | .field f => (p.vars.get f).name
  | .method m => (p.methods.get m).name

def Keyed (p : Program) : Prop :=
  ∀ c name, ∀ entry ∈ (p.classes.get c).members.get name, p.memberName entry.member = name

inductive Path (p : Program) : ClassId → List InstId → ClassId → Prop
  | nil {c : ClassId} : Path p c [] c
  | cons {c d e : ClassId} {i : InstId} {path : List InstId} : (i, d) ∈ p.basesOf c →
      Path p d path e → Path p c (i :: path) e

def Owns (p : Program) (c : ClassId) : Member → Prop
  | .field f => f ∈ (p.classes.get c).fields
  | .method m => m ∈ (p.classes.get c).methods

theorem owns_of_ownMembers {member : Member} {loc : Location}
    (h : (name, member, loc) ∈ p.ownMembers (p.classes.get c)) :
    p.Owns c member ∧ p.memberName member = name := by
  rcases mem_append.1 h with h | h
  · obtain ⟨f, hf, he⟩ := mem_map.1 h
    cases he
    exact ⟨hf, rfl⟩
  · obtain ⟨m, hm, he⟩ := mem_map.1 h
    cases he
    exact ⟨hm, rfl⟩

/-- A member is found on the way to the class that declares it; the induction is along the order. -/
theorem Laid.path (h : p.Laid order) (hc : c ∈ order)
    (he : e ∈ (p.classes.get c).members.get name) :
    ∃ d, p.Path c e.path d ∧ p.Owns d e.member ∧ p.memberName e.member = name := by
  induction order generalizing c e with
  | nil => cases hc
  | cons b order ih =>
    obtain ⟨_, hflat, hbases, hrest⟩ := h
    rcases mem_cons.1 hc with rfl | hc
    · obtain ⟨own, hown, hmembers⟩ := hflat.members
      rw [hmembers] at he
      rcases mem_of_memberTable he with he | ⟨⟨i, d⟩, hx, e', he', rfl⟩
      · obtain ⟨loc, hmem, hpath⟩ := mem_of_ownTable hown he
        rw [hpath]
        exact ⟨_, .nil, owns_of_ownMembers hmem⟩
      · obtain ⟨d', hpath, howns⟩ := ih hrest (hbases _ hx) he'
        exact ⟨d', .cons hx hpath, howns⟩
    · exact ih hrest hc he

end Program

end ClassLang
