import ClassLang.Program.Load
import ClassLang.Proofs.Arena
import ClassLang.Scope.Resolve
import Mathlib.Data.List.Nodup

/-!
Imports can make an unqualified name ambiguous, but they never change what it means.
-/

namespace ClassLang

open Arena List

namespace Program

def Exports (p : Program) (segment : String) (scope : NameId) (g : Global) : Prop :=
  ∃ name, p.names.peek (some scope) segment = some name ∧ p.globals.lookup name = some g

def reimport (p : Program) (m : ModuleId) (imports : List Import) : Program :=
  p.modifyModule m fun d => { d with imports }

end Program

theorem Binding.ofGlobal_injective : Function.Injective Binding.ofGlobal := by
  intro g g' h
  cases g <;> cases g' <;> cases h <;> rfl

namespace Scope

variable {s : Scope} {p : Program} {name : NameId} {segment : String} {g : Global} {b : Binding}
  {imports : List Import}

def searched (s : Scope) (p : Program) : List NameId :=
  (p.modules.get s.module).name :: (p.modules.get s.module).imports.map Import.name

def Sees (s : Scope) (p : Program) (segment : String) (g : Global) : Prop :=
  ∃ m ∈ s.searched p, p.Exports segment m g

section Visible

/-- One more module is looked into. -/
theorem mem_visible_step (p : Program) (segment : String) (m : NameId)
    {found : List (NameId × Global)} (hnodup : (found.map Prod.snd).Nodup) :
    let found' :=
      match (p.names.peek (some m) segment).bind fun q => (p.globals.lookup q).map (q, ·) with
      | some (q, g) => if found.any (·.2 = g) then found else found ++ [(q, g)]
      | none => found
    (found'.map Prod.snd).Nodup ∧ ∀ g, g ∈ found'.map Prod.snd ↔ g ∈ found.map Prod.snd ∨
      p.Exports segment m g := by
  intro found'
  have hexports (g : Global) : p.Exports segment m g ↔
      ∃ q, ((p.names.peek (some m) segment).bind fun q => (p.globals.lookup q).map (q, ·)) = some
      (q, g) := by
    simp only [Program.Exports, Option.bind_eq_some_iff, Option.map_eq_some_iff, Prod.mk.injEq]
    constructor
    · rintro ⟨q, hq, hg⟩
      exact ⟨q, q, hq, g, hg, rfl, rfl⟩
    · rintro ⟨_, q, hq, _, hg, _, rfl⟩
      exact ⟨q, hq, hg⟩
  simp only [hexports, found']
  cases (p.names.peek (some m) segment).bind fun q => (p.globals.lookup q).map (q, ·) with
  | none => simp [hnodup]
  | some x =>
    obtain ⟨q, g⟩ := x
    by_cases hmem : g ∈ found.map Prod.snd
    · have hany : found.any (·.2 = g) = true := by simpa using hmem
      simp only [hany, if_true]
      refine ⟨hnodup, fun g' => ⟨.inl, ?_⟩⟩
      rintro (h | ⟨_, h⟩)
      · exact h
      · cases h
        exact hmem
    · have hany : found.any (·.2 = g) = false := by
        refine Bool.eq_false_iff.2 fun hany => hmem ?_
        simpa using hany
      simp only [hany, Bool.false_eq_true, if_false, map_append, map_cons, map_nil, mem_append,
        mem_singleton]
      refine ⟨nodup_append_comm.1 (nodup_cons.2 ⟨hmem, hnodup⟩), fun g' => or_congr_right ⟨?_, ?_⟩⟩
      · rintro rfl
        exact ⟨q, rfl⟩
      · rintro ⟨_, h⟩
        cases h
        rfl

/-- What is found are the globals that are seen, each of them once. -/
theorem visibleGlobals_spec (s : Scope) (p : Program) (segment : String) :
    ((s.visibleGlobals p segment).map Prod.snd).Nodup ∧
      ∀ g, g ∈ (s.visibleGlobals p segment).map Prod.snd ↔ s.Sees p segment g := by
  have hfrom (scopes : List NameId) (found : List (NameId × Global))
      (hnodup : (found.map Prod.snd).Nodup) :
      let all := scopes.foldl (fun found scope =>
        match (p.names.peek (some scope) segment).bind fun q =>
            (p.globals.lookup q).map (q, ·) with
        | some (q, g) => if found.any (·.2 = g) then found else found ++ [(q, g)]
        | none => found) found
      (all.map Prod.snd).Nodup ∧ ∀ g, g ∈ all.map Prod.snd ↔ g ∈ found.map Prod.snd ∨
        ∃ m ∈ scopes, p.Exports segment m g := by
    induction scopes generalizing found with
    | nil => exact ⟨hnodup, by simp⟩
    | cons m scopes ih =>
      obtain ⟨hstep, hmem⟩ := mem_visible_step p segment m hnodup
      obtain ⟨hall, hmem'⟩ := ih _ hstep
      refine ⟨hall, fun g => (hmem' g).trans ?_⟩
      rw [hmem, or_assoc, exists_mem_cons_iff]
  obtain ⟨hnodup, hmem⟩ := hfrom (s.searched p) [] nodup_nil
  exact ⟨hnodup, fun g => (hmem g).trans (by simp [Sees])⟩

theorem visibleGlobals_eq_nil_iff :
    s.visibleGlobals p segment = [] ↔ ∀ g, ¬ s.Sees p segment g := by
  rw [← map_eq_nil_iff (f := Prod.snd), eq_nil_iff_forall_not_mem]
  exact forall_congr' fun g => not_congr ((visibleGlobals_spec s p segment).2 g)

theorem visibleGlobals_eq_singleton_iff :
    (∃ n, s.visibleGlobals p segment = [(n, g)]) ↔ ∀ g', s.Sees p segment g' ↔ g' = g := by
  obtain ⟨hnodup, hmem⟩ := visibleGlobals_spec s p segment
  constructor
  · rintro ⟨n, hn⟩ g'
    rw [← hmem, hn, map_singleton, mem_singleton]
  · intro h
    have hone : (s.visibleGlobals p segment).map Prod.snd = [g] := by
      refine perm_singleton.1 ((perm_ext_iff_of_nodup hnodup (nodup_singleton g)).2 fun g' => ?_)
      rw [hmem, h, mem_singleton]
    obtain ⟨⟨n, g'⟩, hn, hg⟩ := map_eq_singleton_iff.1 hone
    cases hg
    exact ⟨n, hn⟩

end Visible

section Unqualified

variable (hq : p.names.isQualified name = false)
include hq

/-- An unqualified name means a global exactly if no other one is seen. -/
theorem global_eq_ok_iff :
    s.global p name = .ok g ↔ ∀ g', s.Sees p (p.names.segment name) g' ↔ g' = g := by
  rw [← visibleGlobals_eq_singleton_iff, global, hq]
  simp only [Bool.false_eq_true, if_false]
  constructor
  · intro h
    split at h
    · cases h
    · cases h
      exact ⟨_, ‹_›⟩
    · cases h
  · rintro ⟨n, hn⟩
    rw [hn]

/-- Where a global is seen, the name is either its name or ambiguous. -/
theorem global_of_sees (hg : s.Sees p (p.names.segment name) g) :
    s.global p name = .ok g ∨
      (∃ candidates, s.global p name = .error (.ambiguous name candidates)) ∧
      ∃ g' ≠ g, s.Sees p (p.names.segment name) g' := by
  by_cases hone : ∀ g', s.Sees p (p.names.segment name) g' ↔ g' = g
  · exact .inl ((global_eq_ok_iff hq).2 hone)
  · right
    have hother : ∃ g' ≠ g, s.Sees p (p.names.segment name) g' := by
      by_contra hnone
      push Not at hnone
      refine hone fun g' => ⟨fun hg' => ?_, fun he => he ▸ hg⟩
      by_contra hne
      exact hnone g' hne hg'
    refine ⟨?_, hother⟩
    rw [global, hq]
    simp only [Bool.false_eq_true, if_false]
    split
    · rename_i hnil
      exact absurd hg (visibleGlobals_eq_nil_iff.1 hnil g)
    · rename_i n g1 hsingle
      have honly := visibleGlobals_eq_singleton_iff.1 ⟨n, hsingle⟩
      obtain ⟨g', hne, hg'⟩ := hother
      exact absurd (((honly g').1 hg').trans ((honly g).1 hg).symm) hne
    · exact ⟨_, rfl⟩

end Unqualified

section Reimport

theorem reimport_of_not_valid (hm : ¬ p.modules.Valid s.module) :
    p.reimport s.module imports = p := by
  have hget : (p.modules.modify s.module fun d => { d with imports }) = p.modules := by
    refine Arena.ext_get (size_modify _ _ _) fun i => ?_
    by_cases hi : s.module = i
    · subst hi
      rw [get_of_not_valid hm, get_of_not_valid fun h => hm (valid_modify.1 h)]
    · exact get_modify_of_ne hi
  rw [Program.reimport, Program.modifyModule, hget]

theorem sees_reimport_iff (hm : p.modules.Valid s.module) :
    s.Sees (p.reimport s.module imports) segment g ↔
      ∃ m ∈ (p.modules.get s.module).name :: imports.map Import.name, p.Exports segment m g := by
  rw [Sees, searched, Program.reimport, Program.modifyModule, get_modify_self hm]
  rfl

/-- The name means what it meant, or one of the new imports declares another global under it. -/
theorem global_reimport (hg : s.global p name = .ok g)
    (hmore : (p.modules.get s.module).imports.map Import.name ⊆ imports.map Import.name) :
    s.global (p.reimport s.module imports) name = .ok g ∨
      (∃ candidates, s.global (p.reimport s.module imports) name = .error
        (.ambiguous name candidates)) ∧ ∃ g' ≠ g, ∃ i ∈ imports, i.name ∉ s.searched p ∧
      p.Exports (p.names.segment name) i.name g' := by
  by_cases hm : p.modules.Valid s.module
  · have hnames : (p.reimport s.module imports).names = p.names := rfl
    cases hq : p.names.isQualified name with
    | true =>
      left
      rw [global, hq] at hg
      rw [global, hnames, hq]
      exact hg
    | false =>
      have honly := (global_eq_ok_iff hq).1 hg
      obtain ⟨m, hmem, hexports⟩ := (honly g).2 rfl
      have hsees : s.Sees (p.reimport s.module imports) (p.names.segment name) g :=
        (sees_reimport_iff hm).2 ⟨m, cons_subset_cons _ hmore hmem, hexports⟩
      rw [← hnames] at hq hsees
      refine (global_of_sees hq hsees).imp_right fun ⟨hambiguous, g', hne, hg'⟩ =>
        ⟨hambiguous, g', hne, ?_⟩
      rw [hnames, sees_reimport_iff hm] at hg'
      obtain ⟨m', hmem', hexports'⟩ := hg'
      have hnew : m' ∉ s.searched p := fun hold => hne ((honly g').1 ⟨m', hold, hexports'⟩)
      rcases mem_cons.1 hmem' with rfl | hmem'
      · exact absurd mem_cons_self hnew
      · obtain ⟨i, hi, rfl⟩ := mem_map.1 hmem'
        exact ⟨i, hi, hnew, hexports'⟩
  · rw [reimport_of_not_valid hm]
    exact .inl hg

/-- What imports are there matters only for a name that means a global. -/
theorem lookup_reimport (imports : List Import) (hb : s.lookup p name = .ok b) :
    s.lookup (p.reimport s.module imports) name = .ok b ∨ ∃ g, b = .ofGlobal g ∧
      s.global p name = .ok g ∧ s.lookup (p.reimport s.module imports) name =
      (s.global (p.reimport s.module imports) name).map Binding.ofGlobal := by
  have hglobal (h : (s.global p name).map Binding.ofGlobal = .ok b) : ∃ g, b = .ofGlobal g ∧
      s.global p name = .ok g := by
    cases hg : s.global p name with
    | error e =>
      rw [hg] at h
      cases h
    | ok g =>
      rw [hg] at h
      cases h
      exact ⟨g, rfl, rfl⟩
  have hlocals : s.localNamed? (p.reimport s.module imports) name = s.localNamed? p name := rfl
  have hclass : s.inClass (p.reimport s.module imports) name = s.inClass p name := rfl
  have hnames : (p.reimport s.module imports).names = p.names := rfl
  unfold lookup at hb ⊢
  rw [hlocals, hclass, hnames]
  cases hq : p.names.isQualified name with
  | true =>
    rw [hq] at hb
    obtain ⟨g, hbg, hg⟩ := hglobal hb
    exact .inr ⟨g, hbg, hg, rfl⟩
  | false =>
    rw [hq] at hb
    cases hlocal : s.localNamed? p name with
    | some v =>
      rw [hlocal] at hb
      exact .inl hb
    | none =>
      rw [hlocal] at hb
      cases hmember : s.inClass p name with
      | error e =>
        rw [hmember] at hb
        cases hb
      | ok found =>
        rw [hmember] at hb
        cases found with
        | some b' => exact .inl hb
        | none =>
          obtain ⟨g, hbg, hg⟩ := hglobal hb
          exact .inr ⟨g, hbg, hg, rfl⟩

/-- More imports leave a name its meaning or make it ambiguous, and the latter only if they bring
another global of that name. -/
theorem lookup_imports (hb : s.lookup p name = .ok b)
    (hmore : (p.modules.get s.module).imports.map Import.name ⊆ imports.map Import.name) :
    (s.lookup (p.reimport s.module imports) name = .ok b ∨
      (∃ candidates, s.lookup (p.reimport s.module imports) name =
        .error (.ambiguous name candidates)) ∧
      ∃ g, b ≠ .ofGlobal g ∧
        ∃ i ∈ imports, i.name ∉ s.searched p ∧ p.Exports (p.names.segment name) i.name g) ∧
    (imports.map Import.name ⊆ (p.modules.get s.module).imports.map Import.name →
      s.lookup (p.reimport s.module imports) name = .ok b) := by
  rcases lookup_reimport imports hb with hsame | ⟨g, rfl, hg, hlookup⟩
  · exact ⟨.inl hsame, fun _ => hsame⟩
  · rcases global_reimport hg hmore with hok | ⟨⟨candidates, herror⟩, g', hne, i, hi,
      hnew, hexports⟩
    · rw [hok] at hlookup
      exact ⟨.inl hlookup, fun _ => hlookup⟩
    · rw [herror] at hlookup
      refine ⟨.inr ⟨⟨candidates, hlookup⟩, g', fun he => hne (Binding.ofGlobal_injective he).symm,
        i, hi, hnew, hexports⟩, ?_⟩
      exact fun hfewer => absurd (mem_cons_of_mem _ (hfewer (mem_map_of_mem hi))) hnew

def pointTexts : String → Option String
  | "app" => some "module app; using geom; using canvas; p = Point;"
  | "geom" => some "module geom; class Point { x = 0; }"
  | "canvas" => some "module canvas; using draw;"
  | "draw" => some "module draw; class Point { y = 0; }"
  | _ => none

def points : Program := (Program.load {} pointTexts 4 "app").program.resolve.program

/-- The class of the first import stays what it is in any order of imports, and is ambiguous with
that of the last module. -/
theorem lookup_imports_points :
    let imports := (points.modules.get ⟨0⟩).imports
    let more := imports.reverse ++ (points.modules.get ⟨2⟩).imports
    lookup {} points ⟨8⟩ = .ok (.cls ⟨0⟩) ∧
    lookup {} (points.reimport ⟨0⟩ (imports.reverse ++ imports)) ⟨8⟩ = .ok (.cls ⟨0⟩) ∧
    ∃ candidates,
      lookup {} (points.reimport ⟨0⟩ more) ⟨8⟩ = .error (.ambiguous ⟨8⟩ candidates) := by
  have hrun : lookup {} points ⟨8⟩ = .ok (.cls ⟨0⟩) ∧
      (lookup {} (points.reimport ⟨0⟩
        ((points.modules.get ⟨0⟩).imports.reverse ++ (points.modules.get ⟨2⟩).imports))
        ⟨8⟩).toOption = none := by
    decide +kernel
  generalize points = p at hrun ⊢
  obtain ⟨hb, hclash⟩ := hrun
  refine ⟨hb, (lookup_imports hb ?_).2 ?_, ?_⟩
  · simp
  · simp
  · refine ((lookup_imports hb ?_).1.resolve_left fun hok => ?_).1
    · simp
    · rw [hok] at hclash
      cases hclash

end Reimport

end Scope

end ClassLang
