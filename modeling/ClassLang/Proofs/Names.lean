import ClassLang.Name
import ClassLang.Proofs.Arena
import Mathlib.Data.List.Induction

/-!
Qualified names: what is shown of a name leads back to it. A name comes after its parent in the
table, so the chain of parents ends.
-/

namespace ClassLang.NameTable

open Arena Pool List

inductive Op
  | root (segment : String)
  | child (parent : NameId) (segment : String)
  | path (segments : List String)
  | rebase (i parent : NameId)

def Op.ids : Op → List NameId
  | .child p _ => [p]
  | .rebase i p => [i, p]
  | .root _ | .path _ => []

def run (t : NameTable) : Op → NameId × NameTable
  | .root s => t.root s
  | .child p s => t.child p s
  | .path ss => t.path ss
  | .rebase i p => t.rebase i p

/-- The entry that an operation asks for: of a path, the last segment below the path before it. -/
def asked (t : NameTable) : Op → NameEntry
  | .root s => ⟨none, s⟩
  | .child p s => ⟨some p, s⟩
  | .path ss =>
    match ss.reverse with
    | [] => ⟨none, ""⟩
    | [s] => ⟨none, s⟩
    | s :: rest => ⟨some (t.path rest.reverse).1, s⟩
  | .rebase i p => ⟨some p, t.segment i⟩

inductive Reached : NameTable → Prop
  | empty : Reached {}
  | run {t : NameTable} (op : Op) : Reached t → (∀ i ∈ op.ids, t.Valid i) → Reached (t.run op).2

structure Sorted (t : NameTable) : Prop where
  parents : ∀ i p, t.parent i = some p → p.index < i.index

variable {t u : NameTable} {i j : NameId} {ss : List String} {s : String}

theorem Sorted.intern (h : t.Sorted) {x : NameEntry} (hx : ∀ p, x.parent = some p → t.Valid p) :
    Sorted (t.intern x).2 := by
  refine ⟨fun i p hp => ?_⟩
  unfold parent at hp
  obtain he | ⟨rfl, he⟩ := get_intern t x i <;> rw [he] at hp
  · exact h.parents i p hp
  · exact hx p hp

theorem Sorted.root (h : t.Sorted) (s : String) : Sorted (t.root s).2 := h.intern nofun

theorem Sorted.child (h : t.Sorted) (hi : t.Valid i) (s : String) : Sorted (t.child i s).2 := by
  refine h.intern fun p hp => ?_
  cases hp
  exact hi

theorem path_concat (t : NameTable) (hne : ss ≠ []) (s : String) :
    t.path (ss ++ [s]) = (t.path ss).2.child (t.path ss).1 s := by
  cases ss with
  | nil => exact absurd rfl hne
  | cons a rest => simp [path, foldl_append]

theorem segmentsUpTo_eq (h : t.Sorted) {n m : Nat} (hn : i.index < n) (hm : i.index < m) :
    t.segmentsUpTo n i = t.segmentsUpTo m i := by
  induction n generalizing i m with
  | zero => cases hn
  | succ n ih =>
    obtain ⟨m, rfl⟩ := Nat.exists_eq_succ_of_ne_zero (Nat.ne_zero_of_lt hm)
    simp only [segmentsUpTo]
    split
    · rfl
    · rename_i p hp
      have := h.parents i p hp
      rw [ih (m := m) (by omega) (by omega)]

/-- No segment is cut off. -/
theorem segments_eq (h : t.Sorted) (hi : t.Valid i) :
    t.segments i = ((t.parent i).map t.segments).getD [] ++ [t.segment i] := by
  obtain ⟨n, hn⟩ := Nat.exists_eq_succ_of_ne_zero (Nat.ne_zero_of_lt hi)
  rw [segments, hn, segmentsUpTo]
  split
  · rename_i hp
    simp [hp]
  · rename_i p hp
    have hlt := h.parents i p hp
    have hin : i.index < n + 1 := Nat.lt_of_lt_of_eq hi hn
    rw [segmentsUpTo_eq h (m := t.size) (show p.index < n by omega) (by omega), hp]
    rfl

theorem segments_of_grows (h : t.Sorted) (hu : u.Sorted) (hg : t.Grows u) (hi : t.Valid i) :
    u.segments i = t.segments i := by
  induction hk : i.index using Nat.strongRecOn generalizing i with
  | ind k ih =>
    have hget := hg.get_eq hi
    rw [segments_eq h hi, segments_eq hu (hg.valid hi), parent, segment, hget, ← parent, ← segment]
    cases hp : t.parent i with
    | none => rfl
    | some p =>
      have hlt := h.parents i p hp
      rw [Option.map_some, Option.map_some, ih p.index (by omega) (Nat.lt_trans hlt hi) rfl]

theorem segments_child (h : t.Sorted) (hi : t.Valid i) (s : String) :
    (t.child i s).2.segments (t.child i s).1 = t.segments i ++ [s] := by
  have hget : (t.child i s).2.get (t.child i s).1 = ⟨some i, s⟩ := get_intern_self t _
  have hvalid : (t.child i s).2.Valid (t.child i s).1 := valid_intern t _
  rw [segments_eq (h.child hi s) hvalid, parent, segment, hget, Option.map_some, Option.getD_some,
    segments_of_grows h (h.child hi s) (grows_intern t _) hi]

theorem path_spec (h : t.Sorted) (hne : ss ≠ []) :
    Sorted (t.path ss).2 ∧ t.Grows (t.path ss).2 ∧ (t.path ss).2.Valid (t.path ss).1 ∧
      (t.path ss).2.segments (t.path ss).1 = ss := by
  induction ss using List.reverseRecOn with
  | nil => exact absurd rfl hne
  | append_singleton ss s ih =>
    by_cases hss : ss = []
    · subst hss
      have hget : (t.root s).2.get (t.root s).1 = ⟨none, s⟩ := get_intern_self t _
      have hvalid : (t.root s).2.Valid (t.root s).1 := valid_intern t _
      refine ⟨h.root s, grows_intern t _, hvalid, ?_⟩
      show (t.root s).2.segments (t.root s).1 = [s]
      rw [segments_eq (h.root s) hvalid, parent, segment, hget]
      rfl
    · obtain ⟨hsorted, hgrows, hvalid, hsegments⟩ := ih hss
      rw [path_concat t hss]
      refine ⟨hsorted.child hvalid s, hgrows.trans (grows_intern _ _), valid_intern _ _, ?_⟩
      rw [segments_child hsorted hvalid, hsegments]

theorem path_segments (h : t.Sorted) (hi : t.Valid i) : t.path (t.segments i) = (i, t) := by
  induction hk : i.index using Nat.strongRecOn generalizing i with
  | ind k ih =>
    rw [segments_eq h hi]
    cases hp : t.parent i with
    | none => exact intern_eq hi (by rw [← hp]; rfl)
    | some p =>
      have hlt := h.parents i p hp
      have hpv : t.Valid p := Nat.lt_trans hlt hi
      have hne : t.segments p ≠ [] := by
        rw [segments_eq h hpv]
        exact append_ne_nil_of_right_ne_nil _ (cons_ne_nil _ _)
      rw [Option.map_some, Option.getD_some, path_concat t hne, ih p.index (by omega) hpv rfl]
      exact intern_eq hi (by rw [← hp]; rfl)

theorem Sorted.run (h : t.Sorted) {op : Op} (hop : ∀ i ∈ op.ids, t.Valid i) :
    Sorted (t.run op).2 ∧ t.Grows (t.run op).2 := by
  cases op with
  | root s => exact ⟨h.root s, grows_intern t _⟩
  | child p s => exact ⟨h.child (hop p mem_cons_self) s, grows_intern t _⟩
  | path ss =>
    cases ss with
    | nil => exact ⟨h.root "", grows_intern t _⟩
    | cons s ss =>
      obtain ⟨hsorted, hgrows, _⟩ := path_spec h (cons_ne_nil s ss)
      exact ⟨hsorted, hgrows⟩
  | rebase i p => exact ⟨h.child (hop p (mem_cons_of_mem _ mem_cons_self)) _, grows_intern t _⟩

/-- The id that is answered stands for the entry that was asked for. -/
theorem find?_run (t : NameTable) (op : Op) :
    (t.run op).2.find? (t.asked op) = some (t.run op).1 := by
  cases op with
  | root s | child p s | rebase i p => exact find?_intern t _
  | path ss =>
    induction ss using List.reverseRecOn with
    | nil => exact find?_intern t _
    | append_singleton ss s =>
      by_cases hss : ss = []
      · subst hss
        exact find?_intern t _
      · have hasked : t.asked (.path (ss ++ [s])) = ⟨some (t.path ss).1, s⟩ := by
          obtain ⟨r, rest, hrev⟩ := exists_cons_of_ne_nil (mt reverse_eq_nil_iff.1 hss)
          rw [asked, reverse_append, hrev]
          show NameEntry.mk (some (t.path (r :: rest).reverse).1) s = _
          rw [← hrev, reverse_reverse]
        rw [hasked, run, path_concat t hss]
        exact find?_intern _ _

theorem sorted_empty : Sorted {} := ⟨nofun⟩

theorem Reached.sorted (ht : t.Reached) : t.Sorted := by
  induction ht with
  | empty => exact sorted_empty
  | run op _ hop ih => exact (ih.run hop).1

/-- The pieces of a text between double colons, which are looked for from the left. -/
def cut : List Char → List (List Char)
  | [] => [[]]
  | ':' :: ':' :: cs => [] :: cut cs
  | c :: cs => (cut cs).modifyHead (c :: ·)

def pieces (text : String) : List String := (cut text.toList).map String.ofList

theorem cut_append {w r : List Char} (hw : ':' ∉ w) :
    cut (w ++ r) = (cut r).modifyHead (w ++ ·) := by
  induction w with
  | nil => exact (congrFun List.modifyHead_id (cut r)).symm
  | cons c w ih =>
    obtain ⟨hc, hw⟩ := not_or.1 (mt mem_cons.2 hw)
    rw [cons_append, cut.eq_3 _ _ fun _ he => absurd he.symm hc, ih hw]
    simp [Function.comp_def]

theorem cut_intercalate {ws : List (List Char)} (hne : ws ≠ []) (hws : ∀ w ∈ ws, ':' ∉ w) :
    cut ([':', ':'].intercalate ws) = ws := by
  induction ws with
  | nil => exact absurd rfl hne
  | cons w ws ih =>
    have hw := hws w mem_cons_self
    cases ws with
    | nil => simpa [cut] using cut_append (r := []) hw
    | cons v ws =>
      rw [intercalate_cons_cons, append_assoc, cut_append hw]
      simp [cut, ih (cons_ne_nil v ws) fun x hx => hws x (mem_cons_of_mem _ hx)]

theorem pieces_display (h : t.Sorted) (hi : t.Valid i) (hs : ∀ s ∈ t.segments i, ':' ∉ s.toList) :
    pieces (t.display i) = t.segments i := by
  have hne : (t.segments i).map String.toList ≠ [] := by
    rw [segments_eq h hi]
    simp
  rw [pieces, display, String.toList_intercalate]
  show (cut ([':', ':'].intercalate _)).map String.ofList = _
  rw [cut_intercalate hne]
  · simp [Function.comp_def]
  · intro w hw
    obtain ⟨s, hmem, rfl⟩ := mem_map.1 hw
    exact hs s hmem

/-- Names are shown in a form that can be read back, as long as no segment holds a colon. -/
theorem display_roundtrip (ht : t.Reached) :
    (∀ i, t.Valid i → (∀ s ∈ t.segments i, ':' ∉ s.toList) →
      t.path (pieces (t.display i)) = (i, t)) ∧
    (∀ i j, t.Valid i → t.Valid j → (∀ s ∈ t.segments i, ':' ∉ s.toList) →
      (∀ s ∈ t.segments j, ':' ∉ s.toList) → t.display i = t.display j → i = j) ∧
    ∀ ss, ss ≠ [] → (t.path ss).2.display (t.path ss).1 = "::".intercalate ss := by
  have h := ht.sorted
  have hback {i : NameId} (hi : t.Valid i) (hs : ∀ s ∈ t.segments i, ':' ∉ s.toList) :
      t.path (pieces (t.display i)) = (i, t) := by
    rw [pieces_display h hi hs, path_segments h hi]
  refine ⟨fun i => hback, fun i j hi hj hsi hsj hij => ?_, fun ss hne => ?_⟩
  · have hsame := hback hi hsi
    rw [hij, hback hj hsj] at hsame
    exact (congrArg Prod.fst hsame).symm
  · rw [display, (path_spec h hne).2.2.2]

/-- A name of three segments, the last of which is empty, made in two ways. -/
theorem display_roundtrip_rebased :
    let t := ((NameTable.run {} (.path ["geom", "Point", ""])).2.run (.rebase ⟨2⟩ ⟨0⟩)).2
    t.Reached ∧ t.display ⟨3⟩ = "geom::" ∧ t.path (pieces (t.display ⟨3⟩)) = (⟨3⟩, t) := by
  have ht : Reached _ :=
    .run (.rebase ⟨2⟩ ⟨0⟩) (.run (.path ["geom", "Point", ""]) .empty (by decide +kernel))
    (by decide +kernel)
  exact ⟨ht, by decide +kernel, (display_roundtrip ht).1 ⟨3⟩ (by decide +kernel)
    (by decide +kernel)⟩

end ClassLang.NameTable
