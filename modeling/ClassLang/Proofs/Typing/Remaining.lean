import ClassLang.Program.Write
import ClassLang.Proofs.Colds
import Mathlib.Data.Fintype.Card

namespace ClassLang

open Arena List

namespace Arena

variable {e : Entity} {α : Type}

def count (a : Arena e α) (q : α → Bool) : Nat := a.items.toList.countP q

theorem count_le_size (a : Arena e α) (q : α → Bool) : a.count q ≤ a.size := by
  rw [size, ← Array.length_toList]
  exact countP_le_length

theorem count_push (a : Arena e α) (q : α → Bool) (x : α) :
    (a.push x).2.count q = a.count q + if q x then 1 else 0 := by
  simp [count, push, countP_append, countP_singleton]

theorem countP_modify (q : α → Bool) (f : α → α) (l : List α) (n : Nat) (hn : n < l.length) :
    (l.modify n f).countP q + (if q l[n] then 1 else 0) = l.countP q + if q (f l[n])
      then 1 else 0 := by
  induction l generalizing n with
  | nil => cases hn
  | cons x l ih =>
    cases n with
    | zero =>
      simp only [modify_zero_cons, countP_cons, getElem_cons_zero]
      omega
    | succ n =>
      simp only [modify_succ_cons, countP_cons, getElem_cons_succ]
      have := ih n (Nat.lt_of_succ_lt_succ hn)
      omega

variable [Inhabited α] {a : Arena e α} {i : Id e} {q : α → Bool} {f : α → α}

theorem count_modify (hi : a.Valid i) : (a.modify i f).count q + (if q (a.get i) then 1 else 0) =
    a.count q + if q (f (a.get i)) then 1 else 0 := by
  have hlt : i.index < a.items.toList.length := by rw [Array.length_toList]; exact hi
  have hget : a.items.toList[i.index] = a.get i := by
    have h := get?_of_valid hi
    rw [get?, Array.getElem?_eq_getElem hi] at h
    exact Option.some.inj h
  have h := countP_modify q f a.items.toList i.index hlt
  rw [hget] at h
  rw [count, count, modify, Array.toList_modify]
  exact h

theorem modify_of_not_valid (hi : ¬ a.Valid i) : a.modify i f = a := by
  refine ext_get (size_modify _ _ _) fun j => ?_
  rw [get_modify, if_neg (fun h : i = j ∧ a.Valid i => hi h.2)]

theorem count_modify_le (h : q (f (a.get i)) → q (a.get i)) :
    (a.modify i f).count q ≤ a.count q := by
  by_cases hi : a.Valid i
  · have hcount := count_modify (q := q) (f := f) hi
    split at hcount <;> split at hcount <;> first | omega | simp_all
  · exact Nat.le_of_eq (by rw [modify_of_not_valid hi])

theorem count_modify_lt (hi : a.Valid i) (h : q (a.get i)) (h' : q (f (a.get i)) = false) :
    (a.modify i f).count q + 1 = a.count q := by
  have hcount := count_modify (q := q) (f := f) hi
  simpa [h, h'] using hcount

end Arena

def Cold.isIdle (c : Cold) : Bool := c.forward.isNone && !c.fixing

def Cold.isOpen (c : Cold) : Bool := c.forward.isNone && c.signature.isNone

namespace Program

def untouched (p0 p : Program) : Finset (Fin p0.nodes.size) := {i | p.slot ⟨i⟩ = .empty}

/-- What can still be begun, or found, in a search for types on `p0`: a type for a node, a search
for a signature, and a signature. A lambda without a placeholder can still get one. -/
def remaining (p0 p : Program) : Nat :=
  (p0.untouched p).card + (p.lambdas.count (·.cold.isNone) + p.colds.count Cold.isIdle) +
    (p.lambdas.count (·.cold.isNone) + p.colds.count Cold.isOpen)

/-- From `p` to `q` something is found out, or nothing changes. Where a placeholder gets a
signature, less is left to do. -/
structure Winds (p0 p q : Program) : Prop where
  remaining : p0.remaining q ≤ p0.remaining p
  signed : ∀ c, p.colds.Valid c → (p.colds.lookup c).signature = none →
    (q.colds.lookup c).signature ≠ none → p0.remaining q < p0.remaining p

variable {p0 p q r : Program}

@[refl] theorem Winds.refl (p0 p : Program) : p0.Winds p p :=
  ⟨Nat.le_refl _, fun _ _ h h' => absurd h h'⟩

theorem Winds.trans (h : p0.Winds p q) (h' : p0.Winds q r) (hcolds : p.colds.size ≤ q.colds.size) :
    p0.Winds p r where
  remaining := Nat.le_trans h'.remaining h.remaining
  signed c hc hp hr := by
    by_cases hq : (q.colds.lookup c).signature = none
    · exact Nat.lt_of_lt_of_le (h'.signed c (Nat.lt_of_lt_of_le hc hcolds) hq hr) h.remaining
    · exact Nat.lt_of_le_of_lt h'.remaining (h.signed c hc hp hq)

theorem Winds.of_nodes (hcolds : q.colds = p.colds) (hlambdas : q.lambdas = p.lambdas)
    (hempty : ∀ i, q.slot i = .empty → p.slot i = .empty) : p0.Winds p q := by
  refine ⟨?_, fun c _ h h' => absurd (hcolds ▸ h) h'⟩
  have hcard : (p0.untouched q).card ≤ (p0.untouched p).card :=
    Finset.card_le_card (Finset.monotone_filter_right _ fun i _ => hempty ⟨i⟩)
  rw [Program.remaining, Program.remaining, hcolds, hlambdas]
  omega

/-- Where a node is begun, one less is left to begin. -/
theorem remaining_lt_of_begun {i : NodeId} (hcolds : q.colds = p.colds)
    (hlambdas : q.lambdas = p.lambdas) (hi : p0.nodes.Valid i) (hp : p.slot i = .empty)
    (hq : q.slot i ≠ .empty) (hempty : ∀ i, q.slot i = .empty → p.slot i = .empty) :
    p0.remaining q < p0.remaining p := by
  have hcard : (p0.untouched q).card < (p0.untouched p).card := by
    refine Finset.card_lt_card ((Finset.ssubset_iff_of_subset ?_).2 ⟨⟨i.index, hi⟩, ?_, ?_⟩)
    · exact Finset.monotone_filter_right _ fun i _ => hempty ⟨i⟩
    · exact Finset.mem_filter.2 ⟨Finset.mem_univ _, hp⟩
    · exact fun h => hq (Finset.mem_filter.1 h).2
  rw [Program.remaining, Program.remaining, hcolds, hlambdas]
  omega

section Colds

variable {c x y : ColdId} {l : LambdaId} {t : ColdTable}

/-- A lambda gets a placeholder instead of one that it could get. -/
theorem winds_place (hrooted : p.colds.Rooted) (hl : p.lambdas.Valid l)
    (hcold : (p.lambdas.get l).cold = none) : p0.Winds p ((Write.place l).apply p) := by
  have hlambdas : ((Write.place l).apply p).lambdas.count (·.cold.isNone) + 1 = p.lambdas.count
    (·.cold.isNone) := count_modify_lt hl (by rw [hcold]; rfl) rfl
  have hidle : ((Write.place l).apply p).colds.count Cold.isIdle = p.colds.count Cold.isIdle + 1 :=
    count_push _ _ _
  have hopen : ((Write.place l).apply p).colds.count Cold.isOpen = p.colds.count Cold.isOpen + 1 :=
    count_push _ _ _
  have hremaining : p0.remaining ((Write.place l).apply p) = p0.remaining p := by
    rw [remaining, remaining, hidle, hopen, ← hlambdas]
    show (p0.untouched p).card + _ + _ = _
    omega
  refine ⟨Nat.le_of_eq hremaining, fun c hc hnone hsome => ?_⟩
  have hfind := (hrooted.create l).2 c
  refine absurd ?_ hsome
  show ((p.colds.create l).2.get ((p.colds.create l).2.find c)).signature = none
  have hold : p.colds.find c ≠ ⟨p.colds.size⟩ :=
    fun he => not_valid_size p.colds (he ▸ hrooted.valid_find hc)
  rw [hfind, ColdTable.get_create, if_neg hold]
  exact hnone

/-- The second of two placeholders no longer stands for itself. -/
theorem count_merge {q : Cold → Bool} (hsites : ∀ (c : Cold) l, q { c with sites := l } = q c)
    (hforward : ∀ (c : Cold) l a, q { c with sites := l, forward := some a } = false)
    (hx : t.Valid (t.find x)) (hy : t.Valid (t.find y)) (hne : t.find x ≠ t.find y) :
    (t.merge x y).2.count q + (if q (t.lookup y) then 1 else 0) = t.count q := by
  rw [ColdTable.merge, if_neg hne, ColdTable.lookup]
  have hsource := count_modify (q := q)
    (f := fun c => { c with sites := [], forward := some (t.find x) }) hy
  have htarget := count_modify (q := q)
    (f := fun c => { c with sites := c.sites ++ (t.get (t.find y)).sites })
    ((valid_modify (f := fun c => { c with sites := [], forward := some (t.find x) })
      (i := t.find y)).2 hx)
  rw [hforward, if_neg Bool.false_ne_true, Nat.add_zero] at hsource
  have hsame := Nat.add_right_cancel
    (htarget.trans (congrArg (fun b => _ + if b = true then 1 else 0) (hsites _ _)))
  dsimp only at hsame ⊢
  rw [hsame]
  exact hsource

theorem winds_merge (hrooted : p.colds.Rooted) (hx : p.colds.Valid x) (hy : p.colds.Valid y) :
    p0.Winds p ((Write.merge x y).apply p) := by
  by_cases hne : p.colds.find x = p.colds.find y
  · have heq : (Write.merge x y).apply p = p := by
      show { p with colds := (p.colds.merge x y).2 } = p
      rw [ColdTable.merge_of_eq hne]
    rw [heq]
  · have hcount {q : Cold → Bool} (hsites : ∀ (c : Cold) l, q { c with sites := l } = q c)
        (hforward : ∀ (c : Cold) l a, q { c with sites := l, forward := some a } = false) :=
      count_merge hsites hforward (hrooted.valid_find hx) (hrooted.valid_find hy) hne
    have hidle := hcount (q := Cold.isIdle) (fun _ _ => rfl) fun _ _ _ => rfl
    have hopen := hcount (q := Cold.isOpen) (fun _ _ => rfl) fun _ _ _ => rfl
    have hremaining : p0.remaining
        ((Write.merge x y).apply p) + (if (p.colds.lookup y).isOpen then 1 else 0) ≤ p0.remaining
        p := by
      rw [remaining, remaining, ← hopen, ← hidle]
      show (p0.untouched p).card + (p.lambdas.count _ + (p.colds.merge x y).2.count _) +
        (p.lambdas.count _ + (p.colds.merge x y).2.count _) + _ ≤ _
      omega
    refine ⟨Nat.le_trans (Nat.le_add_right _ _) hremaining, fun c _ hnone hsome => ?_⟩
    have hfind := (hrooted.merge hx hy hne).2 c
    have hget := hrooted.get_merge hx hy hne (p.colds.find c)
    by_cases hcy : p.colds.find c = p.colds.find y
    · have hisOpen : (p.colds.lookup y).isOpen = true := by
        rw [ColdTable.lookup, ← hcy, Cold.isOpen, hrooted.forward_find c]
        exact Option.isNone_iff_eq_none.2 hnone
      rw [if_pos hisOpen] at hremaining
      omega
    · refine absurd ?_ hsome
      show ((p.colds.merge x y).2.get ((p.colds.merge x y).2.find c)).signature = none
      rw [hfind, if_neg hcy, hget, if_neg hcy]
      split
      · rename_i hcx
        rw [ColdTable.lookup, ← hcx]
        exact hnone
      · exact hnone

theorem count_update_le {q : Cold → Bool} {f : Cold → Cold}
    (h : q (f (t.lookup c)) → q (t.lookup c)) : (t.update c f).count q ≤ t.count q :=
  count_modify_le h

theorem winds_signature (hrooted : p.colds.Rooted) (hc : p.colds.Valid c) (t : TypeId) :
    p0.Winds p ((Write.signature c t).apply p) ∧
      (((Write.signature c t).apply p).colds.lookup c).signature ≠ none := by
  have hlookup (d : ColdId) :=
    ColdTable.lookup_update (t := p.colds) (f := ({ · with signature := some t }))
    (fun _ => rfl) c d
  have hidle : (p.colds.update c ({ · with signature := some t })).count Cold.isIdle ≤ p.colds.count
    Cold.isIdle := count_update_le id
  have hopen : (p.colds.update c ({ · with signature := some t })).count Cold.isOpen ≤
      p.colds.count Cold.isOpen :=
    count_update_le fun h => by simp [Cold.isOpen] at h
  have hremaining : p0.remaining ((Write.signature c t).apply p) ≤ p0.remaining p := by
    rw [remaining, remaining]
    show (p0.untouched p).card + (p.lambdas.count _ + (p.colds.update c _).count _) +
      (p.lambdas.count _ + (p.colds.update c _).count _) ≤ _
    omega
  refine ⟨⟨hremaining, fun d _ hnone hsome => ?_⟩, ?_⟩
  · have hcd : p.colds.find c = p.colds.find d := by
      by_contra hne
      refine hsome ?_
      show ((p.colds.update c _).lookup d).signature = none
      rw [hlookup, if_neg fun h => hne h.1]
      exact hnone
    have hisOpen : (p.colds.lookup c).isOpen = true := by
      rw [ColdTable.lookup, hcd, Cold.isOpen, hrooted.forward_find d]
      exact Option.isNone_iff_eq_none.2 hnone
    have hlt : (p.colds.update c ({ · with signature := some t })).count Cold.isOpen + 1 =
      p.colds.count Cold.isOpen :=
      count_modify_lt (hrooted.valid_find hc) hisOpen (by simp [Cold.isOpen])
    rw [remaining, remaining]
    show (p0.untouched p).card + (p.lambdas.count _ + (p.colds.update c _).count _) +
      (p.lambdas.count _ + (p.colds.update c _).count _) < _
    omega
  · show ((p.colds.update c _).lookup c).signature ≠ none
    rw [hlookup, if_pos ⟨rfl, hrooted.valid_find hc⟩]
    rintro ⟨⟩

section Fixing

variable (on : Bool)

theorem remaining_fixing (p0 p : Program) (c : ColdId) :
    p0.remaining ((Write.fixing c on).apply p) + p.colds.count Cold.isIdle =
      p0.remaining p + (p.colds.update c ({ · with fixing := on })).count Cold.isIdle := by
  have hopen : (p.colds.update c ({ · with fixing := on })).count Cold.isOpen =
      p.colds.count Cold.isOpen := by
    by_cases hc : p.colds.Valid (p.colds.find c)
    · have hcount := count_modify (q := Cold.isOpen) (f := ({ · with fixing := on })) hc
      exact Nat.add_right_cancel hcount
    · rw [ColdTable.update, modify_of_not_valid hc]
  rw [remaining, remaining]
  show (p0.untouched p).card + (p.lambdas.count _ + (p.colds.update c _).count _) +
    (p.lambdas.count _ + (p.colds.update c _).count _) + _ = _
  omega

theorem signature_fixing (d : ColdId) :
    (((Write.fixing c on).apply p).colds.lookup d).signature = (p.colds.lookup d).signature := by
  show ((p.colds.update c ({ · with fixing := on })).lookup d).signature = _
  rw [ColdTable.lookup_update (f := ({ · with fixing := on })) fun _ => rfl]
  split <;> rfl

end Fixing

theorem remaining_fixing_true (p0 : Program) (hrooted : p.colds.Rooted) (hc : p.colds.Valid c)
    (h : (p.colds.lookup c).fixing = false) :
    p0.remaining ((Write.fixing c true).apply p) + 1 = p0.remaining p := by
  have hisIdle : (p.colds.lookup c).isIdle = true := by
    rw [Cold.isIdle, h, ColdTable.lookup, hrooted.forward_find c]
    rfl
  have hidle : (p.colds.update c ({ · with fixing := true })).count Cold.isIdle + 1 =
    p.colds.count Cold.isIdle :=
    count_modify_lt (hrooted.valid_find hc) hisIdle (by simp [Cold.isIdle])
  have hremaining := remaining_fixing true p0 p c
  omega

theorem remaining_fixing_false (p0 p : Program) (c : ColdId) :
    p0.remaining ((Write.fixing c false).apply p) ≤ p0.remaining p + 1 := by
  have hidle : (p.colds.update c ({ · with fixing := false })).count Cold.isIdle ≤ p.colds.count
      Cold.isIdle + 1 := by
    by_cases hc : p.colds.Valid (p.colds.find c)
    · have hcount := count_modify (q := Cold.isIdle) (f := ({ · with fixing := false })) hc
      rw [ColdTable.update]
      split at hcount <;> split at hcount <;> omega
    · rw [ColdTable.update, modify_of_not_valid hc]
      exact Nat.le_succ _
  have hremaining := remaining_fixing false p0 p c
  omega

/-- A search for a signature is one less to begin while it goes on. -/
theorem Winds.marking (hrooted : p.colds.Rooted) (hc : p.colds.Valid c)
    (hidle : (p.colds.lookup c).fixing = false) (h : p0.Winds ((Write.fixing c true).apply p) q) :
    p0.Winds p ((Write.fixing c false).apply q) := by
  have hbegun := remaining_fixing_true p0 hrooted hc hidle
  have hended := remaining_fixing_false p0 q c
  refine ⟨?_, fun d hd hnone hsome => ?_⟩
  · have hless := h.remaining
    omega
  · have hless := h.signed d (valid_modify.2 hd) ((signature_fixing true d).trans hnone)
      fun h => hsome ((signature_fixing false d).trans h)
    omega

theorem winds_fixing (hrooted : p.colds.Rooted) (hc : p.colds.Valid c)
    (hidle : (p.colds.lookup c).fixing = false) : p0.Winds p ((Write.fixing c true).apply p) := by
  have hbegun := remaining_fixing_true p0 hrooted hc hidle
  exact ⟨by omega, fun d _ hnone hsome => absurd ((signature_fixing true d).trans hnone) hsome⟩

end Colds

theorem remaining_le (p : Program) (hcolds : p.colds = {}) :
    p.remaining p ≤ p.nodes.size + 2 * p.lambdas.size := by
  have hnodes : (p.untouched p).card ≤ p.nodes.size :=
    (Finset.card_le_univ _).trans_eq (Fintype.card_fin _)
  have hlambdas : p.lambdas.count (·.cold.isNone) ≤ p.lambdas.size := count_le_size _ _
  have hnone (q : Cold → Bool) : ({} : ColdTable).count q = 0 := rfl
  rw [remaining, hcolds, hnone, hnone]
  omega

end Program

end ClassLang
