import ClassLang.Token.Scanner
import Mathlib.Data.List.Induction
import Mathlib.Data.List.TakeWhile
import Mathlib.Tactic.Common

namespace ClassLang

open List

theorem Keyword.pattern_inj {k k' : Keyword} (h : k.pattern.toList = k'.pattern.toList) :
    k = k' := by
  have hall : ∀ k ∈ Keyword.all, ∀ k' ∈ Keyword.all, k.pattern.toList = k'.pattern.toList →
      k = k' := by
    decide
  exact hall k (by cases k <;> decide) k' (by cases k' <;> decide) h

namespace Shape

variable {p q : Char → Bool} {f : List Char → Nat} {c mark : Char} {base n : Nat}
  {cs w a rest slice : List Char} {s t : Shape} {l : List Shape}

def Run (p : Char → Bool) (w : List Char) : Prop := w ≠ [] ∧ ∀ c ∈ w, p c

def Led (p q : Char → Bool) (w : List Char) : Prop := ∃ c cs, w = c :: cs ∧ p c ∧ ∀ x ∈ cs, q x

abbrev Digits : List Char → Prop := Led isDigit (isDigitOrGap 10)

def Radix (mark : Char) (base : Nat) (w : List Char) : Prop :=
  ∃ ds, w = '0' :: mark :: ds ∧ Run (isDigitOrGap base) ds

def Exponent (w : List Char) : Prop :=
  ∃ e sign ds, w = e :: (sign ++ ds) ∧ (e = 'e' ∨ e = 'E') ∧
    (sign = [] ∨ sign = ['+'] ∨ sign = ['-']) ∧ Run isDigit ds

def Matches : Shape → List Char → Prop
  | keyword k, w => w = k.pattern.toList
  | symbol s, w => w = s.pattern.toList
  | decimal, w => Digits w
  | hex, w => Radix 'x' 16 w
  | octal, w => Radix 'o' 8 w
  | binary, w => Radix 'b' 2 w
  | point, w => ∃ a b e, w = a ++ '.' :: (b ++ e) ∧ Digits a ∧ Digits b ∧ (e = [] ∨ Exponent e)
  | scientific, w => ∃ a e, w = a ++ e ∧ Digits a ∧ Exponent e
  | word, w => Led isLetter isWordChar w

/-- `f` is the length of the longest beginning of which `P` holds, and zero if there is none. -/
structure Longest (P : List Char → Prop) (f : List Char → Nat) : Prop where
  reads : ∀ cs, f cs ≠ 0 → ∃ w rest, cs = w ++ rest ∧ P w ∧ w.length = f cs
  longest : ∀ w rest, P w → w.length ≤ f (w ++ rest)

theorem run_append (h : ∀ c ∈ a, p c) : run p (a ++ rest) = a.length + run p rest := by
  rw [run, takeWhile_append_of_pos h, length_append, run]

theorem run_cons (h : p c = false) : run p (c :: rest) = 0 := by
  rw [run, takeWhile_cons_of_neg (by simp [h]), length_nil]

theorem exists_run (p : Char → Bool) (cs : List Char) :
    ∃ w rest, cs = w ++ rest ∧ (∀ c ∈ w, p c) ∧ w.length = run p cs :=
  ⟨_, _, takeWhile_append_dropWhile.symm, fun _ => mem_takeWhile_imp, rfl⟩

theorem exists_run_ne (h : run p cs ≠ 0) :
    ∃ w rest, cs = w ++ rest ∧ Run p w ∧ w.length = run p cs := by
  obtain ⟨w, rest, hcs, hw, hlen⟩ := exists_run p cs
  exact ⟨w, rest, hcs, ⟨fun hnil => h (by rw [← hlen, hnil, length_nil]), hw⟩, hlen⟩

section Led

variable (hnil : f [] = 0) (hcons : ∀ c cs, f (c :: cs) = if p c then 1 + run q cs else 0)
include hcons

theorem led_append (h : Led p q a) : f (a ++ rest) = a.length + run q rest := by
  obtain ⟨c, cs, rfl, hc, hcs⟩ := h
  rw [cons_append, hcons, if_pos hc, run_append hcs, length_cons]
  omega

include hnil

theorem longest_led : Longest (Led p q) f where
  reads cs h := by
    cases cs with
    | nil => exact absurd hnil h
    | cons c cs =>
      rw [hcons] at h ⊢
      split at h
      · rename_i hc
        obtain ⟨w, rest, rfl, hw, hlen⟩ := exists_run q cs
        refine ⟨c :: w, rest, rfl, ⟨c, w, rfl, hc, hw⟩, ?_⟩
        rw [if_pos hc, length_cons, hlen, Nat.add_comm]
      · exact absurd rfl h
  longest w rest h := by
    rw [led_append hcons h]
    exact Nat.le_add_right _ _

end Led

theorem digits_append (h : Digits a) :
    digitsExtent (a ++ rest) = a.length + run (isDigitOrGap 10) rest :=
  led_append (fun _ _ => rfl) h

theorem longest_digits : Longest Digits digitsExtent := longest_led rfl fun _ _ => rfl

theorem longest_text (text : List Char) : Longest (· = text) (textExtent text) where
  reads cs h := by
    unfold textExtent at h ⊢
    split at h
    · rename_i hp
      rw [if_pos hp]
      obtain ⟨rest, rfl⟩ := isPrefixOf_iff_prefix.1 hp
      exact ⟨text, rest, rfl, rfl, rfl⟩
    · exact absurd rfl h
  longest w rest h := by
    subst h
    have hp : w.isPrefixOf (w ++ rest) = true := isPrefixOf_iff_prefix.2 (prefix_append w rest)
    rw [textExtent, if_pos hp]

theorem longest_radix : Longest (Radix mark base) (radixExtent mark base) where
  reads cs h := by
    revert h
    fun_cases radixExtent mark base cs with
    | case2 cs hne =>
      intro _
      obtain ⟨w, rest, rfl, hw, hlen⟩ := exists_run_ne hne
      exact ⟨'0' :: mark :: w, rest, rfl, ⟨w, rfl, hw⟩, by simp only [length_cons]; omega⟩
    | case1 | case3 | case4 => exact (absurd rfl ·)
  longest w rest h := by
    obtain ⟨ds, rfl, hne, hds⟩ := h
    have hpos := length_pos_iff.2 hne
    simp only [cons_append, radixExtent, if_true, run_append hds, length_cons]
    split <;> omega

theorem Led.pos (h : Led p q w) : 0 < w.length := by
  obtain ⟨c, cs, rfl, _⟩ := h
  exact Nat.succ_pos _

theorem Exponent.pos (h : Exponent w) : 0 < w.length := by
  obtain ⟨e, sign, ds, rfl, _⟩ := h
  exact Nat.succ_pos _

theorem longest_exponent : Longest Exponent exponentExtent where
  reads cs h := by
    revert h
    fun_cases exponentExtent cs with
    | case2 e he s ds hs hne =>
      intro _
      obtain ⟨w, rest, rfl, hw, hlen⟩ := exists_run_ne hne
      refine ⟨e :: ([s] ++ w), rest, rfl, ⟨e, [s], w, rfl, he, ?_, hw⟩, ?_⟩
      · simpa using hs
      · simp only [length_cons, length_append, length_nil]
        omega
    | case3 e he s ds hs hzero =>
      rw [hzero]
      exact (absurd rfl ·)
    | case4 e he s ds hs hne =>
      obtain ⟨w, rest, hcs, hw, hlen⟩ := exists_run_ne hne
      split
      · contradiction
      · rw [hcs]
        exact fun _ => ⟨e :: w, rest, rfl,
          ⟨e, [], w, rfl, he, .inl rfl, hw⟩, by rw [← hcs, length_cons]; omega⟩
    | case1 | case5 | case6 | case7 => exact (absurd rfl ·)
  longest w rest h := by
    obtain ⟨e, sign, ds, rfl, he, hsign, hne, hds⟩ := h
    have hpos := length_pos_iff.2 hne
    have hrun : run isDigit (ds ++ rest) = ds.length + run isDigit rest := run_append hds
    rcases hsign with rfl | hsign
    · obtain ⟨d, ds, rfl⟩ := exists_cons_of_ne_nil hne
      have hd : ¬ (d = '+' ∨ d = '-') := by
        rintro (rfl | rfl) <;> exact absurd (hds _ mem_cons_self) (by decide)
      simp only [nil_append, cons_append, exponentExtent, if_pos he, if_neg hd] at hrun ⊢
      rw [hrun]
      simp only [length_cons]
      split <;> omega
    · obtain ⟨s, rfl, hs⟩ : ∃ s, sign = [s] ∧ (s = '+' ∨ s = '-') := by
        rcases hsign with rfl | rfl
        · exact ⟨'+', rfl, .inl rfl⟩
        · exact ⟨'-', rfl, .inr rfl⟩
      simp only [cons_append, nil_append, exponentExtent, if_pos he, if_pos hs, hrun, length_cons]
      split <;> omega

theorem Exponent.run_eq_zero (h : Exponent w) : run (isDigitOrGap 10) (w ++ rest) = 0 := by
  obtain ⟨e, sign, ds, rfl, he, _⟩ := h
  rcases he with rfl | rfl <;> exact run_cons (by decide)

theorem longest_scientific : Longest (Matches scientific) scientificExtent where
  reads cs h := by
    revert h
    fun_cases scientificExtent cs with
    | case3 hn hk =>
      intro _
      obtain ⟨a, rest, rfl, ha, hlen⟩ := longest_digits.reads cs hn
      rw [← hlen, drop_left] at hk ⊢
      obtain ⟨e, rest, rfl, he, hlen'⟩ := longest_exponent.reads rest hk
      exact ⟨a ++ e, rest, (append_assoc ..).symm,
        ⟨a, e, rfl, ha, he⟩, by rw [length_append, hlen']⟩
    | case1 | case2 => exact (absurd rfl ·)
  longest w rest h := by
    obtain ⟨a, e, rfl, ha, he⟩ := h
    have hpos := ha.pos
    have hlen := longest_exponent.longest e rest he
    have hpos' := he.pos
    rw [append_assoc, scientificExtent, digits_append ha, he.run_eq_zero, Nat.add_zero,
      length_append]
    split
    · omega
    · rw [drop_left]
      split <;> omega

theorem pointExtent_of_digits {cs ds : List Char} (hn : digitsExtent cs ≠ 0)
    (hdot : cs.drop (digitsExtent cs) = '.' :: ds) (hk : digitsExtent ds ≠ 0) :
    pointExtent cs = digitsExtent cs + 1 + digitsExtent ds + exponentExtent
      (ds.drop (digitsExtent ds)) := by
  fun_cases pointExtent cs with
  | case1 hn' => exact absurd hn' hn
  | case2 fraction hk' _ hdrop =>
    cases hdot.symm.trans hdrop
    exact absurd hk' hk
  | case3 fraction _ hdrop _ =>
    cases hdot.symm.trans hdrop
    rfl
  | case4 _ hdrop => exact absurd hdot (hdrop ds)

theorem longest_point : Longest (Matches point) pointExtent where
  reads cs h := by
    revert h
    fun_cases pointExtent cs with
    | case3 fraction hn hdrop hk =>
      intro _
      obtain ⟨a, rest, rfl, ha, hlen⟩ := longest_digits.reads cs hn
      rw [← hlen, drop_left] at hdrop
      subst hdrop
      obtain ⟨b, rest, rfl, hb, hlen'⟩ := longest_digits.reads fraction hk
      rw [← hlen, ← hlen', drop_left]
      by_cases hx : exponentExtent rest = 0
      · exact ⟨a ++ '.' :: (b ++ []), rest, by simp,
          ⟨a, b, [], rfl, ha, hb, .inl rfl⟩, by simp [hx]; omega⟩
      · obtain ⟨e, rest, rfl, he, hlen''⟩ := longest_exponent.reads rest hx
        exact ⟨a ++ '.' :: (b ++ e), rest, by simp,
          ⟨a, b, e, rfl, ha, hb, .inr he⟩, by simp [hlen'']; omega⟩
    | case1 | case2 | case4 => exact (absurd rfl ·)
  longest w rest h := by
    obtain ⟨a, b, e, rfl, ha, hb, he⟩ := h
    have hpos := ha.pos
    have hpos' := hb.pos
    have hdot : run (isDigitOrGap 10) ('.' :: (b ++ (e ++ rest))) = 0 := run_cons (by decide)
    have hn : digitsExtent (a ++ '.' :: (b ++ (e ++ rest))) = a.length := by
      rw [digits_append ha, hdot, Nat.add_zero]
    have hk : digitsExtent (b ++ (e ++ rest)) = _ := digits_append hb
    rw [append_assoc, cons_append, append_assoc,
      pointExtent_of_digits (by omega) (by rw [hn, drop_left]) (by omega), hn, hk]
    simp only [length_append, length_cons]
    rcases he with rfl | he
    · rw [length_nil]
      omega
    · have hlen := longest_exponent.longest e rest he
      simp only [he.run_eq_zero, Nat.add_zero, drop_left]
      omega

theorem longest_extent (s : Shape) : Longest s.Matches s.extent := by
  cases s with
  | keyword k | symbol k => exact longest_text _
  | decimal => exact longest_digits
  | hex | octal | binary => exact longest_radix
  | point => exact longest_point
  | scientific => exact longest_scientific
  | word => exact longest_led rfl fun _ _ => rfl

theorem not_isLetter (h : isDigit c = true) : isLetter c = false := by
  simp only [isDigit, isLetter, Char.le_def, Char.ext_iff, UInt32.le_iff_toNat_le,
    ← UInt32.toNat_inj, decide_eq_true_eq, decide_eq_false_iff_not] at h ⊢
  simp at h ⊢
  omega

def number : Option Char → Shape
  | none => decimal
  | some 'x' => hex
  | some 'o' => octal
  | some 'b' => binary
  | some '.' => point
  | some _ => scientific

def kind? : List Char → Option Shape
  | [] => none
  | c :: cs =>
    if isLetter c then some word
    else if isDigit c then some (number (cs.dropWhile (isDigitOrGap 10)).head?)
    else (Symbol.all.find? (·.pattern.toList = c :: cs)).map symbol

def general : Shape → Shape
  | keyword _ => word
  | s => s

theorem kind?_digits (h : Digits a) :
    kind? (a ++ rest) = some (number (rest.dropWhile (isDigitOrGap 10)).head?) := by
  obtain ⟨c, cs, rfl, hc, hcs⟩ := h
  rw [cons_append, kind?, not_isLetter hc, if_neg Bool.false_ne_true, if_pos hc,
    dropWhile_append_of_pos hcs]

theorem kind?_of_matches (h : s.Matches w) : kind? w = some s.general := by
  cases s with
  | keyword k | symbol k =>
    cases h
    cases k <;> decide
  | word =>
    obtain ⟨c, cs, rfl, hc, _⟩ := h
    rw [kind?, if_pos hc, general]
    nofun
  | decimal =>
    rw [← append_nil w]
    exact kind?_digits h
  | hex | octal | binary =>
    obtain ⟨ds, rfl, _⟩ := h
    rfl
  | point =>
    obtain ⟨a, b, e, rfl, ha, _⟩ := h
    exact kind?_digits ha
  | scientific =>
    obtain ⟨a, e, rfl, ha, e, sign, ds, rfl, rfl | rfl, _⟩ := h <;> exact kind?_digits ha

theorem Matches.pos (h : s.Matches w) : 0 < w.length := by
  cases w with
  | nil => cases kind?_of_matches h
  | cons => exact Nat.succ_pos _

/-- No text has two shapes, but keywords are words. -/
theorem Matches.unique (hs : s.Matches w) (ht : t.Matches w) :
    t = s ∨ (t = word ∧ ∃ k, s = keyword k) ∨ s = word ∧ ∃ k, t = keyword k := by
  have hkind := Option.some.inj ((kind?_of_matches hs).symm.trans (kind?_of_matches ht))
  cases s with
  | keyword k =>
    cases t with
    | keyword k' => exact .inl (congrArg keyword (Keyword.pattern_inj (ht.symm.trans hs)))
    | word => exact .inr (.inl ⟨rfl, k, rfl⟩)
    | _ => cases hkind
  | word =>
    cases t with
    | keyword k => exact .inr (.inr ⟨rfl, k, rfl⟩)
    | _ => exact .inl hkind.symm
  | _ =>
    cases t with
    | keyword k => cases hkind
    | _ => exact .inl hkind.symm

def further (cs : List Char) (best : Option (Shape × Nat)) (s : Shape) : Option (Shape × Nat) :=
  if (best.map Prod.snd).getD 0 < s.extent cs then some (s, s.extent cs) else best

def Best (cs : List Char) (l : List Shape) : Option (Shape × Nat) → Prop
  | none => ∀ t ∈ l, t.extent cs = 0
  | some (s, n) => s ∈ l ∧ n = s.extent cs ∧ n ≠ 0 ∧ ∀ t ∈ l, t.extent cs ≤ n

theorem best_foldl (cs : List Char) (l : List Shape) : Best cs l (l.foldl (further cs) none) := by
  induction l using reverseRecOn with
  | nil => exact forall_mem_nil _
  | append_singleton l s ih =>
    rw [foldl_append, foldl_cons, foldl_nil]
    generalize l.foldl (further cs) none = best at ih ⊢
    unfold further
    cases best with
    | none =>
      split
      · rename_i hlt
        refine ⟨by simp, rfl, Nat.ne_of_gt hlt, forall_mem_append.2 ⟨fun t ht => ?_, by simp⟩⟩
        rw [ih t ht]
        exact Nat.zero_le _
      · rename_i hle
        exact forall_mem_append.2 ⟨ih, by simpa using hle⟩
    | some b =>
      obtain ⟨hmem, hn, hne, hall⟩ := ih
      split
      · rename_i hlt
        exact ⟨by simp, rfl, Nat.ne_of_gt (Nat.lt_of_le_of_lt (Nat.zero_le _) hlt),
          forall_mem_append.2 ⟨fun t ht =>
            Nat.le_of_lt (Nat.lt_of_le_of_lt (hall t ht) hlt), by simp⟩⟩
      · rename_i hle
        exact ⟨mem_append_left _ hmem, hn, hne, forall_mem_append.2 ⟨hall, by simpa using hle⟩⟩

theorem mem_all (s : Shape) : s ∈ all := by
  cases s with
  | keyword k | symbol k => cases k <;> decide
  | _ => decide

/-- No beginning of the text that has a shape is longer than `slice`, and it has only one, unless a
word is a keyword. -/
structure Fits (s : Shape) (slice rest : List Char) : Prop where
  fits : s.Matches slice
  longest : ∀ (t : Shape) w rest', slice ++ rest = w ++ rest' → t.Matches w →
    w.length ≤ slice.length
  only : ∀ t : Shape, t.Matches slice → t = s ∨ t = word ∧ ∃ k, s = keyword k

theorem longest?_word (h : longest? cs = some (word, n)) (k : Keyword) :
    (keyword k).extent cs < n := by
  obtain ⟨l, hl, hword, hk⟩ : ∃ l, all = l ++ [word] ∧ word ∉ l ∧ keyword k ∈ l :=
    ⟨all.dropLast, by decide, by decide, by cases k <;> decide⟩
  have hbest := best_foldl cs l
  rw [show longest? cs = all.foldl (further cs) none from rfl, hl, foldl_append, foldl_cons,
    foldl_nil] at h
  generalize l.foldl (further cs) none = best at hbest h
  unfold further at h
  split at h
  · rename_i hlt
    cases h
    cases best with
    | none =>
      rw [hbest _ hk]
      exact hlt
    | some b => exact Nat.lt_of_le_of_lt (hbest.2.2.2 _ hk) hlt
  · subst h
    exact absurd hbest.1 hword

theorem fits_of_longest? (h : longest? cs = some (s, n)) :
    ∃ slice rest, cs = slice ++ rest ∧ slice.length = n ∧ Fits s slice rest := by
  have hbest := best_foldl cs all
  rw [show all.foldl (further cs) none = longest? cs from rfl, h] at hbest
  obtain ⟨_, rfl, hne, hall⟩ := hbest
  obtain ⟨slice, rest, rfl, hslice, hlen⟩ := (longest_extent s).reads cs hne
  refine ⟨slice, rest, rfl, hlen, hslice, fun t w rest' hw ht => ?_, fun t ht => ?_⟩
  · rw [hlen]
    exact Nat.le_trans (hw ▸ (longest_extent t).longest w rest' ht) (hall t (mem_all t))
  · rcases hslice.unique ht with heq | hkeyword | ⟨rfl, k, rfl⟩
    · exact .inl heq
    · exact .inr hkeyword
    · exact absurd ((longest_extent (keyword k)).longest slice rest ht)
        (hlen ▸ Nat.not_le.2 (longest?_word h k))

theorem not_matches_of_longest? (h : longest? cs = none) (hw : cs = w ++ rest) : ¬ t.Matches w := by
  intro ht
  have hbest := best_foldl cs all
  rw [show all.foldl (further cs) none = longest? cs from rfl, h] at hbest
  have hle := (longest_extent t).longest w rest ht
  rw [← hw, hbest t (mem_all t)] at hle
  exact absurd ht.pos (Nat.not_lt.2 hle)

end Shape

end ClassLang
