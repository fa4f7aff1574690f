import ClassLang.Proofs.Token.Items
import Mathlib.Data.Int.ModEq

namespace ClassLang

open List

namespace Shape

variable {s : Shape} {slice rest : List Char}

/-- No text of a shape goes on from `slice` into `rest`. -/
def Ends (slice rest : List Char) : Prop :=
  ∀ (t : Shape) w rest', slice ++ rest = w ++ rest' → t.Matches w → w.length ≤ slice.length

theorem Fits.of_ends (h : s.Matches slice) (hends : Ends slice rest)
    (hword : s = word → ∀ k : Keyword, slice ≠ k.pattern.toList) : s.Fits slice rest := by
  refine ⟨h, hends, fun t ht => ?_⟩
  rcases h.unique ht with heq | hkeyword | ⟨hs, k, rfl⟩
  · exact .inl heq
  · exact .inr hkeyword
  · exact absurd ht (hword hs k)

/-- What fits furthest is found. -/
theorem longest?_of_fits (h : s.Fits slice rest) :
    longest? (slice ++ rest) = some (s, slice.length) := by
  cases hlongest : longest? (slice ++ rest) with
  | none => exact absurd h.fits (not_matches_of_longest? hlongest rfl)
  | some found =>
    obtain ⟨t, n⟩ := found
    obtain ⟨slice', rest', heq, rfl, ht⟩ := fits_of_longest? hlongest
    have hle := h.longest t slice' rest' heq ht.fits
    have hge := ht.longest s slice rest heq.symm h.fits
    obtain ⟨rfl, rfl⟩ := append_inj heq (Nat.le_antisymm hge hle)
    rcases h.only t ht.fits with rfl | ⟨rfl, k, rfl⟩
    · rfl
    · rcases ht.only (keyword k) h.fits with heq | ⟨heq, _⟩ <;> cases heq

/-- Characters that stand in no token. -/
theorem not_digit_of_isBlank {c : Char} (h : isBlank c) :
    isDigit c = false ∧ isLetter c = false ∧ ∀ base, isDigitOrGap base c = false := by
  simp only [isBlank, decide_eq_true_eq] at h
  rcases h with rfl | rfl | rfl | rfl <;> simp [isDigit, isLetter, isDigitOrGap, digitValue?]

theorem Run.not_blank {p : Char → Bool} (h : Run p slice) (hp : ∀ c, isBlank c → p c = false) :
    ∀ c ∈ slice, ¬ isBlank c := by
  intro c hc hblank
  have hpc := h.2 c hc
  rw [hp c hblank] at hpc
  cases hpc

theorem Led.run {p q r : Char → Bool} (h : Led p q slice) (hp : ∀ c, p c → r c)
    (hq : ∀ c, q c → r c) : Run r slice := by
  obtain ⟨c, cs, rfl, hc, hcs⟩ := h
  exact ⟨cons_ne_nil _ _, forall_mem_cons.2 ⟨hp c hc, fun x hx => hq x (hcs x hx)⟩⟩

theorem Digits.not_blank (h : Digits slice) : ∀ c ∈ slice, ¬ isBlank c := by
  refine (h.run (r := fun c => isDigit c || isDigitOrGap 10 c) (by simp_all)
    (by simp_all)).not_blank fun c hc => ?_
  obtain ⟨hdigit, _, hgap⟩ := not_digit_of_isBlank hc
  simp [hdigit, hgap]

theorem Exponent.not_blank (h : Exponent slice) : ∀ c ∈ slice, ¬ isBlank c := by
  obtain ⟨e, sign, ds, rfl, he, hsign, hds⟩ := h
  refine forall_mem_cons.2
    ⟨?_, forall_mem_append.2 ⟨?_, hds.not_blank fun c hc => (not_digit_of_isBlank hc).1⟩⟩
  · rcases he with rfl | rfl <;> decide
  · rcases hsign with rfl | rfl | rfl <;> simp [isBlank]

theorem Matches.not_blank (h : s.Matches slice) : ∀ c ∈ slice, ¬ isBlank c := by
  cases s with
  | keyword k | symbol k =>
    cases h
    have hall : k.pattern.toList.all (!isBlank ·) = true := by cases k <;> rfl
    simpa using hall
  | word =>
    refine (Led.run (r := isWordChar) h (by simp_all [isWordChar]) fun _ => id).not_blank
      fun c hc => ?_
    obtain ⟨hdigit, hletter, _⟩ := not_digit_of_isBlank hc
    simp [isWordChar, hdigit, hletter]
  | decimal => exact Digits.not_blank h
  | hex | octal | binary =>
    obtain ⟨ds, rfl, hds⟩ := h
    exact forall_mem_cons.2
      ⟨by decide, forall_mem_cons.2
        ⟨by decide, hds.not_blank fun c hc => (not_digit_of_isBlank hc).2.2 _⟩⟩
  | point =>
    obtain ⟨a, b, e, rfl, ha, hb, he⟩ := h
    refine forall_mem_append.2
      ⟨ha.not_blank, forall_mem_cons.2 ⟨by decide, forall_mem_append.2 ⟨hb.not_blank, ?_⟩⟩⟩
    rcases he with rfl | he
    · exact forall_mem_nil _
    · exact he.not_blank
  | scientific =>
    obtain ⟨a, e, rfl, ha, he⟩ := h
    exact forall_mem_append.2 ⟨ha.not_blank, he.not_blank⟩

/-- A blank ends every token, and so does the end of the text. -/
theorem Ends.of_blank (h : ∀ c ∈ rest.head?, isBlank c) : Ends slice rest := by
  intro t w rest' heq ht
  rcases append_eq_append_iff.1 heq with ⟨more, rfl, rfl⟩ | ⟨more, rfl, _⟩
  · cases more with
    | nil => simp
    | cons c more => exact absurd (h c (by simp)) (ht.not_blank c (by simp))
  · simp

end Shape

namespace Scanner

variable {s : Scanner} {shape : Shape} {slice rest : List Char}

theorem skip_of_unskipped (h : Unskipped s.rest) : s.skip = s := by
  obtain ⟨gap, rest, hs, hskip, hgap, _⟩ := s.skip_gap
  cases hgap with
  | nil =>
    rw [hskip, ← nil_append rest, ← hs]
    rfl
  | @blank c gap _ hc _ =>
    exact absurd (.inl ⟨cons_ne_nil c [], by simpa using hc⟩) (h [c] (gap ++ rest) hs)
  | @comment body gap _ hbody _ _ =>
    refine absurd (.inr ⟨body, rfl, hbody⟩) (h ('/' :: '/' :: body) (gap ++ rest) ?_)
    rw [hs, cons_append, cons_append, append_assoc]
    rfl

def answer (shape : Shape) (slice : List Char) (pos : Nat) : Except LexError Lexeme :=
  match shape.token? slice with
  | some token => .ok ⟨token, ⟨pos, pos + byteSize slice⟩⟩
  | none => .error ⟨String.ofList slice, ⟨pos, pos + byteSize slice⟩⟩

theorem next_of_fits (hfits : shape.Fits slice rest) (hrest : Unskipped (slice ++ rest))
    (pos : Nat) :
    next ⟨slice ++ rest, pos⟩ = (answer shape slice pos, ⟨rest, pos + byteSize slice⟩) := by
  unfold next answer
  rw [skip_of_unskipped hrest]
  dsimp only
  rw [Shape.longest?_of_fits hfits]
  dsimp only [cut]
  rw [take_left, drop_left]
  cases shape.token? slice <;> rfl

end Scanner

section Digits

variable {base v : Nat} {c : Char} {ds : List Char}

theorem toNat_toLower (c : Char) :
    c.toLower.toNat = if 65 ≤ c.toNat ∧ c.toNat ≤ 90 then c.toNat + 32 else c.toNat := by
  have hval : c.val.toNat = c.toNat := rfl
  unfold Char.toLower
  split
  · rename_i h
    have hupper : 65 ≤ c.toNat ∧ c.toNat ≤ 90 := h
    have hadd : (c.val + 32).toNat = c.toNat + 32 := by
      rw [UInt32.toNat_add, hval]
      exact Nat.mod_eq_of_lt (show c.toNat + 32 < 2 ^ 32 by omega)
    rw [if_pos hupper]
    exact hadd
  · rename_i h
    exact (if_neg (show ¬ (65 ≤ c.toNat ∧ c.toNat ≤ 90) from h)).symm

theorem toNat_digitChar (h : v < 16) :
    (Nat.digitChar v).toNat = if v < 10 then v + 48 else v + 87 := by
  revert v
  decide

/-- A digit has a value as soon as its small letter is the one for it. -/
theorem digitValue?_eq_some (hbase : base ≤ 16) :
    digitValue? base c = some v ↔ v < base ∧ c.toLower = Nat.digitChar v := by
  have hle (a : Char) : a ≤ c ↔ a.toNat ≤ c.toNat := Iff.rfl
  have hge (a : Char) : c ≤ a ↔ c.toNat ≤ a.toNat := Iff.rfl
  have hlower (hv : v < base) : c.toLower = Nat.digitChar v ↔
      (if 65 ≤ c.toNat ∧ c.toNat ≤ 90 then c.toNat + 32 else c.toNat) = if v < 10 then v + 48
      else v + 87 := by
    rw [← toNat_toLower, ← toNat_digitChar (Nat.lt_of_lt_of_le hv hbase), Char.toNat_inj]
  rw [and_congr_right hlower]
  simp only [digitValue?, isDigit, decide_eq_true_eq, hle, hge, Option.ite_none_right_eq_some,
    Option.some.injEq, show '0'.toNat = 48 from rfl, show '9'.toNat = 57 from rfl,
    show 'a'.toNat = 97 from rfl, show 'f'.toNat = 102 from rfl, show 'A'.toNat = 65 from rfl,
    show 'F'.toNat = 70 from rfl]
  split_ifs <;> omega

theorem digitsValue_concat (base : Nat) (ds : List Char) (c : Char) :
    digitsValue base (ds ++ [c]) = digitsValue base ds * base + (digitValue? base c).getD 0 := by
  rw [digitsValue, foldl_append]
  rfl

theorem toDigits_concat {n : Nat} (hbase : 1 < base) (hn : 0 < n) (hv : v < base) :
    Nat.toDigits base (n * base + v) = Nat.toDigits base n ++ [Nat.digitChar v] := by
  have hle : base ≤ n * base + v :=
    Nat.le_trans (Nat.le_mul_of_pos_left base hn) (Nat.le_add_right _ _)
  have hdiv : (n * base + v) / base = n := by
    rw [Nat.mul_comm, Nat.mul_add_div (Nat.zero_lt_of_lt hbase), Nat.div_eq_of_lt hv, Nat.add_zero]
  have hmod : (n * base + v) % base = v := by
    rw [Nat.mul_comm, Nat.mul_add_mod, Nat.mod_eq_of_lt hv]
  rw [Nat.toDigits_of_base_le hbase hle, hdiv, hmod]

end Digits

inductive Numeral
  | decimal | hex | octal | binary
deriving DecidableEq, Repr, Inhabited

namespace Numeral

def base : Numeral → Nat
  | decimal => 10
  | hex => 16
  | octal => 8
  | binary => 2

def lead : Numeral → List Char
  | decimal => []
  | hex => ['0', 'x']
  | octal => ['0', 'o']
  | binary => ['0', 'b']

def shape : Numeral → Shape
  | decimal => .decimal
  | hex => .hex
  | octal => .octal
  | binary => .binary

def Spells (base n : Nat) (ds : List Char) : Prop :=
  ∃ zeros, (ds.filter (· ≠ '_')).map Char.toLower = replicate zeros '0' ++ Nat.toDigits base n

/-- A text for `n`. Only behind a lead may a gap come first. -/
def Writes (m : Numeral) (n : Nat) (w : List Char) : Prop :=
  ∃ ds, w = m.lead ++ ds ∧ Spells m.base n ds ∧ (m = decimal → ds.head? ≠ some '_')

def Vacant (m : Numeral) (w : List Char) : Prop :=
  m ≠ decimal ∧ ∃ gaps, w = m.lead ++ '_' :: replicate gaps '_'

variable {m : Numeral} {n : Nat} {w ds rest : List Char}

theorem one_lt_base (m : Numeral) : 1 < m.base := by cases m <;> decide

theorem base_le (m : Numeral) : m.base ≤ 16 := by cases m <;> decide

/-- Positional notation: the digits of `n` have the value `n`. -/
theorem value_of_toDigits (m : Numeral) {zeros : Nat}
    (h : ds.map Char.toLower = replicate zeros '0' ++ Nat.toDigits m.base n) :
    digitsValue m.base ds = n ∧ ∀ c ∈ ds, (digitValue? m.base c).isSome := by
  have hone := m.one_lt_base
  have hdigit (c : Char) (v : Nat) (hv : v < m.base) (hc : c.toLower = Nat.digitChar v) :
    digitValue? m.base c = some v := (digitValue?_eq_some m.base_le).2 ⟨hv, hc⟩
  have hzeros (zs : List Char) (hzs : zs.map Char.toLower = replicate zeros '0') :
      digitsValue m.base zs = 0 ∧ ∀ c ∈ zs, (digitValue? m.base c).isSome := by
    have hzero : ∀ c ∈ zs, digitValue? m.base c = some 0 := fun c hc =>
      hdigit c 0 (Nat.zero_lt_of_lt hone) (eq_of_mem_replicate (hzs ▸ mem_map_of_mem hc))
    refine ⟨?_, fun c hc => by rw [hzero c hc]; rfl⟩
    clear hzs
    induction zs using reverseRecOn with
    | nil => rfl
    | append_singleton zs c ih =>
      rw [digitsValue_concat, ih fun c hc => hzero c (mem_append_left _ hc), hzero c (by simp)]
      simp
  -- the last digit is `n % base`, and the ones before it are those of `n / base`
  induction n using Nat.strongRecOn generalizing ds with
  | ind n ih =>
    rw [Nat.toDigits_eq_if hone] at h
    split at h
    · rename_i hn
      obtain ⟨zs, cs, rfl, hzs, hcs⟩ := map_eq_append_iff.1 h
      obtain ⟨c, rfl, hc⟩ := map_eq_singleton_iff.1 hcs
      have hval := hdigit c n hn hc
      obtain ⟨hzero, hsome⟩ := hzeros zs hzs
      refine ⟨?_, forall_mem_append.2 ⟨hsome, by simp [hval]⟩⟩
      rw [digitsValue_concat, hzero, hval, Nat.zero_mul, Nat.zero_add]
      rfl
    · rename_i hn
      rw [← append_assoc] at h
      obtain ⟨as, cs, rfl, has, hcs⟩ := map_eq_append_iff.1 h
      obtain ⟨c, rfl, hc⟩ := map_eq_singleton_iff.1 hcs
      have hval := hdigit c (n % m.base) (Nat.mod_lt _ (Nat.zero_lt_of_lt hone)) hc
      obtain ⟨hdiv, hsome⟩ := ih (n / m.base) (Nat.div_lt_self (by omega) hone) has
      refine ⟨?_, forall_mem_append.2 ⟨hsome, by simp [hval]⟩⟩
      rw [digitsValue_concat, hdiv, hval, Option.getD_some, Nat.mul_comm]
      exact Nat.div_add_mod n m.base

/-- Every row of digits is the text of its value. -/
theorem toDigits_of_digits (m : Numeral) (hne : ds ≠ [])
    (h : ∀ c ∈ ds, (digitValue? m.base c).isSome) :
    ∃ zeros, ds.map Char.toLower = replicate zeros '0' ++ Nat.toDigits m.base
      (digitsValue m.base ds) := by
  have hone := m.one_lt_base
  induction ds using reverseRecOn with
  | nil => exact absurd rfl hne
  | append_singleton as c ih =>
    obtain ⟨has, hc⟩ := forall_mem_append.1 h
    obtain ⟨v, hval⟩ := Option.isSome_iff_exists.1 (hc c mem_cons_self)
    obtain ⟨hv, hlower⟩ := (digitValue?_eq_some m.base_le).1 hval
    rw [digitsValue_concat, hval, Option.getD_some, map_append, map_singleton, hlower]
    by_cases hnil : as = []
    · subst hnil
      refine ⟨0, ?_⟩
      rw [show digitsValue m.base [] = 0 from rfl, Nat.zero_mul, Nat.zero_add,
        Nat.toDigits_of_lt_base hv]
      rfl
    · obtain ⟨zeros, hzeros⟩ := ih hnil has
      rcases Nat.eq_zero_or_pos (digitsValue m.base as) with hzero | hpos
      · refine ⟨zeros + 1, ?_⟩
        rw [hzeros, hzero, Nat.zero_mul, Nat.zero_add, Nat.toDigits_of_lt_base hv,
          Nat.toDigits_zero, replicate_succ']
      · exact ⟨zeros, by rw [hzeros, toDigits_concat hone hpos hv, append_assoc]⟩

theorem Spells.ne_nil {base : Nat} (h : Spells base n ds) : ds.filter (· ≠ '_') ≠ [] := by
  obtain ⟨zeros, h⟩ := h
  intro hnil
  rw [hnil, map_nil] at h
  exact Nat.toDigits_ne_nil (append_eq_nil_iff.1 h.symm).2

theorem Spells.digitOrGap (h : Spells m.base n ds) : ∀ c ∈ ds, isDigitOrGap m.base c := by
  obtain ⟨zeros, h⟩ := h
  intro c hc
  by_cases hgap : c = '_'
  · simp [isDigitOrGap, hgap]
  · have hmem : c ∈ ds.filter (· ≠ '_') := by simpa [hgap] using hc
    simp [isDigitOrGap, (value_of_toDigits m h).2 c hmem]

/-- An integer literal denotes its value, if a word can hold it. -/
theorem Spells.integer? (h : Spells m.base n ds) :
    ClassLang.integer? m.base ds = if n < 2 ^ 64 then some (Int64.ofNat n) else none := by
  have hne := h.ne_nil
  obtain ⟨zeros, h⟩ := h
  have hvalue := (value_of_toDigits m h).1
  unfold ClassLang.integer?
  split
  · contradiction
  · simp only [hvalue]
    rfl

theorem spells_of_digitOrGap (h : ∀ c ∈ ds, isDigitOrGap m.base c) :
    ds = replicate ds.length '_' ∨ ∃ n, Spells m.base n ds := by
  by_cases hnil : ds.filter (· ≠ '_') = []
  · refine .inl (eq_replicate_of_mem fun c hc => ?_)
    simpa using filter_eq_nil_iff.1 hnil c hc
  · refine .inr ⟨_, toDigits_of_digits m hnil fun c hc => ?_⟩
    obtain ⟨hmem, hgap⟩ := mem_filter.1 hc
    have hdigit := h c hmem
    simp only [isDigitOrGap, decide_eq_true_eq] at hdigit hgap
    exact hdigit.resolve_left hgap

theorem isSome_digitValue?_ten (c : Char) : (digitValue? 10 c).isSome = isDigit c := by
  cases h : isDigit c with
  | true =>
    have hlt : c.toNat - '0'.toNat < 10 := by
      simp only [isDigit, decide_eq_true_eq] at h
      have hle : c.toNat ≤ 57 := h.2
      show c.toNat - 48 < 10
      omega
    simp only [digitValue?, h, if_true, if_pos hlt, Option.isSome_some]
  | false =>
    simp only [digitValue?, h, Bool.false_eq_true, if_false]
    split_ifs <;> first | rfl | omega

theorem matches_of_lead (hm : m ≠ decimal) :
    m.shape.Matches w ↔ ∃ ds, w = m.lead ++ ds ∧ Shape.Run (isDigitOrGap m.base) ds := by
  cases m with
  | decimal => exact absurd rfl hm
  | hex | octal | binary => rfl

/-- The literals are the texts of the numbers, and those without a digit. -/
theorem matches_iff (m : Numeral) (w : List Char) :
    m.shape.Matches w ↔ (∃ n, m.Writes n w) ∨ m.Vacant w := by
  by_cases hm : m = decimal
  · subst hm
    constructor
    · rintro ⟨c, cs, rfl, hc, hcs⟩
      have hgap : c ≠ '_' := by
        rintro rfl
        cases hc
      have hall : ∀ x ∈ c :: cs, isDigitOrGap 10 x := by
        refine forall_mem_cons.2 ⟨?_, hcs⟩
        simp [isDigitOrGap, isSome_digitValue?_ten, hc]
      rcases spells_of_digitOrGap (m := decimal) hall with heq | ⟨n, hn⟩
      · exact absurd (eq_of_mem_replicate (heq ▸ mem_cons_self)) hgap
      · exact .inl ⟨n, c :: cs, rfl, hn, fun _ => by simpa using hgap⟩
    · rintro (⟨n, ds, hw, hn, hhead⟩ | ⟨hm, _⟩)
      · rw [hw]
        cases ds with
        | nil => exact absurd rfl hn.ne_nil
        | cons c cs =>
          have hgap : c ≠ '_' := by simpa using hhead rfl
          obtain ⟨hc, hcs⟩ := forall_mem_cons.1 hn.digitOrGap
          refine ⟨c, cs, rfl, ?_, hcs⟩
          simpa [isDigitOrGap, hgap, base, isSome_digitValue?_ten] using hc
      · exact absurd rfl hm
  · rw [matches_of_lead hm]
    constructor
    · rintro ⟨ds, rfl, hne, hds⟩
      rcases spells_of_digitOrGap hds with heq | ⟨n, hn⟩
      · obtain ⟨c, cs, rfl⟩ := exists_cons_of_ne_nil hne
        exact .inr ⟨hm, cs.length, by rw [heq]; rfl⟩
      · exact .inl ⟨n, ds, rfl, hn, fun h => absurd h hm⟩
    · rintro (⟨n, ds, rfl, hn, _⟩ | ⟨_, gaps, rfl⟩)
      · refine ⟨ds, rfl, ?_, hn.digitOrGap⟩
        rintro rfl
        exact hn.ne_nil rfl
      · refine ⟨_, rfl, cons_ne_nil _ _, fun c hc => ?_⟩
        rw [eq_of_mem_replicate (n := gaps + 1) hc]
        rfl

theorem unskipped (h : m.shape.Matches w) (rest : List Char) : Scanner.Unskipped (w ++ rest) := by
  obtain ⟨c, cs, rfl, hc⟩ : ∃ c cs, w = c :: cs ∧ isDigit c := by
    cases m with
    | decimal =>
      obtain ⟨c, cs, rfl, hc, _⟩ := h
      exact ⟨c, cs, rfl, hc⟩
    | hex | octal | binary =>
      obtain ⟨ds, rfl, _⟩ := h
      exact ⟨'0', _, rfl, by decide⟩
  refine Scanner.unskipped_cons (fun hblank => ?_) fun _ hslash => ?_
  · rw [(Shape.not_digit_of_isBlank hblank).1] at hc
    cases hc
  · subst hslash
    cases hc

theorem token?_lead (m : Numeral) (ds : List Char) :
    m.shape.token? (m.lead ++ ds) = (ClassLang.integer? m.base ds).map .int := by
  cases m <;> rfl

theorem token?_vacant (h : m.Vacant w) : m.shape.token? w = none := by
  obtain ⟨_, gaps, rfl⟩ := h
  have hnil : ('_' :: replicate gaps '_').filter (· ≠ '_') = [] := by simp
  rw [token?_lead, ClassLang.integer?, hnil]
  rfl

theorem token?_writes (h : m.Writes n w) :
    m.shape.token? w = if n < 2 ^ 64 then some (.int (Int64.ofNat n)) else none := by
  obtain ⟨ds, rfl, hn, _⟩ := h
  rw [token?_lead, hn.integer?]
  split <;> rfl

theorem next_eq_answer (h : m.shape.Matches w) (hends : Shape.Ends w rest) (pos : Nat) :
    Scanner.next ⟨w ++ rest, pos⟩ =
      (Scanner.answer m.shape w pos, ⟨rest, pos + Scanner.byteSize w⟩) := by
  refine Scanner.next_of_fits (.of_ends h hends fun hword => ?_) (unskipped h rest) pos
  cases m <;> cases hword

end Numeral

open Numeral Scanner

/-- Every integer literal, in any base, with zeros in front and gaps, is read as one token for its
value, taken as a signed word of 64 bits. It is an error as a whole if its value is no word, or if
it has no digit. -/
theorem next_numeral (m : Numeral) (w : List Char) :
    (m.shape.Matches w ↔ (∃ n, m.Writes n w) ∨ m.Vacant w) ∧
    ∀ rest pos, Shape.Ends w rest →
      (∀ n, m.Writes n w → n < 2 ^ 64 → ∃ v : Int64, v.toInt ≡ n [ZMOD 2 ^ 64] ∧
        next ⟨w ++ rest, pos⟩ = (.ok ⟨.int v, ⟨pos, pos + byteSize w⟩⟩, ⟨rest, pos + byteSize w⟩)) ∧
      ((∃ n, m.Writes n w ∧ 2 ^ 64 ≤ n) ∨ m.Vacant w → next ⟨w ++ rest, pos⟩ =
        (.error ⟨String.ofList w, ⟨pos, pos + byteSize w⟩⟩, ⟨rest, pos + byteSize w⟩)) := by
  refine ⟨m.matches_iff w, fun rest pos hends =>
    ⟨fun n hn hlt => ⟨Int64.ofNat n, ?_, ?_⟩, fun herror => ?_⟩⟩
  · rw [Int64.toInt_ofNat']
    exact Int.bmod_emod
  · rw [next_eq_answer ((m.matches_iff w).2 (.inl ⟨n, hn⟩)) hends, answer,
      token?_writes hn, if_pos hlt]
  · have hmatches : m.shape.Matches w :=
      (m.matches_iff w).2 (herror.imp_left fun ⟨n, hn, _⟩ => ⟨n, hn⟩)
    have hnone : m.shape.token? w = none := by
      rcases herror with ⟨n, hn, hle⟩ | hvacant
      · rw [token?_writes hn, if_neg (Nat.not_lt.2 hle)]
      · exact token?_vacant hvacant
    rw [next_eq_answer hmatches hends, answer, hnone]

theorem next_numeral_wraps :
    hex.Writes (2 ^ 64 - 1) "0x_0FFFF_ffffFfFf__fFfF_".toList ∧
      (∃ v : Int64, v.toInt ≡ (2 ^ 64 - 1 : Nat) [ZMOD 2 ^ 64] ∧
        next ⟨"0x_0FFFF_ffffFfFf__fFfF_".toList ++ [' ', '1'], 5⟩ =
          (.ok ⟨.int v, ⟨5, 29⟩⟩, ⟨[' ', '1'], 29⟩)) ∧
      next ⟨['0', 'b', '_', ' '], 0⟩ = (.error ⟨"0b_", ⟨0, 3⟩⟩, ⟨[' '], 3⟩) := by
  have hwrites : hex.Writes (2 ^ 64 - 1) "0x_0FFFF_ffffFfFf__fFfF_".toList :=
    ⟨"_0FFFF_ffffFfFf__fFfF_".toList, by decide, ⟨1, by decide⟩, nofun⟩
  have hsize : byteSize "0x_0FFFF_ffffFfFf__fFfF_".toList = 24 := by decide
  refine ⟨hwrites, ?_, ?_⟩
  · have hword := ((next_numeral hex _).2 [' ', '1'] 5 (.of_blank (by simp [isBlank]))).1 _
      hwrites (by decide)
    rwa [hsize] at hword
  · exact ((next_numeral binary ['0', 'b', '_']).2 [' '] 0 (.of_blank (by simp [isBlank]))).2
      (.inr ⟨by simp, 0, rfl⟩)

end ClassLang
