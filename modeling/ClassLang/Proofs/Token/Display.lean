import ClassLang.Proofs.Token.Numerals

namespace ClassLang

open List

/-- No token begins as a comment does, so none is skipped. -/
theorem Shape.Matches.unskipped {s : Shape} {w rest : List Char} (h : s.Matches w)
    (hrest : ∀ c ∈ rest.head?, isBlank c) : Scanner.Unskipped (w ++ rest) := by
  obtain ⟨c, cs, rfl⟩ := exists_cons_of_ne_nil (ne_nil_of_length_pos h.pos)
  refine Scanner.unskipped_cons (h.not_blank c mem_cons_self) fun more hslash hcs => ?_
  subst hslash
  cases cs with
  | nil =>
    subst hcs
    exact absurd (hrest '/' rfl) (by decide)
  | cons d cs =>
    obtain ⟨rfl, _⟩ := cons.inj hcs
    have hkind := kind?_of_matches h
    have hnone : kind? ('/' :: '/' :: cs) = none := by
      simp [kind?, isLetter, isDigit, Symbol.all, Symbol.pattern]
    rw [hnone] at hkind
    cases hkind

/-- What is shown of a keyword is what is read as one. -/
theorem Keyword.pattern_eq_text (k : Keyword) : k.pattern = k.text := by cases k <;> rfl

theorem Symbol.pattern_eq_text (s : Symbol) : s.pattern = s.text := by cases s <;> rfl

namespace Token

variable {t : Token} {ts : List Token} {rest : List Char}

/-- The tokens that are read again from their texts: neither doubles nor numbers below zero, nor the
end. -/
def Plain : Token → Prop
  | keyword _ | symbol _ => True
  | int v => 0 ≤ v.toInt
  | ident name => Shape.word.Matches name.toList ∧ ∀ k : Keyword, name ≠ k.text
  | double _ | eof => False

theorem writes_int {v : Int64} (h : 0 ≤ v.toInt) :
    Numeral.decimal.Writes v.toInt.toNat (int v).text.toList := by
  have htext : (int v).text.toList = Nat.toDigits 10 v.toInt.toNat := by
    rw [text, Int.toString_eq_repr, Int.repr_eq_if, if_pos h, Nat.repr_eq_ofList_toDigits,
      String.toList_ofList]
  rw [htext]
  generalize v.toInt.toNat = n
  have hdigit : ∀ c ∈ Nat.toDigits 10 n, c.isDigit :=
    fun c hc => Nat.isDigit_of_mem_toDigits (by decide) (by decide) hc
  have hgap : '_' ∉ Nat.toDigits 10 n := fun hmem => absurd (hdigit '_' hmem) (by decide)
  have hlower : ∀ c ∈ Nat.toDigits 10 n, c.toLower = c := by
    intro c hc
    have hle : c.toNat ≤ 57 := (Char.isDigit_iff_toNat.1 (hdigit c hc)).2
    rw [← Char.toNat_inj, toNat_toLower, if_neg (by omega)]
  refine ⟨Nat.toDigits 10 n, rfl, ⟨0, ?_⟩, fun _ hhead => hgap (mem_of_mem_head? hhead)⟩
  rw [filter_eq_self.2 fun c hc => by simpa using ne_of_mem_of_not_mem hc hgap,
    map_congr_left hlower, map_id']
  rfl

/-- The text of a plain token has a shape, and stands for this token and no other. -/
theorem Plain.shape (h : t.Plain) :
    ∃ s : Shape, s.Matches t.text.toList ∧ s.token? t.text.toList = some t ∧
      (s = .word → ∀ k : Keyword, t.text.toList ≠ k.pattern.toList) := by
  cases t with
  | keyword k => exact ⟨.keyword k, congrArg String.toList k.pattern_eq_text.symm, rfl, nofun⟩
  | symbol s => exact ⟨.symbol s, congrArg String.toList s.pattern_eq_text.symm, rfl, nofun⟩
  | int v =>
    have hwrites := writes_int h
    refine ⟨.decimal, (Numeral.matches_iff .decimal _).2 (.inl ⟨_, hwrites⟩), ?_, nofun⟩
    have hlt : v.toInt.toNat < 2 ^ 64 := by
      have hword := v.toInt_lt
      omega
    have hofNat : Int64.ofNat v.toInt.toNat = v := by
      rw [← Int64.ofInt_eq_ofNat, Int.toNat_of_nonneg h, Int64.ofInt_toInt]
    rw [show Shape.decimal = Numeral.decimal.shape from rfl, Numeral.token?_writes hwrites,
      if_pos hlt, hofNat]
  | ident name =>
    obtain ⟨hword, hkeyword⟩ := h
    refine ⟨.word, hword, ?_, fun _ k hk =>
      hkeyword k ((String.toList_inj.1 hk).trans k.pattern_eq_text)⟩
    rw [Shape.token?, text, String.ofList_toList]
  | double v => cases h
  | eof => cases h

def spaced (ts : List Token) : List Char := ts.flatMap fun t => ' ' :: t.text.toList

theorem isBlank_of_spaced (ts : List Token) : ∀ c ∈ (spaced ts).head?, isBlank c := by
  cases ts with
  | nil => exact nofun
  | cons t ts =>
    rintro c ⟨⟩
    decide

theorem length_le_spaced (ts : List Token) : ts.length ≤ (spaced ts).length := by
  induction ts with
  | nil => exact Nat.le_refl 0
  | cons t ts ih =>
    rw [spaced, flatMap_cons, ← spaced, length_append, length_cons, length_cons]
    omega

theorem toList_intercalate (t : Token) (ts : List Token) :
    (" ".intercalate ((t :: ts).map text)).toList = t.text.toList ++ spaced ts := by
  rw [String.toList_intercalate]
  induction ts generalizing t with
  | nil => simp [spaced]
  | cons u ts ih =>
    rw [map_cons, map_cons, map_cons, map_cons, intercalate_cons_cons, ← map_cons, ← map_cons, ih]
    simp [spaced]

end Token

namespace Scanner

variable {t : Token} {ts : List Token} {rest : List Char}

theorem next_blank (cs : List Char) (pos : Nat) : next ⟨' ' :: cs, pos⟩ = next ⟨cs, pos + 1⟩ := rfl

theorem lexemesUpTo_token (h : t.Plain) (hrest : ∀ c ∈ rest.head?, isBlank c) (n pos : Nat) :
    ∃ span after, lexemesUpTo (n + 1) ⟨t.text.toList ++ rest, pos⟩ =
      (lexemesUpTo n ⟨rest, after⟩).map (⟨t, span⟩ :: ·) := by
  obtain ⟨s, hmatches, htoken, hword⟩ := h.shape
  have hnext := next_of_fits (.of_ends hmatches (.of_blank hrest) hword)
    (hmatches.unskipped hrest) pos
  rw [answer, htoken] at hnext
  refine ⟨⟨pos, pos + byteSize t.text.toList⟩, pos + byteSize t.text.toList, ?_⟩
  rw [lexemesUpTo, hnext]
  exact if_neg (Shape.ne_eof_of_token? htoken)

theorem lexemesUpTo_spaced (h : ∀ t ∈ ts, t.Plain) (k pos : Nat) :
    ∃ ls, lexemesUpTo (ts.length + k + 1) ⟨Token.spaced ts, pos⟩ = .ok ls ∧
      ls.map Lexeme.token = ts ++ [.eof] := by
  induction ts generalizing pos with
  | nil => exact ⟨[eofAt pos], rfl, rfl⟩
  | cons t ts ih =>
    obtain ⟨ht, hts⟩ := forall_mem_cons.1 h
    obtain ⟨span, after, hstep⟩ :=
      lexemesUpTo_token ht (Token.isBlank_of_spaced ts) (ts.length + k + 1) (pos + 1)
    obtain ⟨ls, hls, htokens⟩ := ih hts after
    refine ⟨⟨t, span⟩ :: ls, ?_, ?_⟩
    · rw [length_cons, Nat.add_right_comm ts.length 1 k, lexemesUpTo, Token.spaced, flatMap_cons,
        cons_append, next_blank, ← lexemesUpTo]
      rw [← Token.spaced, hstep, hls]
      rfl
    · rw [map_cons, htokens]
      rfl

end Scanner

/-- The texts of plain tokens with blanks between them are read as the same tokens. -/
theorem tokenize_texts (ts : List Token) (h : ∀ t ∈ ts, t.Plain) :
    ∃ ls, tokenize (" ".intercalate (ts.map Token.text)) = .ok ls ∧
      ls.map Lexeme.token = ts ++ [.eof] := by
  cases ts with
  | nil =>
    rw [map_nil, String.intercalate_nil, tokenize, Scanner.ofString, String.length_empty,
      String.toList_empty]
    exact Scanner.lexemesUpTo_spaced h 0 0
  | cons t ts =>
    obtain ⟨ht, hts⟩ := forall_mem_cons.1 h
    have htext := Token.toList_intercalate t ts
    obtain ⟨k, hk⟩ : ∃ k, (" ".intercalate ((t :: ts).map Token.text)).length =
      ts.length + k + 1 := by
      obtain ⟨s, hmatches, _⟩ := ht.shape
      have hpos := hmatches.pos
      have hle := Token.length_le_spaced ts
      refine ⟨t.text.toList.length - 1 + ((Token.spaced ts).length - ts.length), ?_⟩
      rw [← String.length_toList, htext, length_append]
      omega
    obtain ⟨span, after, hstep⟩ := Scanner.lexemesUpTo_token ht (Token.isBlank_of_spaced ts)
      (ts.length + k + 1) 0
    obtain ⟨ls, hls, htokens⟩ := Scanner.lexemesUpTo_spaced hts k after
    refine ⟨⟨t, span⟩ :: ls, ?_, ?_⟩
    · rw [tokenize, Scanner.ofString, htext, hk, hstep, hls]
      rfl
    · rw [map_cons, htokens]
      rfl

theorem tokenize_texts_symbols :
    ∃ ls, tokenize "< <= << <<= 0 classes class" = .ok ls ∧
      ls.map Lexeme.token = [.symbol .lt, .symbol .ltEq, .symbol .shl, .symbol .shlEq, .int 0,
        .ident "classes", .keyword .kClass, .eof] := by
  have hword : Token.Plain (.ident "classes") :=
    ⟨⟨'c', "lasses".toList, by decide, by decide, all_eq_true.1 rfl⟩,
      fun k => by cases k <;> decide⟩
  exact tokenize_texts [.symbol .lt, .symbol .ltEq, .symbol .shl, .symbol .shlEq, .int 0,
    .ident "classes", .keyword .kClass] (by simpa [Token.Plain] using hword)

end ClassLang
