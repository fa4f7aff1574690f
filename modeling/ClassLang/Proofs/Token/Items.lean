import ClassLang.Proofs.Token.Patterns
import ClassLang.Proofs.Token.Spans

namespace ClassLang

open List

theorem Shape.ne_eof_of_token? {s : Shape} {slice : List Char} {token : Token}
    (h : s.token? slice = some token) : token ≠ .eof := by
  rintro rfl
  cases s with
  | decimal | hex | octal | binary =>
    obtain ⟨_, _, h⟩ := Option.map_eq_some_iff.1 h
    cases h
  | _ => cases h

theorem Shape.one_lt_of_token? {s : Shape} {slice : List Char} (h : s.Matches slice)
    (hnone : s.token? slice = none) : 1 < slice.length := by
  cases s with
  | decimal =>
    obtain ⟨c, cs, rfl, hc, _⟩ := h
    cases cs with
    | nil =>
      have hgap : c ≠ '_' := by
        rintro rfl
        cases hc
      have hlt : (digitValue? 10 c).getD 0 < 10 := by
        cases hv : digitValue? 10 c with
        | none => decide
        | some v =>
          obtain ⟨hlt, heq⟩ := Option.ite_none_right_eq_some.1 hv
          exact Option.some.inj heq ▸ hlt
      simp [token?, integer?, hgap, digitsValue] at hnone
      omega
    | cons => simp
  | hex | octal | binary =>
    obtain ⟨ds, rfl, _⟩ := h
    simp
  | _ => cases hnone

namespace Scanner

def Skips (w : List Char) : Prop :=
  Shape.Run isBlank w ∨ ∃ body, w = '/' :: '/' :: body ∧ '\n' ∉ body

def Unskipped (cs : List Char) : Prop := ∀ w rest, cs = w ++ rest → ¬ Skips w

def LineEnd (cs : List Char) : Prop := cs = [] ∨ ∃ rest, cs = '\n' :: rest

inductive Gap : List Char → List Char → Prop
  | nil {rest} : Gap [] rest
  | blank {c gap rest} : isBlank c → Gap gap rest → Gap (c :: gap) rest
  | comment {body gap rest} : '\n' ∉ body → LineEnd (gap ++ rest) → Gap gap rest →
      Gap ('/' :: '/' :: (body ++ gap)) rest

def Reports (slice rest : List Char) : Except LexError Lexeme → Prop
  | .ok l => ∃ s : Shape, s.Fits slice rest ∧ s.token? slice = some l.token
  | .error e =>
    e.text = String.ofList slice ∧
      (1 < slice.length ∧ (∃ s : Shape, s.Fits slice rest ∧ s.token? slice = none) ∨
        slice.length = 1 ∧ ∀ (s : Shape) w rest', slice ++ rest = w ++ rest' → ¬ s.Matches w)

def spanOf : Except LexError Lexeme → Span
  | .ok l => l.span
  | .error e => e.span

def eofAt (pos : Nat) : Lexeme := ⟨.eof, ⟨pos, pos⟩⟩

def Located (text : String) (item : Except LexError Lexeme) : Prop :=
  ∃ before slice rest, text.toList = before ++ (slice ++ rest) ∧ slice ≠ [] ∧
    spanOf item = ⟨byteSize before, byteSize (before ++ slice)⟩ ∧ Unskipped (slice ++ rest) ∧
    Reports slice rest item

inductive Scans : List Char → Nat → List (Except LexError Lexeme) → Prop
  | done {gap pos} : Gap gap [] → Scans gap pos []
  | item {gap slice rest pos item found} : Gap gap (slice ++ rest) → Unskipped (slice ++ rest) →
      slice ≠ [] → Reports slice rest item →
      spanOf item = ⟨pos + byteSize gap, pos + byteSize gap + byteSize slice⟩ →
      Scans rest (pos + byteSize gap + byteSize slice) found →
        Scans (gap ++ (slice ++ rest)) pos (item :: found)

variable {text : String} {s : Scanner} {c : Char} {cs w gap body slice before rest : List Char}
  {pos k : Nat} {item : Except LexError Lexeme} {found : List (Except LexError Lexeme)}

theorem unskipped_nil : Unskipped [] := by
  rintro w rest hw (⟨hne, _⟩ | ⟨body, rfl, _⟩)
  · exact hne (append_eq_nil_iff.1 hw.symm).1
  · cases hw

theorem unskipped_cons (hblank : ¬ isBlank c) (hcomment : ∀ rest, c = '/' → cs ≠ '/' :: rest) :
    Unskipped (c :: cs) := by
  rintro w rest hw (⟨hne, hall⟩ | ⟨body, rfl, _⟩)
  · obtain ⟨x, xs, rfl⟩ := exists_cons_of_ne_nil hne
    cases hw
    exact hblank (hall c mem_cons_self)
  · cases hw
    exact hcomment _ rfl rfl

/-- Where a comment is left, its line ends. -/
theorem skipFrom_gap (comment : Bool) (cs : List Char) (pos : Nat) :
    ∃ body gap rest, cs = body ++ (gap ++ rest) ∧
      skipFrom comment cs pos = ⟨rest, pos + byteSize (body ++ gap)⟩ ∧ Gap gap rest ∧
      Unskipped rest ∧ if comment then '\n' ∉ body ∧ LineEnd (gap ++ rest) else body = [] := by
  fun_induction skipFrom comment cs pos with
  | case1 comment pos =>
    refine ⟨[], [], [], rfl, rfl, .nil, unskipped_nil, ?_⟩
    split
    · exact ⟨not_mem_nil, .inl rfl⟩
    · rfl
  | case2 c cs pos ih =>
    obtain ⟨body, gap, rest, rfl, hskip, hgap, hrest, hbody⟩ := ih
    by_cases hc : c = '\n'
    · subst hc
      cases hbody
      refine ⟨[], '\n' :: gap, rest, rfl, ?_, .blank rfl hgap, hrest, not_mem_nil, .inr ⟨_, rfl⟩⟩
      rw [hskip, nil_append, nil_append, byteSize_cons, Nat.add_assoc]
    · rw [if_pos (by simpa using hc)] at hbody
      refine ⟨c :: body, gap, rest, rfl, ?_, hgap, hrest, ?_, hbody.2⟩
      · rw [hskip, cons_append, byteSize_cons, Nat.add_assoc]
      · exact not_mem_cons_of_ne_of_not_mem (Ne.symm hc) hbody.1
  | case3 cs pos ih =>
    obtain ⟨body, gap, rest, rfl, hskip, hgap, hrest, hbody, hend⟩ := ih
    refine ⟨[], '/' :: '/' :: (body ++ gap), rest, ?_, ?_, .comment hbody hend hgap, hrest, rfl⟩
    · rw [nil_append, cons_append, cons_append, append_assoc]
    · rw [hskip, nil_append, byteSize_cons, byteSize_cons, ← Nat.add_assoc, ← Nat.add_assoc]
      rfl
  | case4 c cs pos _ hc ih =>
    obtain ⟨body, gap, rest, rfl, hskip, hgap, hrest, rfl⟩ := ih
    refine ⟨[], c :: gap, rest, rfl, ?_, .blank hc hgap, hrest, rfl⟩
    rw [hskip, nil_append, nil_append, byteSize_cons, Nat.add_assoc]
  | case5 c cs pos hcomment hc =>
    refine ⟨[], [], c :: cs, rfl, rfl, .nil, unskipped_cons hc fun rest hslash hcs => ?_, rfl⟩
    exact hcomment rest hslash hcs

theorem skip_gap (s : Scanner) :
    ∃ gap rest, s.rest = gap ++ rest ∧ s.skip = ⟨rest, s.pos + byteSize gap⟩ ∧ Gap gap rest ∧
      Unskipped rest := by
  obtain ⟨body, gap, rest, hs, hskip, hgap, hrest, rfl⟩ := skipFrom_gap false s.rest s.pos
  exact ⟨gap, rest, hs, hskip, hgap, hrest⟩

/-- A call passes a gap and a slice, or stays at the end. -/
theorem next_cases (s : Scanner) :
    ∃ gap rest, s.rest = gap ++ rest ∧ Gap gap rest ∧ Unskipped rest ∧
      (rest = [] ∧ s.next = (.ok (eofAt (s.pos + byteSize gap)), ⟨[], s.pos + byteSize gap⟩) ∨
        ∃ slice after item, rest = slice ++ after ∧ slice ≠ [] ∧ Reports slice after item ∧
        spanOf item = ⟨s.pos + byteSize gap, s.pos + byteSize gap + byteSize slice⟩ ∧
        s.next = (item, ⟨after, s.pos + byteSize gap + byteSize slice⟩)) := by
  obtain ⟨gap, rest, hs, hskip, hgap, hrest⟩ := s.skip_gap
  refine ⟨gap, rest, hs, hgap, hrest, ?_⟩
  unfold next
  rw [hskip]
  dsimp only
  split
  · rename_i shape n hlongest
    obtain ⟨slice, after, rfl, rfl, hfits⟩ := Shape.fits_of_longest? hlongest
    have hne : slice ≠ [] := ne_nil_of_length_pos hfits.fits.pos
    right
    rw [cut, take_left, drop_left]
    dsimp only
    cases htoken : shape.token? slice with
    | some token =>
      refine ⟨slice, after, _, rfl, hne, ?_, rfl, rfl⟩
      exact ⟨shape, hfits, htoken⟩
    | none =>
      refine ⟨slice, after, _, rfl, hne, ?_, rfl, rfl⟩
      exact ⟨rfl, .inl ⟨Shape.one_lt_of_token? hfits.fits htoken, shape, hfits, htoken⟩⟩
  · rename_i hlongest
    cases rest with
    | nil => exact .inl ⟨rfl, rfl⟩
    | cons c rest =>
      refine .inr ⟨[c], rest, _, rfl, cons_ne_nil _ _, ?_, rfl, rfl⟩
      exact ⟨rfl, .inr ⟨rfl, fun _ _ _ => Shape.not_matches_of_longest? hlongest⟩⟩

theorem items_atEnd (h : s.next = (.ok (eofAt pos), ⟨[], pos⟩)) (k : Nat) :
    s.items k = replicate k (.ok (eofAt pos)) := by
  induction k generalizing s with
  | zero => rfl
  | succ k ih =>
    rw [items, h, replicate_succ, ← ih (s := ⟨[], pos⟩) rfl]

theorem mem_items_add {n : Nat} (h : item ∈ s.items n) : item ∈ s.items (k + n) := by
  induction n generalizing s with
  | zero => cases h
  | succ n ih =>
    rcases mem_cons.1 h with rfl | hmem
    · exact mem_cons_self
    · exact mem_cons_of_mem _ (ih hmem)

/-- All items, and after them the end of the text for ever. -/
theorem exists_scans (s : Scanner) :
    ∃ found, Scans s.rest s.pos found ∧ found.length ≤ s.rest.length ∧
      ∀ k, s.items (found.length + k) = found ++ replicate k
      (.ok (eofAt (s.pos + byteSize s.rest))) ∧ s.lexemesUpTo (found.length + k + 1) =
      (found.mapM id).map (· ++ [eofAt (s.pos + byteSize s.rest)]) := by
  obtain ⟨gap, rest, hs, hgap, hrest,
    ⟨rfl, hnext⟩ | ⟨slice, after, item, rfl, hne, hreports, hspan, hnext⟩⟩ := s.next_cases
  · rw [append_nil] at hs
    rw [hs]
    refine ⟨[], .done hgap, Nat.zero_le _, fun k => ⟨?_, ?_⟩⟩
    · rw [length_nil, Nat.zero_add, items_atEnd hnext, nil_append]
    · rw [lexemesUpTo, hnext]
      rfl
  · obtain ⟨found, hscans, hlen, hfound⟩ :=
      exists_scans ⟨after, s.pos + byteSize gap + byteSize slice⟩
    have hpos : s.pos + byteSize gap + byteSize slice + byteSize after =
        s.pos + byteSize s.rest := by
      rw [hs, byteSize_append, byteSize_append, Nat.add_assoc, Nat.add_assoc]
    rw [hpos] at hfound
    refine ⟨item :: found, hs ▸ .item hgap hrest hne hreports hspan hscans, ?_, fun k => ?_⟩
    · have hslice := length_pos_iff.2 hne
      rw [hs, length_append, length_append, length_cons]
      dsimp only at hlen
      omega
    · obtain ⟨hitems, hlexemes⟩ := hfound k
      rw [length_cons, Nat.add_right_comm]
      refine ⟨?_, ?_⟩
      · rw [items, hnext, cons_append, ← hitems]
      · rw [lexemesUpTo, hnext]
        cases item with
        | error e => rfl
        | ok l =>
          obtain ⟨_, _, htoken⟩ := hreports
          dsimp only
          rw [if_neg (Shape.ne_eof_of_token? htoken), hlexemes, mapM_cons]
          generalize mapM id found = answer
          cases answer <;> rfl
termination_by s.rest.length
decreasing_by
  have hslice := length_pos_iff.2 hne
  rw [hs, length_append, length_append]
  omega

theorem Scans.of_mem (h : Scans cs pos found) (hbefore : text.toList = before ++ cs)
    (hpos : pos = byteSize before) (hitem : item ∈ found) : Located text item := by
  induction h generalizing before with
  | done => cases hitem
  | @item gap slice rest pos item' found _ hun hne hreports hspan _ ih =>
    have hgap : text.toList = (before ++ gap) ++ (slice ++ rest) := by rw [hbefore, append_assoc]
    have hstart : pos + byteSize gap = byteSize (before ++ gap) := by rw [byteSize_append, hpos]
    have hstop : pos + byteSize gap + byteSize slice = byteSize (before ++ gap ++ slice) := by
      rw [byteSize_append, hstart]
    rcases mem_cons.1 hitem with rfl | hmem
    · exact ⟨before ++ gap, slice, rest, hgap, hne, hstart ▸ hstop ▸ hspan, hun, hreports⟩
    · rw [← append_assoc] at hgap
      exact ih hgap hstop hmem

theorem Scans.located (h : Scans text.toList 0 found) (hitem : item ∈ found) : Located text item :=
  h.of_mem (nil_append text.toList).symm rfl hitem

/-- Items do not overlap, and begin where what is left begins or later. -/
theorem Scans.ordered (h : Scans cs pos found) :
    (found.map spanOf).Pairwise (fun a b => a.stop ≤ b.start) ∧
      ∀ item ∈ found, pos ≤ (spanOf item).start := by
  induction h with
  | done => exact ⟨.nil, forall_mem_nil _⟩
  | item _ _ _ _ hspan _ ih =>
    obtain ⟨hpairwise, hafter⟩ := ih
    refine ⟨?_, forall_mem_cons.2 ⟨?_, fun item hitem => ?_⟩⟩
    · rw [map_cons, pairwise_cons, hspan]
      exact ⟨fun b hb => by
        obtain ⟨item, hitem, rfl⟩ := mem_map.1 hb
        exact hafter item hitem, hpairwise⟩
    · rw [hspan]
      exact Nat.le_add_right _ _
    · have hle := hafter item hitem
      omega

end Scanner

open Scanner

variable {text : String} {item : Except LexError Lexeme} {found : List (Except LexError Lexeme)}

theorem exists_found (text : String) :
    ∃ found, Scans text.toList 0 found ∧ found.length ≤ text.length ∧
      (∀ k, (ofString text).items (found.length + k) = found ++ replicate k
        (.ok (eofAt text.utf8ByteSize))) ∧ tokenize text = (found.mapM id).map
      (· ++ [eofAt text.utf8ByteSize]) := by
  have hsize : (ofString text).pos + byteSize (ofString text).rest = text.utf8ByteSize := by
    rw [ofString, byteSize_toList, Nat.zero_add]
  obtain ⟨found, hscans, hlen, hfound⟩ := exists_scans (ofString text)
  rw [hsize] at hfound
  refine ⟨found, hscans, hlen, fun k => (hfound k).1, ?_⟩
  obtain ⟨k, hk⟩ := Nat.le.dest hlen
  rw [tokenize, show text.length = found.length + k from hk.symm]
  exact (hfound k).2

theorem inText_of_found (h : Scans text.toList 0 found) (hitem : item ∈ found) :
    (spanOf item).InText text := by
  obtain ⟨before, slice, rest, htext, _, hspan, _⟩ := h.located hitem
  rw [hspan]
  refine .of_valid ?_ (valid_byteSize htext) ?_
  · rw [byteSize_append]
    exact Nat.le_add_right _ _
  · rw [← append_assoc] at htext
    exact valid_byteSize htext

theorem mem_of_mapM (found : List (Except LexError Lexeme)) : match found.mapM id with
    | .ok ls => ∀ l ∈ ls, .ok l ∈ found
    | .error e => .error e ∈ found := by
  induction found with
  | nil => exact forall_mem_nil _
  | cons item found ih =>
    rw [mapM_cons]
    cases item with
    | error e => exact mem_cons_self
    | ok l =>
      generalize found.mapM id = answer at ih ⊢
      cases answer with
      | error e => exact mem_cons_of_mem _ ih
      | ok ls => exact forall_mem_cons.2 ⟨mem_cons_self, fun l hl => mem_cons_of_mem _ (ih l hl)⟩

/-- Tokens and what is none are pieces of the text. -/
theorem inText_of_tokenize (text : String) : match tokenize text with
    | .ok ls => ∀ l ∈ ls, l.span.InText text
    | .error e => e.span.InText text := by
  obtain ⟨found, hscans, _, _, htokenize⟩ := exists_found text
  have hmem := mem_of_mapM found
  rw [htokenize]
  generalize found.mapM id = answer at hmem ⊢
  cases answer with
  | error e => exact inText_of_found hscans hmem
  | ok ls =>
    have hend : String.Pos.Raw.IsValid text ⟨text.utf8ByteSize⟩ := by
      rw [← byteSize_toList]
      exact valid_byteSize (append_nil _).symm
    refine forall_mem_append.2
      ⟨fun l hl => inText_of_found hscans (hmem l hl), forall_mem_singleton.2 ?_⟩
    exact .of_valid (Nat.le_refl _) hend hend

theorem span_of_tokenize {ls : List Lexeme} (h : tokenize text = .ok ls) :
    ∀ l ∈ ls, l.span.InText text := by
  have hspans := inText_of_tokenize text
  rw [h] at hspans
  exact hspans

theorem span_of_lexError {e : LexError} (h : tokenize text = .error e) : e.span.InText text := by
  have hspan := inText_of_tokenize text
  rw [h] at hspan
  exact hspan

/-- The items of a text are all there is in it but gaps, and `tokenize` gives them, or the first
that is no token. -/
theorem items_cover (text : String) :
    ∃ found, Scans text.toList 0 found ∧
      (found.map spanOf).Pairwise (fun a b => a.stop ≤ b.start) ∧
      (∀ item ∈ found, (spanOf item).InText text ∧ (spanOf item).start < (spanOf item).stop) ∧
      (∀ l, .ok l ∈ found → l.token ≠ .eof) ∧ found.length ≤ text.utf8ByteSize ∧
      (∀ k, (ofString text).items (found.length + k) =
        found ++ replicate k (.ok (eofAt text.utf8ByteSize))) ∧
      tokenize text = (found.mapM id).map (· ++ [eofAt text.utf8ByteSize]) := by
  obtain ⟨found, hscans, hlen, hitems, htokenize⟩ := exists_found text
  refine ⟨found, hscans, hscans.ordered.1, fun item hitem => ⟨inText_of_found hscans hitem, ?_⟩,
    fun l hl => ?_, ?_, hitems, htokenize⟩
  · obtain ⟨before, slice, _, _, hne, hspan, _⟩ := hscans.located hitem
    have hpos := Nat.lt_of_lt_of_le (length_pos_iff.2 hne) (length_le_byteSize slice)
    rw [hspan, byteSize_append]
    exact Nat.lt_add_of_pos_right hpos
  · obtain ⟨_, _, _, _, _, _, _, _, _, htoken⟩ := hscans.located hl
    exact Shape.ne_eof_of_token? htoken
  · rw [← byteSize_toList]
    exact Nat.le_trans hlen (length_le_byteSize _)

/-- Before the end, every item is about the longest text that has a shape, or about a character that
begins none. -/
theorem items_longest {n : Nat} (h : item ∈ (ofString text).items n) :
    item = .ok (eofAt text.utf8ByteSize) ∨ Located text item := by
  obtain ⟨found, hscans, _, hitems, _⟩ := exists_found text
  have hmem := mem_items_add (k := found.length) h
  rw [hitems] at hmem
  rcases mem_append.1 hmem with hfound | hend
  · exact .inr (hscans.located hfound)
  · exact .inl (eq_of_mem_replicate hend)

theorem items_longest_backtracks :
    .error ⟨"0x_", ⟨4, 7⟩⟩ ∈ (ofString "1e+=0x_").items 4 ∧
      Located "1e+=0x_" (.error ⟨"0x_", ⟨4, 7⟩⟩) := by
  have hitems : (ofString "1e+=0x_").items 4 = [.ok ⟨.int 1, ⟨0, 1⟩⟩, .ok ⟨.ident "e", ⟨1, 2⟩⟩,
      .ok ⟨.symbol .plusEq, ⟨2, 4⟩⟩, .error ⟨"0x_", ⟨4, 7⟩⟩] := by decide +kernel
  have hmem : .error ⟨"0x_", ⟨4, 7⟩⟩ ∈ (ofString "1e+=0x_").items 4 := by simp [hitems]
  exact ⟨hmem, (items_longest hmem).resolve_left fun h => by cases h⟩

end ClassLang
