import ClassLang.Token.Literal

namespace ClassLang

structure LexError where
  text : String
  span : Span
deriving DecidableEq, Repr, Inhabited

def LexError.message (e : LexError) : String := "unexpected input: '" ++ e.text ++ "'"

structure Scanner where
  rest : List Char
  pos : Nat
deriving DecidableEq, Repr, Inhabited

namespace Scanner

def ofString (s : String) : Scanner := ⟨s.toList, 0⟩

def byteSize (cs : List Char) : Nat := cs.foldl (fun n c => n + c.utf8Size) 0

def skipFrom : Bool → List Char → Nat → Scanner
  | _, [], pos => ⟨[], pos⟩
  | true, c :: cs, pos => skipFrom (c ≠ '\n') cs (pos + c.utf8Size)
  | false, '/' :: '/' :: cs, pos => skipFrom true cs (pos + 2)
  | false, c :: cs, pos =>
    if isBlank c then skipFrom false cs (pos + c.utf8Size) else ⟨c :: cs, pos⟩

def skip (s : Scanner) : Scanner := skipFrom false s.rest s.pos

def cut (s : Scanner) (n : Nat) : List Char × Span × Scanner :=
  let text := s.rest.take n
  let stop := s.pos + byteSize text
  (text, ⟨s.pos, stop⟩, ⟨s.rest.drop n, stop⟩)

/-- The next token, the longest that fits, or the piece that is none. Either way the scanner is
behind it afterwards. At the end of the text the answer is `eof`, however often one asks. -/
def next (s : Scanner) : Except LexError Lexeme × Scanner :=
  let s := s.skip
  match Shape.longest? s.rest with
  | some (shape, n) =>
    let (text, span, after) := s.cut n
    match shape.token? text with
    | some token => (.ok ⟨token, span⟩, after)
    | none => (.error ⟨String.ofList text, span⟩, after)
  | none =>
    match s.rest with
    | [] => (.ok ⟨.eof, ⟨s.pos, s.pos⟩⟩, s)
    | _ :: _ =>
      let (text, span, after) := s.cut 1
      (.error ⟨String.ofList text, span⟩, after)

def items : Nat → Scanner → List (Except LexError Lexeme)
  | 0, _ => []
  | n + 1, s =>
    let (item, after) := s.next
    item :: items n after

def lexemesUpTo : Nat → Scanner → Except LexError (List Lexeme)
  | 0, _ => .ok []
  | n + 1, s =>
    match s.next with
    | (.error e, _) => .error e
    | (.ok l, after) => if l.token = .eof then .ok [l] else (lexemesUpTo n after).map (l :: ·)

end Scanner

def tokenize (s : String) : Except LexError (List Lexeme) :=
  Scanner.lexemesUpTo (s.length + 1) (Scanner.ofString s)

end ClassLang
