import ClassLang.Token.Basic

namespace ClassLang

def isBlank (c : Char) : Bool := c = ' ' ∨ c = '\t' ∨ c = '\r' ∨ c = '\n'

def isDigit (c : Char) : Bool := '0' ≤ c ∧ c ≤ '9'

def isLetter (c : Char) : Bool := ('a' ≤ c ∧ c ≤ 'z') ∨ ('A' ≤ c ∧ c ≤ 'Z') ∨ c = '_'

def isWordChar (c : Char) : Bool := isLetter c ∨ isDigit c

def digitValue? (base : Nat) (c : Char) : Option Nat :=
  let v :=
    if isDigit c then c.toNat - '0'.toNat
    else if 'a' ≤ c ∧ c ≤ 'f' then c.toNat - 'a'.toNat + 10
    else if 'A' ≤ c ∧ c ≤ 'F' then c.toNat - 'A'.toNat + 10
    else base
  if v < base then some v else none

def isDigitOrGap (base : Nat) (c : Char) : Bool := c = '_' ∨ (digitValue? base c).isSome

/-- What is read as a keyword; `Keyword.text` is what is shown of it. -/
def Keyword.pattern : Keyword → String
  | .kClass => "class"
  | .kInterface => "interface"
  | .kFn => "fn"
  | .kLoop => "loop"
  | .kWhile => "while"
  | .kBreak => "break"
  | .kReturn => "return"
  | .kThis => "this"
  | .kTrue => "true"
  | .kFalse => "false"
  | .kInt => "int"
  | .kDouble => "double"
  | .kBool => "bool"
  | .kModule => "module"
  | .kUsing => "using"

def Symbol.pattern : Symbol → String
  | .plus => "+"
  | .minus => "-"
  | .star => "*"
  | .slash => "/"
  | .percent => "%"
  | .eq => "="
  | .eqEq => "=="
  | .notEq => "!="
  | .lt => "<"
  | .gt => ">"
  | .ltEq => "<="
  | .gtEq => ">="
  | .shl => "<<"
  | .shr => ">>"
  | .andAnd => "&&"
  | .orOr => "||"
  | .not => "!"
  | .amp => "&"
  | .pipe => "|"
  | .caret => "^"
  | .tilde => "~"
  | .question => "?"
  | .atSign => "@"
  | .colonEq => ":="
  | .plusEq => "+="
  | .minusEq => "-="
  | .starEq => "*="
  | .slashEq => "/="
  | .percentEq => "%="
  | .ampEq => "&="
  | .pipeEq => "|="
  | .caretEq => "^="
  | .shlEq => "<<="
  | .shrEq => ">>="
  | .lParen => "("
  | .rParen => ")"
  | .lBrace => "\x7b"
  | .rBrace => "\x7d"
  | .lBracket => "["
  | .rBracket => "]"
  | .comma => ","
  | .colon => ":"
  | .colonColon => "::"
  | .semi => ";"
  | .dot => "."

inductive Shape
  | keyword (k : Keyword)
  | symbol (s : Symbol)
  | decimal
  | hex
  | octal
  | binary
  /-- Digits, a point, digits and perhaps an exponent. -/
  | point
  /-- Digits and an exponent. -/
  | scientific
  | word
deriving DecidableEq, Repr, Inhabited

namespace Shape

/-- Where two shapes fit equally far, the earlier one counts: a keyword is not an identifier. -/
def all : List Shape :=
  Keyword.all.map keyword ++ Symbol.all.map symbol ++
    [decimal, hex, octal, binary, point, scientific, word]

def run (p : Char → Bool) (cs : List Char) : Nat := (cs.takeWhile p).length

def digitsExtent : List Char → Nat
  | c :: cs => if isDigit c then 1 + run (isDigitOrGap 10) cs else 0
  | [] => 0

def exponentExtent : List Char → Nat
  | e :: cs =>
    if e = 'e' ∨ e = 'E' then
      match cs with
      | s :: ds =>
        if s = '+' ∨ s = '-' then
          match run isDigit ds with
          | 0 => 0
          | n => 2 + n
        else
          match run isDigit cs with
          | 0 => 0
          | n => 1 + n
      | [] => 0
    else 0
  | [] => 0

def radixExtent (mark : Char) (base : Nat) : List Char → Nat
  | '0' :: m :: cs =>
    if m = mark then
      match run (isDigitOrGap base) cs with
      | 0 => 0
      | n => 2 + n
    else 0
  | _ => 0

def pointExtent (cs : List Char) : Nat :=
  match digitsExtent cs with
  | 0 => 0
  | n =>
    match cs.drop n with
    | '.' :: fraction =>
      match digitsExtent fraction with
      | 0 => 0
      | k => n + 1 + k + exponentExtent (fraction.drop k)
    | _ => 0

def scientificExtent (cs : List Char) : Nat :=
  match digitsExtent cs with
  | 0 => 0
  | n =>
    match exponentExtent (cs.drop n) with
    | 0 => 0
    | k => n + k

def wordExtent : List Char → Nat
  | c :: cs => if isLetter c then 1 + run isWordChar cs else 0
  | [] => 0

def textExtent (text : List Char) (cs : List Char) : Nat :=
  if text.isPrefixOf cs then text.length else 0

def extent : Shape → List Char → Nat
  | keyword k => textExtent k.pattern.toList
  | symbol s => textExtent s.pattern.toList
  | decimal => digitsExtent
  | hex => radixExtent 'x' 16
  | octal => radixExtent 'o' 8
  | binary => radixExtent 'b' 2
  | point => pointExtent
  | scientific => scientificExtent
  | word => wordExtent

def longest? (cs : List Char) : Option (Shape × Nat) :=
  all.foldl (fun best s => if (best.map Prod.snd).getD 0 < s.extent cs then some
    (s, s.extent cs) else best)
    none

end Shape

end ClassLang
