import ClassLang.Token.Shape

namespace ClassLang

def digitsValue (base : Nat) (cs : List Char) : Nat :=
  cs.foldl (fun n c => n * base + (digitValue? base c).getD 0) 0

/-- An integer literal fills a word of 64 bits, read as signed. Gaps do not count, but a digit is
needed. -/
def integer? (base : Nat) (cs : List Char) : Option Int64 :=
  match cs.filter (· ≠ '_') with
  | [] => none
  | ds =>
    let n := digitsValue base ds
    if n < Nat.pow 2 64 then some (Int64.ofNat n) else none

def exponentValue : List Char → Int
  | _ :: '-' :: ds => -digitsValue 10 ds
  | _ :: '+' :: ds => digitsValue 10 ds
  | _ :: ds => digitsValue 10 ds
  | [] => 0

def doubleValue (cs : List Char) : Double :=
  let (mantissa, exponent) := (cs.filter (· ≠ '_')).span fun c => c ≠ 'e' ∧ c ≠ 'E'
  let (whole, fraction) := mantissa.span (· ≠ '.')
  let fraction := fraction.drop 1
  Double.ofDecimal (digitsValue 10 (whole ++ fraction)) (exponentValue exponent - fraction.length)

/-- The token that a text of the given shape stands for. Only a number can fail to be one. -/
def Shape.token? : Shape → List Char → Option Token
  | keyword k, _ => some (.keyword k)
  | symbol s, _ => some (.symbol s)
  | decimal, cs => (integer? 10 cs).map .int
  | hex, cs => (integer? 16 (cs.drop 2)).map .int
  | octal, cs => (integer? 8 (cs.drop 2)).map .int
  | binary, cs => (integer? 2 (cs.drop 2)).map .int
  | point, cs => some (.double (doubleValue cs))
  | scientific, cs => some (.double (doubleValue cs))
  | word, cs => some (.ident (String.ofList cs))

end ClassLang
