namespace ClassLang

/-- A double-precision number that is not negative: `finite m q` is `m * 2 ^ q`, with `m < 2 ^ 53`
and `-1074 ≤ q ≤ 971`. -/
inductive Double
  | finite (mantissa : Nat) (exponent : Int)
  | infinity
deriving DecidableEq, Repr, Inhabited

namespace Double

def roundDiv (n d : Nat) : Nat :=
  let q := n / d
  let r := n % d
  if 2 * r < d ∨ (2 * r = d ∧ q % 2 = 0) then q else q + 1

def scale (base n d : Nat) (e : Int) : Nat × Nat :=
  if e < 0 then (n, d * base.pow (-e).toNat) else (n * base.pow e.toNat, d)

def ofRatio (n d : Nat) : Double :=
  if n = 0 then .finite 0 (-1074)
  else
    let q : Int := (n.log2 : Int) - d.log2 - 53
    let (a, b) := scale 2 n d (-q)
    let q := max (if a / b < Nat.pow 2 53 then q else q + 1) (-1074)
    let (a, b) := scale 2 n d (-q)
    let m := roundDiv a b
    let (m, q) := if m = Nat.pow 2 53 then (Nat.pow 2 52, q + 1) else (m, q)
    if 971 < q then .infinity else .finite m q

/-- The double nearest to `digits * 10 ^ e`. Far outside the range the answer is known without
computing the power. -/
def ofDecimal (digits : Nat) (e : Int) : Double :=
  let size : Int := (Nat.toDigits 10 digits).length + e
  if digits = 0 ∨ size < -330 then .finite 0 (-1074)
  else if 330 < size then .infinity
  else
    let (n, d) := scale 10 digits 1 e
    ofRatio n d

/-- The numbers that round to `m * 2 ^ q`, from `low` to `high` in units of `2 ^ (q - 2)`; the ends
belong to them exactly if `m` is even. -/
structure Interval where
  low : Nat
  high : Nat
  closed : Bool

/-- Below a power of two the doubles are twice as dense. -/
def interval (m : Nat) (q : Int) : Interval where
  low := if m = Nat.pow 2 52 ∧ -1074 < q then 4 * m - 1 else 4 * m - 2
  high := 4 * m + 2
  closed := m % 2 = 0

def Interval.holds (i : Interval) (low x high : Nat) : Bool :=
  if i.closed then low ≤ x ∧ x ≤ high else low < x ∧ x < high

def powerAbove (n d : Nat) (p : Int) : Nat → Int
  | 0 => p
  | k + 1 =>
    let (a, b) := scale 10 n d (-p)
    if a < b then p else powerAbove n d (p + 1) k

/-- The number of digits before the point of `n / d`, negative for zeros behind it: the binary
logarithm gives it up to a few powers. -/
def magnitude (n d : Nat) : Int :=
  powerAbove n d ((((n.log2 : Int) - d.log2 - 1) * 30103).fdiv 100000 - 1) 6

/-- A multiple of `10 ^ g` that rounds to `m * 2 ^ q`, if there is one: of two the nearer, and the
greater if both are equally near. -/
def onGrid? (m : Nat) (q g : Int) : Option Nat :=
  let i := interval m q
  let (s, u) := scale 2 1 1 (q - 2)
  let (s, u) := scale 10 s u (-g)
  let x := 4 * m * s
  let c := x / u
  let below := i.holds (i.low * s) (c * u) (i.high * s)
  let above := i.holds (i.low * s) ((c + 1) * u) (i.high * s)
  if below ∧ (¬ above ∨ 2 * (x - c * u) < u) then some c
  else if above then some (c + 1)
  else none

def firstOnGrid (m : Nat) (q g : Int) : Nat → Nat × Int
  | 0 => (0, g)
  | k + 1 =>
    match onGrid? m q g with
    | some c => (c, g)
    | none => firstOnGrid m q (g - 1) k

/-- The fewest digits that read back as `m * 2 ^ q`, as `c * 10 ^ g`. Seventeen are always enough.
-/
def shortest (m : Nat) (q : Int) : Nat × Int :=
  let (n, d) := scale 2 m 1 q
  firstOnGrid m q (magnitude n d - 1) 18

def positional (c : Nat) (g : Int) : String :=
  let all := Nat.toDigits 10 c
  let point : Int := all.length + g
  let digits := (all.reverse.dropWhile (· = '0')).reverse
  if point ≤ 0 then "0." ++ String.ofList (List.replicate (-point).toNat '0' ++ digits)
  else if digits.length ≤ point.toNat then
    String.ofList (digits ++ List.replicate (point.toNat - digits.length) '0')
  else String.ofList (digits.take point.toNat ++ '.' :: digits.drop point.toNat)

def text : Double → String
  | .infinity => "inf"
  | .finite 0 _ => "0"
  | .finite m q =>
    let (c, g) := shortest m q
    positional c g

end Double

end ClassLang
