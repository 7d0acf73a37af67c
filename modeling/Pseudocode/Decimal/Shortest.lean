import Pseudocode.Decimal.Double

/-!
The fewest decimal digits that name a double.

Every real number in a certain interval around a double reads back as that double. The interval
ends half-way to the two neighbours, and the ends belong to it when the significand is even. For
one, two, three digits and so on, the two decimals next to the double on that grid are tested; the
first grid with a decimal inside the interval wins, and of two such decimals the nearer one, on a
tie the even one. Seventeen digits always suffice.

Design. All tests are comparisons of whole numbers: a product `a * 2 ^ q` is compared with
`d * 10 ^ p` after both are multiplied by the denominators of the two powers.
-/

namespace Pseudocode.Decimal

/-- A decimal `digits * 10 ^ exponent`. -/
structure Scaled where
  digits : Nat
  exponent : Int
deriving DecidableEq, Repr

/-- A fraction of whole numbers, not necessarily in lowest terms. -/
structure Ratio where
  num : Nat
  den : Nat
deriving DecidableEq, Repr

namespace Ratio

/-- The power `base ^ e` for an exponent of either sign. -/
def power (base : Nat) : Int → Ratio
  | .ofNat e => ⟨Nat.pow base e, 1⟩
  | .negSucc e => ⟨1, Nat.pow base (e + 1)⟩

/-- The fraction times a whole number. -/
def times (n : Nat) (r : Ratio) : Ratio := ⟨n * r.num, r.den⟩

/-- Quotient of two fractions, rounded down. -/
def quotient (a b : Ratio) : Nat := a.num * b.den / (a.den * b.num)

/-- Is the first fraction less than the second? -/
def less (a b : Ratio) : Bool := a.num * b.den < b.num * a.den

/-- Is the first fraction at most the second? -/
def atMost (a b : Ratio) : Bool := a.num * b.den ≤ b.num * a.den

/-- The exponent `e` with `10 ^ e ≤ r < 10 ^ (e + 1)`, for a positive fraction that is no
power of ten below one. -/
def magnitude (r : Ratio) : Int :=
  if r.den ≤ r.num then ((Nat.toDigits 10 (r.num / r.den)).length : Int) - 1
  else -((Nat.toDigits 10 (r.den / r.num)).length : Int)

end Ratio

/-- The reals that read back as a double: the double itself and the two ends. -/
structure Span where
  value : Ratio
  low : Ratio
  high : Ratio
  closed : Bool
deriving DecidableEq, Repr

/-- The span of `m * 2 ^ q`. Below a power of two the neighbours are half as far apart. -/
def Span.of (m : Nat) (q : Int) : Span :=
  let quarter := Ratio.power 2 (q - 2)
  let narrow := m = Double.hiddenBit ∧ q ≠ Double.leastExponent
  { value := quarter.times (4 * m)
    low := quarter.times (if narrow then 4 * m - 1 else 4 * m - 2)
    high := quarter.times (4 * m + 2)
    closed := m % 2 = 0 }

/-- Is the fraction in the span? -/
def Span.contains (s : Span) (r : Ratio) : Bool :=
  if s.closed then s.low.atMost r && r.atMost s.high else s.low.less r && r.less s.high

/-- The decimal with the given exponent that the span contains, if it contains one of the two
next to its value. -/
def Span.onGrid (s : Span) (exponent : Int) : Option Scaled :=
  let unit := Ratio.power 10 exponent
  let d := s.value.quotient unit
  match s.contains (unit.times d), s.contains (unit.times (d + 1)) with
  | false, false => none
  | true, false => some ⟨d, exponent⟩
  | false, true => some ⟨d + 1, exponent⟩
  | true, true =>
    -- compare the value with the middle of the two
    let twice := s.value.times 2
    let middle := unit.times (2 * d + 1)
    if twice.less middle then some ⟨d, exponent⟩
    else if middle.less twice then some ⟨d + 1, exponent⟩
    else some ⟨if d % 2 = 0 then d else d + 1, exponent⟩

/-- Try grids with more and more digits, at most `tries` further ones. -/
def Span.search (s : Span) (exponent : Int) : Nat → Scaled
  | 0 => ⟨s.value.quotient (Ratio.power 10 exponent), exponent⟩
  | tries + 1 => (s.onGrid exponent).getD (s.search (exponent - 1) tries)

/-- Move the zeros at the end of the digits into the exponent. -/
def Scaled.strip (x : Scaled) : Nat → Scaled
  | 0 => x
  | steps + 1 =>
    if x.digits % 10 = 0 ∧ x.digits ≠ 0 then
      Scaled.strip ⟨x.digits / 10, x.exponent + 1⟩ steps
    else x

/-- The decimal with the fewest digits that reads back as `m * 2 ^ q`; `m` is positive. -/
def shortest (m : Nat) (q : Int) : Scaled :=
  let s := Span.of m q
  (s.search s.value.magnitude 17).strip 17

end Pseudocode.Decimal
