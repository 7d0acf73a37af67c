import Pseudocode.Decimal.Shortest

/-!
The text of a number.

`Layout` collects the choices that a number format makes, `numberLayout` is the choice of this
library: positional notation for exponents from -4 to 15, always with a point, and otherwise
scientific notation with a signed exponent of at least two digits.
-/

namespace Pseudocode.Decimal

/-- The choices of a number format. -/
structure Layout where
  /-- The least decimal exponent that is written positionally. -/
  least : Int
  /-- The first decimal exponent above the positional ones. -/
  bound : Int
  /-- What follows a whole number in positional notation. -/
  wholeMark : String
  /-- The fewest digits of a written exponent. -/
  exponentWidth : Nat
  /-- The text of what is not a number. -/
  nan : String
  /-- The text of positive infinity. -/
  infinity : String

/-- The number format of values. -/
def numberLayout : Layout :=
  { least := -4, bound := 16, wholeMark := ".0", exponentWidth := 2, nan := "nan", infinity := "inf" }

/-- The decimal digits of a natural number. -/
def natText (n : Nat) : String :=
  String.ofList (Nat.toDigits 10 n)

/-- The decimal digits of an integer, with a minus sign if it is negative. -/
def intText : Int → String
  | .ofNat n => natText n
  | .negSucc n => "-" ++ natText (n + 1)

/-- The digits of a natural number, filled up with zeros on the left. -/
def paddedDigits (width n : Nat) : List Char :=
  let digits := Nat.toDigits 10 n
  List.replicate (width - digits.length) '0' ++ digits

namespace Layout

/-- Positional notation of digits whose first has the weight `10 ^ e`. -/
def positional (l : Layout) (digits : List Char) : Int → String
  | .negSucc e => "0." ++ String.ofList (List.replicate e '0' ++ digits)
  | .ofNat e =>
    if digits.length ≤ e + 1 then
      String.ofList (digits ++ List.replicate (e + 1 - digits.length) '0') ++ l.wholeMark
    else String.ofList (digits.take (e + 1)) ++ "." ++ String.ofList (digits.drop (e + 1))

/-- Scientific notation of digits whose first has the weight `10 ^ e`. -/
def scientific (l : Layout) (digits : List Char) (e : Int) : String :=
  let fraction := digits.drop 1
  String.ofList (digits.take 1) ++ (if fraction.isEmpty then "" else "." ++ String.ofList fraction)
    ++ (if e < 0 then "e-" else "e+") ++ String.ofList (paddedDigits l.exponentWidth e.natAbs)

/-- The text of a decimal. -/
def scaled (l : Layout) (x : Scaled) : String :=
  let digits := Nat.toDigits 10 x.digits
  let e := x.exponent + digits.length - 1
  if l.least ≤ e ∧ e < l.bound then l.positional digits e else l.scientific digits e

/-- The text of a double: the fewest digits that read back, laid out. -/
def double (l : Layout) : Double → String
  | .nan => l.nan
  | .infinite negative => (if negative then "-" else "") ++ l.infinity
  | .finite negative m q =>
    (if negative then "-" else "") ++ if m = 0 then l.scaled ⟨0, 0⟩ else l.scaled (shortest m q)

end Layout

/-- The text of a number. -/
def numberText (x : Float) : String :=
  numberLayout.double (Double.ofFloat x)

/-- The text of a number for display: a whole number is written with all its digits and no point. -/
def displayText (x : Float) : String :=
  let d := Double.ofFloat x
  match d.whole? with
  | some n => intText n
  | none => numberLayout.double d

end Pseudocode.Decimal
