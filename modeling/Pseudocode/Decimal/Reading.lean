import Pseudocode.Text.Digit
import Pseudocode.Text.Space

/-!
Reading numbers.

`unsigned?` reads the one spelling that number literals have, digits with an optional fraction;
`number?` reads every text that the number format writes; `integer?` reads a whole number as it is
given on a command line.
-/

namespace Pseudocode.Decimal

open Text (isDigit digitsValue)

/-- Digits, or digits, a point and digits; the digits may be of any script. The parts are the whole
digits and the digits of the fraction, empty if there is no point. -/
def spelling? (cs : List Char) : Option (List Char × List Char) :=
  let whole := cs.takeWhile isDigit
  if whole.isEmpty then none
  else match cs.dropWhile isDigit with
    | [] => some (whole, [])
    | '.' :: fraction =>
      if fraction.isEmpty || !fraction.all isDigit then none else some (whole, fraction)
    | _ => none

/-- The double nearest to a literal. -/
def unsigned? (cs : List Char) : Option Float :=
  (spelling? cs).map fun (whole, fraction) =>
    Float.ofScientific (digitsValue (whole ++ fraction)) true fraction.length

/-- A decimal exponent: an optional sign and digits. -/
def exponent? (cs : List Char) : Option Int :=
  let (negative, digits) := match cs with
    | '-' :: rest => (true, rest)
    | '+' :: rest => (false, rest)
    | rest => (false, rest)
  if digits.isEmpty || !digits.all isDigit then none
  else some (if negative then -digitsValue digits else digitsValue digits)

/-- The double nearest to a number in positional or scientific notation, without sign. -/
def magnitude? (cs : List Char) : Option Float :=
  match cs.span (· != 'e') with
  | (['i', 'n', 'f'], []) => some (1 / 0)
  | (['n', 'a', 'n'], []) => some (0 / 0)
  | (significand, []) => unsigned? significand
  | (significand, _ :: power) => do
    let (whole, fraction) ← spelling? significand
    let e ← exponent? power
    let shifted := e - fraction.length
    some (Float.ofScientific (digitsValue (whole ++ fraction)) (shifted < 0) shifted.natAbs)

/-- The double nearest to a number in positional or scientific notation. -/
def number? (s : String) : Option Float :=
  match s.toList with
  | '-' :: cs => (magnitude? cs).map (- ·)
  | cs => magnitude? cs

/-! ### Whole numbers -/

/-- The most digits that a whole number may have. -/
def mostDigits : Nat := 4300

/-- White space that may stand around a whole number: all but the four separator controls. -/
def isMargin (c : Char) : Bool :=
  Text.isSpace c && !(0x1C ≤ c.toNat && c.toNat ≤ 0x1F)

/-- The digits of a row in which single underscores may stand between digits; none if it is not one.
`after` says whether a digit comes before the row. -/
def separatedDigits? : Bool → List Char → Option (List Char)
  | after, [] => if after then some [] else none
  | after, c :: cs =>
    if isDigit c then (separatedDigits? true cs).map (c :: ·)
    else if c = '_' ∧ after then separatedDigits? false cs
    else none

/-- Read a whole number: an optional sign and digits, with white space around. -/
def integer? (s : String) : Option Int :=
  let trimmed := ((s.toList.dropWhile isMargin).reverse.dropWhile isMargin).reverse
  let (negative, row) := match trimmed with
    | '-' :: rest => (true, rest)
    | '+' :: rest => (false, rest)
    | rest => (false, rest)
  match separatedDigits? false row with
  | none => none
  | some digits =>
    if mostDigits < digits.length then none
    else some (if negative then -digitsValue digits else digitsValue digits)

end Pseudocode.Decimal
