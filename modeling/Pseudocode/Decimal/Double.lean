/-!
What a double-precision number stands for.

A finite double is a sign and an exact product `significand * 2 ^ exponent`. The other modules of
this folder compute with that product in whole numbers and never with rounded arithmetic.
-/

namespace Pseudocode.Decimal

/-- A double taken apart. -/
inductive Double where
  /-- Not a number. -/
  | nan
  /-- One of the two infinities. -/
  | infinite (negative : Bool)
  /-- The number `significand * 2 ^ exponent` with its sign; zero keeps its sign too. -/
  | finite (negative : Bool) (significand : Nat) (exponent : Int)
deriving DecidableEq, Repr

/-- The least exponent of a double, that of the subnormal numbers. -/
def Double.leastExponent : Int := -1074

/-- The significand of a normal number with no fraction bit set. -/
def Double.hiddenBit : Nat := 0x10000000000000

/-- Take a double apart: one sign bit, eleven exponent bits, fifty-two fraction bits. -/
def Double.ofFloat (x : Float) : Double :=
  let bits := x.toBits.toNat
  let negative := bits / hiddenBit / 2048 == 1
  let biased := bits / hiddenBit % 2048
  let fraction := bits % hiddenBit
  if biased = 2047 then
    if fraction = 0 then .infinite negative else .nan
  else if biased = 0 then .finite negative fraction leastExponent
  else .finite negative (hiddenBit + fraction) (leastExponent + biased - 1)

/-- The whole number that a double is, if it is one; both zeros are the number zero. -/
def Double.whole? : Double → Option Int
  | .finite negative m (.ofNat q) => some (signed negative (m * Nat.pow 2 q))
  | .finite negative m (.negSucc q) =>
    let d := Nat.pow 2 (q + 1)
    if m % d = 0 then some (signed negative (m / d)) else none
  | _ => none
where
  /-- A number with its sign. -/
  signed (negative : Bool) (n : Nat) : Int := if negative then -n else n

end Pseudocode.Decimal
