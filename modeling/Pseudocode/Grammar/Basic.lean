import Pseudocode.Token.Basic

/-!
Readers: how the rules of the grammar are put together.

A reader takes a value off the front of a list of tokens, or fails. Choices are ordered: the first
rule that fits is taken, and nothing is tried again afterwards. A repetition takes as many items as
it can; an item that fails ends it and takes nothing.

Design. A repetition may go on for as many rounds as there are tokens, which is never too few since
every item takes at least one token.
-/

namespace Pseudocode

/-- Take a value off the front of a list of tokens. -/
abbrev Reader (α : Type) := List Token → Option (α × List Token)

namespace Reader

variable {α : Type}

/-- As many items as there are, in at most `rounds` rounds. -/
def manyRounds (item : Reader α) : Nat → List Token → List α × List Token
  | 0, ts => ([], ts)
  | rounds + 1, ts =>
    match item ts with
    | none => ([], ts)
    | some (a, rest) =>
      let (more, after) := manyRounds item rounds rest
      (a :: more, after)

/-- As many items as there are. -/
def many (item : Reader α) (ts : List Token) : List α × List Token :=
  manyRounds item ts.length ts

/-- An item after a comma. -/
def afterComma (item : Reader α) : Reader α
  | .comma :: rest => item rest
  | _ => none

/-- Items separated by commas, possibly none. -/
def commaList (item : Reader α) (ts : List Token) : List α × List Token :=
  match item ts with
  | none => ([], ts)
  | some (a, rest) =>
    let (more, after) := many (afterComma item) rest
    (a :: more, after)

/-- Items separated by commas, possibly none, in round brackets. -/
def parenthesized (item : Reader α) : Reader (List α)
  | .lparen :: rest =>
    match commaList item rest with
    | (items, .rparen :: after) => some (items, after)
    | _ => none
  | _ => none

/-- Go on from a left operand: an operator and a right operand, again and again, in at most
`rounds` rounds. -/
def foldRounds (item : Reader α) (operator? : Token → Option (α → α → α)) :
    Nat → α → List Token → α × List Token
  | 0, left, ts => (left, ts)
  | _ + 1, left, [] => (left, [])
  | rounds + 1, left, t :: rest =>
    match operator? t with
    | none => (left, t :: rest)
    | some combine =>
      match item rest with
      | none => (left, t :: rest)
      | some (right, after) => foldRounds item operator? rounds (combine left right) after

/-- Operands with operators between them, grouped to the left. -/
def leftAssociative (item : Reader α) (operator? : Token → Option (α → α → α)) : Reader α :=
  fun ts =>
    match item ts with
    | none => none
    | some (left, rest) => some (foldRounds item operator? rest.length left rest)

/-- Operators before an operand, applied from the innermost outwards. -/
def prefixed (operator? : Token → Option (α → α)) (operand : Reader α) : Reader α
  | [] => operand []
  | t :: rest =>
    match operator? t with
    | some apply => (prefixed operator? operand rest).map fun (a, after) => (apply a, after)
    | none => operand (t :: rest)

end Reader

end Pseudocode
