import Pseudocode.Grammar.Statement
import Pseudocode.Proofs.Parsing.Peg

/-!
The rules of the grammar as parsing expressions.

`Rule.body` is the grammar itself: alternatives in their order, repetitions without a bound, and
rules that call each other and themselves. A statement has blocks of statements in it, and an
operand may be a call or a bracket with expressions inside.

Design. An expression goes down a ladder of levels before its first operand, and takes a token
before it comes back to the top. So the levels are ranks, and a rule that starts with a token of its
own has the least one.

Main result: the grammar passes the check, so it always ends (`Rule.checked`).
-/

namespace Pseudocode

/-! ### Rules -/

/-- The rules of the grammar. -/
inductive Rule where
  | call | operand | signed | product | sum | comparison | negation | conjunction | expression
  | constant | subroutine | conditional | whileLoop | repeatLoop | output | assignment
  | statement | block | program

namespace Rule

open Peg Grammar

def isName : Token → Bool
  | .name _ => true
  | _ => false

def isNumber : Token → Bool
  | .number _ => true
  | _ => false

def isBoolean : Token → Bool
  | .boolean _ => true
  | _ => false

/-- A fixed token. -/
def sign (t : Token) : Peg Token Rule := .token fun u => u = t

/-- A keyword. -/
def keyword (k : Keyword) : Peg Token Rule := sign (.keyword k)

/-- Items separated by commas, possibly none. -/
def listOf (item : Peg Token Rule) : Peg Token Rule :=
  optional (chain [item, .many (chain [sign .comma, item])])

/-- Such a list in round brackets. -/
def bracketed (item : Peg Token Rule) : Peg Token Rule :=
  chain [sign .lparen, listOf item, sign .rparen]

/-- Operands with operators between them. -/
def infixes (isOperator : Token → Bool) (operand : Peg Token Rule) : Peg Token Rule :=
  chain [operand, .many (chain [.token isOperator, operand])]

/-- An operator before what the rule reads, or an operand. -/
def prefixes (isOperator : Token → Bool) (self : Rule) (operand : Peg Token Rule) :
    Peg Token Rule :=
  .choice (chain [.token isOperator, .rule self]) operand

/-- The forms of a statement, in the order in which they are tried. -/
def forms : List Rule :=
  [constant, subroutine, conditional, whileLoop, repeatLoop, output, assignment, call]

/-- What each rule reads. -/
def body : Rule → Peg Token Rule
  | call => chain [.token isName, bracketed (.rule expression)]
  | operand => oneOf [.token isNumber, .token isBoolean, .rule call, .token isName,
      chain [sign .lparen, .rule expression, sign .rparen]]
  | signed => prefixes (fun t => (signOperator? t).isSome) signed (.rule operand)
  | product => infixes (fun t => (productOperator? t).isSome) (.rule signed)
  | sum => infixes (fun t => (sumOperator? t).isSome) (.rule product)
  | comparison => infixes (fun t => (relationOperator? t).isSome) (.rule sum)
  | negation => prefixes (fun t => (notOperator? t).isSome) negation (.rule comparison)
  | conjunction => infixes (fun t => (andOperator? t).isSome) (.rule negation)
  | expression => infixes (fun t => (orOperator? t).isSome) (.rule conjunction)
  | constant => chain [keyword .CONSTANT, .token isName, sign .arrow, .rule expression]
  | subroutine => chain [keyword .SUBROUTINE, .token isName, bracketed (.token isName),
      optional (.rule block), optional (chain [keyword .RETURN, .rule expression]),
      keyword .ENDSUBROUTINE]
  | conditional => chain [keyword .IF, .rule expression, keyword .THEN, .rule block,
      optional (chain [keyword .ELSE, .rule block]), keyword .ENDIF]
  | whileLoop => chain [keyword .WHILE, .rule expression, .rule block, keyword .ENDWHILE]
  | repeatLoop => chain [keyword .REPEAT, .rule block, keyword .UNTIL, .rule expression]
  | output => chain [keyword .OUTPUT, .rule expression]
  | assignment => chain [.token isName, sign .arrow, .rule expression]
  | statement => oneOf (forms.map .rule)
  | block => chain [.rule statement, .many (.rule statement)]
  | program => .many (.rule statement)

/-- All rules but that of whole programs take something. -/
def solid : Rule → Bool
  | program => false
  | _ => true

/-- Before a rule takes a token, it calls only rules of a lower rank. -/
def rank : Rule → Nat
  | call | constant | subroutine | conditional | whileLoop | repeatLoop | output | assignment => 0
  | operand | statement => 1
  | signed | block | program => 2
  | product => 3
  | sum => 4
  | comparison => 5
  | negation => 6
  | conjunction => 7
  | expression => 8

/-- The rules pass the check. -/
theorem checked : Checked solid rank 9 body where
  consumes name := by cases name <;> decide
  descends name := by cases name <;> decide

end Rule

end Pseudocode
