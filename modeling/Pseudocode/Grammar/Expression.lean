import Pseudocode.Grammar.Basic
import Pseudocode.Program.Basic

/-!
The grammar of expressions.

From the tightest to the loosest: signs, products, sums, relations, negation, conjunction,
disjunction. A looser operator reaches a tighter place only inside round brackets. A name directly
before a bracketed list of expressions is a call.
-/

namespace Pseudocode.Grammar

open Reader

/-! ### Operators -/

def signOperator? : Token → Option (Expr → Expr)
  | .plus => some (.unary .add)
  | .minus => some (.unary .sub)
  | _ => none

def productOperator? : Token → Option (Expr → Expr → Expr)
  | .times => some (.binary .mul)
  | .divide => some (.binary .div)
  | _ => none

def sumOperator? : Token → Option (Expr → Expr → Expr)
  | .plus => some (.binary .add)
  | .minus => some (.binary .sub)
  | _ => none

def relationOperator? : Token → Option (Expr → Expr → Expr)
  | .relation r => some (.relation r)
  | _ => none

def notOperator? : Token → Option (Expr → Expr)
  | .keyword .NOT => some (.unary .not)
  | _ => none

def andOperator? : Token → Option (Expr → Expr → Expr)
  | .keyword .AND => some (.binary .and)
  | _ => none

def orOperator? : Token → Option (Expr → Expr → Expr)
  | .keyword .OR => some (.binary .or)
  | _ => none

/-! ### Levels -/

/-- A literal, a call, a name, or an expression in brackets; `inner` reads the expressions inside. -/
def operand (inner : Reader Expr) : Reader Expr
  | .number text :: rest => some (.number text, rest)
  | .boolean truth :: rest => some (.boolean truth, rest)
  | .name name :: rest =>
    match parenthesized inner rest with
    | some (args, after) => some (.call name args, after)
    | none => some (.reference name, rest)
  | .lparen :: rest =>
    match inner rest with
    | some (e, .rparen :: after) => some (.bracket e, after)
    | _ => none
  | _ => none

def signed (inner : Reader Expr) : Reader Expr :=
  prefixed signOperator? (operand inner)

def product (inner : Reader Expr) : Reader Expr :=
  leftAssociative (signed inner) productOperator?

def sum (inner : Reader Expr) : Reader Expr :=
  leftAssociative (product inner) sumOperator?

def comparison (inner : Reader Expr) : Reader Expr :=
  leftAssociative (sum inner) relationOperator?

def negation (inner : Reader Expr) : Reader Expr :=
  prefixed notOperator? (comparison inner)

def conjunction (inner : Reader Expr) : Reader Expr :=
  leftAssociative (negation inner) andOperator?

def disjunction (inner : Reader Expr) : Reader Expr :=
  leftAssociative (conjunction inner) orOperator?

/-- An expression whose brackets are nested less deeply than `depth`. -/
def expressionWithin : Nat → Reader Expr
  | 0 => fun _ => none
  | depth + 1 => disjunction (expressionWithin depth)

/-- An expression. Every bracket takes a token, so no expression is nested too deeply. -/
def expression : Reader Expr := fun ts => expressionWithin (ts.length + 1) ts

end Pseudocode.Grammar
