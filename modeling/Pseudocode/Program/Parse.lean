import Pseudocode.Grammar.Statement
import Pseudocode.Text.Tab
import Pseudocode.Token.Scan

/-!
From source text to programs.

A text is read after its tabs are replaced by spaces, so positions are positions in the expanded
text. Reading a program takes as many statements as it can; the text is refused if something is left
then, and the position of the first thing left is where the error is.
-/

namespace Pseudocode

namespace Scan

/-- The tokens without their places. -/
def sequence (s : Scan) : List Token := s.tokens.map Placed.token

/-- The position of the first thing that is left when the tokens `rest` are; none if that is the end
of the text. -/
def unread? (s : Scan) (rest : List Token) : Option Nat :=
  match s.tokens.drop (s.tokens.length - rest.length) with
  | next :: _ => some next.start
  | [] => if s.complete then none else some s.stop

end Scan

/-- The tokens of a source text. -/
def scanSource (text : List Char) : Scan := scan (Text.expandTabs text)

/-- Read a program, or give the position where reading stopped. -/
def parseProgram (text : List Char) : Except Nat (List Stmt) :=
  let s := scanSource text
  let (statements, rest) := Grammar.program s.sequence
  match s.unread? rest with
  | none => .ok statements
  | some position => .error position

/-- Why a text is not an expression. -/
inductive ExpressionError where
  /-- Not even its start is one. -/
  | noExpression
  /-- Something is left at a position. -/
  | unread (position : Nat)
deriving DecidableEq, Repr

/-- Read an expression. -/
def parseExpression (text : List Char) : Except ExpressionError Expr :=
  let s := scanSource text
  match Grammar.expression s.sequence with
  | none => .error .noExpression
  | some (e, rest) =>
    match s.unread? rest with
    | none => .ok e
    | some position => .error (.unread position)

end Pseudocode
