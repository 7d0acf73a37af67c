import Pseudocode.ParseError.Place
import Pseudocode.Program.Parse

/-!
Reading a named source text: a program or an expression, or the report about the place where reading
stopped.
-/

namespace Pseudocode

/-- Read a program. -/
def readProgram (filename : String) (source : List Char) : Except ParseError (List Stmt) :=
  match parseProgram source with
  | .ok statements => .ok statements
  | .error position => .error (.atPosition source filename position)

/-- Read an expression; there is no report if not even the start of the text is one. -/
def readExpression (filename : String) (source : List Char) : Except (Option ParseError) Expr :=
  match parseExpression source with
  | .ok e => .ok e
  | .error .noExpression => .error none
  | .error (.unread position) => .error (some (.atPosition source filename position))

/-- The line that the trace has for a program that was read. -/
def readingTrace (tracing : Bool) (statements : List Stmt) : List String :=
  if tracing then ["Parsed " ++ Decimal.natText statements.length ++ " top-level statements"] else []

end Pseudocode
