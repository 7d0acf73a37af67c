import Pseudocode.ParseError.Basic
import Pseudocode.ParseError.Excerpt
import Pseudocode.ParseError.Hint
import Pseudocode.Text.Tab

/-!
The report about a position where reading a text stopped.

The position counts characters after tabs are replaced by spaces, and so do line and column. What is
quoted from the text comes from the text as it was written.
-/

namespace Pseudocode.ParseError

/-- The line of a position, counted from one. -/
def lineOf (expanded : List Char) (position : Nat) : Nat :=
  (expanded.take position).count '\n' + 1

/-- The column of a position, counted from one. -/
def columnOf (expanded : List Char) (position : Nat) : Nat :=
  ((expanded.take position).reverse.takeWhile (· != '\n')).length + 1

/-- The name of a text that is no file. -/
def inputName : String := "<input>"

/-- The report about a position in a text. -/
def atPosition (source : List Char) (filename : String) (position : Nat) : ParseError :=
  let expanded := Text.expandTabs source
  let line : Int := lineOf expanded position
  let column : Int := columnOf expanded position
  { message := "Expected end of text"
    filename := if filename = inputName then none else some filename
    line := line
    column := column
    found := some (foundAt source position)
    excerpt := excerptOf source line column
    hints := hintsFor source (Text.lineAt source line) }

end Pseudocode.ParseError
