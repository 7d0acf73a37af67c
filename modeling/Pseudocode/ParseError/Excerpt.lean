import Pseudocode.Decimal.Layout
import Pseudocode.Text.Line
import Pseudocode.Text.Quoted
import Pseudocode.Text.Space

/-!
The place of an error in its source text: the line with a caret under the column, and a few words
of what stands there.
-/

namespace Pseudocode.ParseError

/-- The number of a line, right-aligned in four places, and a bar. -/
def gutter (line : Int) : String :=
  let number := (Decimal.intText line).toList
  String.ofList (List.replicate (4 - number.length) ' ' ++ number) ++ " | "

/-- A line of a text with a caret under a column; none if there is no such line. -/
def excerptOf (source : List Char) (line column : Int) : Option String :=
  if 0 < line ∧ line ≤ (Text.lines source).length then
    let g := gutter line
    let blanks := (g.length + column - 1).toNat
    some (g ++ String.ofList (Text.lineAt source line) ++ "\n"
      ++ String.ofList (List.replicate blanks ' ') ++ "^")
  else none

/-- The greatest number of characters that a report quotes. -/
def quoteLength : Nat := 20

/-- What stands at a position: the start of the rest of its line, or else which end it is. -/
def foundAt (source : List Char) (position : Nat) : String :=
  let rest := source.drop position
  let fragment := Text.trim (rest.takeWhile (· != '\n'))
  if ¬ fragment.isEmpty then Text.quoted (String.ofList (fragment.take quoteLength))
  else if Text.isBlank rest then "end of input"
  else "end of line"

end Pseudocode.ParseError
