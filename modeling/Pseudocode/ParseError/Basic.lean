import Pseudocode.Decimal.Layout

/-!
Reports about source text that could not be read.
-/

namespace Pseudocode

/-- A report: what is wrong, and as far as known where, in what text, and what may help. -/
structure ParseError where
  message : String
  /-- The file, if the text is one. -/
  filename : Option String
  /-- The line, counted from one; zero if there is no place. -/
  line : Int
  /-- The column, counted from one. -/
  column : Int
  /-- What stands at the place. -/
  found : Option String
  /-- The line with a mark under the place. -/
  excerpt : Option String
  hints : List String
deriving DecidableEq, Repr

namespace ParseError

/-- A report without a place. -/
def ofFile (filename message : String) : ParseError :=
  { message := message
    filename := some filename
    line := 0
    column := 0
    found := none
    excerpt := none
    hints := [] }

/-- A text that is there and not empty. -/
def nonempty (s : Option String) : List String :=
  match s with
  | none | some "" => []
  | some text => [text]

/-- The first line of the report. -/
def header (e : ParseError) : String :=
  "Parse error"
    ++ String.join ((nonempty e.filename).map (" in " ++ ·))
    ++ (if e.line = 0 then ""
      else " at line " ++ Decimal.intText e.line ++ ", column " ++ Decimal.intText e.column)
    ++ ": " ++ e.message

/-- The report as text, without a line end after its last line. -/
def text (e : ParseError) : String :=
  "\n".intercalate
    ([e.header] ++ (nonempty e.found).map ("  Found: " ++ ·) ++ nonempty e.excerpt
      ++ e.hints.map ("  Hint: " ++ ·))

end ParseError

end Pseudocode
