/-!
Tabs. A tab moves to the next column that is a multiple of eight; columns are counted from the last
line feed or carriage return.
-/

namespace Pseudocode.Text

/-- The distance of tab stops. -/
def tabWidth : Nat := 8

/-- Replace tabs by spaces in a text that starts in the given column. -/
def expandTabsFrom : Nat → List Char → List Char
  | _, [] => []
  | column, c :: cs =>
    if c = '\t' then
      let width := tabWidth - column % tabWidth
      List.replicate width ' ' ++ expandTabsFrom (column + width) cs
    else if c = '\n' ∨ c = '\r' then c :: expandTabsFrom 0 cs
    else c :: expandTabsFrom (column + 1) cs

/-- Replace tabs by spaces. -/
def expandTabs (cs : List Char) : List Char := expandTabsFrom 0 cs

end Pseudocode.Text
