/-!
Lines of a text. Only the line feed ends a line, so a text has one line more than it has line
feeds, and joining the lines with line feeds gives the text back.
-/

namespace Pseudocode.Text

/-- Cut a text at every line feed; there is always at least one line. -/
def lines : List Char → List (List Char)
  | [] => [[]]
  | c :: cs =>
    if c = '\n' then [] :: lines cs
    else match lines cs with
      | [] => [[c]]
      | line :: rest => (c :: line) :: rest

/-- Join lines with line feeds. -/
def unlines : List (List Char) → List Char
  | [] => []
  | [line] => line
  | line :: rest => line ++ '\n' :: unlines rest

/-- The line with the given number, counted from one; empty when there is no such line. -/
def lineAt (text : List Char) (line : Int) : List Char :=
  if 0 < line then (lines text).getD (line.toNat - 1) [] else []

/-- Even the empty text has a line. -/
theorem lines_ne_nil (cs : List Char) : lines cs ≠ [] := by
  cases cs with
  | nil => simp [lines]
  | cons c cs =>
    unfold lines
    split
    · simp
    · split <;> simp

/-- Joining undoes cutting. -/
theorem unlines_lines (cs : List Char) : unlines (lines cs) = cs := by
  induction cs with
  | nil => rfl
  | cons c cs ih =>
    unfold lines
    split
    · -- a line feed ends the empty line in front of it
      rename_i h
      obtain ⟨line, rest, hl⟩ := List.exists_cons_of_ne_nil (lines_ne_nil cs)
      rw [hl] at ih ⊢
      simp [unlines, ih, h]
    · split
      · rename_i hl
        exact absurd hl (lines_ne_nil cs)
      · -- any other character belongs to the first line
        rename_i line rest hl
        rw [hl] at ih
        cases rest with
        | nil => simpa [unlines] using ih
        | cons l r => simpa [unlines] using ih

/-- There is one line more than there are line feeds. -/
theorem length_lines (cs : List Char) : (lines cs).length = cs.count '\n' + 1 := by
  induction cs with
  | nil => rfl
  | cons c cs ih =>
    unfold lines
    split
    · -- only a line feed adds a line
      rename_i h
      simp [h, ih]
    · rename_i h
      split
      · rename_i hl
        exact absurd hl (lines_ne_nil cs)
      · rename_i line rest hl
        rw [hl] at ih
        simpa [List.count_cons, h] using ih

end Pseudocode.Text
