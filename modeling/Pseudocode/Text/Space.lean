import Pseudocode.Text.Ranges

/-!
White space: which characters count as blank in a line of text, and the two operations that depend
on it, trimming a text at both ends and cutting it into words.
-/

namespace Pseudocode.Text

/-- The white-space characters: the ASCII controls from tab to carriage return and from file
separator to unit separator, the next-line control, and the Unicode spaces and separators. -/
def spaceRanges : Ranges :=
  [(0x9, 0xD), (0x1C, 0x20), (0x85, 0x85), (0xA0, 0xA0), (0x1680, 0x1680), (0x2000, 0x200A),
   (0x2028, 0x2029), (0x202F, 0x202F), (0x205F, 0x205F), (0x3000, 0x3000)]

/-- Is the character white space? -/
def isSpace (c : Char) : Bool :=
  spaceRanges.contains c.toNat

/-- The text without the white space at its two ends. -/
def trim (cs : List Char) : List Char :=
  ((cs.dropWhile isSpace).reverse.dropWhile isSpace).reverse

/-- Is the text empty up to white space? -/
def isBlank (cs : List Char) : Bool :=
  cs.all isSpace

/-- Trimming leaves nothing of a blank text, and of no other. -/
theorem trim_eq_nil_iff {cs : List Char} : trim cs = [] ↔ isBlank cs = true := by
  induction cs with
  | nil => simp [trim, isBlank]
  | cons c cs ih =>
    rcases hc : isSpace c with - | -
    · have hkeeps : ((cs.reverse ++ [c]).dropWhile isSpace) ≠ [] := by
        rw [List.dropWhile_append]
        split <;> simp [hc]
      simp [trim, isBlank, hc, hkeeps]
    · simpa [trim, isBlank, hc] using ih

/-- The first maximal run of characters that are not white space; empty in a blank text. -/
def firstWord (cs : List Char) : List Char :=
  (cs.dropWhile isSpace).takeWhile (!isSpace ·)

end Pseudocode.Text
