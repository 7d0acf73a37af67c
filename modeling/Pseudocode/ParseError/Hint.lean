import Pseudocode.Text.Line
import Pseudocode.Text.Space
import Pseudocode.Text.Word
import Pseudocode.Token.Scan

/-!
Hints about the mistakes that are commonly made in programs.

The hints look at the text only: at the line with the error for signs of another notation, and at
the whole text for words that come in pairs.
-/

namespace Pseudocode.ParseError

open Text

/-! ### Words in a text -/

/-- How often a word stands alone in a text; `before` is the character before the text. -/
def countWord (word : List Char) : Option Char → List Char → Nat
  | _, [] => 0
  | before, c :: cs =>
    let here := word.isPrefixOf (c :: cs) && !before.any isWord
      && !((c :: cs).drop word.length).head?.any isWord
    (if here then 1 else 0) + countWord word (some c) cs

/-- How often a keyword stands alone in a text. -/
def countKeyword (k : Keyword) (text : List Char) : Nat :=
  countWord k.word.toList none text

/-- Does a text contain another one? -/
def hasInfix (part : List Char) : List Char → Bool
  | [] => part.isEmpty
  | c :: cs => part.isPrefixOf (c :: cs) || hasInfix part cs

/-! ### The single tests -/

/-- Does the line assign with a sign of another notation: a name before an equals sign, or a colon
before one? -/
def assignsOtherwise (line : List Char) : Bool :=
  hasInfix [':', '='] line ||
    match line.dropWhile isSpace with
    | c :: rest => isAsciiLetter c && ((rest.dropWhile isWord).dropWhile isSpace).head? == some '='
    | [] => false

/-- Does the line hold braces or semicolons? -/
def hasBraces (line : List Char) : Bool :=
  line.any fun c => c == '\x7b' || c == '\x7d' || c == ';'

/-- The words that open a block, with those that close it. -/
def blockWords : List (Keyword × Keyword) :=
  [(.IF, .ENDIF), (.WHILE, .ENDWHILE), (.SUBROUTINE, .ENDSUBROUTINE), (.REPEAT, .UNTIL)]

/-- Is there a line with a condition that is not followed by the word for it? -/
def lacksThen (source : List Char) : Bool :=
  (lines source).any fun line => countKeyword .IF line != 0 && countKeyword .THEN line == 0

/-- The upper-case form of a lower-case letter whose upper-case form is plain: the letters of the
alphabet, the dotless i, the long s, the sharp s and the ligatures. -/
def upperCase? (c : Char) : Option (List Char) :=
  if 'a' ≤ c ∧ c ≤ 'z' then some [c.toUpper]
  else match c.toNat with
    | 0xDF => some ['S', 'S']
    | 0x131 => some ['I']
    | 0x17F => some ['S']
    | 0xFB00 => some ['F', 'F']
    | 0xFB01 => some ['F', 'I']
    | 0xFB02 => some ['F', 'L']
    | 0xFB03 => some ['F', 'F', 'I']
    | 0xFB04 => some ['F', 'F', 'L']
    | 0xFB05 | 0xFB06 => some ['S', 'T']
    | _ => none

/-- Is the word a keyword in lower case? -/
def isLowerKeyword (word : List Char) : Bool :=
  match word.mapM upperCase? with
  | some parts => (Keyword.ofWord? (String.ofList parts.flatten)).isSome
  | none => false

/-! ### All hints -/

/-- The hints for a text and the line with the error. -/
def hintsFor (source line : List Char) : List String :=
  (if assignsOtherwise line then
    ["Use '<-' for assignment; '=' is the equality relation"] else [])
  ++ (if hasBraces line then
    ["Blocks are closed with keywords (ENDIF, ENDWHILE, ENDSUBROUTINE), not braces or semicolons"]
    else [])
  ++ (blockWords.filter fun (opener, closer) =>
      countKeyword closer source < countKeyword opener source).map (fun (opener, closer) =>
        "Every " ++ opener.word ++ " needs a matching " ++ closer.word)
  ++ (if lacksThen source then ["IF conditions are followed by THEN on the same line"] else [])
  ++ (if isLowerKeyword (firstWord line) then
    ["Keywords are written in upper case (e.g. OUTPUT, WHILE)"] else [])

end Pseudocode.ParseError
