import Pseudocode.Text.Digit
import Pseudocode.Text.Word
import Pseudocode.Token.Basic

/-!
From characters to tokens.

Blanks and comments may stand before every token. A comment goes from a number sign to the end of
its line. The token at a position is determined by the characters from there on and by the one
before it: a reserved word is only recognised where no letter, digit, underscore or dollar sign
touches it, so directly after a digit the same letters are a name.

Design. `lex?` reads one token, `scan` reads as many as there are and notes where each of them
starts. The scan goes on for at most as many rounds as there are characters, which is enough since
every token takes one.
-/

namespace Pseudocode

open Text

/-! ### Characters -/

def isAsciiLetter (c : Char) : Bool :=
  ('a' ≤ c && c ≤ 'z') || ('A' ≤ c && c ≤ 'Z')

/-- Can the character not stand next to a reserved word? -/
def gluesWords (c : Char) : Bool :=
  isAsciiLetter c || ('0' ≤ c && c ≤ '9') || c == '_' || c == '$'

/-- Is the character skipped between tokens? -/
def isGap (c : Char) : Bool :=
  c == ' ' || c == '\t' || c == '\n' || c == '\r'

/-- The sign that starts a comment. -/
def commentSign : Char := '#'

/-! ### Blanks and comments -/

/-- The number of characters in the blanks and comments at the start of a text, which may start
inside a comment. -/
def gapLength : Bool → List Char → Nat
  | _, [] => 0
  | true, c :: cs => 1 + gapLength (c ≠ '\n') cs
  | false, c :: cs =>
    if isGap c then 1 + gapLength false cs
    else if c = commentSign then 1 + gapLength true cs
    else 0

/-! ### One token -/

/-- A token, and the characters that it takes. -/
structure Lexeme where
  token : Token
  text : List Char
deriving DecidableEq, Repr

namespace Lexeme

/-- A reserved word, unless the character before touches it, or else a name. -/
def word (before : Option Char) (cs : List Char) : Lexeme :=
  let run := cs.takeWhile gluesWords
  let name := cs.takeWhile isWord
  match if before.any gluesWords then none else Token.reserved? (String.ofList run) with
  | some token => ⟨token, run⟩
  | none => ⟨.name (String.ofList name), name⟩

/-- Digits, and a point with further digits if they follow. -/
def number (cs : List Char) : Lexeme :=
  let whole := cs.takeWhile isDigit
  let text := match cs.dropWhile isDigit with
    | '.' :: rest =>
      let fraction := rest.takeWhile isDigit
      if fraction.isEmpty then whole else whole ++ '.' :: fraction
    | _ => whole
  ⟨.number (String.ofList text), text⟩

/-- A token made of signs. -/
def sign? : List Char → Option Lexeme
  | '<' :: '-' :: _ => some ⟨.arrow, ['<', '-']⟩
  | '←' :: _ => some ⟨.arrow, ['←']⟩
  | '<' :: '=' :: _ => some ⟨.relation .leq, ['<', '=']⟩
  | '>' :: '=' :: _ => some ⟨.relation .geq, ['>', '=']⟩
  | '!' :: '=' :: _ => some ⟨.relation .neq, ['!', '=']⟩
  | '≠' :: _ => some ⟨.relation .neq, ['≠']⟩
  | '≤' :: _ => some ⟨.relation .leq, ['≤']⟩
  | '≥' :: _ => some ⟨.relation .geq, ['≥']⟩
  | '=' :: _ => some ⟨.relation .eq, ['=']⟩
  | '<' :: _ => some ⟨.relation .lt, ['<']⟩
  | '>' :: _ => some ⟨.relation .gt, ['>']⟩
  | '+' :: _ => some ⟨.plus, ['+']⟩
  | '-' :: _ => some ⟨.minus, ['-']⟩
  | '*' :: _ => some ⟨.times, ['*']⟩
  | '/' :: _ => some ⟨.divide, ['/']⟩
  | '(' :: _ => some ⟨.lparen, ['(']⟩
  | ')' :: _ => some ⟨.rparen, [')']⟩
  | ',' :: _ => some ⟨.comma, [',']⟩
  | _ => none

end Lexeme

/-- The token at the start of a text, if there is one; `before` is the character before it. -/
def lex? (before : Option Char) (cs : List Char) : Option Lexeme :=
  match cs with
  | [] => none
  | c :: _ =>
    if isAsciiLetter c then some (.word before cs)
    else if isDigit c then some (.number cs)
    else Lexeme.sign? cs

/-! ### All tokens -/

/-- A token and the position where it starts. -/
structure Placed where
  start : Nat
  token : Token
deriving DecidableEq, Repr

/-- The tokens of a text, and the position where no further token could be read. -/
structure Scan where
  tokens : List Placed
  stop : Nat
  /-- Is the end of the text reached? -/
  complete : Bool
deriving DecidableEq, Repr

/-- Read at most `rounds` tokens from a text that starts at a position. -/
def scanFrom : Nat → Option Char → Nat → List Char → Scan
  | 0, _, position, cs => ⟨[], position, cs.isEmpty⟩
  | rounds + 1, before, position, cs =>
    let gap := gapLength false cs
    let rest := cs.drop gap
    let start := position + gap
    -- blanks and comments separate: only an adjacent token can touch this one
    match lex? (if gap = 0 then before else none) rest with
    | none => ⟨[], start, rest.isEmpty⟩
    | some lexeme =>
      let after := scanFrom rounds lexeme.text.getLast? (start + lexeme.text.length)
        (rest.drop lexeme.text.length)
      { after with tokens := ⟨start, lexeme.token⟩ :: after.tokens }

/-- Read the tokens of a text. -/
def scan (cs : List Char) : Scan := scanFrom (cs.length + 1) none 0 cs

end Pseudocode
