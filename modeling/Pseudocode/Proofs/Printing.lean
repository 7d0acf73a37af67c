import Mathlib.Data.List.TakeWhile
import Pseudocode.Proofs.Names
import Pseudocode.Proofs.TokenRow

/-!
Printing tokens.

Tokens are printed in order, with single blanks between them. Some of them have two spellings, so a
`Spelling` chooses a text for each token, and what is shown holds for every choice. The scanner reads
a printed text back as its tokens if the names and numbers among them are legal: a name has to be one
that the scanner takes in full behind a blank, and a number has to be a row of digits, or two of them
with a point between.

Design. A blank ends every token and touches no word, so each token is read as if it stood alone in
a text of its own (`Token.Spells`). The scan of a printed text is then an induction on its tokens.

Main result: `scanSource_print`.
-/

namespace Pseudocode

open Text

/-! ### Legal tokens -/

/-- A name that is read in full behind a blank. -/
def IsLegalName (x : String) : Prop := lex? (some ' ') x.toList = some ⟨.name x, x.toList⟩

instance (x : String) : Decidable (IsLegalName x) :=
  inferInstanceAs (Decidable (lex? (some ' ') x.toList = some ⟨.name x, x.toList⟩))

/-- A number as it may be written: digits, or digits, a point and further digits. -/
def IsNumeral (s : String) : Prop :=
  ∃ whole, whole ≠ [] ∧ (∀ d ∈ whole, isDigit d = true)
    ∧ (s.toList = whole
      ∨ ∃ fraction, fraction ≠ [] ∧ (∀ d ∈ fraction, isDigit d = true)
        ∧ s.toList = whole ++ '.' :: fraction)

/-- A token that can be printed. -/
def Token.Legal : Token → Prop
  | .name x => IsLegalName x
  | .number s => IsNumeral s
  | _ => True

/-! ### Spellings -/

/-- The texts that are read as a token. -/
def Token.spellings : Token → List (List Char)
  | .keyword k => [k.word.toList]
  | .boolean b => [(Value.truthText b).toList]
  | .name x => [x.toList]
  | .number s => [s.toList]
  | .arrow => [['<', '-'], ['←']]
  | .relation .eq => [['=']]
  | .relation .neq => [['!', '='], ['≠']]
  | .relation .lt => [['<']]
  | .relation .gt => [['>']]
  | .relation .leq => [['<', '='], ['≤']]
  | .relation .geq => [['>', '='], ['≥']]
  | .plus => [['+']]
  | .minus => [['-']]
  | .times => [['*']]
  | .divide => [['/']]
  | .lparen => [['(']]
  | .rparen => [[')']]
  | .comma => [[',']]

/-- A choice of one spelling for each token. -/
structure Spelling where
  write : Token → List Char
  write_mem : ∀ t, write t ∈ t.spellings

namespace Spelling

/-- The first spelling of each token, which is in ASCII for every sign. -/
def ascii : Spelling where
  write t := t.spellings.headD []
  write_mem t := by
    rcases t with _ | _ | _ | _ | _ | ⟨_ | _ | _ | _ | _ | _⟩ | _ | _ | _ | _ | _ | _ | _ <;>
      exact List.mem_cons_self

/-- The texts of tokens, with single blanks between them. -/
def print (σ : Spelling) (ts : List Token) : List Char := [' '].intercalate (ts.map σ.write)

/-- The texts of tokens, with a blank before each of them. -/
def spaced (σ : Spelling) (ts : List Token) : List Char := ts.flatMap fun t => ' ' :: σ.write t

theorem spaced_cons (σ : Spelling) (t : Token) (ts : List Token) :
    σ.spaced (t :: ts) = ' ' :: (σ.write t ++ σ.spaced ts) := rfl

/-- Printed tokens begin with the first one and go on with a space before each other one. -/
theorem print_cons (σ : Spelling) (t : Token) (ts : List Token) :
    σ.print (t :: ts) = σ.write t ++ σ.spaced ts := by
  induction ts generalizing t with
  | nil => simp [print, spaced]
  | cons u ts ih =>
    have hprint : σ.print (t :: u :: ts) = σ.write t ++ ' ' :: σ.print (u :: ts) := by
      simp [print, List.intercalate]
    rw [hprint, ih, spaced_cons]

end Spelling

/-! ### Tokens that stand alone -/

namespace IsNumeral

variable {s : String} (h : IsNumeral s)
include h

theorem first : ∃ c cs, s.toList = c :: cs ∧ isDigit c = true := by
  obtain ⟨whole, hne, hdigits, hform⟩ := h
  obtain ⟨c, cs, rfl⟩ := List.exists_cons_of_ne_nil hne
  have hc := hdigits c List.mem_cons_self
  rcases hform with htext | ⟨fraction, -, -, htext⟩
  · exact ⟨c, cs, htext, hc⟩
  · exact ⟨c, cs ++ '.' :: fraction, htext, hc⟩

theorem no_tab : '\t' ∉ s.toList := by
  have hnotab : ∀ {ds : List Char}, (∀ d ∈ ds, isDigit d = true) → '\t' ∉ ds :=
    fun hds htab => absurd (hds _ htab) (by decide)
  obtain ⟨whole, -, hdigits, htext | ⟨fraction, -, hdigits', htext⟩⟩ := h
  · rw [htext]
    exact hnotab hdigits
  · simp [htext, hnotab hdigits, hnotab hdigits']

/-- A numeral, with nothing behind it, is scanned as the number that it spells. -/
theorem lexeme : Lexeme.number s.toList = ⟨.number s, s.toList⟩ := by
  have hpoint : isDigit '.' = false := by decide
  have htext : (Lexeme.number s.toList).text = s.toList := by
    -- without a fraction all of it is the whole part; with one, the point ends the whole part
    obtain ⟨whole, -, hdigits, htext | ⟨fraction, hne, hdigits', htext⟩⟩ := h
    · have htake := List.takeWhile_eq_self_iff.mpr hdigits
      have hdrop := List.dropWhile_eq_nil_iff.mpr hdigits
      simp only [Lexeme.number, htext, htake, hdrop]
    · have htake := List.takeWhile_eq_self_iff.mpr hdigits'
      simp only [Lexeme.number, htext, List.takeWhile_append_of_pos hdigits,
        List.dropWhile_append_of_pos hdigits]
      simp [hpoint, htake, hne]
  calc Lexeme.number s.toList
      = ⟨.number (String.ofList (Lexeme.number s.toList).text), (Lexeme.number s.toList).text⟩ := rfl
    _ = ⟨.number s, s.toList⟩ := by rw [htext, String.ofList_toList]

end IsNumeral

/-- The text is read as the token, at the end of a text or before a blank. -/
structure Token.Spells (t : Token) (w : List Char) : Prop where
  no_tab : '\t' ∉ w
  lex_end : lex? none w = some ⟨t, w⟩
  lex_blank : ∀ rest, lex? none (w ++ ' ' :: rest) = some ⟨t, w⟩

namespace Token

/-- A word that is scanned whole, with nothing before or behind it, spells the token that comes
out. -/
theorem Spells.of_lex? {t : Token} {w : List Char} (htab : '\t' ∉ w)
    (hlex : lex? none w = some ⟨t, w⟩) : t.Spells w := by
  have hw : w ≠ [] := text_ne_nil_of_lex? hlex
  exact ⟨htab, hlex, fun rest => (lex?_append_separator (by decide) hw none rest).trans hlex⟩

theorem spells_keyword (k : Keyword) : (Token.keyword k).Spells k.word.toList := by
  apply Spells.of_lex? <;> cases k <;> decide

theorem spells_boolean (b : Bool) : (Token.boolean b).Spells (Value.truthText b).toList := by
  apply Spells.of_lex? <;> cases b <;> decide

theorem spells_name {x : String} (hx : IsLegalName x) : (Token.name x).Spells x.toList := by
  have hlex : lex? none x.toList = some ⟨.name x, x.toList⟩ := by
    rw [← hx]
    rcases x.toList with - | ⟨c, cs⟩ <;> rfl
  obtain ⟨-, hword, -, -⟩ := name_of_lex? hlex rfl
  refine .of_lex? (fun htab => ?_) hlex
  rw [hword] at htab
  have htab := List.all_eq_true.mp List.all_takeWhile _ htab
  exact absurd htab (by decide)

theorem spells_number {s : String} (hs : IsNumeral s) : (Token.number s).Spells s.toList := by
  obtain ⟨c, cs, hcs, hc⟩ := hs.first
  have hletter : ¬ isAsciiLetter c = true := by
    intro hletter
    rw [not_isDigit_of_isAsciiLetter hletter] at hc
    cases hc
  refine .of_lex? hs.no_tab ?_
  rw [← hs.lexeme, hcs, lex?, if_neg hletter, if_pos hc]

/-- Each spelling of a legal token is read as that token. -/
theorem spells_of_mem {t : Token} {w : List Char} (ht : t.Legal) (hw : w ∈ t.spellings) :
    t.Spells w := by
  rcases t with k | b | x | s | - | (- | - | - | - | - | -) | - | - | - | - | - | - | -
  case keyword => exact List.mem_singleton.mp hw ▸ spells_keyword k
  case boolean => exact List.mem_singleton.mp hw ▸ spells_boolean b
  case name => exact List.mem_singleton.mp hw ▸ spells_name ht
  case number => exact List.mem_singleton.mp hw ▸ spells_number ht
  -- the signs, of which some have a second spelling
  all_goals
    simp only [spellings, List.mem_cons, List.not_mem_nil, or_false] at hw
    rcases hw with rfl | rfl <;> exact ⟨by decide, rfl, fun _ => rfl⟩

end Token

/-! ### Scanning a printed text -/

/-- A text without tabs is its own expansion. -/
theorem expandTabsFrom_of_no_tab {cs : List Char} (h : '\t' ∉ cs) (column : Nat) :
    expandTabsFrom column cs = cs := by
  induction cs generalizing column with
  | nil => rfl
  | cons c cs ih =>
    obtain ⟨hc, hcs⟩ := not_or.mp (mt List.mem_cons.mpr h)
    rw [expandTabsFrom, if_neg (Ne.symm hc)]
    split <;> rw [ih hcs]

/-- No token starts like a blank or a comment. -/
theorem gapLength_of_lex? {before : Option Char} {cs : List Char} {l : Lexeme}
    (h : lex? before cs = some l) : gapLength false cs = 0 := by
  rcases cs with - | ⟨c, cs⟩
  · rfl
  · refine gapLength_of_not_separator (fun hc => ?_) cs
    rw [lex?_separator hc] at h
    cases h

namespace Spelling

variable {σ : Spelling} {t : Token} {ts : List Token}

/-- A written token is scanned from a text in which a space or the end follows it. -/
theorem lex?_write (ht : t.Legal) (ts : List Token) :
    lex? none (σ.write t ++ σ.spaced ts) = some ⟨t, σ.write t⟩ := by
  have hspells := Token.spells_of_mem ht (σ.write_mem t)
  rcases ts with - | ⟨u, ts⟩
  · rw [spaced, List.flatMap_nil, List.append_nil]
    exact hspells.lex_end
  · exact hspells.lex_blank (σ.write u ++ σ.spaced ts)

/-- A token is read at its cursor, and the others from the text behind it. -/
theorem reads_write (ht : t.Legal) {c : Cursor} (hbefore : c.skip.before = none)
    (hrest : c.skip.rest = σ.write t ++ σ.spaced ts)
    (hmore : ∀ d : Cursor, d.rest = σ.spaced ts → d.Reads ts true) : c.Reads (t :: ts) true := by
  have hlex : c.skip.lexeme? = some ⟨t, σ.write t⟩ := by
    rw [Cursor.lexeme?, hbefore, hrest, lex?_write ht]
  have hpast : (c.skip.past ⟨t, σ.write t⟩).rest = σ.spaced ts := by
    rw [Cursor.past, hrest, List.drop_left]
  exact .token hlex (hmore _ hpast)

/-- Behind the first token of a printed text, each token is read after its blank. -/
theorem reads_spaced (h : ∀ t ∈ ts, t.Legal) {c : Cursor} (hrest : c.rest = σ.spaced ts) :
    c.Reads ts true := by
  induction ts generalizing c with
  | nil =>
    have hnil : c.rest = [] := hrest
    have hskip : c.skip.rest = [] := by rw [Cursor.skip, hnil, List.drop_nil]
    have hstop := Cursor.Reads.stop (c := c) (by rw [Cursor.lexeme?, hskip]; rfl)
    rwa [hskip] at hstop
  | cons t ts ih =>
    obtain ⟨ht, hts⟩ := List.forall_mem_cons.mp h
    -- between two tokens stands one space, and the second token begins with none
    have hgap : gapLength false (' ' :: (σ.write t ++ σ.spaced ts)) = 1 := by
      rw [gapLength, if_pos (by decide), gapLength_of_lex? (lex?_write ht ts)]
    have hskip : c.skip.before = none ∧ c.skip.rest = σ.write t ++ σ.spaced ts := by
      rw [Cursor.skip, hrest, spaced_cons, hgap]
      exact ⟨rfl, rfl⟩
    exact reads_write ht hskip.1 hskip.2 fun d hd => ih hts hd

theorem no_tab_spaced (h : ∀ t ∈ ts, t.Legal) : '\t' ∉ σ.spaced ts := by
  intro htab
  obtain ⟨t, ht, htab⟩ := List.mem_flatMap.mp htab
  rcases List.mem_cons.mp htab with heq | htab
  · exact absurd heq (by decide)
  · exact (Token.spells_of_mem (h t ht) (σ.write_mem t)).no_tab htab

/-- A printed text is read back as the tokens that were printed. -/
theorem scanSource_print (h : ∀ t ∈ ts, t.Legal) :
    (scanSource (σ.print ts)).sequence = ts ∧ (scanSource (σ.print ts)).complete = true := by
  rcases ts with - | ⟨t, ts⟩
  · exact ⟨rfl, rfl⟩
  obtain ⟨ht, hts⟩ := List.forall_mem_cons.mp h
  have hspells := Token.spells_of_mem ht (σ.write_mem t)
  have htab : '\t' ∉ σ.write t ++ σ.spaced ts := by
    rw [List.mem_append]
    exact not_or.mpr ⟨hspells.no_tab, no_tab_spaced hts⟩
  apply reads_source_iff.mp
  rw [print_cons, expandTabs, expandTabsFrom_of_no_tab htab]
  -- nothing is skipped before the first token
  have hskip := @Cursor.skip_of_no_gap ⟨none, 0, _⟩ (gapLength_of_lex? (lex?_write (σ := σ) ht ts))
  apply reads_write ht (by rw [hskip]) (by rw [hskip])
  intro d hd
  exact reads_spaced hts hd

end Spelling

end Pseudocode
