import Pseudocode.Proofs.ErrorPosition

/-!
What a report about an error shows.

A report quotes what stands at the error, and shows its line with a caret. The position of the error
is one of the expanded text, and what is quoted and shown comes from the text as it was written. So
the line is the right one, but the caret is too far to the right if tabs stand before the error in
its line, and what is quoted is too far behind the error if tabs stand anywhere before it.

Design. `Quotes` says what it is to quote the text at an index, `ParseError.marked` is a line with a
caret under an index of it; neither knows about tabs. The place of the error in the text itself
comes from `exists_place`.

Main result: `error_report`.
-/

namespace Pseudocode

open Text

/-- The words say what stands at an index of a text: the start of the rest of its line without the
white space around it, or which end the index is at, if nothing is left there but white space. -/
structure Quotes (text : List Char) (i : Nat) (words : String) : Prop where
  fragment : isBlank (firstLine (text.drop i)) = false →
    words = quoted (String.ofList ((trim (firstLine (text.drop i))).take ParseError.quoteLength))
  line_end : isBlank (firstLine (text.drop i)) = true → isBlank (text.drop i) = false →
    words = "end of line"
  input_end : isBlank (text.drop i) = true → words = "end of input"

namespace ParseError

/-- What is quoted is the rest of the line, or the words about the end of the line or of the
text. -/
theorem quotes_foundAt (text : List Char) (i : Nat) : Quotes text i (foundAt text i) := by
  have hfound : foundAt text i = if (trim (firstLine (text.drop i))).isEmpty = false then
        quoted (String.ofList ((trim (firstLine (text.drop i))).take quoteLength))
      else if isBlank (text.drop i) then "end of input" else "end of line" := by
    simp [foundAt, firstLine]
  -- the line is blank exactly if nothing is left when it is trimmed
  have hempty : (trim (firstLine (text.drop i))).isEmpty = isBlank (firstLine (text.drop i)) := by
    rw [Bool.eq_iff_iff, List.isEmpty_iff, trim_eq_nil_iff]
  rw [hempty] at hfound
  refine ⟨fun hline => ?_, fun hline hrest => ?_, fun hrest => ?_⟩
  · rw [hfound, if_pos hline]
  · rw [hfound, if_neg (by simp [hline]), if_neg (by simp [hrest])]
  · have hline : isBlank (firstLine (text.drop i)) = true := by
      rw [isBlank, List.all_eq_true] at hrest ⊢
      exact fun c hc => hrest c ((List.takeWhile_sublist _).subset hc)
    rw [hfound, if_neg (by simp [hline]), if_pos hrest]

/-- Different indices have the caret in different places. -/
theorem marked_inj {number : Int} {line : List Char} {i j : Nat} :
    marked number line i = marked number line j ↔ i = j := by
  constructor
  · intro h
    have hlength := congrArg String.length h
    simpa [marked] using hlength
  · rintro rfl
    rfl

end ParseError

/-- **What a report shows.** If a text is no program, reading stopped at a character of it. The
report has the line of that character, and shows the line. The caret stands under the character with
as many characters before it as there are in the expanded line; that is the right one exactly if the
tabs before it make the line no longer. What is quoted stands at the position in the expanded text.
If no tab stands before the character, both are right. -/
theorem error_report {text : List Char} {p : Nat} (h : parseProgram text = .error p)
    (filename : String) :
    ∃ u c v, text = u ++ c :: v ∧ (expandTabs u).length = p ∧ (expandTabs text)[p]? = some c
      ∧ c ∉ separators
      ∧ (ParseError.atPosition text filename p).line = (u.count '\n' + 1 : Nat)
      ∧ (ParseError.atPosition text filename p).excerpt
        = some (ParseError.marked (u.count '\n' + 1 : Nat) (lastLine u ++ firstLine (c :: v))
          (expandTabs (lastLine u)).length)
      ∧ ((ParseError.atPosition text filename p).excerpt
          = some (ParseError.marked (u.count '\n' + 1 : Nat) (lastLine u ++ firstLine (c :: v))
            (lastLine u).length)
        ↔ (expandTabs (lastLine u)).length = (lastLine u).length)
      ∧ ∃ words, (ParseError.atPosition text filename p).found = some words ∧ Quotes text p words
        ∧ ('\t' ∉ u → Quotes text u.length words
          ∧ (expandTabs (lastLine u)).length = (lastLine u).length) := by
  obtain ⟨c, hc, hfree⟩ := exists_char_of_parseProgram_error h
  have hspace : c ≠ ' ' := by
    rintro rfl
    exact hfree (by decide)
  -- the position in the expanded text is a place of the text itself
  obtain ⟨u, v, hplace⟩ := exists_place hc hspace
  have hlength : (expandTabs u).length = p := by
    obtain ⟨hlt, -⟩ := List.getElem?_eq_some_iff.mp hc
    rw [← hplace.take_eq, List.length_take_of_le (Nat.le_of_lt hlt)]
  refine ⟨u, c, v, hplace.text_eq, hlength, hc, hfree, ?_, hplace.excerpt_eq filename, ?_, ?_⟩
  · exact congrArg Nat.cast hplace.lineOf_eq
  · rw [hplace.excerpt_eq, Option.some_inj, ParseError.marked_inj]
  · refine ⟨_, rfl, ParseError.quotes_foundAt text p, fun htab => ?_⟩
    -- without a tab before it, the place is the position
    have hsame : ∀ w : List Char, '\t' ∉ w → expandTabs w = w :=
      fun w hw => expandTabsFrom_of_no_tab hw 0
    have hlast : '\t' ∉ lastLine u := fun hmem => htab ((List.rtakeWhile_suffix _ u).subset hmem)
    rw [hsame u htab] at hlength
    rw [hlength, hsame _ hlast]
    exact ⟨ParseError.quotes_foundAt text p, rfl⟩

/-- A tab before a bad statement. The error is at the name behind the tab, the caret is under the end
of the line, and the name is not quoted. -/
theorem error_report_tab :
    parseProgram "\tx <- )".toList = .error 8
      ∧ (ParseError.atPosition "\tx <- )".toList "" 8).excerpt
        = some (ParseError.marked 1 "\tx <- )".toList 8)
      ∧ (ParseError.atPosition "\tx <- )".toList "" 8).excerpt
        ≠ some (ParseError.marked 1 "\tx <- )".toList 1)
      ∧ (ParseError.atPosition "\tx <- )".toList "" 8).found = some "end of input"
      ∧ ¬ Quotes "\tx <- )".toList 1 "end of input" := by
  have hparse : parseProgram "\tx <- )".toList = .error 8 := rfl
  have hfound : (ParseError.atPosition "\tx <- )".toList "" 8).found = some "end of input" := by
    decide +kernel
  have hquotes : ¬ Quotes "\tx <- )".toList 1 "end of input" := by
    intro hquotes
    exact absurd (hquotes.fragment (by decide +kernel)) (by decide +kernel)
  obtain ⟨u, c, v, htext, hlength, -, -, -, hexcerpt, hcaret, -⟩ := error_report hparse ""
  have hchars : ['\t', 'x', ' ', '<', '-', ' ', ')'] = u ++ c :: v := htext
  -- one tab is as wide as the position
  obtain rfl : u = ['\t'] := by
    rcases u with - | ⟨d, - | ⟨e, u⟩⟩
    · cases hlength
    · cases hchars
      rfl
    · simp only [List.cons_append, List.cons.injEq] at hchars
      obtain ⟨rfl, rfl, -⟩ := hchars
      simp [expandTabs, expandTabsFrom, tabWidth] at hlength
  cases hchars
  refine ⟨hparse, hexcerpt, ?_, hfound, hquotes⟩
  intro hright
  exact absurd (hcaret.mp hright) (by decide)

end Pseudocode
