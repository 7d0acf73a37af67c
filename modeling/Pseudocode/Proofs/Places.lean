import Mathlib.Algebra.GroupWithZero.Nat
import Mathlib.Data.List.DropRight
import Pseudocode.ParseError.Place
import Pseudocode.Proofs.Concatenation

/-!
Places in a text.

A place is a way to write a text as `u ++ v`. Its line has the last line of `u` and the first line of
`v` in it, and there are as many lines above it as `u` has line feeds. Tabs are replaced line by
line, and every character but a tab stays one character. So a place before a character that is no
space in the expanded text is the place of that character in the text itself, in the same line; what
changes is the number of characters before it in the line.

Main results: the lines of a text at a place (`lines_append`), and the place of a character of the
expanded text in the text itself (`exists_place`).
-/

namespace Pseudocode

open Text

/-! ### Lines -/

/-- The last line of a text. -/
def lastLine (cs : List Char) : List Char := cs.rtakeWhile (· != '\n')

/-- The first line of a text. -/
def firstLine (cs : List Char) : List Char := cs.takeWhile (· != '\n')

theorem no_newline_lastLine (cs : List Char) : '\n' ∉ lastLine cs := by
  intro hmem
  simpa using List.mem_rtakeWhile_imp hmem

theorem lastLine_of_no_newline {cs : List Char} (h : '\n' ∉ cs) : lastLine cs = cs := by
  rw [lastLine, List.rtakeWhile_eq_self_iff]
  rintro c hc
  simp only [bne_iff_ne]
  rintro rfl
  exact h hc

/-- What follows the last line feed is the last line. -/
theorem lastLine_append_newline (cs : List Char) {ds : List Char} (h : '\n' ∉ ds) :
    lastLine (cs ++ '\n' :: ds) = ds := by
  have hds : ds.reverse.takeWhile (· != '\n') = ds.reverse := by
    rw [← List.reverse_inj, List.reverse_reverse]
    exact lastLine_of_no_newline h
  rw [lastLine, List.rtakeWhile, List.reverse_append, List.reverse_cons, List.append_assoc,
    List.singleton_append, takeWhile_append_stop (by decide), hds, List.reverse_reverse]

/-- If there is a line feed, one stands before the last line. -/
theorem exists_lastLine {cs : List Char} (h : '\n' ∈ cs) : ∃ ds, cs = ds ++ '\n' :: lastLine cs := by
  obtain ⟨es, ds, hreverse, hes⟩ := List.eq_append_cons_of_mem (List.mem_reverse.mpr h)
  have hcs : cs = ds.reverse ++ '\n' :: es.reverse := by
    rw [← List.reverse_reverse cs, hreverse]
    simp
  have hlast : lastLine cs = es.reverse := by
    rw [hcs]
    exact lastLine_append_newline _ (by simpa using hes)
  exact ⟨ds.reverse, by rw [hlast, ← hcs]⟩

theorem lines_cons_of_ne {c : Char} (hc : c ≠ '\n') {cs line : List Char} {rest : List (List Char)}
    (h : lines cs = line :: rest) : lines (c :: cs) = (c :: line) :: rest := by
  rw [lines, if_neg hc, h]

theorem lines_eq_cons (cs : List Char) : ∃ below, lines cs = firstLine cs :: below := by
  induction cs with
  | nil => exact ⟨[], rfl⟩
  | cons c cs ih =>
    obtain ⟨below, hbelow⟩ := ih
    by_cases hc : c = '\n'
    · subst hc
      exact ⟨lines cs, rfl⟩
    · refine ⟨below, ?_⟩
      rw [lines_cons_of_ne hc hbelow]
      simp [firstLine, hc]

/-- A line feed separates the lines before it from those behind it. -/
theorem lines_append_newline (u v : List Char) : lines (u ++ '\n' :: v) = lines u ++ lines v := by
  induction u with
  | nil => rfl
  | cons c u ih =>
    by_cases hc : c = '\n'
    · subst hc
      rw [List.cons_append, lines, if_pos rfl, ih, lines, if_pos rfl, List.cons_append]
    · obtain ⟨below, hbelow⟩ := lines_eq_cons u
      rw [hbelow, List.cons_append] at ih
      rw [List.cons_append, lines_cons_of_ne hc ih, lines_cons_of_ne hc hbelow, List.cons_append]

/-- A text without a line feed goes to the front of the first line behind it. -/
theorem lines_append_of_no_newline {u : List Char} (h : '\n' ∉ u) {v line : List Char}
    {below : List (List Char)} (hv : lines v = line :: below) :
    lines (u ++ v) = (u ++ line) :: below := by
  induction u with
  | nil => exact hv
  | cons c u ih =>
    obtain ⟨hc, hu⟩ := not_or.mp (mt List.mem_cons.mpr h)
    exact lines_cons_of_ne (Ne.symm hc) (ih hu)

theorem lines_of_no_newline {u : List Char} (h : '\n' ∉ u) : lines u = [u] := by
  simpa using lines_append_of_no_newline h (v := []) rfl

/-- The lines of a text at a place. -/
theorem lines_append (u v : List Char) :
    ∃ above below, above.length = u.count '\n' ∧ lines u = above ++ [lastLine u]
      ∧ lines (u ++ v) = above ++ (lastLine u ++ firstLine v) :: below := by
  obtain ⟨below, hbelow⟩ := lines_eq_cons v
  have hcount : ∀ {above : List (List Char)}, lines u = above ++ [lastLine u] →
      above.length = u.count '\n' := by
    intro above habove
    have hlength := length_lines u
    rw [habove, List.length_append] at hlength
    exact Nat.succ.inj hlength
  have hlast := no_newline_lastLine u
  -- the last line of the first text and the first line of the second become one
  by_cases h : '\n' ∈ u
  · obtain ⟨w, hu⟩ := exists_lastLine h
    have habove : lines u = lines w ++ [lastLine u] := by
      conv_lhs => rw [hu]
      rw [lines_append_newline, lines_of_no_newline hlast]
    refine ⟨lines w, below, hcount habove, habove, ?_⟩
    conv_lhs => rw [hu]
    rw [List.append_assoc, List.cons_append, lines_append_newline,
      lines_append_of_no_newline hlast hbelow]
  · have habove : lines u = [] ++ [lastLine u] := by
      rw [lastLine_of_no_newline h]
      exact lines_of_no_newline h
    refine ⟨[], below, hcount habove, habove, ?_⟩
    rw [lastLine_of_no_newline h]
    exact lines_append_of_no_newline h hbelow

/-- A line takes its characters and a line feed, which the last one lacks. -/
theorem sum_length_lines (cs : List Char) :
    ((lines cs).map fun line => line.length + 1).sum = cs.length + 1 := by
  induction cs with
  | nil => rfl
  | cons c cs ih =>
    by_cases hc : c = '\n'
    · rw [lines, if_pos hc, List.map_cons, List.sum_cons, ih, List.length_cons, List.length_nil]
      omega
    · obtain ⟨below, hbelow⟩ := lines_eq_cons cs
      rw [hbelow, List.map_cons, List.sum_cons] at ih
      rw [lines_cons_of_ne hc hbelow, List.map_cons, List.sum_cons, List.length_cons,
        List.length_cons]
      omega

/-! ### Tabs -/

/-- A character is written as itself or as spaces, and then the text goes on in some column. -/
theorem expandTabsFrom_cons (column : Nat) (c : Char) :
    ∃ ws column', (ws = [c] ∨ ∀ d ∈ ws, d = ' ')
      ∧ ∀ cs, expandTabsFrom column (c :: cs) = ws ++ expandTabsFrom column' cs := by
  by_cases htab : c = '\t'
  · let width := tabWidth - column % tabWidth
    refine ⟨List.replicate width ' ', column + width, .inr ?_, fun cs => ?_⟩
    · exact fun d hd => List.eq_of_mem_replicate hd
    · rw [expandTabsFrom, if_pos htab]
  -- only the column behind the character tells line ends from other characters
  by_cases hend : c = '\n' ∨ c = '\r'
  · refine ⟨[c], 0, .inl rfl, fun cs => ?_⟩
    rw [expandTabsFrom, if_neg htab, if_pos hend]
    rfl
  · refine ⟨[c], column + 1, .inl rfl, fun cs => ?_⟩
    rw [expandTabsFrom, if_neg htab, if_neg hend]
    rfl

/-- Tabs are expanded from left to right, and of what comes before only the column matters. -/
theorem expandTabsFrom_append (column : Nat) (u : List Char) :
    ∃ column', ∀ v,
      expandTabsFrom column (u ++ v) = expandTabsFrom column u ++ expandTabsFrom column' v := by
  induction u generalizing column with
  | nil => exact ⟨column, fun v => rfl⟩
  | cons c u ih =>
    obtain ⟨ws, next, -, hstep⟩ := expandTabsFrom_cons column c
    obtain ⟨column', h⟩ := ih next
    refine ⟨column', fun v => ?_⟩
    rw [List.cons_append, hstep, hstep, h, List.append_assoc]

/-- Line feeds are no tabs, and no tab becomes one. -/
theorem count_newline_expandTabsFrom (column : Nat) (cs : List Char) :
    (expandTabsFrom column cs).count '\n' = cs.count '\n' := by
  fun_induction expandTabsFrom column cs with
  | case1 => rfl
  | case2 column cs width ih => simp [List.count_append, List.count_replicate, ih]
  | case3 column c cs htab hend ih => simp [List.count_cons, ih]
  | case4 column c cs htab hend ih => simp [List.count_cons, ih]

theorem no_tab_expandTabsFrom (column : Nat) (cs : List Char) : '\t' ∉ expandTabsFrom column cs := by
  fun_induction expandTabsFrom column cs with
  | case1 => exact List.not_mem_nil
  | case2 column cs width ih =>
    exact List.not_mem_append (fun hmem => absurd (List.eq_of_mem_replicate hmem) (by decide)) ih
  | case3 column c cs htab hend ih => exact List.not_mem_cons_of_ne_of_not_mem (Ne.symm htab) ih
  | case4 column c cs htab hend ih => exact List.not_mem_cons_of_ne_of_not_mem (Ne.symm htab) ih

/-- Tabs are replaced line by line. -/
theorem lastLine_expandTabs (cs : List Char) : lastLine (expandTabs cs) = expandTabs (lastLine cs) := by
  have hnone : ∀ ds : List Char, '\n' ∉ ds → '\n' ∉ expandTabs ds := by
    intro ds hds
    rw [← List.count_eq_zero] at hds ⊢
    rw [expandTabs, count_newline_expandTabsFrom, hds]
  by_cases h : '\n' ∈ cs
  · obtain ⟨ds, hcs⟩ := exists_lastLine h
    have hexpanded : expandTabs cs = expandTabs ds ++ '\n' :: expandTabs (lastLine cs) := by
      conv_lhs => rw [hcs]
      exact expandTabsFrom_append_newline 0 ds _
    rw [hexpanded, lastLine_append_newline _ (hnone _ (no_newline_lastLine cs))]
  · rw [lastLine_of_no_newline h, lastLine_of_no_newline (hnone cs h)]

theorem exists_place_from {column : Nat} {cs : List Char} {p : Nat} {c : Char}
    (h : (expandTabsFrom column cs)[p]? = some c) (hc : c ≠ ' ') :
    ∃ u v, cs = u ++ c :: v ∧ (expandTabsFrom column u).length = p := by
  -- induction on the text: a position inside the expansion of a character holds a space
  induction cs generalizing column p with
  | nil => cases h
  | cons d cs ih =>
    obtain ⟨ws, column', hws, hstep⟩ := expandTabsFrom_cons column d
    rw [hstep] at h
    rcases Nat.lt_or_ge p ws.length with hp | hp
    · -- the place is in what is written for the first character, so that is no tab
      rw [List.getElem?_append_left hp] at h
      rcases hws with rfl | hspaces
      · obtain rfl : p = 0 := by simpa using hp
        obtain rfl : d = c := by simpa using h
        exact ⟨[], cs, rfl, rfl⟩
      · exact absurd (hspaces c (List.mem_of_getElem? h)) hc
    · rw [List.getElem?_append_right hp] at h
      obtain ⟨u, v, hcs, hlength⟩ := ih h
      refine ⟨d :: u, v, by rw [hcs, List.cons_append], ?_⟩
      rw [hstep, List.length_append, hlength]
      exact Nat.add_sub_cancel' hp

/-- A place of the text, and where it is in the expanded text: before a character that is no space in
the expanded text, and is the same character in the text itself. -/
structure PlaceOf (text : List Char) (p : Nat) (c : Char) (u v : List Char) : Prop where
  text_eq : text = u ++ c :: v
  take_eq : (expandTabs text).take p = expandTabs u
  drop_eq : ∃ column, (expandTabs text).drop p = expandTabsFrom column (c :: v)

/-- Every character of the expanded text that is no space stands in the text. -/
theorem exists_place {text : List Char} {p : Nat} {c : Char}
    (h : (expandTabs text)[p]? = some c) (hc : c ≠ ' ') : ∃ u v, PlaceOf text p c u v := by
  obtain ⟨u, v, rfl, rfl⟩ := exists_place_from h hc
  obtain ⟨column, happend⟩ := expandTabsFrom_append 0 u
  refine ⟨u, v, rfl, ?_, column, ?_⟩
  · rw [expandTabs, happend, List.take_left]
    rfl
  · rw [expandTabs, happend, List.drop_left]

/-! ### Line and column -/

namespace ParseError

/-- The column of a position is one more than what stands on its line before it. -/
theorem columnOf_eq (cs : List Char) (p : Nat) : columnOf cs p = (lastLine (cs.take p)).length + 1 := by
  rw [columnOf, lastLine, List.rtakeWhile, List.length_reverse]

/-- The lines of a text at a position: the line of the position, those above it, and the column. -/
theorem lines_at {cs : List Char} {p : Nat} {c : Char} (h : cs[p]? = some c) (hc : c ≠ '\n') :
    ∃ above line below, lines cs = above ++ line :: below ∧ lineOf cs p = above.length + 1
      ∧ (above.map fun line => line.length + 1).sum + columnOf cs p = p + 1
      ∧ columnOf cs p ≤ line.length := by
  obtain ⟨hlt, hget⟩ := List.getElem?_eq_some_iff.mp h
  have hdrop : cs.drop p = c :: cs.drop (p + 1) := by
    rw [List.drop_eq_getElem_cons hlt, hget]
  have hfirst : firstLine (cs.drop p) = c :: firstLine (cs.drop (p + 1)) := by
    simp [hdrop, firstLine, hc]
  -- the line goes from the last line feed before the position to the first one behind it
  obtain ⟨above, below, habove, htake, hlines⟩ := lines_append (cs.take p) (cs.drop p)
  have hsum := sum_length_lines (cs.take p)
  rw [htake, List.map_append, List.sum_append, List.length_take_of_le (Nat.le_of_lt hlt)] at hsum
  rw [List.take_append_drop, hfirst] at hlines
  rw [lineOf, columnOf_eq]
  refine ⟨above, _, below, hlines, by rw [habove], ?_, ?_⟩
  · simpa using hsum
  · rw [List.length_append, List.length_cons]
    omega

/-- A numbered line with a caret under the character that has the given number of characters before
it in the line. -/
def marked (number : Int) (line : List Char) (index : Nat) : String :=
  gutter number ++ String.ofList line ++ "\n"
    ++ String.ofList (List.replicate ((gutter number).length + index) ' ') ++ "^"

/-- The excerpt at a line and a column is the line with a mark under the column, if the line
exists. -/
theorem excerptOf_eq {source line : List Char} {above below : List (List Char)}
    (h : lines source = above ++ line :: below) (index : Nat) :
    excerptOf source (above.length + 1 : Nat) (index + 1 : Nat)
      = some (marked (above.length + 1 : Nat) line index) := by
  have hline : lineAt source (above.length + 1 : Nat) = line := by
    rw [lineAt, if_pos (by omega), h]
    simp
  have hcount : above.length + 1 ≤ (lines source).length := by
    rw [h, List.length_append, List.length_cons]
    omega
  have hblanks : ((gutter (above.length + 1 : Nat)).length + (index + 1 : Nat) - 1 : Int).toNat
      = (gutter (above.length + 1 : Nat)).length + index := by
    omega
  rw [excerptOf, if_pos (by omega), hline]
  dsimp only
  rw [hblanks]
  rfl

end ParseError

namespace PlaceOf

variable {text : List Char} {p : Nat} {c : Char} {u v : List Char}

/-- The line of a place is told by the line feeds before it. -/
theorem lineOf_eq (h : PlaceOf text p c u v) :
    ParseError.lineOf (expandTabs text) p = u.count '\n' + 1 := by
  rw [ParseError.lineOf, h.take_eq, expandTabs, count_newline_expandTabsFrom]

/-- Its column is told by what stands on its line before it, with the tabs expanded. -/
theorem columnOf_eq (h : PlaceOf text p c u v) :
    ParseError.columnOf (expandTabs text) p = (expandTabs (lastLine u)).length + 1 := by
  rw [ParseError.columnOf_eq, h.take_eq, lastLine_expandTabs]

/-- The excerpt has the line of the place; the caret stands as far to the right as the place is in the
expanded line. -/
theorem excerpt_eq (h : PlaceOf text p c u v) (filename : String) :
    (ParseError.atPosition text filename p).excerpt
      = some (ParseError.marked (u.count '\n' + 1 : Nat) (lastLine u ++ firstLine (c :: v))
        (expandTabs (lastLine u)).length) := by
  obtain ⟨above, below, habove, -, hlines⟩ := lines_append u (c :: v)
  rw [← h.text_eq] at hlines
  simp only [ParseError.atPosition, h.lineOf_eq, h.columnOf_eq, ← habove]
  exact ParseError.excerptOf_eq hlines _

end PlaceOf

end Pseudocode
