import Mathlib.Data.List.Forall2
import Pseudocode.Proofs.RoundTrip
import Pseudocode.Proofs.TokenRow
import Pseudocode.ReadLoop

/-!
Programs one after the other.

A line end means nothing to the grammar, so where one program ends and the next one begins is not
written down anywhere. Three things keep them apart. A line end closes a comment and cannot be part
of a token, so the tokens of the joined text are the tokens of the two texts. A statement starts
with a token that does not go on with an expression, so the last expression of the first program
ends where it ended before. And the readers give the statements of any row of statements back.

The read loop joins the lines of its buffer in this way, so lines that are programs by themselves
are one program together.

Main results: the tokens of two texts with a line end between them (`scanSource_append_newline`),
and their statements (`parseProgram_append_newline`).
-/

namespace Pseudocode

open Text

/-! ### Blanks and comments of joined texts -/

/-- What stops the blanks and comments in the first text stops them in the joined text. -/
theorem gapLength_append {commented : Bool} {cs : List Char}
    (h : gapLength commented cs < cs.length) (ds : List Char) :
    gapLength commented (cs ++ ds) = gapLength commented cs := by
  -- the gap ends inside the first text, so what follows it is never seen
  fun_induction gapLength commented cs with
  | case1 => cases h
  | case2 c cs ih =>
    rw [List.length_cons] at h
    rw [List.cons_append, gapLength, ih (by omega)]
  | case3 c cs hgap ih =>
    rw [List.length_cons] at h
    rw [List.cons_append, gapLength, if_pos hgap, ih (by omega)]
  | case4 cs hgap ih =>
    rw [List.length_cons] at h
    rw [List.cons_append, gapLength, if_neg hgap, if_pos rfl, ih (by omega)]
  | case5 c cs hgap hsign => rw [List.cons_append, gapLength, if_neg hgap, if_neg hsign]

/-- If nothing stops them, the line end closes the last comment and they go on behind it. -/
theorem gapLength_append_newline {commented : Bool} {cs : List Char}
    (h : gapLength commented cs = cs.length) (ds : List Char) :
    gapLength commented (cs ++ '\n' :: ds) = cs.length + 1 + gapLength false ds := by
  -- the line feed belongs to the gap, and ends a comment that may be open there
  fun_induction gapLength commented cs with
  | case1 commented =>
    cases commented
    · rw [List.nil_append, gapLength, if_pos (by decide), List.length_nil, Nat.zero_add]
    · rw [List.nil_append, gapLength, List.length_nil, Nat.zero_add]
      simp
  | case2 c cs ih =>
    rw [List.length_cons] at h ⊢
    rw [List.cons_append, gapLength, ih (by omega)]
    omega
  | case3 c cs hgap ih =>
    rw [List.length_cons] at h ⊢
    rw [List.cons_append, gapLength, if_pos hgap, ih (by omega)]
    omega
  | case4 cs hgap ih =>
    rw [List.length_cons] at h ⊢
    rw [List.cons_append, gapLength, if_neg hgap, if_pos rfl, ih (by omega)]
    omega
  | case5 => cases h

/-! ### Tokens of joined texts -/

namespace Cursor

/-- The cursor with a line end and a further text behind its text. -/
def joined (c : Cursor) (ds : List Char) : Cursor := { c with rest := c.rest ++ '\n' :: ds }

/-- A gap that ends in the first text is the same with another text behind it. -/
theorem skip_joined {c : Cursor} (h : c.skip.rest ≠ []) (ds : List Char) :
    (c.joined ds).skip = c.skip.joined ds := by
  have hlt : gapLength false c.rest < c.rest.length := by
    have hpos := List.length_pos_iff.mpr h
    rw [skip, List.length_drop] at hpos
    omega
  have hgap : gapLength false (c.rest ++ '\n' :: ds) = gapLength false c.rest :=
    gapLength_append hlt _
  simp only [skip, joined, hgap, List.drop_append_of_le_length (Nat.le_of_lt hlt)]

/-- A token of the first text is read in the joined text, and what follows it is joined too. -/
theorem lexeme?_joined {c : Cursor} {l : Lexeme} (hl : c.skip.lexeme? = some l) (ds : List Char) :
    (c.joined ds).skip.lexeme? = some l
      ∧ (c.joined ds).skip.past l = (c.skip.past l).joined ds := by
  have hne : c.skip.rest ≠ [] := by
    intro hnil
    rw [lexeme?, hnil] at hl
    cases hl
  have hle := (text_prefix_of_lex? hl).length_le
  rw [skip_joined hne ds]
  constructor
  · rw [← hl]
    exact lex?_append_separator (by decide) hne _ ds
  · rw [past, past, joined, joined, List.drop_append_of_le_length hle]

/-- At the end of the first text, the second one is read as from its start. -/
theorem reads_joined_of_end {c : Cursor} (h : c.skip.rest = []) {ds : List Char} {us : List Token}
    {complete : Bool} (hds : Reads ⟨none, 0, ds⟩ us complete) :
    Reads (c.joined ds) us complete := by
  have hall : gapLength false c.rest = c.rest.length :=
    Nat.le_antisymm (gapLength_le false c.rest) (List.drop_eq_nil_iff.mp h)
  have hgap : gapLength false (c.rest ++ '\n' :: ds) = c.rest.length + 1 + gapLength false ds :=
    gapLength_append_newline hall ds
  have hdrop : (c.rest ++ '\n' :: ds).drop (c.rest.length + 1 + gapLength false ds)
      = ds.drop (gapLength false ds) := by
    rw [Nat.add_assoc, List.drop_length_add_append, Nat.add_comm 1, List.drop_succ_cons]
  -- a line end comes before the second text, and nothing before its start: no word is touched
  refine hds.congr ?_ ?_
  · simp [skip, joined, hgap]
  · simp only [skip, joined, hgap, hdrop]

/-- The tokens of the first text are read, and then those of the second. -/
theorem Reads.joined {c : Cursor} {ts : List Token} (h : Reads c ts true) {ds : List Char}
    {us : List Token} {complete : Bool} (hds : Reads ⟨none, 0, ds⟩ us complete) :
    Reads (c.joined ds) (ts ++ us) complete := by
  generalize hend : true = reachesEnd at h
  induction h with
  | stop hl => exact reads_joined_of_end (List.isEmpty_iff.mp hend.symm) hds
  | @token c l ts _ hl _ ih =>
    obtain ⟨hlex, hpast⟩ := lexeme?_joined hl ds
    refine .token hlex ?_
    rw [hpast]
    exact ih hend

end Cursor

/-- Tab stops start anew behind a line feed. -/
theorem expandTabsFrom_append_newline (column : Nat) (cs ds : List Char) :
    expandTabsFrom column (cs ++ '\n' :: ds)
      = expandTabsFrom column cs ++ '\n' :: expandTabs ds := by
  -- the column is carried along up to the line feed, and is zero behind it
  fun_induction expandTabsFrom column cs with
  | case1 column =>
    rw [List.nil_append, expandTabsFrom, if_neg (by decide), if_pos (.inl rfl)]
    rfl
  | case2 column cs width ih =>
    rw [List.cons_append, expandTabsFrom, if_pos rfl]
    dsimp only
    rw [ih, List.append_assoc]
  | case3 column c cs htab hend ih =>
    rw [List.cons_append, expandTabsFrom, if_neg htab, if_pos hend, ih, List.cons_append]
  | case4 column c cs htab hend ih =>
    rw [List.cons_append, expandTabsFrom, if_neg htab, if_neg hend, ih, List.cons_append]

/-- The tokens of two texts with a line end between them. -/
theorem scanSource_append_newline {text : List Char} (h : (scanSource text).complete = true)
    (text' : List Char) :
    (scanSource (text ++ '\n' :: text')).sequence
        = (scanSource text).sequence ++ (scanSource text').sequence
      ∧ (scanSource (text ++ '\n' :: text')).complete = (scanSource text').complete := by
  have hfirst := reads_source text
  rw [h] at hfirst
  have htabs : expandTabs (text ++ '\n' :: text') = expandTabs text ++ '\n' :: expandTabs text' :=
    expandTabsFrom_append_newline 0 text text'
  apply reads_source_iff.mp
  rw [htabs]
  exact hfirst.joined (reads_source text')

/-! ### Programs -/

/-- Programs on separate lines are one program. -/
theorem parseProgram_joined {text text' : List Char} {statements statements' : List Stmt}
    (h : parseProgram text = .ok statements) (h' : parseProgram text' = .ok statements') :
    parseProgram (text ++ '\n' :: text') = .ok (statements ++ statements') := by
  obtain ⟨htokens, hcomplete⟩ := sequence_of_parseProgram h
  obtain ⟨htokens', hcomplete'⟩ := sequence_of_parseProgram h'
  obtain ⟨hsequence, hend⟩ := scanSource_append_newline hcomplete text'
  apply parseProgram_of_sequence
  · rw [List.forall_mem_append]
    exact ⟨levelled_of_parseProgram h, levelled_of_parseProgram h'⟩
  · rw [hsequence, htokens, htokens', List.flatMap_append]
  · rw [hend, hcomplete']

/-- The same of any number of programs. -/
theorem parseProgram_unlines {texts : List (List Char)} {programs : List (List Stmt)}
    (h : List.Forall₂ (fun text statements => parseProgram text = .ok statements) texts programs) :
    parseProgram (unlines texts) = .ok programs.flatten := by
  induction h with
  | nil => rfl
  | @cons text statements texts programs htext hrest ih =>
    cases hrest with
    | nil => simpa [unlines] using htext
    | cons _ _ => exact parseProgram_joined htext ih

/-- **Programs can be joined.** If two texts are programs, then the text with a line end between
them is the program with the statements of both. So if every line in the buffer of the read loop is
a program by itself, the buffer is the program with the statements of all lines. -/
theorem parseProgram_append_newline :
    (∀ (text text' : List Char) (statements statements' : List Stmt),
      parseProgram text = .ok statements → parseProgram text' = .ok statements' →
      parseProgram (text ++ '\n' :: text') = .ok (statements ++ statements'))
    ∧ ∀ (m : ReadLoop.Memory) (programs : List (List Stmt)),
      List.Forall₂ (fun line statements => parseProgram line.toList = .ok statements)
        m.buffer programs →
      parseProgram m.source = .ok programs.flatten := by
  refine ⟨fun text text' statements statements' h h' => parseProgram_joined h h', ?_⟩
  intro m programs h
  exact parseProgram_unlines (List.forall₂_map_left_iff.mpr h)

/-- The first text ends with a name, and with a comment that nothing closes; a bracket behind the
name would make a call of it. The second text starts with a name that has a bracket behind it. -/
theorem parseProgram_append_newline_call :
    parseProgram "x <- a# (".toList = .ok [.assign "x" false (.reference "a")]
      ∧ parseProgram "b(2)".toList = .ok [.call "b" [.number "2"]]
      ∧ parseProgram "x <- a# (\nb(2)".toList
        = .ok [.assign "x" false (.reference "a"), .call "b" [.number "2"]] := by
  have hfirst : parseProgram "x <- a# (".toList = .ok [.assign "x" false (.reference "a")] := rfl
  have hsecond : parseProgram "b(2)".toList = .ok [.call "b" [.number "2"]] := rfl
  exact ⟨hfirst, hsecond, parseProgram_append_newline.1 _ _ _ _ hfirst hsecond⟩

end Pseudocode
