import Pseudocode.Proofs.Places
import Pseudocode.Proofs.Truncation

/-!
Where reading stops.

If a text is no program, the position of the error ends a beginning of the text that has been read
completely: the statements up to there are those of the program, and no further statement starts
there.

Design. The scanner stands at the cursor `d` behind the tokens of these statements
(`readTo_of_parseProgram_error`), and the position of the error is behind the blanks and comments
that follow. So the position is where a token could start, and the text is cut there
(`ReadTo.sequence_cut`): the statements are the program of what is before the cut, unless the last
word before it is a reserved word that was read as a name because a dollar sign stands there
(`DollarName`).

Main result: `error_position`.
-/

namespace Pseudocode

open Text

/-! ### What stands before a cursor -/

/-- The last of the blanks and comments before something else is a blank: a comment ends with its
line. -/
theorem exists_blank_of_gap {commented : Bool} {cs : List Char}
    (hlt : gapLength commented cs < cs.length) (hpos : gapLength commented cs ≠ 0) :
    ∃ gap g, cs.take (gapLength commented cs) = gap ++ [g] ∧ isGap g = true := by
  -- the first of them is the last, or the last of them is the last of those behind the first
  have hstep : ∀ {c : Char} {ds : List Char} {within : Bool},
      (gapLength within ds = 0 → isGap c = true) →
      (gapLength within ds ≠ 0 → ∃ gap g, ds.take (gapLength within ds) = gap ++ [g]
        ∧ isGap g = true) →
      ∃ gap g, (c :: ds).take (1 + gapLength within ds) = gap ++ [g] ∧ isGap g = true := by
    intro c ds within hfirst hlater
    rw [Nat.add_comm, List.take_succ_cons]
    by_cases hzero : gapLength within ds = 0
    · exact ⟨[], c, by rw [hzero]; rfl, hfirst hzero⟩
    · obtain ⟨gap, g, htake, hg⟩ := hlater hzero
      exact ⟨c :: gap, g, by rw [htake, List.cons_append], hg⟩
  have hcomment : ∀ {ds : List Char}, gapLength true ds < ds.length → gapLength true ds ≠ 0 := by
    intro ds hds
    rcases ds with - | ⟨d, ds⟩
    · cases hds
    · rw [gapLength]
      omega
  fun_induction gapLength commented cs with
  | case1 => exact absurd rfl hpos
  | case2 c cs ih =>
    rw [List.length_cons] at hlt
    refine hstep (fun hzero => ?_) (ih (by omega))
    by_cases hend : c = '\n'
    · subst hend
      rfl
    · simp only [hend, ne_eq, not_false_eq_true, decide_true] at hzero hlt
      exact absurd hzero (hcomment (by omega))
  | case3 c cs hgap ih =>
    rw [List.length_cons] at hlt
    exact hstep (fun _ => hgap) (ih (by omega))
  | case4 cs hgap ih =>
    rw [List.length_cons] at hlt
    exact hstep (fun hzero => absurd hzero (hcomment (by omega))) (ih (by omega))
  | case5 => exact absurd rfl hpos

/-- A cursor remembers the character in front of its position. -/
theorem Reached.before_eq {cs : List Char} {c : Cursor} (h : Reached cs c) :
    c.before = (cs.take c.position).getLast? := by
  induction h with
  | start => rfl
  | @past c l hc hl ih =>
    have htext := text_ne_nil_of_lex? hl
    have htake : cs.take (c.skip.position + l.text.length) = cs.take c.skip.position ++ l.text := by
      rw [List.take_add, ← hc.rest_skip_eq_drop]
      congr 1
      exact (List.prefix_iff_eq_take.mp (text_prefix_of_lex? hl)).symm
    show l.text.getLast? = (cs.take (c.skip.position + l.text.length)).getLast?
    rw [htake, List.getLast?_append, List.getLast?_eq_some_getLast htext]
    rfl

/-- Whether a word would be touched at a cursor can be seen from the character before it. -/
theorem Reached.touched_iff {cs : List Char} {c : Cursor} (h : Reached cs c)
    (hrest : c.skip.rest ≠ []) :
    (cs.take c.skip.position).getLast?.any gluesWords = c.skip.before.any gluesWords := by
  by_cases hgap : gapLength false c.rest = 0
  · rw [Cursor.skip_of_no_gap hgap, h.before_eq]
  · -- a blank stands before the cursor, and no blank touches a word
    have hlt : gapLength false c.rest < c.rest.length := by
      rw [Cursor.skip] at hrest
      simpa using hrest
    obtain ⟨gap, g, htake, hg⟩ := exists_blank_of_gap hlt hgap
    have hglue : gluesWords g = false := by
      simp only [isGap, Bool.or_eq_true, beq_iff_eq] at hg
      rcases hg with ((rfl | rfl) | rfl) | rfl <;> rfl
    have hbefore : c.skip.before = none := by
      simp [Cursor.skip, hgap]
    have hposition : cs.take c.skip.position = cs.take c.position ++ (gap ++ [g]) := by
      show cs.take (c.position + gapLength false c.rest) = _
      rw [List.take_add, ← h.rest_eq_drop, htake]
    rw [hbefore, hposition, ← List.append_assoc, List.getLast?_concat, Option.any_some, hglue]
    rfl

/-! ### Repetitions -/

/-- A repetition stops where no further item can be read. -/
theorem Reader.many_stops {α : Type} {item : Reader α} (h : item.Advances) (ts : List Token) :
    item (many item ts).2 = none := by
  induction hn : ts.length using Nat.strong_induction_on generalizing ts with
  | _ n ih =>
    rcases hitem : item ts with - | ⟨a, rest⟩
    · rw [many_of_none hitem, hitem]
    · rw [many_of_some h hitem]
      exact ih rest.length (hn ▸ h hitem) rest rfl

/-- A statement takes a token at least. -/
theorem Grammar.statement_advances : statement.Advances :=
  fun ts _ _ h => statementWithin_advances (ts.length + 1) h

/-- Behind a program no further statement starts. -/
theorem Grammar.statement_program_rest (ts : List Token) : statement (program ts).2 = none :=
  Reader.many_stops statement_advances ts

/-! ### The position of an error -/

/-- The cursor at a position of a text. -/
def cursorAt (cs : List Char) (p : Nat) : Cursor := ⟨(cs.take p).getLast?, p, cs.drop p⟩

/-- The tokens that are read from a position of a text on. -/
def tokensAt (cs : List Char) (p : Nat) : List Token :=
  ((cursorAt cs p).scan (cs.length + 1)).sequence

/-- A reserved word ends at the position that is read as a name, although it touches nothing before
it, because a dollar sign follows. -/
def DollarName (cs : List Char) (p : Nat) : Prop :=
  cs[p]? = some '$' ∧ ∃ q x, IsReserved x ∧ ⟨q, .name x⟩ ∈ (scan cs).tokens ∧ q + x.length = p
    ∧ (cs.take q).getLast?.any gluesWords = false

variable {text : List Char} {p : Nat}

/-- What is left when the tokens up to a cursor have been read starts behind the blanks and comments
that follow. -/
theorem ReadTo.unread?_eq {cs : List Char} {ts us : List Token} {d : Cursor} (h : ReadTo cs ts d)
    (hus : (scan cs).sequence = ts ++ us) {p : Nat} (hp : (scan cs).unread? us = some p) :
    d.skip.position = p ∧ d.skip.rest ≠ [] := by
  obtain ⟨rounds, placed, -, hplaced, hscan⟩ := h.scan_eq
  have hsequence : (d.scan (rounds + 1)).sequence = us := by
    rw [hscan, Scan.sequence, List.map_append, hplaced] at hus
    exact List.append_cancel_left hus
  -- the tokens that are left are those that the scan has from the cursor on
  have hdrop : (scan cs).tokens.drop ((scan cs).tokens.length - us.length)
      = (d.scan (rounds + 1)).tokens := by
    rw [hscan, ← hsequence, Scan.sequence, List.length_map, List.length_append, Nat.add_sub_cancel,
      List.drop_left]
  rw [Scan.unread?, hdrop, hscan] at hp
  rcases hl : d.skip.lexeme? with - | l
  · rw [Cursor.scan_of_no_lexeme hl] at hp
    rcases hempty : d.skip.rest.isEmpty with - | -
    · rw [hempty] at hp
      exact ⟨Option.some.inj hp, List.isEmpty_eq_false_iff.mp hempty⟩
    · rw [hempty] at hp
      cases hp
  · rw [Cursor.scan_of_lexeme hl] at hp
    refine ⟨Option.some.inj hp, ?_⟩
    intro hnil
    rw [Cursor.lexeme?, hnil] at hl
    cases hl

/-- Reading stops behind the statements, and the error is behind the blanks and comments that follow
them. -/
theorem readTo_of_parseProgram_error (h : parseProgram text = .error p) :
    ∃ d complete, ReadTo (expandTabs text)
        ((Grammar.program (scanSource text).sequence).1.flatMap Stmt.tokens) d
      ∧ d.skip.position = p ∧ d.skip.rest ≠ []
      ∧ Cursor.Reads d (Grammar.program (scanSource text).sequence).2 complete := by
  have htakes := Grammar.program_takes (scanSource text).sequence
  simp only [parseProgram] at h
  generalize Grammar.program (scanSource text).sequence = result at h htakes ⊢
  obtain ⟨statements, rest⟩ := result
  dsimp only at h htakes ⊢
  -- the cursor behind the statements reads what the grammar has left
  obtain ⟨d, hd⟩ := exists_readTo htakes
  obtain ⟨us, hsequence, hreads⟩ := hd.sequence_eq
  obtain rfl : rest = us := List.append_cancel_left (htakes.symm.trans hsequence)
  split at h
  · cases h
  · rename_i position hunread
    cases h
    obtain ⟨hposition, hrest⟩ := hd.unread?_eq htakes hunread
    exact ⟨d, _, hd, hposition, hrest, hreads⟩

/-- What stands at the error is neither a blank nor a comment. -/
theorem exists_char_of_parseProgram_error (h : parseProgram text = .error p) :
    ∃ c, (expandTabs text)[p]? = some c ∧ c ∉ separators := by
  obtain ⟨d, -, hd, rfl, hrest, -⟩ := readTo_of_parseProgram_error h
  obtain ⟨c, rest, hc⟩ := List.exists_cons_of_ne_nil hrest
  refine ⟨c, ?_, not_separator_of_drop hc⟩
  rw [← List.head?_drop, ← hd.reached.rest_skip_eq_drop, hc]
  rfl

/-! ### The text up to the error -/

section

variable {cs : List Char} {ts : List Token} {d : Cursor}

/-- At the position behind a cursor, the same tokens are read. -/
theorem ReadTo.tokensAt_eq (h : ReadTo cs ts d) (hrest : d.skip.rest ≠ []) {us : List Token}
    {complete : Bool} (hreads : Cursor.Reads d us complete) :
    tokensAt cs d.skip.position = us := by
  have hdrop := h.reached.rest_skip_eq_drop
  have hskip : (cursorAt cs d.skip.position).skip = cursorAt cs d.skip.position := by
    apply Cursor.skip_of_no_gap
    rw [cursorAt, ← hdrop, Cursor.gapLength_skip]
  -- at the position behind the gap a word is touched exactly if it was touched behind the token
  have hreads' : Cursor.Reads (cursorAt cs d.skip.position) us complete := by
    apply hreads.congr
    · rw [hskip]
      exact (h.reached.touched_iff hrest).symm
    · rw [hskip]
      exact hdrop
  have hlength : (cursorAt cs d.skip.position).rest.length < cs.length + 1 := by
    rw [cursorAt, List.length_drop]
    omega
  exact (hreads'.scan_eq hlength).1

/-- Nothing is read from a dollar sign on. -/
theorem ReadTo.sequence_of_dollar (h : ReadTo cs ts d) {tail : List Char}
    (hrest : d.skip.rest = '$' :: tail) : (scan cs).sequence = ts := by
  have hl : d.skip.lexeme? = none := by
    rw [Cursor.lexeme?, hrest, lex?, if_neg (by decide), if_neg (by decide)]
    rfl
  exact (h.sequence_of_no_lexeme hl).1

/-- A reserved word that nothing touches is what it means, if the text ends behind it. -/
theorem lex?_reserved {x : String} (hx : IsReserved x) {before : Option Char}
    (hfree : before.any gluesWords = false) :
    ∃ t, (∀ y, t ≠ .name y) ∧ lex? before x.toList = some ⟨t, x.toList⟩ := by
  obtain ⟨hne, hletters⟩ := hx.letters
  obtain ⟨t, ht⟩ := Option.isSome_iff_exists.mp hx.reserved?_isSome
  have hrun : x.toList.takeWhile gluesWords = x.toList :=
    List.takeWhile_eq_self_iff.mpr fun c hc => gluesWords_of_isAsciiLetter (hletters c hc)
  refine ⟨t, ?_, ?_⟩
  · rintro y rfl
    obtain ⟨b, hb⟩ | ⟨k, hk⟩ := reserved?_cases ht
    · cases hb
    · cases hk
  · have hword : Lexeme.word before x.toList = ⟨t, x.toList⟩ := by
      simp [Lexeme.word, hfree, hrun, ht]
    obtain ⟨c, rest, hcs⟩ := List.exists_cons_of_ne_nil hne
    rw [← hword, hcs, lex?, if_pos (hletters c (hcs ▸ List.mem_cons_self))]

/-- Every cursor that is reached stands behind some tokens. -/
theorem Reached.exists_readTo {c : Cursor} (h : Reached cs c) : ∃ us, ReadTo cs us c := by
  induction h with
  | start => exact ⟨_, .start⟩
  | past _ hl ih =>
    obtain ⟨us, hus⟩ := ih
    exact ⟨_, hus.past hl⟩

/-- The last word before the cut was read as a name because of the dollar sign, and is reserved
now. -/
theorem ReadTo.sequence_of_dollarName (h : ReadTo cs ts d) (hdollar : DollarName cs d.skip.position) :
    (scan (cs.take d.skip.position)).sequence ≠ ts := by
  obtain ⟨hsign, q, x, hx, hmem, hend, hfree⟩ := hdollar
  obtain ⟨c, l, hc, hl, hplaced⟩ := mem_scan_tokens_iff.mp hmem
  obtain ⟨rfl, htoken⟩ := Placed.mk.inj hplaced
  obtain ⟨-, hname, htext, -⟩ := name_of_lex? hl htoken.symm
  have hx' : l.text = x.toList := htext.trans hname.symm
  obtain ⟨us, hus⟩ := hc.exists_readTo
  -- both cursors stand before the dollar sign, so all tokens are read at both of them
  have hpast : (c.skip.past l).rest = cs.drop d.skip.position := by
    rw [(hc.past hl).rest_eq_drop, ← hend, ← String.length_toList, ← hx']
    rfl
  obtain ⟨tail, htail⟩ : ∃ tail, cs.drop d.skip.position = '$' :: tail := by
    rw [← List.head?_drop] at hsign
    exact List.head?_eq_some_iff.mp hsign
  have hskip : (c.skip.past l).skip = c.skip.past l := by
    apply Cursor.skip_of_no_gap
    rw [hpast, htail]
    rfl
  have hall : ts = us ++ [.name x] := by
    have hd := h.sequence_of_dollar (h.reached.rest_skip_eq_drop.trans htail)
    have hc' := (hus.past hl).sequence_of_dollar (by rw [hskip, hpast, htail])
    rw [← hd, hc', htoken]
  -- in the text that is cut, the word is reserved
  have hstart : c.skip.rest = x.toList ++ cs.drop d.skip.position := by
    rw [← hx', ← hpast, Cursor.text_append_rest_past hl]
  have hne : c.skip.rest ≠ [] := by
    rw [hstart]
    exact List.append_ne_nil_of_left_ne_nil hx.letters.1 _
  rw [hc.touched_iff hne] at hfree
  obtain ⟨t, hfixed, hreserved⟩ := lex?_reserved hx hfree
  rw [← List.take_append_drop d.skip.position cs] at hus
  have hcut := (hus.sequence_cut_behind (l := ⟨t, x.toList⟩) hstart hreserved).1
  intro hsame
  rw [hcut, hall, List.append_cancel_left_eq] at hsame
  exact hfixed x (List.singleton_inj.mp hsame)

/-- A reserved word that was read as a name because of a dollar sign. -/
theorem ReadTo.dollarName {us : List Token} {c : Cursor} {l : Lexeme} (h : ReadTo cs us c)
    (hl : c.skip.lexeme? = some l) (hdollar : l.Dollar c.skip.before (c.skip.past l).rest) :
    DollarName cs (c.skip.past l).position := by
  obtain ⟨⟨tail, htail⟩, hfree, hname, r, hres, -⟩ := hdollar
  have hrest : c.skip.rest ≠ [] := by
    intro hnil
    rw [Cursor.lexeme?, hnil] at hl
    cases hl
  -- the sign, the word, its end, and what stands in front of it
  refine ⟨?_, c.skip.position, String.ofList l.text, isReserved_of_reserved? hres, ?_, ?_, ?_⟩
  · have hdrop := (h.reached.past hl).rest_eq_drop
    rw [← List.head?_drop, ← hdrop, htail]
    rfl
  · rw [← hname]
    exact mem_scan_tokens_iff.mpr ⟨c, l, h.reached, hl, rfl⟩
  · rw [String.length_ofList]
    rfl
  · rw [h.reached.touched_iff hrest, hfree]

/-- The text up to the position has the tokens that were read, unless the last of them is such a
name. -/
theorem ReadTo.sequence_take_iff (h : ReadTo cs ts d) :
    ((scan (cs.take d.skip.position)).sequence = ts
        ∧ (scan (cs.take d.skip.position)).complete = true)
      ↔ ¬ DollarName cs d.skip.position := by
  constructor
  · rintro ⟨hsequence, -⟩ hdollar
    exact h.sequence_of_dollarName hdollar hsequence
  · intro hfree
    have hrest := h.reached.rest_skip_eq_drop
    have hsplit := (List.take_append_drop d.skip.position cs).symm
    rw [hsplit] at h
    -- the text is cut behind a token, or behind a name that only the sign makes one
    obtain hcut | ⟨us, c, l, hc, hl, rfl, hv, hdollar⟩ := h.sequence_cut hrest
    · exact hcut
    · rw [List.take_append_drop] at hc
      rw [← hv] at hdollar
      obtain ⟨tail, htail⟩ := hdollar.dollar
      have hskip : (c.skip.past l).skip = c.skip.past l := by
        apply Cursor.skip_of_no_gap
        rw [htail]
        rfl
      rw [hskip] at hfree
      exact absurd (hc.dollarName hl hdollar) hfree

end

/-- A text without tabs is read as it stands. -/
theorem parseProgram_iff_of_no_tab {cs : List Char} (htab : '\t' ∉ cs) {statements : List Stmt}
    (hlevels : ∀ s ∈ statements, s.Levelled) :
    parseProgram cs = .ok statements
      ↔ (scan cs).sequence = statements.flatMap Stmt.tokens ∧ (scan cs).complete = true := by
  have hsource : scanSource cs = scan cs := by
    rw [scanSource, expandTabs, expandTabsFrom_of_no_tab htab]
  rw [← hsource]
  constructor
  · exact sequence_of_parseProgram
  · rintro ⟨hsequence, hcomplete⟩
    exact parseProgram_of_sequence hlevels hsequence hcomplete

/-- **Where reading stops.** If a text is no program, the statements that were read before the error
are the program of the text up to the error, unless the last word there was a name only because of a
dollar sign. No statement can be read at the error; what stands there is neither a blank nor a
comment; and the report has its line and column, and an excerpt. -/
theorem error_position {text : List Char} {p : Nat} (h : parseProgram text = .error p)
    (filename : String) :
    (parseProgram ((expandTabs text).take p)
        = .ok (Grammar.program (scanSource text).sequence).1
      ↔ ¬ DollarName (expandTabs text) p)
    ∧ Grammar.statement (tokensAt (expandTabs text) p) = none
    ∧ (∃ c, (expandTabs text)[p]? = some c ∧ c ∉ separators)
    ∧ (∃ above line below column, lines (expandTabs text) = above ++ line :: below
      ∧ (ParseError.atPosition text filename p).line = (above.length + 1 : Nat)
      ∧ (ParseError.atPosition text filename p).column = (column + 1 : Nat)
      ∧ (above.map fun line => line.length + 1).sum + column = p ∧ column < line.length)
    ∧ 1 ≤ (ParseError.atPosition text filename p).line
    ∧ (ParseError.atPosition text filename p).line ≤ (lines text).length
    ∧ (ParseError.atPosition text filename p).excerpt ≠ none := by
  obtain ⟨d, complete, hd, rfl, hrest, hreads⟩ := readTo_of_parseProgram_error h
  have hlevels := Grammar.program_gives (scanSource text).sequence
  have htab : '\t' ∉ (expandTabs text).take d.skip.position :=
    fun hmem => no_tab_expandTabsFrom 0 text (List.mem_of_mem_take hmem)
  obtain ⟨c, hget, hfree⟩ := exists_char_of_parseProgram_error h
  have hne : ∀ g ∈ separators, c ≠ g := by
    rintro g hg rfl
    exact hfree hg
  obtain ⟨u, v, hplace⟩ := exists_place hget (hne ' ' (by decide))
  obtain ⟨above, line, below, hlines, hline, hsum, hcolumn⟩ :=
    ParseError.lines_at hget (hne '\n' (by decide))
  refine ⟨?_, ?_, ⟨c, hget, hfree⟩, ?_, ?_, ?_, ?_⟩
  · rw [parseProgram_iff_of_no_tab htab hlevels]
    exact hd.sequence_take_iff
  · rw [hd.tokensAt_eq hrest hreads]
    exact Grammar.statement_program_rest _
  · have hpos : 0 < ParseError.columnOf (expandTabs text) d.skip.position := Nat.succ_pos _
    refine ⟨above, line, below, ParseError.columnOf (expandTabs text) d.skip.position - 1, hlines,
      congrArg Nat.cast hline, congrArg Nat.cast ?_, ?_, ?_⟩ <;> omega
  · exact Int.ofNat_le.mpr (Nat.succ_pos _)
  · refine Int.ofNat_le.mpr ?_
    rw [hplace.lineOf_eq, length_lines, hplace.text_eq, List.count_append]
    omega
  · rw [hplace.excerpt_eq]
    nofun

/-- A bracket that starts no statement, and a dollar sign behind a reserved word. -/
theorem error_position_dollar :
    parseProgram "x <- 1 )".toList = .error 7
      ∧ parseProgram "x <- 1 ".toList = .ok [.assign "x" false (.number "1")]
      ∧ parseProgram "x <- IF$".toList = .error 7
      ∧ DollarName "x <- IF$".toList 7
      ∧ parseProgram "x <- IF".toList ≠ .ok [.assign "x" false (.reference "IF")] := by
  have hbracket : parseProgram "x <- 1 )".toList = .error 7 := rfl
  have hdollar : parseProgram "x <- IF$".toList = .error 7 := rfl
  have hname : DollarName "x <- IF$".toList 7 := by
    refine ⟨rfl, 5, "IF", .inl ⟨.IF, rfl⟩, ?_, rfl, rfl⟩
    decide
  -- without the sign the first part applies, with it the cut text is no program
  refine ⟨hbracket, ?_, hdollar, hname, ?_⟩
  · refine (error_position hbracket "").1.mpr ?_
    rintro ⟨hsign, -⟩
    cases hsign
  · intro hparse
    exact (error_position hdollar "").1.mp hparse hname

end Pseudocode
