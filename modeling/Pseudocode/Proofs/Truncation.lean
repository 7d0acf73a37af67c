import Mathlib.Data.List.Induction
import Pseudocode.Proofs.Concatenation
import Pseudocode.Proofs.Names

/-!
Texts that are cut short.

The scanner looks ahead: what a token is depends on the character behind it. If a text is cut, the
tokens that end before the cut are still read, since a longest run that ended at a character ends at
the end of the text too. There is one exception. A reserved word with a dollar sign behind it is a
name, and it is the reserved word if the text ends in the place of the dollar sign.

Design. `ReadTo cs ts c` says that the scan of `cs` reads the tokens `ts` and stands at the cursor
`c` then. A cut goes through a scan from its start to the cursor, token by token (`ReadTo.cut`). As
long as something is left before the cut, `lex?_cut` leaves no exception, so the exception concerns
the last token only (`ReadTo.sequence_cut`).

Main result: `ReadTo.sequence_cut`.
-/

namespace Pseudocode

open Text

/-! ### Blanks and comments -/

/-- If a text is cut behind what stops the blanks and comments, it stops them still. -/
theorem gapLength_cut {commented : Bool} {u v : List Char}
    (h : gapLength commented (u ++ v) < u.length) :
    gapLength commented u = gapLength commented (u ++ v) := by
  induction u generalizing commented with
  | nil => cases h
  | cons c u ih =>
    rw [List.cons_append, List.length_cons] at h
    rw [List.cons_append]
    -- in a comment only a line end matters, elsewhere what the next character is
    cases commented with
    | true =>
      rw [gapLength] at h
      rw [gapLength, gapLength, ih (by omega)]
    | false =>
      simp only [gapLength] at h ⊢
      by_cases hgap : isGap c = true
      · rw [if_pos hgap] at h
        rw [if_pos hgap, if_pos hgap, ih (by omega)]
      by_cases hsign : c = commentSign
      · rw [if_neg hgap, if_pos hsign] at h
        rw [if_neg hgap, if_neg hgap, if_pos hsign, if_pos hsign, ih (by omega)]
      · rw [if_neg hgap, if_neg hgap, if_neg hsign, if_neg hsign]

/-- The blanks and comments at the start of a text are blanks and comments if the text ends there. -/
theorem gapLength_take (commented : Bool) (cs : List Char) :
    gapLength commented (cs.take (gapLength commented cs))
      = (cs.take (gapLength commented cs)).length := by
  rw [List.length_take_of_le (gapLength_le commented cs)]
  fun_induction gapLength commented cs with
  | case1 => rfl
  | case2 c cs ih => rw [Nat.add_comm 1, List.take_succ_cons, gapLength, ih, Nat.add_comm]
  | case3 c cs hgap ih =>
    rw [Nat.add_comm 1, List.take_succ_cons, gapLength, if_pos hgap, ih, Nat.add_comm]
  | case4 cs hgap ih =>
    rw [Nat.add_comm 1, List.take_succ_cons, gapLength, if_neg hgap, if_pos rfl, ih, Nat.add_comm]
  | case5 => rfl

/-! ### Tokens -/

section

variable {p : Char → Bool} {w u v : List Char}

/-- A longest run that ended at a character ends at the end of the text too. -/
theorem takeWhile_cut (h : (w ++ (u ++ v)).takeWhile p = w) : (w ++ u).takeWhile p = w := by
  have hw : ∀ c ∈ w, p c = true := by
    intro c hc
    rw [← h] at hc
    exact List.mem_takeWhile_imp hc
  rw [List.takeWhile_append_of_pos hw, List.append_right_eq_self] at h ⊢
  rcases u with - | ⟨d, u⟩
  · rfl
  · rw [List.cons_append] at h
    by_cases hd : p d = true
    · rw [List.takeWhile_cons_of_pos hd] at h
      cases h
    · rw [List.takeWhile_cons_of_neg hd]

/-- What is left behind a longest run, if the text is cut. -/
theorem dropWhile_cut (h : (w ++ (u ++ v)).takeWhile p = w) : (w ++ u).dropWhile p = u := by
  have hsplit : (w ++ u).takeWhile p ++ (w ++ u).dropWhile p = w ++ u :=
    List.takeWhile_append_dropWhile
  rw [takeWhile_cut h] at hsplit
  exact List.append_cancel_left hsplit

end

/-- What is read as a word of its own is a reserved word. -/
theorem isReserved_of_reserved? {s : String} {t : Token} (h : Token.reserved? s = some t) :
    IsReserved s := by
  unfold Token.reserved? at h
  split at h
  · rename_i htrue
    exact .inr (.inl htrue)
  split at h
  · rename_i hfalse
    exact .inr (.inr hfalse)
  · obtain ⟨k, hk, -⟩ := Option.map_eq_some_iff.mp h
    unfold Keyword.ofWord? at hk
    have hword := List.find?_some hk
    exact .inl ⟨k, beq_iff_eq.mp hword⟩

namespace Lexeme

variable {u v : List Char} {l : Lexeme}

/-- A sign is still read if the text is cut behind it. -/
theorem sign?_cut (h : sign? (l.text ++ (u ++ v)) = some l) : sign? (l.text ++ u) = some l := by
  have hlone : ∀ {d : Char}, (∀ tail, u ++ v ≠ d :: tail) → u.head? ≠ some d := by
    intro d hne hhead
    obtain ⟨tail, rfl⟩ := List.head?_eq_some_iff.mp hhead
    exact hne _ rfl
  obtain ⟨t, w⟩ := l
  dsimp only at h ⊢
  unfold sign? at h
  split at h <;> rename_i hcs <;> cases h <;> simp only [List.cons_append, List.nil_append] at hcs
  -- the signs that start like a sign of two characters
  case h_10 hminus hequal =>
    cases hcs
    exact sign?_less (hlone hminus) (hlone hequal)
  case h_11 hequal =>
    cases hcs
    exact sign?_greater (hlone hequal)
  all_goals rfl

/-- A number without digits behind a point is its whole part. -/
theorem text_number_of_no_fraction {cs : List Char}
    (h : ∀ after, cs.dropWhile isDigit = '.' :: after → after.takeWhile isDigit = []) :
    (number cs).text = cs.takeWhile isDigit := by
  unfold number
  dsimp only
  split
  · rename_i after hafter
    rw [h after hafter]
    rfl
  · rfl

/-- A number with digits behind a point has a fraction. -/
theorem text_number_of_fraction {cs after : List Char}
    (hafter : cs.dropWhile isDigit = '.' :: after) (hfraction : after.takeWhile isDigit ≠ []) :
    (number cs).text = cs.takeWhile isDigit ++ '.' :: after.takeWhile isDigit := by
  simp [number, hafter, hfraction]

/-- A number is still read if the text is cut behind it. -/
theorem text_number_cut {w : List Char} (h : (number (w ++ (u ++ v))).text = w) :
    (number (w ++ u)).text = w := by
  have hsplit : (w ++ (u ++ v)).takeWhile isDigit ++ (w ++ (u ++ v)).dropWhile isDigit
      = w ++ (u ++ v) := List.takeWhile_append_dropWhile
  by_cases hfraction : ∃ after, (w ++ (u ++ v)).dropWhile isDigit = '.' :: after
      ∧ after.takeWhile isDigit ≠ []
  · -- both rows of digits end where they ended, at the point and at the end of the number
    obtain ⟨after, hafter, hdigits⟩ := hfraction
    rw [text_number_of_fraction hafter hdigits] at h
    rw [hafter] at hsplit
    generalize hwhole : (w ++ (u ++ v)).takeWhile isDigit = whole at h hsplit
    generalize hmore : after.takeWhile isDigit = fraction at h hdigits
    subst h
    obtain rfl : after = fraction ++ (u ++ v) := by simpa using hsplit
    have hpoint : (whole ++ ('.' :: (fraction ++ u) ++ v)).takeWhile isDigit = whole := by
      simpa using hwhole
    have hmore' := takeWhile_cut hmore
    rw [List.append_assoc, List.cons_append,
      text_number_of_fraction (dropWhile_cut hpoint) (by rwa [hmore']), takeWhile_cut hpoint, hmore']
  · -- the digits end where they ended, and what was no fraction is none now
    push Not at hfraction
    rw [text_number_of_no_fraction hfraction] at h
    rw [text_number_of_no_fraction, takeWhile_cut h]
    rintro after hafter
    rw [dropWhile_cut h] at hafter
    subst hafter
    rw [h, List.append_cancel_left_eq] at hsplit
    exact takeWhile_cut (w := []) (hfraction _ hsplit)

/-- A word that is a longest run of word characters, and is reserved only if the text is cut behind
it, has a dollar sign behind it. -/
theorem dollar_of_cut {w : List Char} {t : Token} (hname : (w ++ (u ++ v)).takeWhile isWord = w)
    (hfree : Token.reserved? (String.ofList ((w ++ (u ++ v)).takeWhile gluesWords)) = none)
    (hres : Token.reserved? (String.ofList ((w ++ u).takeWhile gluesWords)) = some t) :
    u = [] ∧ (∃ tail, v = '$' :: tail) ∧ w.takeWhile gluesWords = w := by
  -- the run goes on behind the cut, or it would be the same run
  have hall : ((w ++ u).takeWhile gluesWords).length = (w ++ u).length := by
    by_contra hlength
    rw [← List.append_assoc, List.takeWhile_append, if_neg hlength, hres] at hfree
    cases hfree
  have hrun : (w ++ u).takeWhile gluesWords = w ++ u :=
    (List.takeWhile_prefix gluesWords).eq_of_length hall
  rw [hrun] at hres
  -- a reserved word has letters only, so all of it is the word
  have hletters := (isReserved_of_reserved? hres).letters.2
  rw [String.toList_ofList] at hletters
  have hword : (w ++ u).takeWhile isWord = w ++ u :=
    List.takeWhile_eq_self_iff.mpr fun c hc => isWord_of_isAsciiLetter (hletters c hc)
  rw [takeWhile_cut hname, List.self_eq_append_right] at hword
  subst hword
  rw [List.append_nil] at hres hrun
  rw [List.nil_append] at hname hfree
  refine ⟨rfl, ?_, hrun⟩
  rcases v with - | ⟨d, tail⟩
  · rw [List.append_nil, hrun, hres] at hfree
    cases hfree
  have hd : isWord d = false := by
    have hdrop : (w ++ d :: tail).drop ((w ++ d :: tail).takeWhile isWord).length = d :: tail := by
      rw [hname, List.drop_left]
    exact not_of_drop_takeWhile hdrop
  by_cases hdollar : d = '$'
  · exact ⟨tail, by rw [hdollar]⟩
  have hglue : gluesWords d = false := by
    by_contra hglue
    rw [isWord_of_gluesWords (by simpa using hglue) hdollar] at hd
    cases hd
  rw [takeWhile_append_stop hglue, hrun, hres] at hfree
  cases hfree

/-- A word is the same one if the text is cut behind it, unless it is a reserved word with a dollar
sign behind it. -/
theorem word_cut {before : Option Char} {w : List Char} {t : Token}
    (h : word before (w ++ (u ++ v)) = ⟨t, w⟩) :
    word before (w ++ u) = ⟨t, w⟩
      ∨ u = [] ∧ (∃ tail, v = '$' :: tail) ∧ before.any gluesWords = false
        ∧ t = .name (String.ofList w)
        ∧ ∃ r, Token.reserved? (String.ofList w) = some r ∧ word before w = ⟨r, w⟩ := by
  obtain ⟨r, hbefore, hres, hword⟩ | ⟨hfree, hword⟩ := word_cases before (w ++ (u ++ v)) <;>
    rw [hword] at h <;> obtain ⟨rfl, hrun⟩ := Lexeme.mk.inj h
  · -- a reserved word is a longest run, and the same run if it is cut
    rw [hrun] at hres
    left
    simp [word, hbefore, takeWhile_cut hrun, hres]
  · rw [hrun]
    obtain ⟨r, hbefore, hres, hword'⟩ | ⟨-, hword'⟩ := word_cases before (w ++ u)
    · right
      have hnone := hfree.resolve_left (by simp [hbefore])
      obtain ⟨rfl, hdollar, hrun'⟩ := dollar_of_cut hrun hnone hres
      rw [List.append_nil, hrun'] at hres hword'
      exact ⟨rfl, hdollar, hbefore, rfl, r, hres, hword'⟩
    · left
      rw [hword', takeWhile_cut hrun]

end Lexeme

/-- The token is a reserved word that is read as a name, and only because of the dollar sign that
follows it. -/
structure Lexeme.Dollar (before : Option Char) (l : Lexeme) (rest : List Char) : Prop where
  dollar : ∃ tail, rest = '$' :: tail
  free : before.any gluesWords = false
  name : l.token = .name (String.ofList l.text)
  reserved : ∃ r, Token.reserved? (String.ofList l.text) = some r
    ∧ lex? before l.text = some ⟨r, l.text⟩

/-- A token is the same one if the text is cut behind it, unless a dollar sign was cut off. -/
theorem lex?_cut {before : Option Char} {l : Lexeme} {u v : List Char}
    (h : lex? before (l.text ++ (u ++ v)) = some l) :
    lex? before (l.text ++ u) = some l ∨ u = [] ∧ l.Dollar before v := by
  have hne := text_ne_nil_of_lex? h
  obtain ⟨t, w⟩ := l
  obtain ⟨c, w, rfl⟩ := List.exists_cons_of_ne_nil hne
  -- the first character tells words, numbers and signs apart; only a word looks at what follows it
  by_cases hletter : isAsciiLetter c = true
  · have hlex : ∀ cs, lex? before (c :: cs) = some (.word before (c :: cs)) := by
      intro cs
      rw [lex?, if_pos hletter]
    rw [List.cons_append, hlex, Option.some_inj] at h
    obtain hword | ⟨rfl, hdollar, hfree, rfl, r, hres, hword⟩ := Lexeme.word_cut (w := c :: w) h
    · left
      rw [List.cons_append, hlex, Option.some_inj]
      exact hword
    · right
      exact ⟨rfl, hdollar, hfree, rfl, r, hres, (hlex w).trans (congrArg some hword)⟩
  left
  by_cases hdigit : isDigit c = true
  · have hlex : ∀ cs, lex? before (c :: cs)
        = some ⟨.number (String.ofList (Lexeme.number (c :: cs)).text),
          (Lexeme.number (c :: cs)).text⟩ := by
      intro cs
      rw [lex?, if_neg hletter, if_pos hdigit]
      rfl
    rw [List.cons_append, hlex, Option.some_inj] at h
    obtain ⟨rfl, htext⟩ := Lexeme.mk.inj h
    have hcut : (Lexeme.number (c :: (w ++ u))).text = c :: w :=
      Lexeme.text_number_cut (w := c :: w) htext
    rw [List.cons_append, hlex, hcut, htext]
  · have hlex : ∀ cs, lex? before (c :: cs) = Lexeme.sign? (c :: cs) := by
      intro cs
      rw [lex?, if_neg hletter, if_neg hdigit]
    rw [List.cons_append, hlex] at h ⊢
    exact Lexeme.sign?_cut (l := ⟨t, c :: w⟩) h

/-! ### Cursors -/

/-- The scan of the text reads the tokens, and stands at the cursor then. -/
inductive ReadTo (cs : List Char) : List Token → Cursor → Prop
  | start : ReadTo cs [] ⟨none, 0, cs⟩
  | past {ts : List Token} {c : Cursor} {l : Lexeme} : ReadTo cs ts c → c.skip.lexeme? = some l →
    ReadTo cs (ts ++ [l.token]) (c.skip.past l)

namespace ReadTo

variable {cs : List Char} {ts : List Token} {c : Cursor}

theorem reached (h : ReadTo cs ts c) : Reached cs c := by
  induction h with
  | start => exact .start
  | past _ hl ih => exact ih.past hl

/-- From the cursor, the scan goes on as the scan of the whole text did, and has rounds enough. -/
theorem scan_eq (h : ReadTo cs ts c) :
    ∃ rounds placed, c.rest.length ≤ rounds ∧ placed.map Placed.token = ts
      ∧ scan cs = { c.scan (rounds + 1) with tokens := placed ++ (c.scan (rounds + 1)).tokens } := by
  induction h with
  | start => exact ⟨cs.length, [], Nat.le_refl _, rfl, rfl⟩
  | @past ts c l _ hl ih =>
    obtain ⟨rounds, placed, hrounds, hplaced, hscan⟩ := ih
    have hpast := Cursor.length_rest_past_lt hl
    have hskip := c.length_rest_skip_le
    -- the token takes a character, so one round less is still enough
    obtain ⟨rounds, rfl⟩ : ∃ n, rounds = n + 1 := ⟨rounds - 1, by omega⟩
    refine ⟨rounds, placed ++ [⟨c.skip.position, l.token⟩], by omega, ?_, ?_⟩
    · rw [List.map_append, hplaced]
      rfl
    · rw [hscan, Cursor.scan_of_lexeme hl]
      simp

/-- The tokens of a text are those that are read up to a cursor and those that are read from there
on. -/
theorem sequence_eq (h : ReadTo cs ts c) :
    ∃ us, (scan cs).sequence = ts ++ us ∧ Cursor.Reads c us (scan cs).complete := by
  obtain ⟨rounds, placed, hrounds, hplaced, hscan⟩ := h.scan_eq
  refine ⟨(c.scan (rounds + 1)).sequence, ?_, ?_⟩
  · rw [hscan, Scan.sequence, List.map_append, hplaced]
    rfl
  · rw [hscan]
    exact Cursor.reads_scan (Nat.lt_succ_of_le hrounds)

end ReadTo

/-- Some cursor stands behind the first tokens of a text. -/
theorem exists_readTo {cs : List Char} {ts us : List Token} (h : (scan cs).sequence = ts ++ us) :
    ∃ c, ReadTo cs ts c := by
  induction ts using List.reverseRecOn generalizing us with
  | nil => exact ⟨_, .start⟩
  | append_singleton ts t ih =>
    rw [List.append_assoc] at h
    obtain ⟨c, hc⟩ := ih h
    obtain ⟨us', hsequence, hreads⟩ := hc.sequence_eq
    rw [h, List.append_cancel_left_eq] at hsequence
    subst hsequence
    cases hreads with
    | @token _ l _ _ hl _ => exact ⟨_, hc.past hl⟩

/-! ### Cuts -/

namespace Cursor

theorem text_append_rest_past {c : Cursor} {l : Lexeme} (hl : c.lexeme? = some l) :
    l.text ++ (c.past l).rest = c.rest := by
  obtain ⟨rest, hrest⟩ := text_prefix_of_lex? hl
  rw [past, ← hrest, List.drop_left]

/-- If something is left before the cut, the same blanks and comments are skipped. -/
theorem skip_cut {c : Cursor} {u v : List Char} (hrest : c.skip.rest = u ++ v) (hu : u ≠ []) :
    ∃ w, w ≠ [] ∧ c.rest = w ++ v ∧ ({ c with rest := w } : Cursor).skip = { c.skip with rest := u } := by
  have hsplit : c.rest = c.rest.take (gapLength false c.rest) ++ u ++ v := by
    rw [List.append_assoc, ← hrest]
    exact (List.take_append_drop _ _).symm
  generalize hgap : c.rest.take (gapLength false c.rest) = gap at hsplit
  have hlength : gap.length = gapLength false c.rest := by
    rw [← hgap, List.length_take_of_le (gapLength_le _ _)]
  -- the gap ends before the cut, so it is the same gap
  have hcut : gapLength false (gap ++ u) = gapLength false c.rest := by
    have hpos := List.length_pos_iff.mpr hu
    rw [hsplit]
    apply gapLength_cut
    rw [← hsplit, ← hlength, List.length_append]
    omega
  refine ⟨gap ++ u, List.append_ne_nil_of_right_ne_nil gap hu, hsplit, ?_⟩
  simp only [skip, hcut]
  rw [← hlength, List.drop_left]

end Cursor

namespace ReadTo

variable {k v : List Char} {ts : List Token} {c d : Cursor}

/-- A token in the text that is cut: it is read there if everything before it is. -/
theorem past_cut (hc : ∀ w, w ≠ [] → c.rest = w ++ v → ReadTo k ts { c with rest := w })
    {l : Lexeme} {u : List Char} (hskip : c.skip.rest = (l.text ++ u) ++ v)
    (hl : lex? c.skip.before (l.text ++ u) = some l) :
    ReadTo k (ts ++ [l.token]) { c.skip.past l with rest := u } := by
  have hne := List.append_ne_nil_of_left_ne_nil (text_ne_nil_of_lex? hl) u
  obtain ⟨w, hw, hrest, hcut⟩ := Cursor.skip_cut hskip hne
  have hlex : ({ c with rest := w } : Cursor).skip.lexeme? = some l := by
    rw [hcut]
    exact hl
  have hpast : ({ c with rest := w } : Cursor).skip.past l = { c.skip.past l with rest := u } := by
    simp only [hcut, Cursor.past, List.drop_left]
  rw [← hpast]
  exact (hc w hw hrest).past hlex

/-- As long as something is left before the cut, the same tokens are read. -/
theorem cut (h : ReadTo (k ++ v) ts c) {u : List Char} (hu : u ≠ []) (hrest : c.rest = u ++ v) :
    ReadTo k ts { c with rest := u } := by
  induction h generalizing u with
  | start =>
    obtain rfl := List.append_cancel_right hrest
    exact .start
  | @past ts c l _ hl ih =>
    have hskip : c.skip.rest = (l.text ++ u) ++ v := by
      rw [← Cursor.text_append_rest_past hl, hrest, List.append_assoc]
    rw [Cursor.lexeme?, hskip, List.append_assoc] at hl
    have hlex := (lex?_cut hl).resolve_right fun hnil => hu hnil.1
    exact past_cut (fun w hw hrest => ih hw hrest) hskip hlex

/-- Where no token can be read, all tokens are read. -/
theorem sequence_of_no_lexeme (h : ReadTo k ts c) (hl : c.skip.lexeme? = none) :
    (scan k).sequence = ts ∧ (scan k).complete = c.skip.rest.isEmpty := by
  obtain ⟨us, hsequence, hreads⟩ := h.sequence_eq
  generalize (scan k).complete = complete at hreads
  cases hreads with
  | stop => exact ⟨by rw [hsequence, List.append_nil], rfl⟩
  | token hl' =>
    rw [hl] at hl'
    cases hl'

/-- If nothing is left behind the tokens that are read, they are all of them. -/
theorem sequence_of_end (h : ReadTo k ts c) (hrest : c.skip.rest = []) :
    (scan k).sequence = ts ∧ (scan k).complete = true := by
  have hl : c.skip.lexeme? = none := by
    rw [Cursor.lexeme?, hrest]
    rfl
  have hend := h.sequence_of_no_lexeme hl
  rwa [hrest] at hend

/-- The tokens of a text that is cut behind a word: those before the word, and what the word is now. -/
theorem sequence_cut_behind (h : ReadTo (k ++ v) ts c) {l : Lexeme}
    (hrest : c.skip.rest = l.text ++ v) (hl : lex? c.skip.before l.text = some l) :
    (scan k).sequence = ts ++ [l.token] ∧ (scan k).complete = true := by
  rw [← List.append_nil l.text] at hrest hl
  exact (past_cut (fun _ => h.cut) hrest hl).sequence_of_end rfl

/-- **A text that is cut where a token could start.** The tokens before the cut are those that were
read there, unless the last of them is a reserved word that was a name because of a dollar sign. -/
theorem sequence_cut (h : ReadTo (k ++ v) ts d) (hrest : d.skip.rest = v) :
    ((scan k).sequence = ts ∧ (scan k).complete = true)
      ∨ ∃ us c l, ReadTo (k ++ v) us c ∧ c.skip.lexeme? = some l ∧ d = c.skip.past l ∧ d.rest = v
        ∧ l.Dollar c.skip.before v := by
  -- the blanks and comments before the cut are all that is left before it
  have hsplit : d.rest = d.rest.take (gapLength false d.rest) ++ v := by
    rw [← hrest]
    exact (List.take_append_drop _ _).symm
  have hlength := gapLength_take false d.rest
  generalize d.rest.take (gapLength false d.rest) = gap at hsplit hlength
  have hend : ∀ before position, (⟨before, position, gap⟩ : Cursor).skip.rest = [] := by
    intro before position
    rw [Cursor.skip, hlength, List.drop_length]
  cases h with
  | start =>
    obtain rfl := List.append_cancel_right hsplit
    exact .inl (ReadTo.start.sequence_of_end (hend _ _))
  | @past ts c l hc hl =>
    have hskip : c.skip.rest = (l.text ++ gap) ++ v := by
      rw [← Cursor.text_append_rest_past hl, hsplit, List.append_assoc]
    have hl' := hl
    rw [Cursor.lexeme?, hskip, List.append_assoc] at hl'
    obtain hlex | ⟨rfl, hdollar⟩ := lex?_cut hl'
    · exact .inl ((past_cut (fun _ => hc.cut) hskip hlex).sequence_of_end (hend _ _))
    · exact .inr ⟨ts, c, l, hc, hl, rfl, hsplit, hdollar⟩

end ReadTo

end Pseudocode
