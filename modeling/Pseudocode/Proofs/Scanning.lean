import Pseudocode.Token.Scan

/-!
What the scanner reads, and where.

A `Cursor` is a state of the scanner: the character that was read last, the position, and the text
that is left. `Reached cs c` says that the scan of `cs` comes to look for a token at the cursor `c`:
it starts at the beginning of the text, and goes on behind every token that it reads.

Design. Whatever holds of a token because of what was read before it follows from one step of
`Reached`: the cursor is the first one, or it stands behind a lexeme of another cursor.

Main results: the tokens of a scan are the tokens that are read at the cursors reached
(`mem_scan_tokens_iff`); if the scan gets to the end of the text, a token is read at each of them
until nothing is left (`rest_eq_nil_of_complete`); and a letter directly behind a character that
touches it is preceded by a number (`number_of_touching`).
-/

namespace Pseudocode

open Text

/-! ### Characters -/

theorem toNat_of_isAsciiLetter {c : Char} (h : isAsciiLetter c = true) :
    (97 ≤ c.toNat ∧ c.toNat ≤ 122) ∨ (65 ≤ c.toNat ∧ c.toNat ≤ 90) := by
  simpa [isAsciiLetter, Char.le_def, UInt32.le_iff_toNat_le] using h

theorem gluesWords_of_isAsciiLetter {c : Char} (h : isAsciiLetter c = true) :
    gluesWords c = true := by
  simp [gluesWords, h]

theorem isWord_of_isAsciiLetter {c : Char} (h : isAsciiLetter c = true) : isWord c = true := by
  have hrange := toNat_of_isAsciiLetter h
  -- the walk through the table stops early for ASCII
  have hascii : ∀ n < 128, (97 ≤ n ∧ n ≤ 122) ∨ (65 ≤ n ∧ n ≤ 90) →
      wordRanges.contains n = true := by decide
  exact hascii c.toNat (by omega) hrange

/-- Of the characters that touch a reserved word, only the dollar sign cannot stand in a name. -/
theorem isWord_of_gluesWords {c : Char} (h : gluesWords c = true) (hdollar : c ≠ '$') :
    isWord c = true := by
  simp only [gluesWords, Bool.or_eq_true, Bool.and_eq_true, decide_eq_true_eq, beq_iff_eq] at h
  rcases h with ((hletter | hdigit) | rfl) | rfl
  · exact isWord_of_isAsciiLetter hletter
  · simp only [Char.le_def, UInt32.le_iff_toNat_le] at hdigit
    have hascii : ∀ n ≤ 57, 48 ≤ n → wordRanges.contains n = true := by decide
    exact hascii c.toNat hdigit.2 hdigit.1
  · decide
  · exact absurd rfl hdollar

theorem not_isDigit_of_isAsciiLetter {c : Char} (h : isAsciiLetter c = true) :
    isDigit c = false := by
  have hrange := toNat_of_isAsciiLetter h
  have hascii : ∀ n < 128, (97 ≤ n ∧ n ≤ 122) ∨ (65 ≤ n ∧ n ≤ 90) →
      (digitIn zeros n).isSome = false := by decide
  exact hascii c.toNat (by omega) hrange

/-- The only digits that touch a reserved word are the ASCII ones. -/
theorem ascii_of_isDigit_of_gluesWords {c : Char} (hdigit : isDigit c = true)
    (h : gluesWords c = true) : '0' ≤ c ∧ c ≤ '9' := by
  simp only [gluesWords, Bool.or_eq_true, Bool.and_eq_true, decide_eq_true_eq, beq_iff_eq] at h
  rcases h with ((hletter | hascii) | rfl) | rfl
  · rw [not_isDigit_of_isAsciiLetter hletter] at hdigit
    cases hdigit
  · exact hascii
  · exact absurd hdigit (by decide)
  · exact absurd hdigit (by decide)

/-! ### Lexemes -/

/-- A lexeme is a word, a number or a sign, and the first character decides which. -/
theorem lex?_cases {before : Option Char} {cs : List Char} {l : Lexeme}
    (h : lex? before cs = some l) :
    (∃ c rest, cs = c :: rest ∧ isAsciiLetter c = true ∧ l = .word before cs)
      ∨ (∃ c rest, cs = c :: rest ∧ isDigit c = true ∧ l = .number cs)
      ∨ Lexeme.sign? cs = some l := by
  rcases cs with - | ⟨c, rest⟩
  · cases h
  rw [lex?] at h
  by_cases hletter : isAsciiLetter c = true
  · rw [if_pos hletter] at h
    exact .inl ⟨c, rest, rfl, hletter, (Option.some.inj h).symm⟩
  rw [if_neg hletter] at h
  by_cases hdigit : isDigit c = true
  · rw [if_pos hdigit] at h
    exact .inr (.inl ⟨c, rest, rfl, hdigit, (Option.some.inj h).symm⟩)
  · rw [if_neg hdigit] at h
    exact .inr (.inr h)

/-- The characters behind a longest run do not go on with it. -/
theorem not_of_drop_takeWhile {p : Char → Bool} {cs rest : List Char} {c : Char}
    (h : cs.drop (cs.takeWhile p).length = c :: rest) : p c = false := by
  induction cs with
  | nil => cases h
  | cons d cs ih =>
    rcases hd : p d with - | -
    · rw [List.takeWhile_cons_of_neg (by simp [hd])] at h
      cases h
      exact hd
    · rw [List.takeWhile_cons_of_pos hd] at h
      exact ih h

namespace Lexeme

/-- A word is a reserved one, or a name. -/
theorem word_cases (before : Option Char) (cs : List Char) :
    (∃ t, before.any gluesWords = false ∧ Token.reserved? (String.ofList (cs.takeWhile gluesWords))
        = some t ∧ word before cs = ⟨t, cs.takeWhile gluesWords⟩)
      ∨ (before.any gluesWords = true
          ∨ Token.reserved? (String.ofList (cs.takeWhile gluesWords)) = none)
        ∧ word before cs
          = ⟨.name (String.ofList (cs.takeWhile isWord)), cs.takeWhile isWord⟩ := by
  rcases hbefore : before.any gluesWords with - | -
  · rcases hres : Token.reserved? (String.ofList (cs.takeWhile gluesWords)) with - | t
    · refine .inr ⟨.inr rfl, ?_⟩
      simp [word, hbefore, hres]
    · refine .inl ⟨t, rfl, rfl, ?_⟩
      simp [word, hbefore, hres]
  · refine .inr ⟨.inl rfl, ?_⟩
    simp [word, hbefore]

/-- A number is a row of digits, or two of them with a point between. -/
theorem number_cases {cs : List Char} {c : Char} {rest : List Char} (hcs : cs = c :: rest)
    (hc : isDigit c = true) :
    ∃ whole, whole ≠ [] ∧ (∀ d ∈ whole, isDigit d = true)
      ∧ ((number cs).text = whole
        ∨ ∃ fraction, fraction ≠ [] ∧ (∀ d ∈ fraction, isDigit d = true)
          ∧ (number cs).text = whole ++ '.' :: fraction) := by
  have hwhole : cs.takeWhile isDigit ≠ [] := by
    rw [hcs, List.takeWhile_cons_of_pos hc]
    exact List.cons_ne_nil _ _
  refine ⟨cs.takeWhile isDigit, hwhole, List.all_eq_true.mp List.all_takeWhile, ?_⟩
  unfold number
  dsimp only
  -- a point counts only if a digit follows it
  split
  · rename_i after _
    rcases hfraction : after.takeWhile isDigit with - | ⟨d, ds⟩
    · exact .inl rfl
    · refine .inr ⟨d :: ds, List.cons_ne_nil _ _, ?_, rfl⟩
      rw [← hfraction]
      exact List.all_eq_true.mp List.all_takeWhile
  · exact .inl rfl

/-- A number ends with a digit. -/
theorem number_getLast? {cs rest : List Char} {c : Char} (hcs : cs = c :: rest)
    (hc : isDigit c = true) : ∃ d, (number cs).text.getLast? = some d ∧ isDigit d = true := by
  obtain ⟨whole, hwhole, hdigits, htext | ⟨fraction, hfraction, hdigits', htext⟩⟩ :=
    number_cases hcs hc
  · refine ⟨whole.getLast hwhole, ?_, hdigits _ (List.getLast_mem hwhole)⟩
    rw [htext, List.getLast?_eq_some_getLast hwhole]
  · refine ⟨fraction.getLast hfraction, ?_, hdigits' _ (List.getLast_mem hfraction)⟩
    rw [htext, List.getLast?_append, List.getLast?_cons, List.getLast?_eq_some_getLast hfraction]
    rfl

/-- What a sign is: neither a name nor a number, and written in characters that touch no word. -/
theorem sign?_spec {cs : List Char} {l : Lexeme} (h : sign? cs = some l) :
    l.text ≠ [] ∧ (l.text.getLast?.any gluesWords = false)
      ∧ (∀ x, l.token ≠ .name x) ∧ (∀ x, l.token ≠ .number x) := by
  unfold sign? at h
  split at h <;> cases h <;> refine ⟨by simp, by decide, ?_, ?_⟩ <;> intro x hx <;> cases hx

end Lexeme

/-- A reserved word is a truth value or a keyword. -/
theorem reserved?_cases {s : String} {t : Token} (h : Token.reserved? s = some t) :
    (∃ b, t = .boolean b) ∨ ∃ k, t = .keyword k := by
  simp only [Token.reserved?] at h
  split at h
  · exact .inl ⟨true, (Option.some.inj h).symm⟩
  split at h
  · exact .inl ⟨false, (Option.some.inj h).symm⟩
  · obtain ⟨k, -, rfl⟩ := Option.map_eq_some_iff.mp h
    exact .inr ⟨k, rfl⟩

/-- Where a name is read: it is the longest run of word characters, and starts with a letter. -/
theorem name_of_lex? {before : Option Char} {cs : List Char} {l : Lexeme} {x : String}
    (h : lex? before cs = some l) (hx : l.token = .name x) :
    (∃ c rest, cs = c :: rest ∧ isAsciiLetter c = true)
      ∧ x.toList = cs.takeWhile isWord ∧ l.text = cs.takeWhile isWord
      ∧ (before.any gluesWords = true
        ∨ Token.reserved? (String.ofList (cs.takeWhile gluesWords)) = none) := by
  obtain ⟨c, rest, hcs, hletter, rfl⟩ | ⟨c, rest, hcs, hdigit, rfl⟩ | hsign := lex?_cases h
  · refine ⟨⟨c, rest, hcs, hletter⟩, ?_⟩
    -- a reserved word is no name, so the word was not read as one
    obtain ⟨t, -, hres, hword⟩ | ⟨hfree, hword⟩ := Lexeme.word_cases before cs
    · rw [hword] at hx
      obtain ⟨b, rfl⟩ | ⟨k, rfl⟩ := reserved?_cases hres <;> cases hx
    · rw [hword] at hx ⊢
      cases hx
      exact ⟨String.toList_ofList, rfl, hfree⟩
  · cases hx
  · exact absurd hx ((Lexeme.sign?_spec hsign).2.2.1 x)

/-- Where a number is read: it starts with a digit, and its text is all that is taken. -/
theorem number_of_lex? {before : Option Char} {cs : List Char} {l : Lexeme} {t : String}
    (h : lex? before cs = some l) (ht : l.token = .number t) :
    (∃ c rest, cs = c :: rest ∧ isDigit c = true) ∧ l = .number cs ∧ t.toList = l.text := by
  obtain ⟨c, rest, hcs, hletter, rfl⟩ | ⟨c, rest, hcs, hdigit, rfl⟩ | hsign := lex?_cases h
  · obtain ⟨t, -, hres, hword⟩ | ⟨-, hword⟩ := Lexeme.word_cases before cs
    · rw [hword] at ht
      obtain ⟨b, rfl⟩ | ⟨k, rfl⟩ := reserved?_cases hres <;> cases ht
    · rw [hword] at ht
      cases ht
  · cases ht
    exact ⟨⟨c, rest, hcs, hdigit⟩, rfl, String.toList_ofList⟩
  · exact absurd ht ((Lexeme.sign?_spec hsign).2.2.2 t)

/-- No token is made of nothing. -/
theorem text_ne_nil_of_lex? {before : Option Char} {cs : List Char} {l : Lexeme}
    (h : lex? before cs = some l) : l.text ≠ [] := by
  obtain ⟨c, rest, hcs, hletter, rfl⟩ | ⟨c, rest, hcs, hdigit, rfl⟩ | hsign := lex?_cases h
  · obtain ⟨t, -, -, hword⟩ | ⟨-, hword⟩ := Lexeme.word_cases before cs
    · rw [hword, hcs, List.takeWhile_cons_of_pos (gluesWords_of_isAsciiLetter hletter)]
      exact List.cons_ne_nil _ _
    · rw [hword, hcs, List.takeWhile_cons_of_pos (isWord_of_isAsciiLetter hletter)]
      exact List.cons_ne_nil _ _
  · obtain ⟨d, hlast, -⟩ := Lexeme.number_getLast? hcs hdigit
    intro hnil
    rw [hnil] at hlast
    cases hlast
  · exact (Lexeme.sign?_spec hsign).1

/-! ### Cursors -/

/-- A state of the scanner. -/
structure Cursor where
  /-- The last character of the token before. -/
  before : Option Char
  position : Nat
  /-- The text that is left. -/
  rest : List Char

namespace Cursor

/-- The cursor behind the blanks and comments that are next. -/
def skip (c : Cursor) : Cursor where
  before := if gapLength false c.rest = 0 then c.before else none
  position := c.position + gapLength false c.rest
  rest := c.rest.drop (gapLength false c.rest)

theorem skip_of_no_gap {c : Cursor} (h : gapLength false c.rest = 0) : c.skip = c := by
  simp [skip, h]

/-- The token at a cursor. -/
def lexeme? (c : Cursor) : Option Lexeme := lex? c.before c.rest

/-- The cursor behind a token. -/
def past (c : Cursor) (l : Lexeme) : Cursor where
  before := l.text.getLast?
  position := c.position + l.text.length
  rest := c.rest.drop l.text.length

/-- Scan from a cursor on. -/
def scan (rounds : Nat) (c : Cursor) : Scan := scanFrom rounds c.before c.position c.rest

/-- Where a token stands, the scan goes on behind it. -/
theorem scan_of_lexeme {c : Cursor} {l : Lexeme} (h : c.skip.lexeme? = some l) (rounds : Nat) :
    c.scan (rounds + 1) = { (c.skip.past l).scan rounds with
      tokens := ⟨c.skip.position, l.token⟩ :: ((c.skip.past l).scan rounds).tokens } := by
  have hlex : lex? (if gapLength false c.rest = 0 then c.before else none)
      (c.rest.drop (gapLength false c.rest)) = some l := h
  simp only [scan, scanFrom, hlex]
  rfl

/-- Where none stands, the scan ends. -/
theorem scan_of_no_lexeme {c : Cursor} (h : c.skip.lexeme? = none) (rounds : Nat) :
    c.scan (rounds + 1) = ⟨[], c.skip.position, c.skip.rest.isEmpty⟩ := by
  have hlex : lex? (if gapLength false c.rest = 0 then c.before else none)
      (c.rest.drop (gapLength false c.rest)) = none := h
  simp only [scan, scanFrom, hlex]
  rfl

/-- Behind a token less of the text is left. -/
theorem length_rest_past_lt {c : Cursor} {l : Lexeme} (h : c.lexeme? = some l) :
    (c.past l).rest.length < c.rest.length := by
  have hpos : 0 < l.text.length := List.length_pos_iff.mpr (text_ne_nil_of_lex? h)
  have hrest : 0 < c.rest.length := by
    rcases hcs : c.rest with - | ⟨d, rest⟩
    · rw [lexeme?, hcs] at h
      cases h
    · exact Nat.succ_pos _
  simp only [past, List.length_drop]
  omega

theorem length_rest_skip_le (c : Cursor) : c.skip.rest.length ≤ c.rest.length := by
  simp [skip]

end Cursor

/-- The cursors at which the scan of a text looks for a token. -/
inductive Reached (cs : List Char) : Cursor → Prop
  | start : Reached cs ⟨none, 0, cs⟩
  | past {c : Cursor} {l : Lexeme} : Reached cs c → c.skip.lexeme? = some l →
    Reached cs (c.skip.past l)

namespace Reached

variable {cs : List Char} {c : Cursor}

/-- What is left at a cursor that the scan reaches is the text behind its position. -/
theorem rest_eq_drop (h : Reached cs c) : c.rest = cs.drop c.position := by
  induction h with
  | start => rfl
  | past _ _ ih => simp [Cursor.past, Cursor.skip, ih, List.drop_drop, Nat.add_assoc]

theorem rest_skip_eq_drop (h : Reached cs c) : c.skip.rest = cs.drop c.skip.position := by
  simp [Cursor.skip, h.rest_eq_drop]

/-- From a cursor reached, the scan goes on as the scan of the whole text did, and has rounds
enough. -/
theorem scan_of_reached (h : Reached cs c) :
    ∃ rounds, c.rest.length ≤ rounds ∧ (c.scan (rounds + 1)).tokens ⊆ (scan cs).tokens
      ∧ (c.scan (rounds + 1)).complete = (scan cs).complete := by
  induction h with
  | start => exact ⟨cs.length, Nat.le_refl _, fun _ hp => hp, rfl⟩
  | @past c l _ hl ih =>
    obtain ⟨rounds, hrounds, htokens, hcomplete⟩ := ih
    rw [Cursor.scan_of_lexeme hl] at htokens hcomplete
    have hpast := Cursor.length_rest_past_lt hl
    have hskip := c.length_rest_skip_le
    -- the token takes a character, so one round less is still enough
    obtain ⟨rounds, rfl⟩ : ∃ n, rounds = n + 1 := ⟨rounds - 1, by omega⟩
    exact ⟨rounds, by omega, fun p hp => htokens (List.mem_cons_of_mem _ hp), hcomplete⟩

/-- Every token of a scan was read at a cursor that the scan reached. -/
theorem reads_of_mem_scan {p : Placed} (h : Reached cs c) {rounds : Nat}
    (hp : p ∈ (c.scan rounds).tokens) :
    ∃ d l, Reached cs d ∧ d.skip.lexeme? = some l ∧ p = ⟨d.skip.position, l.token⟩ := by
  induction rounds generalizing c with
  | zero => cases hp
  | succ rounds ih =>
    rcases hl : c.skip.lexeme? with - | l
    · rw [Cursor.scan_of_no_lexeme hl] at hp
      cases hp
    · rw [Cursor.scan_of_lexeme hl] at hp
      rcases List.mem_cons.mp hp with rfl | hp
      · exact ⟨c, l, h, hl, rfl⟩
      · exact ih (h.past hl) hp

end Reached

/-- The tokens of a text are those that are read at the cursors reached. -/
theorem mem_scan_tokens_iff {cs : List Char} {p : Placed} :
    p ∈ (scan cs).tokens ↔
      ∃ c l, Reached cs c ∧ c.skip.lexeme? = some l ∧ p = ⟨c.skip.position, l.token⟩ := by
  constructor
  · intro hp
    exact Reached.start.reads_of_mem_scan hp
  · rintro ⟨c, l, hc, hl, rfl⟩
    obtain ⟨rounds, -, htokens, -⟩ := hc.scan_of_reached
    apply htokens
    rw [Cursor.scan_of_lexeme hl]
    exact List.mem_cons_self

/-- If a scan gets to the end of its text, nothing is left where no token can be read. -/
theorem rest_eq_nil_of_complete {cs : List Char} {c : Cursor} (h : Reached cs c)
    (hcomplete : (scan cs).complete = true) (hl : c.skip.lexeme? = none) : c.skip.rest = [] := by
  obtain ⟨rounds, -, -, heq⟩ := h.scan_of_reached
  rw [Cursor.scan_of_no_lexeme hl, hcomplete] at heq
  exact List.isEmpty_iff.mp heq

/-! ### Words that are touched -/

/-- No blank or comment starts with a letter. -/
theorem skip_of_letter {c : Cursor} {d : Char} {rest : List Char} (hrest : c.rest = d :: rest)
    (hd : isAsciiLetter d = true) : c.skip = c := by
  apply Cursor.skip_of_no_gap
  rw [hrest, gapLength, if_neg, if_neg]
  · rintro rfl
    exact absurd hd (by decide)
  · intro hgap
    simp only [isGap, Bool.or_eq_true, beq_iff_eq] at hgap
    rcases hgap with ((rfl | rfl) | rfl) | rfl <;> exact absurd hd (by decide)

/-- What a letter can touch: directly behind a token whose last character touches it, the token is a
number. -/
theorem number_of_touching {before : Option Char} {cs rest : List Char} {l : Lexeme} {c d : Char}
    (hl : lex? before cs = some l) (hlast : l.text.getLast? = some c) (hc : gluesWords c = true)
    (hrest : cs.drop l.text.length = d :: rest) (hd : isAsciiLetter d = true) :
    l.token = .number (String.ofList l.text) ∧ '0' ≤ c ∧ c ≤ '9' := by
  obtain ⟨_, _, hcs, -, rfl⟩ | ⟨_, _, hcs, hdigit, rfl⟩ | hsign := lex?_cases hl
  · -- a word is as long as it can be, and a letter would go on with it
    obtain ⟨t, -, -, hword⟩ | ⟨-, hword⟩ := Lexeme.word_cases before cs
    · rw [hword] at hrest
      have := not_of_drop_takeWhile hrest
      rw [gluesWords_of_isAsciiLetter hd] at this
      cases this
    · rw [hword] at hrest
      have := not_of_drop_takeWhile hrest
      rw [isWord_of_isAsciiLetter hd] at this
      cases this
  · -- only digits go on with a number, so a letter can follow it directly
    obtain ⟨e, he, hdigit⟩ := Lexeme.number_getLast? hcs hdigit
    rw [hlast] at he
    cases he
    exact ⟨rfl, ascii_of_isDigit_of_gluesWords hdigit hc⟩
  · -- no sign ends with a character that touches
    have hany := (Lexeme.sign?_spec hsign).2.1
    rw [hlast, Option.any_some, hc] at hany
    cases hany

end Pseudocode
