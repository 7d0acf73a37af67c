import Pseudocode.Program.Parse
import Pseudocode.Proofs.Scanning

/-!
The row of tokens of a text.

The scanner counts its rounds and notes where each token stands. What a program is depends on
neither: `Cursor.Reads c ts complete` says that from the cursor `c` on the tokens `ts` are read, one
after the other, until there is none, and `complete` says whether that is at the end of the text.

Design. A comparison of the tokens of two texts is an induction over `Reads`, with one case for a
token and one for the end. The position does not matter, and of the character before the cursor it
only matters whether it can touch a word (`Reads.congr`). No blank and no comment sign is part of a
token, so a token does not depend on what stands behind the next of them (`lex?_append_separator`).

Main result: the tokens of a text are those that are read from its start on (`reads_start_iff`).
-/

namespace Pseudocode

open Text

/-! ### Blanks and comments -/

/-- The blanks, and the sign that starts a comment. -/
def separators : List Char := [' ', '\t', '\n', '\r', commentSign]

theorem mem_separators {c : Char} : c ∈ separators ↔ isGap c = true ∨ c = commentSign := by
  simp [separators, isGap, or_assoc]

theorem gapLength_of_not_separator {c : Char} (h : c ∉ separators) (cs : List Char) :
    gapLength false (c :: cs) = 0 := by
  rw [mem_separators, not_or] at h
  rw [gapLength, if_neg h.1, if_neg h.2]

theorem gapLength_le (commented : Bool) (cs : List Char) :
    gapLength commented cs ≤ cs.length := by
  fun_induction gapLength commented cs with
  | case1 => exact Nat.le_refl _
  | case2 c cs ih => rw [List.length_cons]; omega
  | case3 c cs _ ih => rw [List.length_cons]; omega
  | case4 cs _ ih => rw [List.length_cons]; omega
  | case5 => exact Nat.zero_le _

/-- What stands behind blanks and comments is no separator. -/
theorem not_separator_of_drop {commented : Bool} {cs rest : List Char} {c : Char}
    (h : cs.drop (gapLength commented cs) = c :: rest) : c ∉ separators := by
  -- the cases are those of the gap: inside a comment or not, and what stands next
  fun_induction gapLength commented cs with
  | case1 => cases h
  | case2 d cs ih =>
    rw [Nat.add_comm, List.drop_succ_cons] at h
    exact ih h
  | case3 d cs _ ih =>
    rw [Nat.add_comm, List.drop_succ_cons] at h
    exact ih h
  | case4 cs _ ih =>
    rw [Nat.add_comm, List.drop_succ_cons] at h
    exact ih h
  | case5 d cs hgap hsign =>
    cases h
    exact mt mem_separators.mp (not_or.mpr ⟨hgap, hsign⟩)

/-! ### Words, numbers and signs -/

section

variable {p : Char → Bool} {g : Char} (hp : p g = false) (w rest : List Char)
include hp

/-- A run ends before a character that stops it, whatever follows. -/
theorem takeWhile_append_stop : (w ++ g :: rest).takeWhile p = w.takeWhile p := by
  induction w with
  | nil => simp [hp]
  | cons c w ih =>
    rcases hc : p c with - | -
    · simp [hc]
    · simp [hc, ih]

/-- What is behind the run begins there too. -/
theorem dropWhile_append_stop : (w ++ g :: rest).dropWhile p = w.dropWhile p ++ g :: rest := by
  induction w with
  | nil => simp [hp]
  | cons c w ih =>
    rcases hc : p c with - | -
    · simp [hc]
    · simp [hc, ih]

end

namespace Lexeme

/-- A word is the run of characters that glue words or the shorter one of those that are part of
words. -/
theorem text_word (before : Option Char) (cs : List Char) :
    (word before cs).text = cs.takeWhile gluesWords
      ∨ (word before cs).text = cs.takeWhile isWord := by
  obtain ⟨t, -, -, hword⟩ | ⟨-, hword⟩ := word_cases before cs
  · exact .inl (by rw [hword])
  · exact .inr (by rw [hword])

/-- A character that belongs to no word ends one, whatever follows. -/
theorem word_append_stop {g : Char} (hglues : gluesWords g = false) (hword : isWord g = false)
    (before : Option Char) (w rest : List Char) : word before (w ++ g :: rest) = word before w := by
  simp only [word, takeWhile_append_stop hglues, takeWhile_append_stop hword]

/-- A character that belongs to no number ends one, whatever follows. -/
theorem number_append_stop {g : Char} (hdigit : isDigit g = false) (hpoint : g ≠ '.')
    (w rest : List Char) : number (w ++ g :: rest) = number w := by
  simp only [number, takeWhile_append_stop hdigit, dropWhile_append_stop hdigit]
  rcases w.dropWhile isDigit with - | ⟨c, tail⟩
  · simp [hpoint]
  · by_cases hc : c = '.'
    · subst hc
      simp only [List.cons_append, takeWhile_append_stop hdigit]
    · simp [hc]

/-- The sign for less stands alone unless it begins a longer one. -/
theorem sign?_less {cs : List Char} (hminus : cs.head? ≠ some '-') (hequal : cs.head? ≠ some '=') :
    sign? ('<' :: cs) = some ⟨.relation .lt, ['<']⟩ := by
  rw [sign?]
  · rintro tail rfl
    exact hminus rfl
  · rintro tail rfl
    exact hequal rfl

theorem sign?_greater {cs : List Char} (hequal : cs.head? ≠ some '=') :
    sign? ('>' :: cs) = some ⟨.relation .gt, ['>']⟩ := by
  rw [sign?]
  rintro tail rfl
  exact hequal rfl

/-- Of what follows a sign only the next character matters, and of that only whether it makes the
sign longer. -/
theorem sign?_of_head? {cs ds : List Char} (hminus : cs.head? = some '-' ↔ ds.head? = some '-')
    (hequal : cs.head? = some '=' ↔ ds.head? = some '=') {c : Char} {l : Lexeme}
    (h : sign? (c :: cs) = some l) : sign? (c :: ds) = some l := by
  have hpair : ∀ {d : Char} {tail : List Char}, cs = d :: tail →
      (cs.head? = some d ↔ ds.head? = some d) → ∃ rest, ds = d :: rest := by
    rintro d tail rfl hd
    exact List.head?_eq_some_iff.mp (hd.mp rfl)
  have hlone : ∀ {d : Char}, (∀ tail, cs ≠ d :: tail) →
      (cs.head? = some d ↔ ds.head? = some d) → ds.head? ≠ some d := by
    intro d hcs hd hhead
    obtain ⟨tail, htail⟩ := List.head?_eq_some_iff.mp (hd.mpr hhead)
    exact hcs tail htail
  unfold sign? at h
  split at h <;> rename_i hcs <;> cases h <;> injection hcs with hc hcs <;> subst hc
  -- the signs of two characters, then those that start like one of them
  case h_1 =>
    obtain ⟨rest, rfl⟩ := hpair hcs hminus
    rfl
  case h_3 | h_4 | h_5 =>
    obtain ⟨rest, rfl⟩ := hpair hcs hequal
    rfl
  case h_10 hne hne' =>
    subst hcs
    exact sign?_less (hlone hne hminus) (hlone hne' hequal)
  case h_11 hne =>
    subst hcs
    exact sign?_greater (hlone hne hequal)
  all_goals rfl

/-- Of what follows the first character of a sign it only matters whether it goes on with a sign of
two characters. -/
theorem sign?_congr {cs ds : List Char} (hminus : cs.head? = some '-' ↔ ds.head? = some '-')
    (hequal : cs.head? = some '=' ↔ ds.head? = some '=') (c : Char) :
    sign? (c :: cs) = sign? (c :: ds) := by
  apply Option.ext
  intro l
  exact ⟨sign?_of_head? hminus hequal, sign?_of_head? hminus.symm hequal.symm⟩

/-- A number is a part of the text from its start. -/
theorem text_number_prefix (cs : List Char) : (number cs).text <+: cs := by
  have hsplit : cs.takeWhile isDigit ++ cs.dropWhile isDigit = cs := List.takeWhile_append_dropWhile
  unfold number
  dsimp only
  split
  · rename_i after hafter
    split
    · exact List.takeWhile_prefix _
    · -- the point and the digits behind it
      obtain ⟨more, hmore⟩ := List.takeWhile_prefix isDigit (l := after)
      refine ⟨more, ?_⟩
      rw [List.append_assoc, List.cons_append, hmore, ← hafter, hsplit]
  · exact List.takeWhile_prefix _

theorem sign?_prefix {cs : List Char} {l : Lexeme} (h : sign? cs = some l) : l.text <+: cs := by
  unfold sign? at h
  split at h <;> cases h <;> exact ⟨_, rfl⟩

end Lexeme

/-! ### Tokens -/

/-- Of the character before a token it only matters whether it can touch a word. -/
theorem lex?_congr {before before' : Option Char}
    (h : before.any gluesWords = before'.any gluesWords) (cs : List Char) :
    lex? before cs = lex? before' cs := by
  cases cs with
  | nil => rfl
  | cons c cs => simp only [lex?, Lexeme.word, h]

/-- A token is spelt by the start of the text. -/
theorem text_prefix_of_lex? {before : Option Char} {cs : List Char} {l : Lexeme}
    (h : lex? before cs = some l) : l.text <+: cs := by
  obtain ⟨c, rest, -, -, rfl⟩ | ⟨c, rest, -, -, rfl⟩ | hsign := lex?_cases h
  · obtain htext | htext := Lexeme.text_word before cs <;> rw [htext] <;>
      exact List.takeWhile_prefix _
  · exact Lexeme.text_number_prefix cs
  · exact Lexeme.sign?_prefix hsign

/-- What a token is does not depend on what stands behind the next blank or comment sign. -/
theorem lex?_append_separator {g : Char} (hg : g ∈ separators) {w : List Char} (hw : w ≠ [])
    (before : Option Char) (rest : List Char) : lex? before (w ++ g :: rest) = lex? before w := by
  have hstop : separators.any (fun d => gluesWords d || isWord d || isDigit d || d == '.'
      || d == '-' || d == '=') = false := by decide
  have hg' := List.any_eq_false.mp hstop g hg
  simp only [Bool.or_eq_true, beq_iff_eq, not_or, Bool.not_eq_true] at hg'
  obtain ⟨⟨⟨⟨⟨hglues, hword⟩, hdigit⟩, hpoint⟩, hminus⟩, hequal⟩ := hg'
  obtain ⟨c, w, rfl⟩ := List.exists_cons_of_ne_nil hw
  have hsign : Lexeme.sign? (c :: (w ++ g :: rest)) = Lexeme.sign? (c :: w) := by
    apply Lexeme.sign?_congr <;> rcases w with - | ⟨d, w⟩ <;> simp [hminus, hequal]
  rw [List.cons_append, lex?, lex?, hsign, ← List.cons_append,
    Lexeme.word_append_stop hglues hword, Lexeme.number_append_stop hdigit hpoint]

/-- No token starts with a blank or a comment sign. -/
theorem lex?_separator {g : Char} (hg : g ∈ separators) (before : Option Char) (cs : List Char) :
    lex? before (g :: cs) = none := by
  simp only [separators, List.mem_cons, List.not_mem_nil, or_false] at hg
  rcases hg with rfl | rfl | rfl | rfl | rfl <;> rfl

/-- No blank and no comment sign is part of a token. -/
theorem not_separator_of_lex? {before : Option Char} {cs : List Char} {l : Lexeme}
    (h : lex? before cs = some l) : ∀ c ∈ l.text, c ∉ separators := by
  intro g hmem hg
  obtain ⟨u, v, htext⟩ := List.append_of_mem hmem
  obtain ⟨rest, hcs⟩ := text_prefix_of_lex? h
  rw [← hcs, htext, List.append_assoc, List.cons_append] at h
  have hu : u ≠ [] := by
    rintro rfl
    rw [List.nil_append, lex?_separator hg] at h
    cases h
  -- what stands before the separator decides what the token is, so the token ends there
  rw [lex?_append_separator hg hu] at h
  have hle := (text_prefix_of_lex? h).length_le
  rw [htext, List.length_append, List.length_cons] at hle
  omega

/-! ### Cursors -/

namespace Cursor

theorem gapLength_skip (c : Cursor) : gapLength false c.skip.rest = 0 := by
  rcases hrest : c.skip.rest with - | ⟨d, rest⟩
  · rfl
  · exact gapLength_of_not_separator (not_separator_of_drop hrest) rest

/-- From the cursor on, the tokens are read; `complete` says whether the text ends behind them. -/
inductive Reads : Cursor → List Token → Bool → Prop
  | stop {c : Cursor} : c.skip.lexeme? = none → Reads c [] c.skip.rest.isEmpty
  | token {c : Cursor} {l : Lexeme} {ts : List Token} {complete : Bool} :
    c.skip.lexeme? = some l → Reads (c.skip.past l) ts complete →
    Reads c (l.token :: ts) complete

/-- The scan has the tokens that are read, if it has rounds enough. -/
theorem Reads.scan_eq {c : Cursor} {ts : List Token} {complete : Bool} (h : Reads c ts complete)
    {rounds : Nat} (hrounds : c.rest.length < rounds) :
    (c.scan rounds).sequence = ts ∧ (c.scan rounds).complete = complete := by
  obtain ⟨rounds, rfl⟩ : ∃ n, rounds = n + 1 :=
    Nat.exists_eq_add_one_of_ne_zero (Nat.ne_zero_of_lt hrounds)
  induction h generalizing rounds with
  | stop hl =>
    rw [scan_of_no_lexeme hl]
    exact ⟨rfl, rfl⟩
  | @token c l ts complete hl _ ih =>
    have hpast := length_rest_past_lt hl
    have hskip := c.length_rest_skip_le
    -- the token takes a character, so one round less is still enough
    obtain ⟨rounds, rfl⟩ : ∃ n, rounds = n + 1 := ⟨rounds - 1, by omega⟩
    obtain ⟨hsequence, hcomplete⟩ := ih rounds (by omega)
    rw [scan_of_lexeme hl]
    exact ⟨congrArg (l.token :: ·) hsequence, hcomplete⟩

/-- A scan with rounds enough reads all tokens that there are. -/
theorem reads_scan {c : Cursor} {rounds : Nat} (hrounds : c.rest.length < rounds) :
    Reads c (c.scan rounds).sequence (c.scan rounds).complete := by
  induction rounds generalizing c with
  | zero => exact absurd hrounds (Nat.not_lt_zero _)
  | succ rounds ih =>
    rcases hl : c.skip.lexeme? with - | l
    · rw [scan_of_no_lexeme hl]
      exact .stop hl
    · have hpast := length_rest_past_lt hl
      have hskip := c.length_rest_skip_le
      rw [scan_of_lexeme hl]
      exact .token hl (ih (by omega))

/-- What is skipped depends on the text that is left, not on the position. -/
theorem skip_congr {c d : Cursor} (hbefore : c.before = d.before) (hrest : c.rest = d.rest) :
    c.skip.before = d.skip.before ∧ c.skip.rest = d.skip.rest := by
  simp only [skip, hbefore, hrest, and_self]

/-- Two cursors with the same text before them read the same, if a word would be touched at both of
them or at neither. -/
theorem Reads.congr {c d : Cursor} {ts : List Token} {complete : Bool} (h : Reads c ts complete)
    (hbefore : c.skip.before.any gluesWords = d.skip.before.any gluesWords)
    (hrest : c.skip.rest = d.skip.rest) : Reads d ts complete := by
  induction h generalizing d with
  | stop hl =>
    rw [lexeme?, lex?_congr hbefore, hrest] at hl
    rw [hrest]
    exact .stop hl
  | @token c l ts complete hl _ ih =>
    have hpast := @skip_congr (c.skip.past l) (d.skip.past l) rfl (by rw [past, past, hrest])
    rw [lexeme?, lex?_congr hbefore, hrest] at hl
    exact .token hl (ih (congrArg _ hpast.1) hpast.2)

end Cursor

/-- The tokens of a text are those that are read from its start on. -/
theorem reads_start_iff {cs : List Char} {ts : List Token} {complete : Bool} :
    Cursor.Reads ⟨none, 0, cs⟩ ts complete
      ↔ (scan cs).sequence = ts ∧ (scan cs).complete = complete := by
  have hrounds : (⟨none, 0, cs⟩ : Cursor).rest.length < cs.length + 1 := Nat.lt_succ_self _
  constructor
  · intro h
    exact h.scan_eq hrounds
  · rintro ⟨rfl, rfl⟩
    exact Cursor.reads_scan hrounds

/-- Source text is read with its tabs replaced. -/
theorem reads_source_iff {text : List Char} {ts : List Token} {complete : Bool} :
    Cursor.Reads ⟨none, 0, expandTabs text⟩ ts complete
      ↔ (scanSource text).sequence = ts ∧ (scanSource text).complete = complete :=
  reads_start_iff

/-- The tokens of a text are those read from its start, with the tabs expanded. -/
theorem reads_source (text : List Char) :
    Cursor.Reads ⟨none, 0, expandTabs text⟩ (scanSource text).sequence
      (scanSource text).complete :=
  reads_source_iff.mpr ⟨rfl, rfl⟩

end Pseudocode
