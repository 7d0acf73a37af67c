import Pseudocode.Proofs.RoundTrip
import Pseudocode.Proofs.TokenRow

/-!
Layout and spelling.

How a program is laid out, and which of two spellings a sign has, is not part of the program.
`normalize` brings a text into a standard form: every run of blanks and comments becomes one blank,
and the signs that have a spelling in ASCII are written in it. A text and its standard form are read
in the same way, or both are refused.

Design. What this takes away or puts in are the characters in `altered`, and none of them goes on
with a word or a number. So words and numbers are read as before. A sign is read as before since what
follows it begins with a minus or an equality sign if and only if it did so before. Tabs are blanks,
and so are the spaces that stand for them when the text is read.

Main results: the tokens of the standard form are those of the text (`scanSource_normalize`), and so
are its program and its expression (`parse_normalize`).
-/

namespace Pseudocode

open Text

/-! ### The standard form of a text -/

/-- The ASCII spelling of a sign, if it has one; any other character as it is. -/
def asciiSpelling : Char → List Char
  | '←' => ['<', '-']
  | '≠' => ['!', '=']
  | '≤' => ['<', '=']
  | '≥' => ['>', '=']
  | c => [c]

/-- What the character before the current one belongs to. -/
inductive Place where
  | token
  | blank
  | comment

/-- The standard form of a text that goes on from a place. -/
def normalizeFrom : Place → List Char → List Char
  | _, [] => []
  | .comment, c :: cs => normalizeFrom (if c = '\n' then .blank else .comment) cs
  | .blank, c :: cs =>
    if isGap c then normalizeFrom .blank cs
    else if c = commentSign then normalizeFrom .comment cs
    else asciiSpelling c ++ normalizeFrom .token cs
  | .token, c :: cs =>
    if isGap c then ' ' :: normalizeFrom .blank cs
    else if c = commentSign then ' ' :: normalizeFrom .comment cs
    else asciiSpelling c ++ normalizeFrom .token cs

/-- The standard form of a text: one blank for every run of blanks and comments, and signs in
ASCII. -/
def normalize (text : List Char) : List Char := normalizeFrom .token text

/-! ### Blanks, comments and tabs -/

/-- Anything but a blank or a comment stays, in the spelling of the grammar. -/
theorem normalize_cons_of_not_separator {c : Char} (h : c ∉ separators) (cs : List Char) :
    normalize (c :: cs) = asciiSpelling c ++ normalize cs := by
  rw [mem_separators, not_or] at h
  rw [normalize, normalizeFrom, if_neg h.1, if_neg h.2]
  rfl

/-- A blank or a comment starts a gap, which becomes one blank. -/
theorem normalize_cons_of_separator {c : Char} (h : c ∈ separators) (cs : List Char) :
    ∃ place, normalize (c :: cs) = ' ' :: normalizeFrom place cs := by
  rw [normalize, normalizeFrom]
  rcases mem_separators.mp h with hgap | rfl
  · exact ⟨.blank, by rw [if_pos hgap]⟩
  · exact ⟨.comment, by rw [if_neg (by decide), if_pos rfl]⟩

/-- In a run of blanks and comments nothing is written until it ends. -/
theorem normalizeFrom_of_run (cs : List Char) :
    normalizeFrom .blank cs = normalize (cs.drop (gapLength false cs))
      ∧ normalizeFrom .comment cs = normalize (cs.drop (gapLength true cs)) := by
  induction cs with
  | nil => exact ⟨rfl, rfl⟩
  | cons c cs ih =>
    obtain ⟨hblank, hcomment⟩ := ih
    -- outside a comment, and inside one
    constructor
    · rw [normalizeFrom, gapLength]
      by_cases hgap : isGap c = true
      · rw [if_pos hgap, if_pos hgap, hblank, Nat.add_comm, List.drop_succ_cons]
      by_cases hsign : c = commentSign
      · rw [if_neg hgap, if_neg hgap, if_pos hsign, if_pos hsign, hcomment, Nat.add_comm,
          List.drop_succ_cons]
      · have hc : c ∉ separators := mt mem_separators.mp (not_or.mpr ⟨hgap, hsign⟩)
        rw [if_neg hgap, if_neg hgap, if_neg hsign, if_neg hsign, List.drop_zero,
          normalize_cons_of_not_separator hc]
        rfl
    · rw [normalizeFrom, gapLength, Nat.add_comm, List.drop_succ_cons]
      by_cases hend : c = '\n'
      · simpa [hend] using hblank
      · simpa [hend] using hcomment

/-- A run of blanks and comments at the start of a text becomes one blank. -/
theorem normalize_skip (cs : List Char) :
    normalize cs = (if gapLength false cs = 0 then [] else [' '])
      ++ normalize (cs.drop (gapLength false cs)) := by
  rcases cs with - | ⟨c, cs⟩
  · rfl
  rw [normalize, normalizeFrom, gapLength]
  -- a gap starts with a blank or with a comment
  by_cases hgap : isGap c = true
  · rw [if_pos hgap, if_pos hgap, if_neg (by omega), (normalizeFrom_of_run cs).1, Nat.add_comm,
      List.drop_succ_cons]
    rfl
  by_cases hsign : c = commentSign
  · rw [if_neg hgap, if_neg hgap, if_pos hsign, if_pos hsign, if_neg (by omega),
      (normalizeFrom_of_run cs).2, Nat.add_comm, List.drop_succ_cons]
    rfl
  · have hc : c ∉ separators := mt mem_separators.mp (not_or.mpr ⟨hgap, hsign⟩)
    rw [if_neg hgap, if_neg hgap, if_neg hsign, if_neg hsign, if_pos rfl, List.drop_zero,
      normalize_cons_of_not_separator hc]
    rfl

/-- What follows a character decides, if what follows is alike in all places. -/
theorem normalizeFrom_cons_congr {cs ds : List Char}
    (h : ∀ place, normalizeFrom place cs = normalizeFrom place ds) (place : Place) (c : Char) :
    normalizeFrom place (c :: cs) = normalizeFrom place (c :: ds) := by
  cases place <;> simp only [normalizeFrom, h]

/-- Any number of spaces, but at least one, is written like a tab. -/
theorem normalizeFrom_spaces (place : Place) (n : Nat) (cs : List Char) :
    normalizeFrom place (List.replicate (n + 1) ' ' ++ cs) = normalizeFrom place ('\t' :: cs) := by
  induction n generalizing place with
  | zero => cases place <;> rfl
  | succ n ih =>
    rw [List.replicate_succ, List.cons_append]
    cases place <;> simp only [normalizeFrom, ih] <;> rfl

/-- Tabs are blanks, and so are the spaces that stand for them. -/
theorem normalizeFrom_expandTabsFrom (place : Place) (column : Nat) (cs : List Char) :
    normalizeFrom place (expandTabsFrom column cs) = normalizeFrom place cs := by
  fun_induction expandTabsFrom column cs generalizing place with
  | case1 => rfl
  | case2 column cs width ih =>
    -- a tab stands for one space at least
    obtain ⟨n, hn⟩ : ∃ n, width = n + 1 :=
      Nat.exists_eq_add_one_of_ne_zero (Nat.sub_ne_zero_of_lt (Nat.mod_lt _ (by decide)))
    rw [hn, normalizeFrom_spaces]
    rw [← hn]
    exact normalizeFrom_cons_congr ih place _
  | case3 column c cs _ _ ih => exact normalizeFrom_cons_congr ih place c
  | case4 column c cs _ _ ih => exact normalizeFrom_cons_congr ih place c

theorem no_tab_asciiSpelling {c : Char} (h : isGap c ≠ true) : '\t' ∉ asciiSpelling c := by
  unfold asciiSpelling
  split
  case h_5 =>
    rw [List.mem_singleton]
    rintro rfl
    exact h (by decide)
  all_goals decide

theorem no_tab_normalizeFrom (place : Place) (cs : List Char) : '\t' ∉ normalizeFrom place cs := by
  fun_induction normalizeFrom place cs with
  | case1 => exact List.not_mem_nil
  | case2 c cs ih => exact ih
  | case3 c cs _ ih => exact ih
  | case4 cs _ ih => exact ih
  | case5 c cs hgap _ ih => exact List.not_mem_append (no_tab_asciiSpelling hgap) ih
  | case6 c cs _ ih => exact List.not_mem_cons_of_ne_of_not_mem (by decide) ih
  | case7 cs _ ih => exact List.not_mem_cons_of_ne_of_not_mem (by decide) ih
  | case8 c cs hgap _ ih => exact List.not_mem_append (no_tab_asciiSpelling hgap) ih

/-! ### Signs -/

/-- The characters that the standard form takes away or puts in. -/
def altered : List Char := separators ++ ['←', '≠', '≤', '≥', '<', '>', '!']

/-- Most characters are their own spelling. -/
theorem asciiSpelling_of_not_altered {c : Char} (h : c ∉ altered) : asciiSpelling c = [c] := by
  unfold asciiSpelling
  split
  case h_5 => rfl
  all_goals exact absurd (by decide) h

theorem normalize_cons_of_not_altered {c : Char} (h : c ∉ altered) (cs : List Char) :
    normalize (c :: cs) = c :: normalize cs := by
  have hc : c ∉ separators := fun hmem => h (List.mem_append_left _ hmem)
  rw [normalize_cons_of_not_separator hc, asciiSpelling_of_not_altered h]
  rfl

/-- An altered character is replaced by characters that are replaced again. -/
theorem normalize_cons_of_altered {c : Char} (h : c ∈ altered) (cs : List Char) :
    ∃ d rest, d ∈ altered ∧ normalize (c :: cs) = d :: rest := by
  by_cases hc : c ∈ separators
  · obtain ⟨place, hplace⟩ := normalize_cons_of_separator hc cs
    exact ⟨' ', _, by decide, hplace⟩
  · rw [normalize_cons_of_not_separator hc]
    have hsigns := (List.mem_append.mp h).resolve_left hc
    simp only [List.mem_cons, List.not_mem_nil, or_false] at hsigns
    rcases hsigns with rfl | rfl | rfl | rfl | rfl | rfl | rfl <;> exact ⟨_, _, by decide, rfl⟩

/-- A character that is never replaced starts the text exactly if it starts the normal form. -/
theorem head?_normalize {d : Char} (hd : d ∉ altered) (cs : List Char) :
    (normalize cs).head? = some d ↔ cs.head? = some d := by
  rcases cs with - | ⟨c, cs⟩
  · rfl
  by_cases hc : c ∈ altered
  · obtain ⟨e, rest, he, hnormal⟩ := normalize_cons_of_altered hc cs
    have hne : ∀ {b : Char}, b ∈ altered → b ≠ d := by
      rintro b hb rfl
      exact hd hb
    simp [hnormal, hne hc, hne he]
  · simp [normalize_cons_of_not_altered hc]

section

variable {p : Char → Bool} (hp : altered.any p = false)
include hp

theorem eq_false_of_altered {c : Char} (hc : c ∈ altered) : p c = false := by
  simpa using List.any_eq_false.mp hp c hc

theorem not_altered_of_eq_true {c : Char} (hc : p c = true) : c ∉ altered := by
  intro haltered
  rw [eq_false_of_altered hp haltered] at hc
  cases hc

/-- A run of characters that the standard form leaves alone. -/
theorem takeWhile_normalize (cs : List Char) : (normalize cs).takeWhile p = cs.takeWhile p := by
  induction cs with
  | nil => rfl
  | cons c cs ih =>
    by_cases hc : c ∈ altered
    · obtain ⟨d, rest, hd, hnormal⟩ := normalize_cons_of_altered hc cs
      simp [hnormal, eq_false_of_altered hp hc, eq_false_of_altered hp hd]
    · rw [normalize_cons_of_not_altered hc, List.takeWhile_cons, List.takeWhile_cons, ih]

/-- Dropping characters of a class and bringing to normal form commute. -/
theorem dropWhile_normalize (cs : List Char) :
    (normalize cs).dropWhile p = normalize (cs.dropWhile p) := by
  induction cs with
  | nil => rfl
  | cons c cs ih =>
    by_cases hc : c ∈ altered
    · obtain ⟨d, rest, hd, hnormal⟩ := normalize_cons_of_altered hc cs
      simp [hnormal, eq_false_of_altered hp hc, eq_false_of_altered hp hd]
    · rw [normalize_cons_of_not_altered hc, List.dropWhile_cons, List.dropWhile_cons, ih]
      split
      · rfl
      · rw [normalize_cons_of_not_altered hc]

end

/-- A piece without gaps is brought to normal form by itself. -/
theorem normalize_append {w : List Char} (hw : ∀ c ∈ w, c ∉ separators) (rest : List Char) :
    normalize (w ++ rest) = w.flatMap asciiSpelling ++ normalize rest := by
  induction w with
  | nil => rfl
  | cons c w ih =>
    obtain ⟨hc, hw⟩ := List.forall_mem_cons.mp hw
    rw [List.cons_append, normalize_cons_of_not_separator hc, ih hw, List.flatMap_cons,
      List.append_assoc]

/-- A piece without characters that are replaced stays as it is. -/
theorem flatMap_asciiSpelling {w : List Char} (hw : ∀ c ∈ w, c ∉ altered) :
    w.flatMap asciiSpelling = w := by
  induction w with
  | nil => rfl
  | cons c w ih =>
    obtain ⟨hc, hw⟩ := List.forall_mem_cons.mp hw
    rw [List.flatMap_cons, asciiSpelling_of_not_altered hc, ih hw]
    rfl

theorem gluesWords_altered : altered.any gluesWords = false := by decide

theorem isWord_altered : altered.any isWord = false := by decide +kernel

theorem isDigit_altered : altered.any isDigit = false := by decide

/-! ### Tokens -/

namespace Lexeme

/-- The token, written in ASCII. -/
def inAscii (l : Lexeme) : Lexeme := ⟨l.token, l.text.flatMap asciiSpelling⟩

theorem inAscii_of_not_altered {l : Lexeme} (h : ∀ c ∈ l.text, c ∉ altered) : l.inAscii = l := by
  rw [inAscii, flatMap_asciiSpelling h]

theorem word_normalize (before : Option Char) (cs : List Char) :
    word before (normalize cs) = word before cs := by
  simp only [word, takeWhile_normalize gluesWords_altered, takeWhile_normalize isWord_altered]

theorem inAscii_word (before : Option Char) (cs : List Char) :
    (word before cs).inAscii = word before cs := by
  apply inAscii_of_not_altered
  intro c hc
  obtain htext | htext := text_word before cs <;> rw [htext] at hc
  · exact not_altered_of_eq_true gluesWords_altered (List.mem_takeWhile_imp hc)
  · exact not_altered_of_eq_true isWord_altered (List.mem_takeWhile_imp hc)

/-- A number is the same in the normal form. -/
theorem number_normalize (cs : List Char) : number (normalize cs) = number cs := by
  have hpoint : '.' ∉ altered := by decide
  simp only [number, takeWhile_normalize isDigit_altered, dropWhile_normalize isDigit_altered]
  rcases cs.dropWhile isDigit with - | ⟨c, tail⟩
  · rfl
  -- the point of a fraction stays where it is
  by_cases hc : c = '.'
  · subst hc
    rw [normalize_cons_of_not_altered hpoint]
    simp only [takeWhile_normalize isDigit_altered]
  · -- neither of the two goes on with a point
    have hhead := head?_normalize hpoint (c :: tail)
    rcases hnormal : normalize (c :: tail) with - | ⟨d, rest⟩
    · simp [hc]
    · have hd : d ≠ '.' := by
        rintro rfl
        rw [hnormal] at hhead
        exact hc (Option.some.inj (hhead.mp rfl))
      simp [hc, hd]

theorem inAscii_number {c : Char} (hc : isDigit c = true) (cs : List Char) :
    (number (c :: cs)).inAscii = number (c :: cs) := by
  have hdigits : ∀ {ds : List Char}, (∀ d ∈ ds, isDigit d = true) → ∀ d ∈ ds, d ∉ altered :=
    fun hds d hd => not_altered_of_eq_true isDigit_altered (hds d hd)
  apply inAscii_of_not_altered
  obtain ⟨whole, -, hwhole, htext | ⟨fraction, -, hfraction, htext⟩⟩ := number_cases rfl hc
  · rw [htext]
    exact hdigits hwhole
  · rw [htext, List.forall_mem_append, List.forall_mem_cons]
    exact ⟨hdigits hwhole, by decide, hdigits hfraction⟩

theorem inAscii_sign {c : Char} (hc : asciiSpelling c = [c]) {cs : List Char} {l : Lexeme}
    (h : sign? (c :: cs) = some l) : l.inAscii = l := by
  unfold sign? at h
  split at h <;> rename_i hcs <;> cases h <;> injection hcs with hsign _ <;> subst hsign
  -- the signs that have a spelling in ASCII, then those that are in ASCII
  case h_2 | h_6 | h_7 | h_8 => cases hc
  all_goals rfl

/-- A sign is the same one in ASCII, whatever follows it. -/
theorem sign?_normalize {c : Char} (hc : c ∉ separators) (cs : List Char) :
    sign? (normalize (c :: cs)) = (sign? (c :: cs)).map inAscii := by
  rw [normalize_cons_of_not_separator hc]
  by_cases hascii : asciiSpelling c = [c]
  · -- what follows begins with a minus or an equality sign in both texts or in neither
    have hsame : sign? (c :: normalize cs) = sign? (c :: cs) :=
      sign?_congr (head?_normalize (by decide) cs) (head?_normalize (by decide) cs) c
    rw [hascii, List.singleton_append, hsame]
    rcases hsign : sign? (c :: cs) with - | l
    · rfl
    · rw [Option.map_some, inAscii_sign hascii hsign]
  · unfold asciiSpelling at hascii ⊢
    split at hascii
    case h_5 => exact absurd rfl hascii
    all_goals rfl

end Lexeme

theorem lex?_of_altered {c : Char} (h : c ∈ altered) (before : Option Char) (cs : List Char) :
    lex? before (c :: cs) = Lexeme.sign? (c :: cs) := by
  have hletter : isAsciiLetter c = false := eq_false_of_altered (by decide) h
  simp [lex?, hletter, eq_false_of_altered isDigit_altered h]

/-- The standard form of a text starts with the token that the text starts with. -/
theorem lex?_normalize (before : Option Char) {c : Char} (hc : c ∉ separators) (cs : List Char) :
    lex? before (normalize (c :: cs)) = (lex? before (c :: cs)).map Lexeme.inAscii := by
  -- a sign in its other spelling is read as the same sign; all else stays
  by_cases haltered : c ∈ altered
  · obtain ⟨d, rest, hd, hnormal⟩ := normalize_cons_of_altered haltered cs
    rw [lex?_of_altered haltered, ← Lexeme.sign?_normalize hc, hnormal, lex?_of_altered hd]
  have hnormal := normalize_cons_of_not_altered haltered cs
  rw [hnormal, lex?, lex?, ← hnormal, Lexeme.word_normalize, Lexeme.number_normalize,
    Lexeme.sign?_normalize hc]
  split
  · rw [Option.map_some, Lexeme.inAscii_word]
  split
  · rename_i hdigit
    rw [Option.map_some, Lexeme.inAscii_number hdigit]
  · rfl

/-- A token touches the next one in ASCII if it does so in its own spelling. -/
theorem Lexeme.gluesWords_inAscii (l : Lexeme) :
    l.inAscii.text.getLast?.any gluesWords = l.text.getLast?.any gluesWords := by
  rw [inAscii]
  rcases l.text.eq_nil_or_concat with htext | ⟨w, c, htext⟩
  · rw [htext]
    rfl
  rw [htext, List.concat_eq_append, List.flatMap_append, List.flatMap_singleton,
    List.getLast?_concat]
  unfold asciiSpelling
  split
  case h_5 => rw [List.getLast?_concat]
  all_goals rw [List.getLast?_append]; rfl

/-! ### Reading the standard form -/

/-- Where no gap starts, none starts in the normal form. -/
theorem gapLength_normalize {cs : List Char} (h : gapLength false cs = 0) :
    gapLength false (normalize cs) = 0 := by
  rcases cs with - | ⟨c, cs⟩
  · rfl
  have hc : c ∉ separators := not_separator_of_drop (by rw [h, List.drop_zero])
  rw [normalize_cons_of_not_separator hc]
  unfold asciiSpelling
  split
  case h_5 => exact gapLength_of_not_separator hc _
  all_goals rfl

theorem isEmpty_normalize (cs : List Char) : (normalize cs).isEmpty = cs.isEmpty := by
  rcases cs with - | ⟨c, cs⟩
  · rfl
  by_cases hc : c ∈ altered
  · obtain ⟨d, rest, -, hnormal⟩ := normalize_cons_of_altered hc cs
    rw [hnormal]
    rfl
  · rw [normalize_cons_of_not_altered hc]
    rfl

namespace Cursor

/-- The second cursor stands before the standard form of what the first one stands before. -/
structure Normalized (c d : Cursor) : Prop where
  before : d.before.any gluesWords = c.before.any gluesWords
  rest : d.rest = normalize c.rest

variable {c d : Cursor}

/-- Both cursors skip their gaps. -/
theorem Normalized.skip (h : Normalized c d) : Normalized c.skip d.skip := by
  by_cases hgap : gapLength false c.rest = 0
  · -- nothing is skipped in either text
    have hgap' : gapLength false d.rest = 0 := by
      rw [h.rest]
      exact gapLength_normalize hgap
    rw [skip_of_no_gap hgap, skip_of_no_gap hgap']
    exact h
  · -- blanks and comments are skipped in the text, and one blank in its standard form
    have hrest : d.rest = ' ' :: normalize c.skip.rest := by
      rw [h.rest, normalize_skip, if_neg hgap]
      rfl
    have hgap' : gapLength false d.rest = 1 := by
      rw [hrest, gapLength, if_pos (by decide), gapLength_normalize c.gapLength_skip]
    refine ⟨?_, ?_⟩
    · simp [Cursor.skip, hgap, hgap']
    · rw [Cursor.skip, hgap', hrest, List.drop_one, List.tail_cons]

/-- Both cursors read the same token. -/
theorem Normalized.lexeme? (h : Normalized c d) :
    d.skip.lexeme? = c.skip.lexeme?.map Lexeme.inAscii := by
  obtain ⟨hbefore, hrest⟩ := h.skip
  rw [Cursor.lexeme?, Cursor.lexeme?, lex?_congr hbefore, hrest]
  rcases hc : c.skip.rest with - | ⟨x, rest⟩
  · rfl
  · exact lex?_normalize _ (not_separator_of_drop hc) rest

/-- Behind the token they stand alike again. -/
theorem Normalized.past (h : Normalized c d) {l : Lexeme} (hl : c.skip.lexeme? = some l) :
    Normalized (c.skip.past l) (d.skip.past l.inAscii) := by
  obtain ⟨rest, hrest⟩ := text_prefix_of_lex? hl
  have hnormal : d.skip.rest = l.inAscii.text ++ normalize rest := by
    rw [h.skip.rest, ← hrest]
    exact normalize_append (not_separator_of_lex? hl) rest
  refine ⟨l.gluesWords_inAscii, ?_⟩
  rw [Cursor.past, Cursor.past, hnormal, ← hrest, List.drop_left, List.drop_left]

/-- In the standard form of a text, the tokens of the text are read. -/
theorem Reads.normalize {ts : List Token} {complete : Bool} (h : Reads c ts complete)
    (hd : Normalized c d) : Reads d ts complete := by
  -- both cursors read the same token and stand alike behind it
  induction h generalizing d with
  | @stop c hl =>
    have hl' : d.skip.lexeme? = none := by
      rw [hd.lexeme?, hl]
      rfl
    rw [← isEmpty_normalize, ← hd.skip.rest]
    exact .stop hl'
  | @token c l ts complete hl _ ih =>
    have hl' : d.skip.lexeme? = some l.inAscii := by
      rw [hd.lexeme?, hl]
      rfl
    show Reads d (l.inAscii.token :: ts) complete
    exact .token hl' (ih (hd.past hl))

end Cursor

/-- The tokens of the standard form of a text are those of the text. -/
theorem scanSource_normalize (text : List Char) :
    (scanSource (normalize text)).sequence = (scanSource text).sequence
      ∧ (scanSource (normalize text)).complete = (scanSource text).complete := by
  have htabs : expandTabs (normalize text) = normalize (expandTabs text) :=
    calc expandTabs (normalize text)
        = normalize text := expandTabsFrom_of_no_tab (no_tab_normalizeFrom .token text) 0
      _ = normalize (expandTabs text) := (normalizeFrom_expandTabsFrom .token 0 text).symm
  apply reads_source_iff.mp
  rw [htabs]
  exact (reads_source text).normalize ⟨rfl, rfl⟩

/-! ### Programs -/

/-- What a program is depends on its tokens only. -/
theorem parseProgram_congr {text text' : List Char}
    (htokens : (scanSource text').sequence = (scanSource text).sequence)
    (hcomplete : (scanSource text').complete = (scanSource text).complete)
    {statements : List Stmt} (h : parseProgram text = .ok statements) :
    parseProgram text' = .ok statements := by
  obtain ⟨hsequence, hend⟩ := sequence_of_parseProgram h
  exact parseProgram_of_sequence (levelled_of_parseProgram h) (htokens.trans hsequence)
    (hcomplete.trans hend)

theorem parseExpression_congr {text text' : List Char}
    (htokens : (scanSource text').sequence = (scanSource text).sequence)
    (hcomplete : (scanSource text').complete = (scanSource text).complete)
    {e : Expr} (h : parseExpression text = .ok e) : parseExpression text' = .ok e := by
  obtain ⟨hsequence, hend⟩ := sequence_of_parseExpression h
  exact parseExpression_of_sequence (levelled_of_parseExpression h) (htokens.trans hsequence)
    (hcomplete.trans hend)

/-- **Layout and spelling do not matter.** A text is a program if and only if its standard form is,
and it is the same one; and likewise for expressions. -/
theorem parse_normalize (text : List Char) :
    (∀ statements, parseProgram (normalize text) = .ok statements
        ↔ parseProgram text = .ok statements)
      ∧ ∀ e, parseExpression (normalize text) = .ok e ↔ parseExpression text = .ok e := by
  obtain ⟨htokens, hcomplete⟩ := scanSource_normalize text
  refine ⟨fun statements => ⟨?_, ?_⟩, fun e => ⟨?_, ?_⟩⟩
  · exact parseProgram_congr htokens.symm hcomplete.symm
  · exact parseProgram_congr htokens hcomplete
  · exact parseExpression_congr htokens.symm hcomplete.symm
  · exact parseExpression_congr htokens hcomplete

/-- A comment with a carriage return in it and a sign that it hides, a sign of two characters that a
blank keeps apart, and a tab. -/
example : normalize "x ←\t1#≠\r#\n\n<# -\n-2≤y".toList = "x <- 1 < -2<=y".toList := by decide

end Pseudocode
