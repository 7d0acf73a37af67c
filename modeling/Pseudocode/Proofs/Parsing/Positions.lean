import Pseudocode.Proofs.ErrorPosition
import Pseudocode.Proofs.Parsing.Peg

/-!
Positions of a text as states of a parse.

What a rule can read from a position on depends on the position alone: the scanner also remembers
the character before, but that stands in the text. So a parse goes from position to position, over
one token each time, and every token takes it further into the text.

Main results: tokens lead forward (`nextAt_forward`), a position has the same tokens in front of it
as the list of its tokens (`tokensAt_eq`), and what is left unread behind a position is settled by
what stands behind the blanks and comments there (`unread?_tokensAt`).
-/

namespace Pseudocode

open Text

/-- The token that is next from a position of a text on, and the position behind it. -/
def nextAt (cs : List Char) (p : Nat) : Option (Token × Nat) :=
  (cursorAt cs p).skip.lexeme?.map fun l =>
    (l.token, (cursorAt cs p).skip.position + l.text.length)

/-- The position behind the blanks and comments that stand at a position. -/
def behindGap (cs : List Char) (p : Nat) : Nat := p + gapLength false (cs.drop p)

/-- Where the first thing stands that is left behind a position; none if that is the end of the
text. -/
def leftAt? (cs : List Char) (p : Nat) : Option Nat :=
  if behindGap cs p < cs.length then some (behindGap cs p) else none

section

variable {cs : List Char} {p : Nat}

theorem rest_skip_cursorAt : (cursorAt cs p).skip.rest = cs.drop (behindGap cs p) :=
  List.drop_drop

theorem rest_skip_eq_nil_iff : (cursorAt cs p).skip.rest = [] ↔ ¬ behindGap cs p < cs.length := by
  rw [rest_skip_cursorAt, List.drop_eq_nil_iff, Nat.not_lt]

/-- Behind a token the scanner remembers what stands before the position. -/
theorem past_cursorAt {l : Lexeme} (hl : (cursorAt cs p).skip.lexeme? = some l) :
    (cursorAt cs p).skip.past l
      = cursorAt cs ((cursorAt cs p).skip.position + l.text.length) := by
  have hprefix := text_prefix_of_lex? hl
  rw [rest_skip_cursorAt] at hprefix
  have htake : cs.take (behindGap cs p + l.text.length) = cs.take (behindGap cs p) ++ l.text := by
    rw [List.take_add, ← List.prefix_iff_eq_take.mp hprefix]
  have hlast : (cs.take (behindGap cs p + l.text.length)).getLast? = l.text.getLast? := by
    rw [htake, List.getLast?_append, List.getLast?_eq_some_getLast (text_ne_nil_of_lex? hl)]
    rfl
  show Cursor.mk _ _ _ = Cursor.mk _ _ _
  rw [rest_skip_cursorAt, List.drop_drop]
  exact congrArg (fun before => Cursor.mk before _ _) hlast.symm

/-- **A token leads forward**, and stays in the text. -/
theorem nextAt_forward {t : Token} {q : Nat} (h : nextAt cs p = some (t, q)) :
    p < q ∧ q ≤ cs.length := by
  obtain ⟨l, hl, hpair⟩ := Option.map_eq_some_iff.mp h
  cases hpair
  have hpos := List.length_pos_iff.mpr (text_ne_nil_of_lex? hl)
  have hle := (text_prefix_of_lex? hl).length_le
  rw [rest_skip_cursorAt, List.length_drop] at hle
  have hgap : p ≤ behindGap cs p := Nat.le_add_right _ _
  show p < behindGap cs p + l.text.length ∧ behindGap cs p + l.text.length ≤ cs.length
  omega

/-- Behind a token less of the text is left. -/
theorem size_lt_of_nextAt {t : Token} {q : Nat} (h : nextAt cs p = some (t, q)) :
    cs.length - q < cs.length - p := by
  have hforward := nextAt_forward h
  omega

/-- The tokens from a position on are those the scanner reads there. -/
theorem reads_cursorAt (cs : List Char) (p : Nat) :
    ∃ complete, Cursor.Reads (cursorAt cs p) (tokensAt cs p) complete := by
  refine ⟨_, Cursor.reads_scan ?_⟩
  rw [cursorAt, List.length_drop]
  omega

/-- The scanner reads only one row of tokens at a position. -/
theorem tokensAt_of_reads {ts : List Token} {complete : Bool}
    (h : Cursor.Reads (cursorAt cs p) ts complete) : tokensAt cs p = ts := by
  refine (h.scan_eq ?_).1
  rw [cursorAt, List.length_drop]
  omega

/-- The tokens from a position on are the next one and those from behind it on. -/
theorem tokensAt_eq (cs : List Char) (p : Nat) :
    tokensAt cs p = match nextAt cs p with
      | some (t, q) => t :: tokensAt cs q
      | none => [] := by
  obtain ⟨complete, hreads⟩ := reads_cursorAt cs p
  generalize tokensAt cs p = ts at hreads
  cases hreads with
  | stop hl => rw [nextAt, hl, Option.map_none]
  | token hl hmore =>
    rw [past_cursorAt hl] at hmore
    rw [nextAt, hl, Option.map_some]
    exact congrArg _ (tokensAt_of_reads hmore).symm

/-! ### What is left -/

/-- A position that the scanner reaches leads by a token to another one. -/
theorem ReadTo.nextAt {t : Token} {q : Nat} (h : Pseudocode.nextAt cs p = some (t, q))
    (hp : ∃ ts, ReadTo cs ts (cursorAt cs p)) : ∃ ts, ReadTo cs ts (cursorAt cs q) := by
  obtain ⟨ts, hts⟩ := hp
  obtain ⟨l, hl, hpair⟩ := Option.map_eq_some_iff.mp h
  cases hpair
  rw [← past_cursorAt hl]
  exact ⟨_, hts.past hl⟩

/-- If the text ends behind what is read, it ends behind the blanks and comments there. -/
theorem Cursor.Reads.rest_skip_eq_nil {c : Cursor} (h : Cursor.Reads c [] true) :
    c.skip.rest = [] := by
  generalize hcomplete : true = complete at h
  cases h with
  | stop => exact List.isEmpty_iff.mp hcomplete.symm

/-- What is left unread behind a position starts behind the blanks and comments there. -/
theorem unread?_tokensAt (h : ∃ ts, ReadTo cs ts (cursorAt cs p)) :
    (scan cs).unread? (tokensAt cs p) = leftAt? cs p := by
  obtain ⟨ts, hts⟩ := h
  obtain ⟨us, hsequence, hreads⟩ := hts.sequence_eq
  rw [tokensAt_of_reads hreads, leftAt?]
  rcases hunread : (scan cs).unread? us with - | q
  · obtain ⟨rfl, hcomplete⟩ := (Scan.unread?_eq_none_iff _ hsequence).mp hunread
    rw [hcomplete] at hreads
    rw [if_neg (rest_skip_eq_nil_iff.mp hreads.rest_skip_eq_nil)]
  · obtain ⟨rfl, hrest⟩ := hts.unread?_eq hsequence hunread
    rw [ne_eq, rest_skip_eq_nil_iff, Decidable.not_not] at hrest
    rw [if_pos hrest]
    rfl

end

end Pseudocode
