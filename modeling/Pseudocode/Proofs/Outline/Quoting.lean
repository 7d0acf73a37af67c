import Mathlib.Algebra.GroupWithZero.Nat
import Pseudocode.Text.Quoted

/-!
Quoted texts are read back.

A quoted text starts with its quote. Inside it that quote stands only behind a backslash, and behind
a backslash the next character says how many digits follow. So a quoted text can be read from left
to right, whatever stands behind it, and two quoted texts at the start of equal texts are equal.

Design. `first?` reads one character back. It is a left inverse of `escape` before any other text
(`first?_escape`), and this is all that is used of the escapes.

Main results: `quoted_append_inj`, and no quoted text goes over the end of a line
(`no_newline_quoted`).
-/

namespace Pseudocode.Text

/-! ### Hexadecimal digits -/

/-- The value of a hexadecimal digit. -/
def hexDigit (c : Char) : Nat := (List.range 16).findIdx fun d => Nat.digitChar d == c

/-- The number that a row of hexadecimal digits writes. -/
def hexValue (cs : List Char) : Nat := cs.foldl (fun n c => 16 * n + hexDigit c) 0

theorem hexDigit_digitChar {d : Nat} (h : d < 16) : hexDigit (Nat.digitChar d) = d := by
  have hall : ∀ d < 16, hexDigit (Nat.digitChar d) = d := by decide
  exact hall d h

theorem length_hexadecimal (width n : Nat) : (hexadecimal width n).length = width := by
  induction width generalizing n with
  | zero => rfl
  | succ width ih => simp [hexadecimal, ih]

/-- What is read back is the number, as far as the digits reach. -/
theorem hexValue_hexadecimal (width n : Nat) : hexValue (hexadecimal width n) = n % 16 ^ width := by
  induction width generalizing n with
  | zero => rw [Nat.pow_zero, Nat.mod_one]; rfl
  | succ width ih =>
    have hlow : n % 16 < 16 := Nat.mod_lt n (by decide)
    have hhigh := ih (n / 16)
    rw [hexValue] at hhigh ⊢
    rw [hexadecimal, List.foldl_append, hhigh, Nat.pow_succ', Nat.mod_mul]
    simp only [List.foldl_cons, List.foldl_nil, hexDigit_digitChar hlow]
    omega

theorem not_newline_of_mem_hexadecimal {width n : Nat} {c : Char}
    (h : c ∈ hexadecimal width n) : c ≠ '\n' := by
  induction width generalizing n with
  | zero => cases h
  | succ width ih =>
    have hall : ∀ d < 16, Nat.digitChar d ≠ '\n' := by decide
    rw [hexadecimal, List.mem_append, List.mem_singleton] at h
    obtain h | rfl := h
    · exact ih h
    · exact hall _ (Nat.mod_lt n (by decide))

/-! ### One character -/

/-- The character whose code point is written in so many digits, and what follows them. -/
def codePoint (width : Nat) (cs : List Char) : Char × List Char :=
  (Char.ofNat (hexValue (cs.take width)), cs.drop width)

/-- The character that is meant behind a backslash, and what follows it. -/
def escaped? : List Char → Option (Char × List Char)
  | [] => none
  | c :: cs =>
    if c = 't' then some ('\t', cs)
    else if c = 'n' then some ('\n', cs)
    else if c = 'r' then some ('\r', cs)
    else if c = 'x' then some (codePoint 2 cs)
    else if c = 'u' then some (codePoint 4 cs)
    else if c = 'U' then some (codePoint 8 cs)
    else some (c, cs)

/-- The first character that a quoted text stands for, and what follows it. -/
def first? : List Char → Option (Char × List Char)
  | [] => none
  | c :: cs => if c = '\\' then escaped? cs else some (c, cs)

/-- A character whose code point fits into the digits is read back from them. -/
theorem codePoint_hexadecimal (width : Nat) {c : Char} (h : c.toNat < 16 ^ width)
    (rest : List Char) : codePoint width (hexadecimal width c.toNat ++ rest) = (c, rest) := by
  have htake : (hexadecimal width c.toNat ++ rest).take width = hexadecimal width c.toNat :=
    List.take_left' (length_hexadecimal width c.toNat)
  have hdrop : (hexadecimal width c.toNat ++ rest).drop width = rest :=
    List.drop_left' (length_hexadecimal width c.toNat)
  rw [codePoint, htake, hdrop, hexValue_hexadecimal, Nat.mod_eq_of_lt h, Char.ofNat_toNat]

/-- The signs that a quote can be. -/
def IsQuote (quote : Char) : Prop := quote = '\'' ∨ quote = '"'

theorem isQuote_quoteFor (cs : List Char) : IsQuote (quoteFor cs) := by
  unfold quoteFor
  split
  · exact .inr rfl
  · exact .inl rfl

section

variable {quote : Char} (hquote : IsQuote quote)
include hquote

/-- An escaped character is read back. -/
theorem first?_escape (c : Char) (rest : List Char) :
    first? (escape quote c ++ rest) = some (c, rest) := by
  have hlast : c.toNat < 16 ^ 8 := Nat.lt_of_lt_of_le c.val.toNat_lt (by decide)
  unfold escape
  split
  · rename_i hc
    -- the quotes and the backslash start no escape of another kind
    have hmark : c = '\'' ∨ c = '"' ∨ c = '\\' := by
      obtain rfl | rfl := hc
      · exact hquote.imp_right .inl
      · exact .inr (.inr rfl)
    obtain rfl | rfl | rfl := hmark <;> rfl
  rename_i hplain
  split
  · rename_i hc; subst hc; rfl
  split
  · rename_i hc; subst hc; rfl
  split
  · rename_i hc; subst hc; rfl
  split
  · rw [List.singleton_append, first?, if_neg fun hc => hplain (.inr hc)]
  split
  · rename_i hshort
    exact congrArg some (codePoint_hexadecimal 2 hshort rest)
  split
  · rename_i hshort
    exact congrArg some (codePoint_hexadecimal 4 hshort rest)
  · exact congrArg some (codePoint_hexadecimal 8 hlast rest)

/-- An escaped character is determined by a text that begins with it, and so is the rest. -/
theorem escape_append_inj {c d : Char} {r s : List Char}
    (h : escape quote c ++ r = escape quote d ++ s) : c = d ∧ r = s := by
  have hread := congrArg first? h
  rw [first?_escape hquote, first?_escape hquote] at hread
  exact Prod.mk.inj (Option.some.inj hread)

/-- No escaped character looks like the quote that ends the text. -/
theorem escape_append_ne {c : Char} {r s : List Char} : escape quote c ++ r ≠ quote :: s := by
  have hback : quote ≠ '\\' := by
    rintro rfl
    obtain h | h := hquote <;> cases h
  intro h
  have hread := congrArg first? h
  rw [first?_escape hquote, first?, if_neg hback] at hread
  cases Option.some.inj hread
  simp [escape] at h

/-- What is escaped up to the quote at the end is read back, whatever stands behind the quote. -/
theorem flatMap_escape_append_inj {cs ds r s : List Char}
    (h : cs.flatMap (escape quote) ++ quote :: r = ds.flatMap (escape quote) ++ quote :: s) :
    cs = ds ∧ r = s := by
  induction cs generalizing ds with
  | nil =>
    cases ds with
    | nil => exact ⟨rfl, (List.cons.inj h).2⟩
    | cons d ds =>
      rw [List.flatMap_cons, List.append_assoc] at h
      -- one text ends where the other goes on with an escaped character, which is not the quote
      exact absurd h.symm (escape_append_ne hquote)
  | cons c cs ih =>
    cases ds with
    | nil =>
      rw [List.flatMap_cons, List.append_assoc] at h
      exact absurd h (escape_append_ne hquote)
    | cons d ds =>
      rw [List.flatMap_cons, List.flatMap_cons, List.append_assoc, List.append_assoc] at h
      obtain ⟨rfl, hrest⟩ := escape_append_inj hquote h
      obtain ⟨rfl, hend⟩ := ih hrest
      exact ⟨rfl, hend⟩

omit hquote in
/-- A line break is escaped, and no other escaped character has one in it. -/
theorem not_newline_of_mem_escape {c d : Char} (hend : quote ≠ '\n') (h : d ∈ escape quote c) :
    d ≠ '\n' := by
  rintro rfl
  have hhex : ∀ {width n}, '\n' ∉ hexadecimal width n :=
    fun hmem => not_newline_of_mem_hexadecimal hmem rfl
  -- the cases are those of the table of escapes, the code points last
  unfold escape at h
  split at h
  · rename_i hc
    rw [List.mem_cons, List.mem_singleton] at h
    obtain h | rfl := h
    · cases h
    · exact hc.elim (fun hc => hend hc.symm) nofun
  split at h
  · simp at h
  split at h
  · simp at h
  split at h
  · simp at h
  split at h
  · rename_i hc _ _
    exact hc (List.mem_singleton.mp h).symm
  split at h
  · simp [hhex] at h
  split at h
  · simp [hhex] at h
  · simp [hhex] at h

end

/-! ### Quoted texts -/

/-- A quoted text is its escaped characters between two quotes. -/
theorem toList_quoted (s : String) :
    (quoted s).toList
      = quoteFor s.toList :: (s.toList.flatMap (escape (quoteFor s.toList))
          ++ [quoteFor s.toList]) := by
  rw [quoted, String.toList_ofList]
  rfl

/-- Where two quoted texts start, they are equal, and so is what stands behind them. -/
theorem quoted_append_inj {s t : String} {u v : List Char}
    (h : (quoted s).toList ++ u = (quoted t).toList ++ v) : s = t ∧ u = v := by
  rw [toList_quoted, toList_quoted, List.cons_append, List.cons_append, List.append_assoc,
    List.append_assoc] at h
  obtain ⟨hquote, hbody⟩ := List.cons.inj h
  rw [← hquote] at hbody
  obtain ⟨htext, hrest⟩ := flatMap_escape_append_inj (isQuote_quoteFor s.toList) hbody
  exact ⟨String.toList_inj.mp htext, hrest⟩

/-- A quoted text stands on one line. -/
theorem no_newline_quoted (s : String) : '\n' ∉ (quoted s).toList := by
  have hquote : quoteFor s.toList ≠ '\n' := by
    obtain h | h := isQuote_quoteFor s.toList <;> rw [h] <;> decide
  rw [toList_quoted, List.mem_cons, List.mem_append, List.mem_singleton, List.mem_flatMap]
  rintro (h | ⟨c, -, hc⟩ | h)
  · exact hquote h.symm
  · exact not_newline_of_mem_escape hquote hc rfl
  · exact hquote h.symm

/-- A text with both quotes, a line feed and a character that does not print. -/
example : quoted "a'\"\n\x07é" = "'a\\'\"\\n\\x07é'" := by decide

end Pseudocode.Text
