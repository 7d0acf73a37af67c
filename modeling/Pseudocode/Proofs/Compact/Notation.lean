import Mathlib.Data.List.Forall2
import Pseudocode.Literal
import Pseudocode.Node.Build
import Pseudocode.Node.Compact
import Pseudocode.Operator
import Pseudocode.Text.Digit

/-!
Reading compact texts.

A compact text can be read from left to right. It starts with a word, a longest run of characters
that are no marks, and the mark behind the word says what comes next: a list in round brackets, the
two parts of a block, the value of an assignment, or the rest of a subroutine. What follows a tree
in a larger text is a comma or a closing bracket, and goes on with no word.

Which kind of node a word with a list in round brackets stands for is not told by the word, since a
program may call a subroutine `ADD`, `Arguments` or `While`. It is told by what stands in the
brackets: the list of a call is a list link, and no other node has a list link alone in its
brackets. So the reader decides from the inside outwards (`ofRound`).

Design. `treeWithin` reads a tree that is nested less deeply than a number, and `Reads t n` says
that it reads the text `t` as the tree `n`, whatever closes the text, once that number is as large
as the length of `t`. There is one rule for each form of text.

Main result: a text is read as one tree at most (`Reads.unique`).
-/

namespace Pseudocode.Compact

open Node

/-! ### Words and marks -/

/-- The characters between the words of a compact text. -/
def marks : List Char := ['(', ')', '[', ']', '\x7b', '\x7d', ':', ',', ' ']

def isMark (c : Char) : Bool := marks.contains c

/-- A text that can stand as a word. -/
def Unmarked (w : String) : Prop := w ≠ "" ∧ w.toList.all (fun c => !isMark c) = true

instance (w : String) : Decidable (Unmarked w) := inferInstanceAs (Decidable (_ ∧ _))

/-- What can stand behind a tree: nothing, a comma or a closing bracket. -/
def Closed (rest : List Char) : Prop := ∀ c ∈ rest.head?, c ∈ [',', ')', ']', '\x7d']

/-- The word at the start of a text. -/
def word (cs : List Char) : String := String.ofList (cs.takeWhile fun c => !isMark c)

/-- The text behind that word. -/
def afterWord (cs : List Char) : List Char := cs.dropWhile fun c => !isMark c

/-- The word at the start of a text, if it has any characters. -/
def word? (cs : List Char) : Option (String × List Char) :=
  if word cs = "" then none else some (word cs, afterWord cs)

/-- The text behind some signs, if it starts with them. -/
def past : List Char → List Char → Option (List Char)
  | [], cs => some cs
  | sign :: signs, c :: cs => if sign = c then past signs cs else none
  | _ :: _, [] => none

/-! ### What a word stands for -/

/-- The node of a word that stands alone. -/
def ofWord (w : String) : Node :=
  if w = Literal.trueText ∨ w = Literal.falseText then .boolean w
  else if w.toList.head?.any Text.isDigit then .number w
  else .reference w

/-- The node of a word with a list of nodes in round brackets. -/
def ofRound (w : String) : List Node → Node
  | [] => .call w []
  | [n] =>
    if n.kind = .arguments then ofParts .call [("name", .text w)] [(.argument, some n)]
    else if w = Kind.arguments.name then ofParts .arguments [] [(.left, some n), (.right, none)]
    else if w = Kind.output.name then .output n
    else .unary w n
  | [l, r] =>
    if w = Kind.arguments.name then ofParts .arguments [] [(.left, some l), (.right, some r)]
    else if w = whileStyle ∨ w = repeatStyle then .loop w l r
    else if w = ifThen then .conditional l r none
    else if (Relation.ofName? w).isSome then .relation w l r
    else .binary w l r
  | condition :: l :: r :: _ => .conditional condition l (some r)

/-! ### Reading -/

/-- Items with commas between them, up to a closing bracket. -/
def items {α : Type} (close : Char) (item : List Char → Option (α × List Char)) :
    Nat → List Char → Option (List α × List Char)
  | 0, _ => none
  | rounds + 1, cs =>
    match item cs with
    | none => (past [close] cs).map fun cs => ([], cs)
    | some (a, cs) =>
      match past [',', ' '] cs with
      | none => (past [close] cs).map fun cs => ([a], cs)
      | some cs => (items close item rounds cs).map fun (as, cs) => (a :: as, cs)

/-- The body of a subroutine, if it has one. -/
def body (tree : List Char → Option (Node × List Char)) (cs : List Char) :
    Option Node × List Char :=
  match tree cs with
  | some (n, cs) => (some n, cs)
  | none => (none, cs)

/-- What a subroutine returns, if it returns something. -/
def returned (tree : List Char → Option (Node × List Char)) (cs : List Char) :
    Option (Option Node × List Char) :=
  match past [' ', '-', '>', ' '] cs with
  | some cs => (tree cs).map fun (n, cs) => (some n, cs)
  | none => some (none, cs)

/-- A subroutine from its name on. -/
def definition (tree : List Char → Option (Node × List Char)) (rounds : Nat) (cs : List Char) :
    Option (Node × List Char) := do
  let (title, cs) ← word? cs
  let cs ← past ['('] cs
  let (params, cs) ← items ')' word? rounds cs
  let cs ← past ['\x7b'] cs
  let (left, cs) := body tree cs
  let cs ← past ['\x7d'] cs
  let (ret, cs) ← returned tree cs
  return (.subroutine title params left ret, cs)

/-- What the sign behind a word asks for; `tree` reads the parts. -/
def treeAfter (tree : List Char → Option (Node × List Char)) (rounds : Nat) (w : String) :
    List Char → Option (Node × List Char)
  | '(' :: cs => (items ')' tree rounds cs).map fun (ns, cs) => (ofRound w ns, cs)
  | '[' :: cs =>
    match items ']' tree rounds cs with
    | some ([l, r], cs) => some (.sequence l r, cs)
    | _ => none
  | ':' :: cs => do
    let cs ← past [' '] cs
    let (n, cs) ← tree cs
    return (.assignment w false n, cs)
  | '\x7b' :: cs => do
    let (n, cs) ← tree cs
    let cs ← past ['\x7d'] cs
    return (.assignment w true n, cs)
  | ' ' :: cs => definition tree rounds cs
  | cs => if w = "" then none else some (ofWord w, cs)

/-- A tree whose parts are nested less deeply than `depth`, and the text behind it. -/
def treeWithin : Nat → List Char → Option (Node × List Char)
  | 0, _ => none
  | depth + 1, cs => treeAfter (treeWithin depth) depth (word cs) (afterWord cs)

/-- The text of what a subroutine returns. -/
def returnText : Option String → String
  | some t => " -> " ++ t
  | none => ""

/-- The text is read as the tree, whatever closes it. -/
def Reads (t : String) (n : Node) : Prop :=
  ∀ ⦃depth rest⦄, t.length ≤ depth → Closed rest →
    treeWithin depth (t.toList ++ rest) = some (n, rest)

/-! ### Words at the start of a text -/

section

variable {w : String} {cs : List Char}

/-- A class of characters that has no mark in it. -/
theorem isMark_eq_false {p : Char → Bool} (hmarks : marks.any p = false) {c : Char}
    (hc : p c = true) : isMark c = false := by
  rw [← Bool.not_eq_true, isMark, List.contains_iff_mem]
  intro hmem
  exact List.any_eq_false.mp hmarks c hmem hc

theorem unmarked_iff {w : String} : Unmarked w ↔ w ≠ "" ∧ ∀ c ∈ w.toList, isMark c = false := by
  simp [Unmarked]

theorem closed_nil : Closed [] := nofun

/-- What closes a text is a mark. -/
theorem isMark_of_closed (h : Closed cs) : ∀ c ∈ cs.head?, isMark c = true := by
  intro c hc
  have hmem := h c hc
  simp only [List.mem_cons, List.not_mem_nil, or_false] at hmem
  obtain rfl | rfl | rfl | rfl := hmem <;> rfl

theorem Unmarked.length_pos (hw : Unmarked w) : 0 < w.length := by
  rw [Nat.pos_iff_ne_zero, ne_eq, String.length_eq_zero_iff]
  exact hw.1

variable (hw : w.toList.all (fun c => !isMark c) = true) (hcs : ∀ c ∈ cs.head?, isMark c = true)
include hw hcs

/-- A word ends where a mark follows. -/
theorem takeWhile_word : (w.toList ++ cs).takeWhile (fun c => !isMark c) = w.toList := by
  rw [List.takeWhile_append_of_pos (List.all_eq_true.mp hw)]
  rcases cs with - | ⟨c, cs⟩
  · rw [List.takeWhile_nil, List.append_nil]
  · rw [List.takeWhile_cons_of_neg (by simp [hcs c rfl]), List.append_nil]

theorem word_append : word (w.toList ++ cs) = w := by
  rw [word, takeWhile_word hw hcs, String.ofList_toList]

/-- Behind a word comes what stands there. -/
theorem afterWord_append : afterWord (w.toList ++ cs) = cs := by
  have hsplit : (w.toList ++ cs).takeWhile (fun c => !isMark c) ++ afterWord (w.toList ++ cs)
      = w.toList ++ cs := List.takeWhile_append_dropWhile
  rw [takeWhile_word hw hcs] at hsplit
  exact List.append_cancel_left hsplit

theorem word?_append (hne : w ≠ "") : word? (w.toList ++ cs) = some (w, cs) := by
  rw [word?, word_append hw hcs, afterWord_append hw hcs, if_neg hne]

/-- The word in front decides how the tree goes on. -/
theorem treeWithin_append (depth : Nat) :
    treeWithin (depth + 1) (w.toList ++ cs) = treeAfter (treeWithin depth) depth w cs := by
  rw [treeWithin, word_append hw hcs, afterWord_append hw hcs]

end

theorem past_append (signs cs : List Char) : past signs (signs ++ cs) = some cs := by
  induction signs with
  | nil => rfl
  | cons sign signs ih => rw [List.cons_append, past, if_pos rfl, ih]

theorem past_cons_of_ne {sign c : Char} (h : sign ≠ c) (signs cs : List Char) :
    past (sign :: signs) (c :: cs) = none := by
  rw [past, if_neg h]

/-! ### Lists -/

theorem toList_comma : ", ".toList = [',', ' '] := rfl

/-- A list is no longer than the texts of its items with commas between them. -/
theorem length_le_intercalate (ts : List String) :
    ts.length ≤ (", ".intercalate ts).length + 1
      ∧ ∀ t ∈ ts, t.length ≤ (", ".intercalate ts).length := by
  simp only [← String.length_toList, String.toList_intercalate, toList_comma]
  induction ts with
  | nil => exact ⟨Nat.zero_le _, nofun⟩
  | cons t ts ih =>
    rcases ts with - | ⟨u, ts⟩
    · simp
    · simp only [List.map_cons, List.intercalate_cons_cons, List.length_append,
        List.forall_mem_cons, List.length_cons] at ih ⊢
      -- a further item brings a comma, so it adds to the length even if its own text is empty
      obtain ⟨hlength, hu, hts⟩ := ih
      refine ⟨by simp; omega, by omega, by omega, ?_⟩
      intro s hs
      have hle := hts s hs
      omega

/-- Items are read up to the closing bracket, if each of them is read where it is closed. -/
theorem items_read {α : Type} {close : Char} {item : List Char → Option (α × List Char)}
    {ts : List String} {as : List α} (hclose : close = ')' ∨ close = ']')
    (hitems : List.Forall₂
      (fun t a => ∀ rest, Closed rest → item (t.toList ++ rest) = some (a, rest)) ts as)
    {rest : List Char} (hnone : item (close :: rest) = none) {rounds : Nat}
    (hrounds : ts.length ≤ rounds) (hpos : 0 < rounds) :
    items close item rounds ((", ".intercalate ts).toList ++ close :: rest) = some (as, rest) := by
  have hclosed : Closed (close :: rest) := by
    obtain rfl | rfl := hclose <;> simp [Closed]
  have hcomma : past [',', ' '] (close :: rest) = none := by
    obtain rfl | rfl := hclose <;> exact past_cons_of_ne (by decide) _ _
  have hpast : past [close] (close :: rest) = some rest := past_append [close] rest
  rw [String.toList_intercalate, toList_comma]
  induction hitems generalizing rounds with
  | nil =>
    obtain ⟨rounds, rfl⟩ := Nat.exists_eq_add_one_of_ne_zero (Nat.ne_zero_of_lt hpos)
    simp [items, hnone, hpast]
  | @cons t a ts as hitem hmore ih =>
    obtain ⟨rounds, rfl⟩ := Nat.exists_eq_add_one_of_ne_zero (Nat.ne_zero_of_lt hpos)
    cases hmore with
    | nil =>
      -- no comma follows the last item
      rw [List.map_cons, List.map_nil, List.intercalate_singleton, items, hitem _ hclosed]
      simp [hcomma, hpast]
    | @cons u b ts as hitem' hmore =>
      -- the comma closes this item, and the others are read in the rounds that are left
      rw [List.length_cons, List.length_cons] at hrounds
      have hmore := ih (by rw [List.length_cons]; omega) (by omega : 0 < rounds)
      rw [List.map_cons] at hmore
      have hnext : ∀ cs, Closed ([',', ' '] ++ cs) := by simp [Closed]
      rw [List.map_cons, List.map_cons, List.intercalate_cons_cons, List.append_assoc,
        List.append_assoc, items, hitem _ (hnext _)]
      simp only [past_append, hmore, Option.map_some]

/-! ### Trees -/

/-- No tree starts with a closing bracket. -/
theorem treeWithin_mark {c : Char} (hc : c = ')' ∨ c = ']' ∨ c = '\x7d') (depth : Nat)
    (rest : List Char) : treeWithin depth (c :: rest) = none := by
  cases depth with
  | zero => rfl
  | succ depth => obtain rfl | rfl | rfl := hc <;> rfl

namespace Reads

variable {w t : String} {n m : Node}

/-- A text is read as one tree at most. -/
theorem unique (hn : Reads t n) (hm : Reads t m) : n = m := by
  have hread := hn (Nat.le_refl _) closed_nil
  rw [hm (Nat.le_refl _) closed_nil] at hread
  cases hread
  rfl

/-- Trees in a list are read one by one. -/
theorem forall_read {ts : List String} {ns : List Node} (h : List.Forall₂ Reads ts ns)
    {depth : Nat} (hdepth : ∀ t ∈ ts, t.length ≤ depth) :
    List.Forall₂ (fun t n => ∀ rest, Closed rest →
      treeWithin depth (t.toList ++ rest) = some (n, rest)) ts ns := by
  induction h with
  | nil => exact .nil
  | cons hfirst _ ih =>
    obtain ⟨hlength, hdepth⟩ := List.forall_mem_cons.mp hdepth
    exact .cons (fun rest hrest => hfirst hlength hrest) (ih hdepth)

/-- A list of trees is read up to its closing bracket. -/
theorem items {close : Char} (hclose : close = ')' ∨ close = ']') {ts : List String}
    {ns : List Node} (h : List.Forall₂ Reads ts ns) {depth : Nat}
    (hdepth : (", ".intercalate ts).length + 1 ≤ depth) (rest : List Char) :
    items close (treeWithin depth) depth ((", ".intercalate ts).toList ++ close :: rest)
      = some (ns, rest) := by
  -- the text of the list bounds its items, in number and in length
  obtain ⟨hcount, hlengths⟩ := length_le_intercalate ts
  apply items_read hclose
  · apply forall_read h
    intro t ht
    have hlength := hlengths t ht
    omega
  · apply treeWithin_mark
    tauto
  · omega
  · omega

/-- A text is read if what stands behind its first word is. -/
theorem of_treeAfter (hw : w.toList.all (fun c => !isMark c) = true) (hpos : 0 < t.length)
    (h : ∀ depth rest, t.length ≤ depth + 1 → Closed rest → ∃ cs,
      t.toList ++ rest = w.toList ++ cs ∧ (∀ c ∈ cs.head?, isMark c = true)
        ∧ treeAfter (treeWithin depth) depth w cs = some (n, rest)) : Reads t n := by
  intro depth rest hdepth hrest
  obtain ⟨depth, rfl⟩ := Nat.exists_eq_add_one_of_ne_zero (by omega : depth ≠ 0)
  obtain ⟨cs, htext, hcs, hread⟩ := h depth rest hdepth hrest
  rw [htext, treeWithin_append hw hcs, hread]

/-- The same where a sign stands behind the first word. -/
theorem of_sign (c : Char) (hc : isMark c = true)
    (hw : w.toList.all (fun c => !isMark c) = true) (hpos : 0 < t.length)
    (h : ∀ depth rest, t.length ≤ depth + 1 → Closed rest → ∃ cs,
      t.toList ++ rest = w.toList ++ c :: cs
        ∧ treeAfter (treeWithin depth) depth w (c :: cs) = some (n, rest)) : Reads t n := by
  apply of_treeAfter hw hpos
  intro depth rest hdepth hrest
  obtain ⟨cs, htext, hread⟩ := h depth rest hdepth hrest
  refine ⟨c :: cs, htext, ?_, hread⟩
  rintro _ ⟨⟩
  exact hc

/-- A word is read back as a leaf. -/
theorem word (hw : Unmarked w) : Reads w (ofWord w) := by
  apply of_treeAfter hw.2 hw.length_pos
  intro depth rest _ hrest
  refine ⟨rest, rfl, isMark_of_closed hrest, ?_⟩
  rcases rest with - | ⟨c, rest⟩
  · simp [treeAfter, hw.1]
  · have hmem := hrest c rfl
    simp only [List.mem_cons, List.not_mem_nil, or_false] at hmem
    obtain rfl | rfl | rfl | rfl := hmem <;> simp [treeAfter, hw.1]

/-- A word with items in round brackets is read back. -/
theorem round (hw : Unmarked w) {ts : List String} {ns : List Node}
    (h : List.Forall₂ Reads ts ns) :
    Reads (applied w (", ".intercalate ts)) (ofRound w ns) := by
  have hpos := hw.length_pos
  have hlength : (applied w (", ".intercalate ts)).length
      = w.length + 1 + (", ".intercalate ts).length + 1 := by
    simp only [applied, String.length_append]
    rfl
  apply of_sign '(' rfl hw.2 (by omega)
  intro depth rest hdepth _
  have hlist := Reads.items (.inl rfl) h (by omega : _ ≤ depth) rest
  refine ⟨(", ".intercalate ts).toList ++ ')' :: rest, by simp [applied], ?_⟩
  simp only [treeAfter, hlist, Option.map_some]

/-- A word and a value behind a colon are read back as an assignment. -/
theorem assigned (hw : Unmarked w) (h : Reads t n) :
    Reads (w ++ ": " ++ t) (.assignment w false n) := by
  have hlength : (w ++ ": " ++ t).length = w.length + 2 + t.length := by
    simp only [String.length_append]
    rfl
  apply of_sign ':' rfl hw.2 (by omega)
  intro depth rest hdepth hrest
  refine ⟨' ' :: (t.toList ++ rest), by simp, ?_⟩
  simp [treeAfter, past, h (by omega : _ ≤ depth) hrest]

/-- A word and a value in braces are read back as the assignment of a constant. -/
theorem braced (hw : Unmarked w) (h : Reads t n) :
    Reads (w ++ inBraces t) (.assignment w true n) := by
  have hlength : (w ++ inBraces t).length = w.length + (1 + t.length + 1) := by
    simp only [inBraces, String.length_append]
    rfl
  apply of_sign '\x7b' rfl hw.2 (by omega)
  intro depth rest hdepth _
  have hclosed : Closed ('\x7d' :: rest) := by simp [Closed]
  refine ⟨t.toList ++ '\x7d' :: rest, by simp [inBraces], ?_⟩
  simp [treeAfter, past, h (by omega : _ ≤ depth) hclosed]

/-- Two statements in square brackets are read back as a sequence. -/
theorem pair {l r : String} (hl : Reads l n) (hr : Reads r m) :
    Reads ("[" ++ (l ++ ", " ++ r) ++ "]") (.sequence n m) := by
  have hlist : l ++ ", " ++ r = ", ".intercalate [l, r] := rfl
  rw [hlist]
  have hlength : ("[" ++ ", ".intercalate [l, r] ++ "]").length
      = 1 + (", ".intercalate [l, r]).length + 1 := by
    simp only [String.length_append]
    rfl
  -- no word stands before a square bracket
  apply of_sign '[' (w := "") rfl rfl (by omega)
  intro depth rest hdepth _
  have hboth : List.Forall₂ Reads [l, r] [n, m] := .cons hl (.cons hr .nil)
  have hlist := Reads.items (.inr rfl) hboth (by omega : _ ≤ depth) rest
  refine ⟨(", ".intercalate [l, r]).toList ++ ']' :: rest, ?_, ?_⟩
  · simp only [String.toList_append]
    simp
  · simp only [treeAfter, hlist]

/-- A body is read up to its closing bracket, and so is a body that is not there. -/
theorem body {left : Option String} {n? : Option Node} (h : Option.Rel Reads left n?) {depth : Nat}
    (hdepth : (left.getD "").length ≤ depth) (rest : List Char) :
    Compact.body (treeWithin depth) ((left.getD "").toList ++ '\x7d' :: rest)
      = (n?, '\x7d' :: rest) := by
  cases h with
  | none =>
    have hnone := treeWithin_mark (.inr (.inr rfl)) depth rest
    simp [Compact.body, hnone]
  | some h =>
    have hclosed : Closed ('\x7d' :: rest) := by simp [Closed]
    have hread := h hdepth hclosed
    simp [Compact.body, hread]

/-- What is returned is read, and so is the lack of it. -/
theorem returned {ret : Option String} {n? : Option Node} (h : Option.Rel Reads ret n?)
    {depth : Nat} (hdepth : (returnText ret).length ≤ depth) {rest : List Char}
    (hrest : Closed rest) :
    Compact.returned (treeWithin depth) ((returnText ret).toList ++ rest) = some (n?, rest) := by
  cases h with
  | none =>
    -- what closes the text is no blank, so no arrow stands there
    have hnone : past [' ', '-', '>', ' '] rest = none := by
      rcases rest with - | ⟨c, rest⟩
      · rfl
      · apply past_cons_of_ne
        rintro rfl
        have hmem := hrest ' ' rfl
        simp at hmem
    simp [Compact.returned, returnText, hnone]
  | @some t n h =>
    have hlength : (returnText (some t)).length = 4 + t.length := by
      simp only [returnText, String.length_append]
      rfl
    have hread := h (by omega : _ ≤ depth) hrest
    simp [Compact.returned, returnText, past, hread]

/-- The names in a list are read one by one. -/
theorem names {params : List String} (hparams : ∀ p ∈ params, Unmarked p) {rounds : Nat}
    (hrounds : params.length ≤ rounds) (hpos : 0 < rounds) (rest : List Char) :
    Compact.items ')' word? rounds ((", ".intercalate params).toList ++ ')' :: rest)
      = some (params, rest) := by
  refine items_read (.inl rfl) ?_ rfl hrounds hpos
  rw [List.forall₂_same]
  intro p hp cs hcs
  exact word?_append (hparams p hp).2 (isMark_of_closed hcs) (hparams p hp).1

/-- A definition is read back, with or without a body and something that it returns. -/
theorem definition (hw : Unmarked w) {params : List String} (hparams : ∀ p ∈ params, Unmarked p)
    {left ret : Option String} {n? m? : Option Node} (hleft : Option.Rel Reads left n?)
    (hret : Option.Rel Reads ret m?) :
    Reads ("SUBROUTINE " ++ applied w (", ".intercalate params) ++ inBraces (left.getD "")
      ++ returnText ret) (.subroutine w params n? m?) := by
  have hsplit : "SUBROUTINE " = "SUBROUTINE" ++ " " := rfl
  -- the length of the whole bounds every part, so the depth is enough for each of them
  have hlength : ("SUBROUTINE " ++ applied w (", ".intercalate params) ++ inBraces (left.getD "")
      ++ returnText ret).length = 10 + 1 + (w.length + 1 + (", ".intercalate params).length + 1)
        + (1 + (left.getD "").length + 1) + (returnText ret).length := by
    simp only [hsplit, applied, inBraces, String.length_append]
    rfl
  apply of_sign ' ' (w := "SUBROUTINE") rfl (by decide) (by omega)
  intro depth rest hdepth hrest
  refine ⟨w.toList ++ '(' :: ((", ".intercalate params).toList ++ ')' ::
    '\x7b' :: ((left.getD "").toList ++ '\x7d' :: ((returnText ret).toList ++ rest))), ?_, ?_⟩
  · rw [hsplit]
    simp [applied, inBraces]
  · have hcount := (length_le_intercalate params).1
    -- the parts are read from left to right
    have htitle : ∀ cs : List Char, word? (w.toList ++ '(' :: cs) = some (w, '(' :: cs) := by
      intro cs
      apply word?_append hw.2 _ hw.1
      rintro c ⟨⟩
      rfl
    have hnames := names hparams (by omega : _ ≤ depth) (by omega) ('\x7b' ::
      ((left.getD "").toList ++ '\x7d' :: ((returnText ret).toList ++ rest)))
    have hbody := body hleft (by omega : _ ≤ depth) ((returnText ret).toList ++ rest)
    have hreturned := returned hret (by omega : _ ≤ depth) hrest
    simp only [treeAfter, Compact.definition, htitle, past, hnames, hbody, hreturned,
      Option.bind_eq_bind, Option.bind_some, if_true, pure]

end Reads

end Pseudocode.Compact
