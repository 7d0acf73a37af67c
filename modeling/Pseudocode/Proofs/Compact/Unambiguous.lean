import Pseudocode.Proofs.Compact.Forms
import Pseudocode.Proofs.Compact.Words

/-!
The compact text of a tree determines the tree, but for its brackets.

A program may call a subroutine by any identifier, also by the name of an operation or of a kind of
node. Still no expression is written like a list of arguments: it could only be the call of a
subroutine `Arguments`, and what stands in its brackets would have to be an expression where it is a
list, or a list where it is an expression. The reader of compact texts makes this argument, since it
knows the kinds of the parts before that of the whole; what is left here is that every tree that was
read from a text is readable again (`ReadAs.readable`).

Main result: `compact_unambiguous`.
-/

namespace Pseudocode

/-! ### Names and numbers -/

theorem isMark_of_isWord {c : Char} (h : Text.isWord c = true) : Compact.isMark c = false :=
  Compact.isMark_eq_false (by decide) h

/-- Names have no marks in them. -/
theorem IsIdentifier.unmarked {x : String} (h : IsIdentifier x) : Compact.Unmarked x := by
  obtain ⟨c, cs, hx, hc, hcs⟩ := h
  refine Compact.unmarked_iff.mpr ⟨?_, ?_⟩
  · rintro rfl
    cases hx
  · rw [hx, List.forall_mem_cons]
    exact ⟨isMark_of_isWord (isWord_of_isAsciiLetter hc), fun d hd => isMark_of_isWord (hcs d hd)⟩

theorem IsIdentifier.no_digit {x : String} (h : IsIdentifier x) :
    x.toList.head?.any Text.isDigit = false := by
  obtain ⟨c, cs, hx, hc, -⟩ := h
  rw [hx, List.head?_cons, Option.any_some]
  simpa using not_isDigit_of_isAsciiLetter hc

/-- Numbers have no marks in them. -/
theorem IsNumeral.unmarked {s : String} (h : IsNumeral s) : Compact.Unmarked s := by
  have hdigit : ∀ {c}, Text.isDigit c = true → Compact.isMark c = false :=
    Compact.isMark_eq_false (by decide)
  refine Compact.unmarked_iff.mpr ⟨?_, ?_⟩
  · rintro rfl
    obtain ⟨c, cs, hs, -⟩ := h.first
    cases hs
  · obtain ⟨whole, -, hwhole, hs | ⟨fraction, -, hfraction, hs⟩⟩ := h
    · rw [hs]
      exact fun c hc => hdigit (hwhole c hc)
    · rw [hs, List.forall_mem_append, List.forall_mem_cons]
      exact ⟨fun c hc => hdigit (hwhole c hc), rfl, fun c hc => hdigit (hfraction c hc)⟩

theorem IsNumeral.digit {s : String} (h : IsNumeral s) :
    s.toList.head?.any Text.isDigit = true := by
  obtain ⟨c, cs, hs, hc⟩ := h.first
  rw [hs, List.head?_cons, Option.any_some, hc]

/-! ### Programs -/

/-- No expression is a list of arguments. -/
theorem Expr.kind_bare_toNode : (e : Expr) → e.toNode.bare.kind ≠ .arguments
  | .bracket e => e.kind_bare_toNode
  | .call name args => by
    rw [toNode, Node.bare_call]
    nofun
  | .number _ | .boolean _ | .reference _ | .unary _ _ | .binary _ _ _ | .relation _ _ _ => nofun

theorem Expr.forall_toNodes {P : Node → Prop} {es : List Expr} (h : ∀ e ∈ es, P e.toNode) :
    ∀ n ∈ toNodes es, P n := by
  induction es with
  | nil =>
    intro n hn
    cases hn
  | cons e es ih =>
    obtain ⟨he, hes⟩ := List.forall_mem_cons.mp h
    exact List.forall_mem_cons.mpr ⟨he, ih hes⟩

/-- The compact text of a legible expression can be read back. -/
theorem Expr.Legible.readable {e : Expr} (h : e.Legible) : e.toNode.Readable := by
  induction h with
  | number hs => exact .number hs.unmarked hs.digit
  | boolean b => exact .boolean b
  | reference hx hreserved => exact .reference hx.unmarked hx.no_digit hreserved
  | call hname _ ih =>
    exact .call hname.unmarked (forall_toNodes fun a ha => ⟨ih a ha, a.kind_bare_toNode⟩)
  | bracket _ ih => exact ih.bracket
  | unary op _ ih => exact ih.unary op (kind_bare_toNode _)
  | binary op _ _ ihl ihr => exact ihl.binary op ihr
  | relation rel _ _ ihl ihr => exact ihl.relation rel ihr

theorem Expr.readable_return {ret : Option Expr} (h : ∀ e ∈ ret, e.Legible) :
    ∀ n ∈ ret.map toNode, n.Readable := by
  intro n hn
  obtain ⟨e, he, rfl⟩ := Option.map_eq_some_iff.mp hn
  exact (h e he).readable

mutual

/-- The compact text of a legible statement can be read back; with `Block.readable` by recursion on
the statement. -/
theorem Stmt.readable : (s : Stmt) → s.Legible → s.toNode.Readable
  | .assign _ constant _, ⟨hname, hvalue⟩ => .assignment hname.unmarked constant hvalue.readable
  | .subroutine _ _ none _, ⟨hname, hparams, hret⟩ =>
    .subroutine hname.unmarked (fun p hp => (hparams p hp).unmarked) nofun
      (Expr.readable_return hret)
  | .subroutine _ _ (some body) _, ⟨hname, hparams, hbody, hret⟩ => by
    refine .subroutine hname.unmarked (fun p hp => (hparams p hp).unmarked) ?_
      (Expr.readable_return hret)
    rintro _ ⟨⟩
    exact body.readable hbody
  | .conditional _ thenBranch none, ⟨hcondition, hthen⟩ =>
    .conditional hcondition.readable (thenBranch.readable hthen) nofun
  | .conditional _ thenBranch (some elseBranch), ⟨hcondition, hthen, helse⟩ => by
    refine .conditional hcondition.readable (thenBranch.readable hthen) ?_
    rintro _ ⟨⟩
    exact elseBranch.readable helse
  | .whileLoop _ body, ⟨hcondition, hbody⟩ =>
    .loop (.inl rfl) hcondition.readable (body.readable hbody)
  | .repeatLoop body _, ⟨hbody, hcondition⟩ =>
    .loop (.inr rfl) hcondition.readable (body.readable hbody)
  | .output value, hvalue => hvalue.readable.output value.kind_bare_toNode
  | .call _ _, ⟨hname, hargs⟩ =>
    .call hname.unmarked
      (Expr.forall_toNodes fun a ha => ⟨(hargs a ha).readable, a.kind_bare_toNode⟩)

theorem Block.readable : (b : Block) → b.Legible → b.toNode.Readable
  | .one statement, hstatement => statement.readable hstatement
  | .cons statement rest, ⟨hstatement, hrest⟩ =>
    .sequence (statement.readable hstatement) (rest.readable hrest)

end

/-- The block that statements make is readable if they are. -/
theorem Node.Readable.block? {ns : List Node} (h : ∀ n ∈ ns, n.Readable) :
    ∀ root, Node.block? ns = some root → root.Readable := by
  induction ns with
  | nil => exact nofun
  | cons n ns ih =>
    obtain ⟨hn, hns⟩ := List.forall_mem_cons.mp h
    intro root hroot
    rw [Node.block?] at hroot
    rcases hrest : Node.block? ns with - | rest <;> rw [hrest] at hroot <;> cases hroot
    · exact hn
    · exact hn.sequence (ih hns rest hrest)

/-- The compact text of a tree that is read from a text is read as its bare form. -/
theorem ReadAs.readable {text : List Char} {n : Node} (h : ReadAs text n) : n.Readable := by
  cases h with
  | program hparse hroot =>
    refine Node.Readable.block? (fun m hm => ?_) n hroot
    obtain ⟨s, hs, rfl⟩ := List.mem_map.mp hm
    exact s.readable (legible_of_parseProgram hparse s hs)
  | expression hparse => exact (legible_of_parseExpression hparse).readable

/-! ### Brackets -/

namespace Node

theorem compact_eq (n : Node) : n.compact = n.compactWith (compactChildren n.children) := by
  obtain ⟨kind, properties, children⟩ := n
  rfl

/-- The text of a child is found in its slot. -/
theorem lookup_compactChildren (children : List (Slot × Node)) (slot : Slot) :
    (compactChildren children).lookup slot = (children.lookup slot).map compact := by
  induction children with
  | nil => rfl
  | cons entry rest ih =>
    obtain ⟨slot', child⟩ := entry
    rw [compactChildren, List.lookup_cons, List.lookup_cons]
    rcases slot == slot' with - | -
    · exact ih
    · rfl

/-- What the compact text of a node depends on. -/
theorem compactWith_congr {n m : Node} {parts parts' : List (Slot × String)}
    (hkind : m.kind = n.kind) (hproperty : ∀ key, m.property? key = n.property? key)
    (hparams : n.kind = .subroutine →
      parameterNames? (m.child? .params) = parameterNames? (n.child? .params))
    (hparts : ∀ slot, parts'.lookup slot = parts.lookup slot) :
    m.compactWith parts' = n.compactWith parts := by
  have htext : ∀ kind, childrenText kind parts' = childrenText kind parts := by
    intro kind
    simp only [childrenText, childrenText.sidesText, hparts]
  rw [compactWith, compactWith, hkind]
  simp only [label?, isSet, hproperty, htext, hparts]
  -- only a definition looks at something else than a label and its parts
  rcases hk : n.kind
  case subroutine => simp only [hparams hk]
  all_goals rfl

/-- A bracket shows what is inside. -/
theorem compact_of_bracket {n m : Node} (hk : n.kind = .bracket)
    (hm : n.child? .argument = some m) : n.compact = m.compact := by
  have hargument : (compactChildren n.children).lookup .argument = some m.compact := by
    have hm' : n.children.lookup .argument = some m := hm
    rw [lookup_compactChildren, hm', Option.map_some]
  rw [compact_eq, compactWith, hk]
  simp only [childrenText, hargument]
  rfl

/-- The brackets of a tree do not show in its compact text. -/
theorem Regular.compact_bare {n : Node} (h : n.Regular) : n.bare.compact = n.compact := by
  induction n using child_induction with
  | step n ih =>
    -- a bracket shows its inside; any other node is put together from the same texts
    by_cases hk : n.kind = .bracket
    · obtain ⟨m, hm⟩ := h.exists_argument hk
      rw [bare_of_bracket hk hm, compact_of_bracket hk hm]
      exact ih .argument m hm (hereditary_regular h hm)
    · rw [compact_eq, compact_eq]
      apply compactWith_congr (kind_bare hk) (property?_bare hk) (parameterNames?_bare h)
      intro slot
      have hchild : n.bare.children.lookup slot = (n.children.lookup slot).map bare :=
        child?_bare hk slot
      rw [lookup_compactChildren, lookup_compactChildren, hchild]
      rcases hc : n.children.lookup slot with - | c
      · rfl
      · have hbare := ih slot c hc (hereditary_regular h hc)
        rw [Option.map_some, Option.map_some, Option.map_some, hbare]

end Node

/-! ### Texts and trees -/

/-- **The compact text determines the tree, but for its brackets.** Two trees that are read from
texts have the same compact text exactly if they are equal once every bracket is replaced by what it
encloses, and the compact text of a tree is that of its bare form. -/
theorem compact_unambiguous {text text' : List Char} {n m : Node} (hn : ReadAs text n)
    (hm : ReadAs text' m) :
    (n.compact = m.compact ↔ n.bare = m.bare) ∧ n.bare.compact = n.compact := by
  have hbare : ∀ {text n}, ReadAs text n → n.bare.compact = n.compact :=
    fun h => Node.Regular.compact_bare ⟨.code, conforms_of_readAs h⟩
  refine ⟨⟨fun h => ?_, fun h => ?_⟩, hbare hn⟩
  · have hreads := hn.readable
    rw [Node.Readable, h] at hreads
    exact hreads.unique hm.readable
  · calc n.compact = n.bare.compact := (hbare hn).symm
      _ = m.bare.compact := by rw [h]
      _ = m.compact := hbare hm

/-- Subroutines may have the names of operations and of lists, and brackets may stand anywhere. -/
theorem compact_unambiguous_calls :
    ∃ n m, ReadAs "Arguments((ADD(1)) + 2)".toList n ∧ ReadAs "Arguments(ADD((1)) + 2)".toList m
      ∧ n.compact = "Arguments(Arguments(ADD(ADD(Arguments(1)), 2)))" ∧ n ≠ m
      ∧ n.bare = m.bare := by
  have hn : ReadAs "Arguments((ADD(1)) + 2)".toList
      (.call "Arguments" [.binary "ADD" (.bracket (.call "ADD" [.number "1"])) (.number "2")]) :=
    .expression (e := .call "Arguments" [.binary .add (.bracket (.call "ADD" [.number "1"]))
      (.number "2")]) rfl
  have hm : ReadAs "Arguments(ADD((1)) + 2)".toList
      (.call "Arguments" [.binary "ADD" (.call "ADD" [.bracket (.number "1")]) (.number "2")]) :=
    .expression (e := .call "Arguments" [.binary .add (.call "ADD" [.bracket (.number "1")])
      (.number "2")]) rfl
  exact ⟨_, _, hn, hm, rfl, nofun, (compact_unambiguous hn hm).1.mp rfl⟩

end Pseudocode
