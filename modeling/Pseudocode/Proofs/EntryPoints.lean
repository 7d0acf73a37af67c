import Pseudocode.Proofs.FrontEnds

/-!
Expressions by themselves and in a program.

There are two ways into the grammar: a text can be read as an expression, or as a program. A text is
an expression exactly if it makes an assignment, put behind a name and an arrow.

Design. What a text is depends on its row of tokens alone, and each of the two readings is settled
by that row (`parseExpression_eq_ok_iff`, `parseProgram_eq_ok_iff_row`). The row of the assignment
is that of the expression with two tokens before it: the blank behind the arrow keeps the two apart
as a line end would, and the other tab stops that the text has there make no difference.

Main result: `entry_points_agree`.
-/

namespace Pseudocode

/-! ### Readings and rows -/

/-- A text is an expression exactly if its row of tokens is that of the expression. -/
theorem parseExpression_eq_ok_iff {text : List Char} {e : Expr} :
    parseExpression text = .ok e ↔ e.Levelled ∧ Row.ofText text = ⟨e.tokens, true⟩ := by
  constructor
  · intro h
    obtain ⟨htokens, hcomplete⟩ := sequence_of_parseExpression h
    exact ⟨levelled_of_parseExpression h, by rw [Row.ofText, htokens, hcomplete]⟩
  · rintro ⟨hlevelled, hrow⟩
    exact parseExpression_of_sequence hlevelled (congrArg Row.tokens hrow)
      (congrArg Row.complete hrow)

/-- A text is a program exactly if its row of tokens is that of the statements. -/
theorem parseProgram_eq_ok_iff_row {text : List Char} {statements : List Stmt} :
    parseProgram text = .ok statements
      ↔ (∀ s ∈ statements, s.Levelled)
        ∧ Row.ofText text = ⟨statements.flatMap Stmt.tokens, true⟩ := by
  constructor
  · intro h
    obtain ⟨htokens, hcomplete⟩ := sequence_of_parseProgram h
    exact ⟨levelled_of_parseProgram h, by rw [Row.ofText, htokens, hcomplete]⟩
  · rintro ⟨hlevelled, hrow⟩
    exact parseProgram_of_sequence hlevelled (congrArg Row.tokens hrow)
      (congrArg Row.complete hrow)

/-! ### Assignments -/

/-- The text of an assignment to `x`, up to its right-hand side. -/
def assignmentHead : List Char := "x <- ".toList

/-- In front of the tokens of a text stand the name and the arrow. -/
theorem Row.ofText_assignmentHead (text : List Char) :
    ofText (assignmentHead ++ text)
      = ⟨.name "x" :: .arrow :: (ofText text).tokens, (ofText text).complete⟩ := by
  -- blanks are all alike, so the last one may be a line end
  have hnormal : normalize (assignmentHead ++ text) = normalize ("x <-".toList ++ '\n' :: text) :=
    rfl
  have hhead : ofText "x <-".toList = ⟨[.name "x", .arrow], true⟩ := rfl
  rw [← ofText_normalize, hnormal, ofText_normalize, ofText_append_newline, hhead]
  rfl

/-- The text behind a name and an arrow is the program of one assignment exactly if it is the
expression on its right-hand side. -/
theorem parseProgram_assignmentHead_iff {text : List Char} {e : Expr} :
    parseProgram (assignmentHead ++ text) = .ok [.assign "x" false e]
      ↔ parseExpression text = .ok e := by
  have htokens : [Stmt.assign "x" false e].flatMap Stmt.tokens = .name "x" :: .arrow :: e.tokens :=
    List.flatMap_singleton Stmt.tokens _
  rw [parseProgram_eq_ok_iff_row, parseExpression_eq_ok_iff, htokens, Row.ofText_assignmentHead,
    List.forall_mem_singleton, Stmt.Levelled]
  refine and_congr Iff.rfl ?_
  rcases Row.ofText text with ⟨tokens, complete⟩
  simp

/-- Only an assignment has the tree of one. -/
theorem Stmt.eq_assign_of_toNode {s : Stmt} {name : String} {constant : Bool} {tree : Node}
    (h : s.toNode = .assignment name constant tree) :
    ∃ e, s = .assign name constant e ∧ e.toNode = tree := by
  have hkind : s.toNode.kind = .assignment := congrArg Node.kind h
  rcases s with ⟨name', constant', e⟩ | ⟨_, _, - | _, _⟩ | ⟨_, _, - | _⟩ | _ | _ | _ | _
  case assign =>
    rw [Stmt.toNode, Node.assignment, Node.assignment] at h
    injection h with _ hproperties hchildren
    simp only [List.cons.injEq, Prod.mk.injEq, Property.text.injEq, Property.flag.injEq, true_and,
      and_true] at hproperties hchildren
    obtain ⟨rfl, rfl⟩ := hproperties
    exact ⟨e, rfl, hchildren⟩
  all_goals cases hkind

/-- The tree of a program is an assignment only if the program is that assignment. -/
theorem Stmt.eq_assign_of_program? {statements : List Stmt} {name : String} {constant : Bool}
    {tree : Node} (h : Stmt.program? statements = some (.assignment name constant tree)) :
    ∃ e, statements = [.assign name constant e] ∧ e.toNode = tree := by
  rcases statements with - | ⟨s, - | ⟨s', rest⟩⟩
  · cases h
  · obtain ⟨e, rfl, htree⟩ := Stmt.eq_assign_of_toNode (Option.some.inj h)
    exact ⟨e, rfl, htree⟩
  · -- two statements are a block
    obtain ⟨root, hroot⟩ := exists_root (List.mem_cons_self (a := s') (l := rest))
    have hblock : Stmt.program? (s :: s' :: rest) = some (.sequence s.toNode root) := by
      rw [Stmt.program?] at hroot ⊢
      rw [List.map_cons, Node.block?, hroot]
    rw [h] at hblock
    cases congrArg Node.kind (Option.some.inj hblock)

/-- **The two entry points agree.** A text is read as an expression with some tree exactly if the
text with `x <- ` before it is read as a program with one node for a tree, the assignment of that
tree to `x`. -/
theorem entry_points_agree (text : List Char) (tree : Node) :
    (∃ e, parseExpression text = .ok e ∧ e.toNode = tree)
      ↔ ∃ statements, parseProgram ("x <- ".toList ++ text) = .ok statements
        ∧ Stmt.program? statements = some (.assignment "x" false tree) := by
  constructor
  · rintro ⟨e, h, rfl⟩
    exact ⟨[.assign "x" false e], parseProgram_assignmentHead_iff.mpr h, rfl⟩
  · rintro ⟨statements, h, hroot⟩
    obtain ⟨e, rfl, rfl⟩ := Stmt.eq_assign_of_program? hroot
    exact ⟨e, parseProgram_assignmentHead_iff.mp h, rfl⟩

end Pseudocode
