import Pseudocode.Proofs.Yield

/-!
The levels of the grammar, and what the readers give.

`Expr.At i e` says that the expression `e` is generated at level `i` of the grammar: 0 for literals,
names, calls and brackets, 1 for signs, 2 for products, 3 for sums, 4 for relations, 5 for negation, 6
for conjunction and 7 for disjunction. What binds tighter may stand in a looser place; the other way
round needs brackets. Operations on two operands are grouped to the left, so the left operand may be
of their own level, and the right one may not.

Design. The seven readers of the grammar are one family, `readerAt`, and differ in their operators
only: `signsAt` for the levels with operators before an operand, `operatorAt` for the levels with
operators between operands.

Main results: whatever is read is generated by the level grammar (`expression_gives`,
`statement_gives`, `program_gives`).
-/

namespace Pseudocode

/-! ### Levels -/

/-- The level of an operation on one operand; `nop` is never written. -/
def UnaryOp.level? : UnaryOp → Option Nat
  | .add | .sub => some 1
  | .not => some 5
  | .nop => none

/-- The level of an operation on two operands; `nop` is never written. -/
def BinaryOp.level? : BinaryOp → Option Nat
  | .mul | .div => some 2
  | .add | .sub => some 3
  | .and => some 6
  | .or => some 7
  | .nop => none

/-- The expressions that are generated at a level. -/
inductive Expr.At : Nat → Expr → Prop
  | number (significand : String) : At 0 (.number significand)
  | boolean (truth : Bool) : At 0 (.boolean truth)
  | reference (name : String) : At 0 (.reference name)
  | call (name : String) {args : List Expr} : (∀ a ∈ args, At 7 a) → At 0 (.call name args)
  | bracket {inner : Expr} : At 7 inner → At 0 (.bracket inner)
  | tighter {i : Nat} {e : Expr} : At i e → At (i + 1) e
  | unary {i : Nat} {op : UnaryOp} {e : Expr} : op.level? = some i → At i e → At i (.unary op e)
  | binary {i : Nat} {op : BinaryOp} {l r : Expr} : op.level? = some (i + 1) →
    At (i + 1) l → At i r → At (i + 1) (.binary op l r)
  | relation (rel : Relation) {l r : Expr} : At 4 l → At 3 r → At 4 (.relation rel l r)

/-- A tighter expression stands wherever a looser one may. -/
theorem Expr.At.mono {i j : Nat} {e : Expr} (h : At i e) (hij : i ≤ j) : At j e := by
  induction hij with
  | refl => exact h
  | step _ ih => exact .tighter ih

/-- An expression of the level grammar. -/
def Expr.Levelled (e : Expr) : Prop := e.At 7

mutual

/-- A statement whose expressions are all of the level grammar. -/
def Stmt.Levelled : Stmt → Prop
  | .assign _ _ value => value.Levelled
  | .subroutine _ _ none ret => ∀ e ∈ ret, e.Levelled
  | .subroutine _ _ (some body) ret => body.Levelled ∧ ∀ e ∈ ret, e.Levelled
  | .conditional condition thenBranch none => condition.Levelled ∧ thenBranch.Levelled
  | .conditional condition thenBranch (some elseBranch) =>
    condition.Levelled ∧ thenBranch.Levelled ∧ elseBranch.Levelled
  | .whileLoop condition body => condition.Levelled ∧ body.Levelled
  | .repeatLoop body condition => body.Levelled ∧ condition.Levelled
  | .output value => value.Levelled
  | .call _ args => ∀ a ∈ args, a.Levelled

/-- A block whose expressions are all of the level grammar. -/
def Block.Levelled : Block → Prop
  | .one statement => statement.Levelled
  | .cons statement rest => statement.Levelled ∧ rest.Levelled

end

/-- A block has the levels of its statements. -/
theorem Block.levelled_ofList {first : Stmt} {more : List Stmt} (hfirst : first.Levelled)
    (hmore : ∀ s ∈ more, s.Levelled) : (Block.ofList first more).Levelled := by
  induction more generalizing first with
  | nil => exact hfirst
  | cons second more ih =>
    obtain ⟨hsecond, hmore⟩ := List.forall_mem_cons.mp hmore
    exact ⟨hfirst, ih hsecond hmore⟩

/-! ### Readers -/

namespace Reader

variable {α : Type}

/-- Everything that the reader gives has a property. -/
def Gives (item : Reader α) (P : α → Prop) : Prop :=
  ∀ ⦃ts a rest⦄, item ts = some (a, rest) → P a

variable {item : Reader α} {P Q : α → Prop}

/-- Every item of a repetition is as the reader gives it. -/
theorem Gives.manyRounds (h : item.Gives P) (rounds : Nat) (ts : List Token) :
    ∀ a ∈ (manyRounds item rounds ts).1, P a := by
  induction rounds generalizing ts with
  | zero => exact List.forall_mem_nil P
  | succ rounds ih =>
    rw [Reader.manyRounds]
    rcases hitem : item ts with - | ⟨a, rest⟩
    · exact List.forall_mem_nil P
    · exact List.forall_mem_cons.mpr ⟨h hitem, ih rest⟩

theorem Gives.many (h : item.Gives P) (ts : List Token) : ∀ a ∈ (many item ts).1, P a :=
  h.manyRounds ts.length ts

/-- An item behind a comma is as it is without. -/
theorem Gives.afterComma (h : item.Gives P) : (afterComma item).Gives P := by
  intro ts a rest hts
  unfold Reader.afterComma at hts
  split at hts
  · exact h hts
  · cases hts

/-- So is every item of a list. -/
theorem Gives.commaList (h : item.Gives P) (ts : List Token) :
    ∀ a ∈ (commaList item ts).1, P a := by
  unfold Reader.commaList
  rcases hitem : item ts with - | ⟨a, rest⟩
  · nofun
  · exact List.forall_mem_cons.mpr ⟨h hitem, h.afterComma.many rest⟩

/-- A list in brackets gives what its items are. -/
theorem Gives.parenthesized (h : item.Gives P) :
    (parenthesized item).Gives fun as => ∀ a ∈ as, P a := by
  intro ts as rest hts
  unfold Reader.parenthesized at hts
  split at hts
  · rename_i inner
    split at hts
    · rename_i items after hlist
      cases hts
      have hitems := h.commaList inner
      rwa [hlist] at hitems
    · cases hts
  · cases hts

/-- Operators between operands: the left operand of a round is what the rounds before have given. -/
theorem Gives.foldRounds {operator? : Token → Option (α → α → α)} (h : item.Gives P)
    (hop : ∀ ⦃t f⦄, operator? t = some f → ∀ l r, Q l → P r → Q (f l r))
    (rounds : Nat) {left : α} (hleft : Q left) (ts : List Token) :
    Q (foldRounds item operator? rounds left ts).1 := by
  induction rounds generalizing left ts with
  | zero => exact hleft
  | succ rounds ih =>
    rcases ts with - | ⟨t, rest⟩
    · exact hleft
    rw [Reader.foldRounds]
    -- without a further operator, or an operand behind it, what is on the left is all
    rcases hf : operator? t with - | f
    · exact hleft
    dsimp only
    rcases hitem : item rest with - | ⟨right, after⟩
    · exact hleft
    · exact ih (hop hf left right hleft (h hitem)) after

/-- Operators between operands stay on their level, as the left side grows. -/
theorem Gives.leftAssociative {operator? : Token → Option (α → α → α)} (h : item.Gives P)
    (hPQ : ∀ {a}, P a → Q a)
    (hop : ∀ ⦃t f⦄, operator? t = some f → ∀ l r, Q l → P r → Q (f l r)) :
    (leftAssociative item operator?).Gives Q := by
  intro ts a rest hts
  unfold Reader.leftAssociative at hts
  rcases hitem : item ts with - | ⟨left, after⟩
  · rw [hitem] at hts
    cases hts
  · rw [hitem] at hts
    have hfold := h.foldRounds hop after.length (hPQ (h hitem)) after
    rwa [Option.some.inj hts] at hfold

/-- Operators in front of an operand stay on their level. -/
theorem Gives.prefixed {sign? : Token → Option (α → α)} (h : item.Gives P)
    (hPQ : ∀ {a}, P a → Q a) (hop : ∀ ⦃t f⦄, sign? t = some f → ∀ a, Q a → Q (f a)) :
    (prefixed sign? item).Gives Q := by
  intro ts a rest hts
  induction ts generalizing a rest with
  | nil => exact hPQ (h hts)
  | cons t ts ih =>
    unfold Reader.prefixed at hts
    -- without an operator it is the tighter expression itself
    rcases hf : sign? t with - | f
    · rw [hf] at hts
      exact hPQ (h hts)
    · rw [hf] at hts
      obtain ⟨⟨inner, after⟩, hinner, heq⟩ := Option.map_eq_some_iff.mp hts
      cases heq
      exact hop hf inner (ih hinner)

end Reader

namespace Grammar

open Reader

/-! ### The readers of the levels -/

/-- The operators of a level that stand before an operand, if it has such operators. -/
def signsAt : Nat → Option (Token → Option (Expr → Expr))
  | 1 => some signOperator?
  | 5 => some notOperator?
  | _ => none

/-- The operators of a level that stand between operands. -/
def operatorAt : Nat → Token → Option (Expr → Expr → Expr)
  | 2 => productOperator?
  | 3 => sumOperator?
  | 4 => relationOperator?
  | 6 => andOperator?
  | 7 => orOperator?
  | _ => fun _ => none

/-- The reader of a level. -/
def readerAt (inner : Reader Expr) : Nat → Reader Expr
  | 0 => operand inner
  | i + 1 =>
    match signsAt (i + 1) with
    | some sign? => prefixed sign? (readerAt inner i)
    | none => leftAssociative (readerAt inner i) (operatorAt (i + 1))

theorem disjunction_eq_readerAt (inner : Reader Expr) : disjunction inner = readerAt inner 7 := rfl

/-- The reader of a level with operators before an operand. -/
theorem readerAt_of_signs (inner : Reader Expr) {i : Nat}
    {sign? : Token → Option (Expr → Expr)} (h : signsAt (i + 1) = some sign?) :
    readerAt inner (i + 1) = prefixed sign? (readerAt inner i) := by
  rw [readerAt, h]

/-- The reader of a level with operators between operands. -/
theorem readerAt_of_no_signs (inner : Reader Expr) {i : Nat} (h : signsAt (i + 1) = none) :
    readerAt inner (i + 1) = leftAssociative (readerAt inner i) (operatorAt (i + 1)) := by
  rw [readerAt, h]

/-! ### Expressions -/

/-- The operators in front of an operand are written as one token each. -/
theorem unary_of_signsAt {i : Nat} {sign? : Token → Option (Expr → Expr)} {t : Token}
    {f : Expr → Expr} (h : signsAt i = some sign?) (hf : sign? t = some f) :
    ∃ op : UnaryOp, f = .unary op ∧ op.level? = some i ∧ op.tokens = [t] := by
  unfold signsAt at h
  split at h <;> cases h
  · unfold signOperator? at hf
    split at hf <;> cases hf <;> exact ⟨_, rfl, rfl, rfl⟩
  · unfold notOperator? at hf
    split at hf <;> cases hf
    exact ⟨_, rfl, rfl, rfl⟩

/-- Between operands stand operators and relations, each written as one token. -/
theorem operation_of_operatorAt {i : Nat} {t : Token} {f : Expr → Expr → Expr}
    (h : operatorAt i t = some f) :
    (∃ op : BinaryOp, f = .binary op ∧ op.level? = some i ∧ op.tokens = [t])
      ∨ ∃ rel, f = .relation rel ∧ i = 4 ∧ t = .relation rel := by
  unfold operatorAt at h
  -- one level after the other, from the tightest
  split at h
  · unfold productOperator? at h
    split at h <;> cases h <;> exact .inl ⟨_, rfl, rfl, rfl⟩
  · unfold sumOperator? at h
    split at h <;> cases h <;> exact .inl ⟨_, rfl, rfl, rfl⟩
  · unfold relationOperator? at h
    split at h <;> cases h
    exact .inr ⟨_, rfl, rfl, rfl⟩
  · unfold andOperator? at h
    split at h <;> cases h
    exact .inl ⟨_, rfl, rfl, rfl⟩
  · unfold orOperator? at h
    split at h <;> cases h
    exact .inl ⟨_, rfl, rfl, rfl⟩
  · cases h

section

variable {inner : Reader Expr} (hinner : inner.Gives Expr.Levelled)
include hinner

/-- An operand stands on the tightest level. -/
theorem operand_gives : (operand inner).Gives (Expr.At 0) := by
  intro ts e rest hts
  unfold operand at hts
  split at hts
  · cases hts
    exact .number _
  · cases hts
    exact .boolean _
  · split at hts
    · -- a name with brackets behind it is a call, otherwise a variable
      rename_i hargs
      cases hts
      exact .call _ (hinner.parenthesized hargs)
    · cases hts
      exact .reference _
  · split at hts
    · rename_i he
      cases hts
      exact .bracket (hinner he)
    · cases hts
  · cases hts

/-- Each level of the ladder gives expressions of that level. -/
theorem readerAt_gives (i : Nat) : (readerAt inner i).Gives (Expr.At i) := by
  induction i with
  | zero => exact operand_gives hinner
  | succ i ih =>
    -- a level has operators between its operands, or in front of them
    rcases hsigns : signsAt (i + 1) with - | sign?
    · rw [readerAt_of_no_signs inner hsigns]
      refine ih.leftAssociative .tighter fun t f hf l r hl hr => ?_
      obtain ⟨op, rfl, hlevel, -⟩ | ⟨rel, rfl, hi, -⟩ := operation_of_operatorAt hf
      · exact .binary hlevel hl hr
      · cases hi
        exact .relation rel hl hr
    · rw [readerAt_of_signs inner hsigns]
      refine ih.prefixed .tighter fun t f hf e he => ?_
      obtain ⟨op, rfl, hlevel, -⟩ := unary_of_signsAt hsigns hf
      exact .unary hlevel he

end

/-- Brackets may be nested to any depth. -/
theorem expressionWithin_gives (depth : Nat) : (expressionWithin depth).Gives Expr.Levelled := by
  induction depth with
  | zero =>
    intro ts e rest hts
    cases hts
  | succ depth ih =>
    rw [expressionWithin, disjunction_eq_readerAt]
    exact readerAt_gives ih 7

theorem expression_gives : expression.Gives Expr.Levelled := by
  intro ts e rest hts
  exact expressionWithin_gives _ hts

/-! ### Statements -/

/-- What is assigned is a levelled expression. -/
theorem assignmentTo_gives (target : String) (constant : Bool) :
    (assignmentTo target constant).Gives Stmt.Levelled := by
  intro ts s rest hts
  unfold assignmentTo at hts
  split at hts
  · obtain ⟨⟨e, after⟩, he, heq⟩ := Option.map_eq_some_iff.mp hts
    cases heq
    exact expression_gives he
  · cases hts

/-- So is what is returned. -/
theorem optionalReturn_gives (ts : List Token) : ∀ e ∈ (optionalReturn ts).1, e.Levelled := by
  unfold optionalReturn
  split
  · split
    · rename_i he
      intro e hmem
      cases hmem
      exact expression_gives he
    · nofun
  · nofun

section

variable {inner : Reader Stmt} (hinner : inner.Gives Stmt.Levelled)
include hinner

/-- A block is levelled if its statements are. -/
theorem block_gives : (block inner).Gives Block.Levelled := by
  intro ts b rest hts
  unfold block at hts
  split at hts
  · cases hts
  · rename_i first after hfirst
    cases hts
    exact Block.levelled_ofList (hinner hfirst) (hinner.many after)

/-- The same of a block behind a keyword, if there is one. -/
theorem blockAfter_gives (word : Keyword) (ts : List Token) :
    ∀ b ∈ (blockAfter inner word ts).1, b.Levelled := by
  unfold blockAfter
  split
  · split
    · split
      · rename_i hblock
        intro b hmem
        cases hmem
        exact block_gives hinner hblock
      · nofun
    · nofun
  · nofun

/-- The same of a block that may be missing. -/
theorem optionalBlock_gives (ts : List Token) :
    ∀ b ∈ (optionalBlock inner ts).1, b.Levelled := by
  unfold optionalBlock
  split
  · rename_i hblock
    intro b hmem
    cases hmem
    exact block_gives hinner hblock
  · nofun

/-- A definition is levelled in its body and in what it returns. -/
theorem subroutineNamed_gives (title : String) :
    (subroutineNamed inner title).Gives Stmt.Levelled := by
  intro ts s rest hts
  unfold subroutineNamed at hts
  split at hts
  · cases hts
  rename_i params afterParams _
  have hbody := optionalBlock_gives hinner afterParams
  have hret := optionalReturn_gives (optionalBlock inner afterParams).2
  dsimp only at hts
  split at hts
  · cases hts
    rcases hoptional : (optionalBlock inner afterParams).1 with - | body
    · exact hret
    · exact ⟨hbody body hoptional, hret⟩
  · cases hts

/-- A conditional is levelled in its condition and both branches. -/
theorem conditional_gives : (conditional inner).Gives Stmt.Levelled := by
  intro ts s rest hts
  unfold conditional at hts
  split at hts
  · rename_i condition afterThen hcondition
    split at hts
    · cases hts
    rename_i thenBranch afterBranch hthen
    have helse := blockAfter_gives hinner .ELSE afterBranch
    dsimp only at hts
    split at hts
    · cases hts
      rcases hoptional : (blockAfter inner .ELSE afterBranch).1 with - | elseBranch
      · exact ⟨expression_gives hcondition, block_gives hinner hthen⟩
      · exact ⟨expression_gives hcondition, block_gives hinner hthen, helse elseBranch hoptional⟩
    · cases hts
  · cases hts

/-- A loop is levelled in its condition and its body. -/
theorem whileLoop_gives : (whileLoop inner).Gives Stmt.Levelled := by
  intro ts s rest hts
  unfold whileLoop at hts
  split at hts
  · cases hts
  rename_i hcondition
  split at hts
  · rename_i hbody
    cases hts
    exact ⟨expression_gives hcondition, block_gives hinner hbody⟩
  · cases hts

/-- The same of a loop with the test behind its body. -/
theorem repeatLoop_gives : (repeatLoop inner).Gives Stmt.Levelled := by
  intro ts s rest hts
  unfold repeatLoop at hts
  split at hts
  · rename_i hbody
    obtain ⟨⟨condition, after⟩, hcondition, heq⟩ := Option.map_eq_some_iff.mp hts
    cases heq
    exact ⟨block_gives hinner hbody, expression_gives hcondition⟩
  · cases hts

/-- The first token tells the forms of a statement apart. -/
theorem statementOver_gives : (statementOver inner).Gives Stmt.Levelled := by
  intro ts s rest hts
  unfold statementOver at hts
  -- one case for each word that starts a statement
  split at hts
  · exact assignmentTo_gives _ true hts
  · exact subroutineNamed_gives hinner _ hts
  · exact conditional_gives hinner hts
  · exact whileLoop_gives hinner hts
  · exact repeatLoop_gives hinner hts
  · obtain ⟨⟨e, after⟩, he, heq⟩ := Option.map_eq_some_iff.mp hts
    cases heq
    exact expression_gives he
  · split at hts
    · rename_i hassign
      cases hts
      exact assignmentTo_gives _ false hassign
    · obtain ⟨⟨args, after⟩, hargs, heq⟩ := Option.map_eq_some_iff.mp hts
      cases heq
      exact expression_gives.parenthesized hargs
  · cases hts

end

/-- Blocks may be nested to any depth. -/
theorem statementWithin_gives (depth : Nat) : (statementWithin depth).Gives Stmt.Levelled := by
  induction depth with
  | zero =>
    intro ts s rest hts
    cases hts
  | succ depth ih => exact statementOver_gives ih

theorem statement_gives : statement.Gives Stmt.Levelled := by
  intro ts s rest hts
  exact statementWithin_gives _ hts

theorem program_gives (ts : List Token) : ∀ s ∈ (program ts).1, s.Levelled :=
  statement_gives.many ts

end Grammar

end Pseudocode
