import Pseudocode.Program.Parse

/-!
The tokens of a program.

A program keeps everything that was written, brackets included, so its tokens can be read off it
again: `Expr.tokens`, `Stmt.tokens` and `Block.tokens` write them down in order. A reader `Takes`
what its result yields if the tokens it takes off the front are exactly the tokens of the value that
it gives. The readers of the grammar are put together by a few combinators, and each of these keeps
this property.

Main results: every expression and every statement that is read takes its own tokens
(`expression_takes`, `statement_takes`), so a text that is accepted has the tokens of its program
and no others (`sequence_of_parseProgram`, `sequence_of_parseExpression`).
-/

namespace Pseudocode

/-! ### Tokens of a program -/

/-- Lists of tokens with commas between them. -/
def commaSeparated : List (List Token) → List Token
  | [] => []
  | [ts] => ts
  | ts :: rest => ts ++ .comma :: commaSeparated rest

theorem mem_commaSeparated_of_mem {t : Token} {ts : List Token} {tss : List (List Token)}
    (hts : ts ∈ tss) (ht : t ∈ ts) : t ∈ commaSeparated tss := by
  fun_induction commaSeparated tss with
  | case1 => cases hts
  | case2 us =>
    cases List.mem_singleton.mp hts
    exact ht
  | case3 us rest _ ih =>
    rcases List.mem_cons.mp hts with rfl | hts
    · exact List.mem_append_left _ ht
    · exact List.mem_append_right _ (List.mem_cons_of_mem _ (ih hts))

/-- The sign of an operation between its operands; `nop` is never written. -/
def BinaryOp.tokens : BinaryOp → List Token
  | .add => [.plus]
  | .sub => [.minus]
  | .mul => [.times]
  | .div => [.divide]
  | .and => [.keyword .AND]
  | .or => [.keyword .OR]
  | .nop => []

/-- The sign of an operation before its operand; `nop` is never written. -/
def UnaryOp.tokens : UnaryOp → List Token
  | .sub => [.minus]
  | .add => [.plus]
  | .not => [.keyword .NOT]
  | .nop => []

mutual

/-- The tokens of an expression. -/
def Expr.tokens : Expr → List Token
  | .number s => [.number s]
  | .boolean b => [.boolean b]
  | .reference name => [.name name]
  | .call name args => .name name :: .lparen :: commaSeparated (Expr.tokensOf args) ++ [.rparen]
  | .bracket e => .lparen :: e.tokens ++ [.rparen]
  | .unary op e => op.tokens ++ e.tokens
  | .binary op l r => l.tokens ++ op.tokens ++ r.tokens
  | .relation rel l r => l.tokens ++ .relation rel :: r.tokens

/-- The tokens of each expression. -/
def Expr.tokensOf : List Expr → List (List Token)
  | [] => []
  | e :: es => e.tokens :: Expr.tokensOf es

end

/-- The tokens of a return expression, with the word before it. -/
def Expr.returnTokens : Option Expr → List Token
  | none => []
  | some e => .keyword .RETURN :: e.tokens

mutual

/-- The tokens of a statement. -/
def Stmt.tokens : Stmt → List Token
  | .assign name constant value =>
    (if constant then [.keyword .CONSTANT] else []) ++ .name name :: .arrow :: value.tokens
  | .subroutine name params none ret =>
    .keyword .SUBROUTINE :: .name name :: .lparen
      :: commaSeparated (params.map fun p => [.name p])
      ++ .rparen :: Expr.returnTokens ret ++ [.keyword .ENDSUBROUTINE]
  | .subroutine name params (some body) ret =>
    .keyword .SUBROUTINE :: .name name :: .lparen
      :: commaSeparated (params.map fun p => [.name p])
      ++ .rparen :: body.tokens ++ Expr.returnTokens ret ++ [.keyword .ENDSUBROUTINE]
  | .conditional condition thenBranch none =>
    .keyword .IF :: condition.tokens ++ .keyword .THEN :: thenBranch.tokens
      ++ [.keyword .ENDIF]
  | .conditional condition thenBranch (some elseBranch) =>
    .keyword .IF :: condition.tokens ++ .keyword .THEN :: thenBranch.tokens
      ++ .keyword .ELSE :: elseBranch.tokens ++ [.keyword .ENDIF]
  | .whileLoop condition body =>
    .keyword .WHILE :: condition.tokens ++ body.tokens ++ [.keyword .ENDWHILE]
  | .repeatLoop body condition =>
    .keyword .REPEAT :: body.tokens ++ .keyword .UNTIL :: condition.tokens
  | .output value => .keyword .OUTPUT :: value.tokens
  | .call name args =>
    .name name :: .lparen :: commaSeparated (Expr.tokensOf args) ++ [.rparen]

/-- The tokens of a block. -/
def Block.tokens : Block → List Token
  | .one statement => statement.tokens
  | .cons statement rest => statement.tokens ++ rest.tokens

end

theorem Expr.tokensOf_eq_map (es : List Expr) : Expr.tokensOf es = es.map Expr.tokens := by
  induction es with
  | nil => rfl
  | cons e es ih => rw [tokensOf, ih, List.map_cons]

theorem Block.tokens_ofList (first : Stmt) (rest : List Stmt) :
    (Block.ofList first rest).tokens = first.tokens ++ rest.flatMap Stmt.tokens := by
  induction rest generalizing first with
  | nil => simp [Block.ofList, Block.tokens]
  | cons second rest ih => rw [Block.ofList, Block.tokens, ih, List.flatMap_cons]

/-! ### Readers -/

namespace Reader

variable {α : Type}

/-- What the reader takes off the front of the tokens is what its result yields. -/
def Takes (item : Reader α) (yield : α → List Token) : Prop :=
  ∀ ⦃ts a rest⦄, item ts = some (a, rest) → ts = yield a ++ rest

variable {item : Reader α} {yield : α → List Token}

/-- What a repetition takes is printed by its items, whatever its bound is. -/
theorem Takes.manyRounds (h : item.Takes yield) (rounds : Nat) (ts : List Token) :
    ts = (manyRounds item rounds ts).1.flatMap yield ++ (manyRounds item rounds ts).2 := by
  induction rounds generalizing ts with
  | zero => rfl
  | succ rounds ih =>
    rw [Reader.manyRounds]
    rcases hitem : item ts with - | ⟨a, rest⟩
    · rfl
    · rw [List.flatMap_cons, List.append_assoc, ← ih rest]
      exact h hitem

theorem Takes.many (h : item.Takes yield) (ts : List Token) :
    ts = (many item ts).1.flatMap yield ++ (many item ts).2 :=
  h.manyRounds ts.length ts

theorem Takes.afterComma (h : item.Takes yield) :
    (afterComma item).Takes fun a => .comma :: yield a := by
  intro ts a rest hts
  unfold Reader.afterComma at hts
  split at hts
  · rw [h hts, List.cons_append]
  · cases hts

/-- A list with a first member is that member and the others, each with a comma before it. -/
theorem commaSeparated_cons_map (a : α) (as : List α) :
    commaSeparated ((a :: as).map yield) = yield a ++ as.flatMap fun a => .comma :: yield a := by
  induction as generalizing a with
  | nil => simp [commaSeparated]
  | cons b as ih =>
    rw [List.map_cons, List.map_cons, commaSeparated, ← List.map_cons, ih, List.flatMap_cons]
    · rfl
    · intro h
      cases h

/-- A list takes its members with commas between them. -/
theorem Takes.commaList (h : item.Takes yield) (ts : List Token) :
    ts = commaSeparated ((commaList item ts).1.map yield) ++ (commaList item ts).2 := by
  unfold Reader.commaList
  rcases hitem : item ts with - | ⟨a, rest⟩
  · rfl
  · rw [commaSeparated_cons_map, List.append_assoc, ← h.afterComma.many rest]
    exact h hitem

/-- A list in brackets takes the brackets too. -/
theorem Takes.parenthesized (h : item.Takes yield) :
    (parenthesized item).Takes fun as =>
      .lparen :: commaSeparated (as.map yield) ++ [.rparen] := by
  intro ts as rest hts
  unfold Reader.parenthesized at hts
  split at hts
  · rename_i inner
    split at hts
    · rename_i items after hlist
      cases hts
      have hinner := h.commaList inner
      rw [hlist] at hinner
      rw [hinner]
      simp
    · cases hts
  · cases hts

variable {operator? : Token → Option (α → α → α)}

/-- Operators between operands: the result of a round yields the left operand, the sign and the
right operand. -/
theorem Takes.foldRounds (h : item.Takes yield)
    (hop : ∀ {t f}, operator? t = some f → ∀ l r, yield (f l r) = yield l ++ t :: yield r)
    (rounds : Nat) (left : α) (ts : List Token) :
    yield left ++ ts = yield (foldRounds item operator? rounds left ts).1
      ++ (foldRounds item operator? rounds left ts).2 := by
  induction rounds generalizing left ts with
  | zero => rfl
  | succ rounds ih =>
    rcases ts with - | ⟨t, rest⟩
    · rfl
    · rw [Reader.foldRounds]
      rcases hf : operator? t with - | f
      · rfl
      dsimp only
      -- a sign that no operand follows is not taken
      rcases hitem : item rest with - | ⟨right, after⟩
      · rfl
      · rw [← ih, hop hf, h hitem]
        simp

/-- Operators between operands take what their results print. -/
theorem Takes.leftAssociative (h : item.Takes yield)
    (hop : ∀ {t f}, operator? t = some f → ∀ l r, yield (f l r) = yield l ++ t :: yield r) :
    (leftAssociative item operator?).Takes yield := by
  intro ts a rest hts
  unfold Reader.leftAssociative at hts
  rcases hitem : item ts with - | ⟨left, after⟩
  · rw [hitem] at hts
    cases hts
  · rw [hitem] at hts
    have hfold := h.foldRounds hop after.length left after
    rw [h hitem, hfold, Option.some.inj hts]

/-- So do operators before an operand. -/
theorem Takes.prefixed {sign? : Token → Option (α → α)} (h : item.Takes yield)
    (hop : ∀ {t f}, sign? t = some f → ∀ a, yield (f a) = t :: yield a) :
    (prefixed sign? item).Takes yield := by
  intro ts a rest hts
  -- the induction is on the tokens, since every sign takes one of them
  induction ts generalizing a rest with
  | nil => exact h hts
  | cons t ts ih =>
    unfold Reader.prefixed at hts
    rcases hf : sign? t with - | f
    · rw [hf] at hts
      exact h hts
    · rw [hf] at hts
      obtain ⟨⟨inner, after⟩, hinner, heq⟩ := Option.map_eq_some_iff.mp hts
      cases heq
      rw [hop hf, List.cons_append, ← ih hinner]

end Reader

namespace Grammar

open Reader

/-! ### Expressions -/

theorem tokens_of_signOperator? {t : Token} {f : Expr → Expr} (h : signOperator? t = some f)
    (e : Expr) : (f e).tokens = t :: e.tokens := by
  unfold signOperator? at h
  split at h <;> cases h <;> rfl

theorem tokens_of_notOperator? {t : Token} {f : Expr → Expr} (h : notOperator? t = some f)
    (e : Expr) : (f e).tokens = t :: e.tokens := by
  unfold notOperator? at h
  split at h <;> cases h
  rfl

theorem tokens_of_productOperator? {t : Token} {f : Expr → Expr → Expr}
    (h : productOperator? t = some f) (l r : Expr) :
    (f l r).tokens = l.tokens ++ t :: r.tokens := by
  unfold productOperator? at h
  split at h <;> cases h <;> simp [Expr.tokens, BinaryOp.tokens]

theorem tokens_of_sumOperator? {t : Token} {f : Expr → Expr → Expr}
    (h : sumOperator? t = some f) (l r : Expr) :
    (f l r).tokens = l.tokens ++ t :: r.tokens := by
  unfold sumOperator? at h
  split at h <;> cases h <;> simp [Expr.tokens, BinaryOp.tokens]

theorem tokens_of_relationOperator? {t : Token} {f : Expr → Expr → Expr}
    (h : relationOperator? t = some f) (l r : Expr) :
    (f l r).tokens = l.tokens ++ t :: r.tokens := by
  unfold relationOperator? at h
  split at h <;> cases h
  rfl

theorem tokens_of_andOperator? {t : Token} {f : Expr → Expr → Expr}
    (h : andOperator? t = some f) (l r : Expr) :
    (f l r).tokens = l.tokens ++ t :: r.tokens := by
  unfold andOperator? at h
  split at h <;> cases h
  simp [Expr.tokens, BinaryOp.tokens]

theorem tokens_of_orOperator? {t : Token} {f : Expr → Expr → Expr}
    (h : orOperator? t = some f) (l r : Expr) :
    (f l r).tokens = l.tokens ++ t :: r.tokens := by
  unfold orOperator? at h
  split at h <;> cases h
  simp [Expr.tokens, BinaryOp.tokens]

/-- An operand takes what it prints, each of its forms starting with another token. -/
theorem operand_takes {inner : Reader Expr} (h : inner.Takes Expr.tokens) :
    (operand inner).Takes Expr.tokens := by
  intro ts e rest hts
  unfold operand at hts
  split at hts
  · cases hts
    rfl
  · cases hts
    rfl
  · -- a name is a call if arguments follow it, and a variable if none do
    split at hts
    · rename_i hargs
      cases hts
      rw [h.parenthesized hargs, Expr.tokens, Expr.tokensOf_eq_map]
      simp
    · cases hts
      rfl
  · split at hts
    · rename_i hinner
      cases hts
      rw [h hinner, Expr.tokens]
      simp
    · cases hts
  · cases hts

/-- Each level of operators takes what it prints, if the level below does. -/
theorem disjunction_takes {inner : Reader Expr} (h : inner.Takes Expr.tokens) :
    (disjunction inner).Takes Expr.tokens := by
  -- from the tightest level to the loosest
  have hsigned : (signed inner).Takes Expr.tokens :=
    (operand_takes h).prefixed tokens_of_signOperator?
  have hproduct : (product inner).Takes Expr.tokens :=
    hsigned.leftAssociative tokens_of_productOperator?
  have hsum : (sum inner).Takes Expr.tokens :=
    hproduct.leftAssociative tokens_of_sumOperator?
  have hcomparison : (comparison inner).Takes Expr.tokens :=
    hsum.leftAssociative tokens_of_relationOperator?
  have hnegation : (negation inner).Takes Expr.tokens :=
    hcomparison.prefixed tokens_of_notOperator?
  have hconjunction : (conjunction inner).Takes Expr.tokens :=
    hnegation.leftAssociative tokens_of_andOperator?
  exact hconjunction.leftAssociative tokens_of_orOperator?

theorem expressionWithin_takes (depth : Nat) : (expressionWithin depth).Takes Expr.tokens := by
  induction depth with
  | zero =>
    intro ts e rest hts
    cases hts
  | succ depth ih => exact disjunction_takes ih

theorem expression_takes : expression.Takes Expr.tokens := by
  intro ts e rest hts
  exact expressionWithin_takes _ hts

/-! ### Statements -/

theorem name_takes : name.Takes fun x => [.name x] := by
  intro ts x rest hts
  unfold name at hts
  split at hts <;> cases hts
  rfl

/-- An assignment takes what it prints, its target and the keyword of a constant being read
before. -/
theorem assignmentTo_takes (target : String) (constant : Bool) {ts rest : List Token} {s : Stmt}
    (h : assignmentTo target constant ts = some (s, rest)) :
    (if constant then [.keyword .CONSTANT] else []) ++ .name target :: ts = s.tokens ++ rest := by
  unfold assignmentTo at h
  split at h
  · obtain ⟨⟨e, after⟩, he, heq⟩ := Option.map_eq_some_iff.mp h
    cases heq
    rw [expression_takes he, Stmt.tokens]
    simp
  · cases h

section

variable {inner : Reader Stmt} (hinner : inner.Takes Stmt.tokens)
include hinner

theorem block_takes : (block inner).Takes Block.tokens := by
  intro ts b rest hts
  unfold block at hts
  split at hts
  · cases hts
  · rename_i first after hfirst
    cases hts
    rw [Block.tokens_ofList, List.append_assoc, ← hinner.manyRounds after.length after]
    exact hinner hfirst

/-- A part that may be absent yields nothing if it is. -/
theorem blockAfter_takes (word : Keyword) (ts : List Token) :
    ts = ((blockAfter inner word ts).1.elim [] fun b => .keyword word :: b.tokens)
      ++ (blockAfter inner word ts).2 := by
  unfold blockAfter
  split
  · split
    · rename_i hword
      subst hword
      split
      · rename_i hblock
        rw [block_takes hinner hblock]
        rfl
      · rfl
    · rfl
  · rfl

theorem optionalBlock_takes (ts : List Token) :
    ts = ((optionalBlock inner ts).1.elim [] Block.tokens) ++ (optionalBlock inner ts).2 := by
  unfold optionalBlock
  split
  · rename_i hblock
    exact block_takes hinner hblock
  · rfl

omit hinner in
theorem optionalReturn_takes (ts : List Token) :
    ts = Expr.returnTokens (optionalReturn ts).1 ++ (optionalReturn ts).2 := by
  unfold optionalReturn
  split
  · split
    · rename_i hret
      rw [expression_takes hret]
      rfl
    · rfl
  · rfl

/-- A definition takes what it prints, its keyword and its name being read before. -/
theorem subroutineNamed_takes (title : String) {ts rest : List Token} {s : Stmt}
    (h : subroutineNamed inner title ts = some (s, rest)) :
    .keyword .SUBROUTINE :: .name title :: ts = s.tokens ++ rest := by
  unfold subroutineNamed at h
  split at h
  · cases h
  rename_i params afterParams hparams
  have hbody := optionalBlock_takes hinner afterParams
  rcases hoptional : optionalBlock inner afterParams with ⟨body, afterBody⟩
  rw [hoptional] at h hbody
  have hret := optionalReturn_takes afterBody
  dsimp only at h
  -- a part that is absent yields nothing, so it need not be told from one that is there
  rcases hoptional : optionalReturn afterBody with ⟨ret, afterRet⟩
  rw [hoptional] at h hret
  dsimp only at h
  split at h
  · cases h
    rw [name_takes.parenthesized hparams, hbody, hret]
    rcases body with - | body <;> simp [Stmt.tokens]
  · cases h

/-- A conditional statement takes what it prints, its first keyword being read before. -/
theorem conditional_takes {ts rest : List Token} {s : Stmt}
    (h : conditional inner ts = some (s, rest)) : .keyword .IF :: ts = s.tokens ++ rest := by
  unfold conditional at h
  split at h
  · rename_i condition afterThen hcondition
    split at h
    · cases h
    rename_i thenBranch afterBranch hthen
    have helse := blockAfter_takes hinner .ELSE afterBranch
    rcases hoptional : blockAfter inner .ELSE afterBranch with ⟨elseBranch, afterElse⟩
    rw [hoptional] at h helse
    dsimp only at h
    split at h
    · cases h
      rw [expression_takes hcondition, block_takes hinner hthen, helse]
      rcases elseBranch with - | elseBranch <;> simp [Stmt.tokens]
    · cases h
  · cases h

/-- So does a loop that tests first. -/
theorem whileLoop_takes {ts rest : List Token} {s : Stmt}
    (h : whileLoop inner ts = some (s, rest)) : .keyword .WHILE :: ts = s.tokens ++ rest := by
  unfold whileLoop at h
  split at h
  · cases h
  rename_i condition afterCondition hcondition
  split at h
  · rename_i hbody
    cases h
    rw [expression_takes hcondition, block_takes hinner hbody]
    simp [Stmt.tokens]
  · cases h

theorem repeatLoop_takes {ts rest : List Token} {s : Stmt}
    (h : repeatLoop inner ts = some (s, rest)) : .keyword .REPEAT :: ts = s.tokens ++ rest := by
  unfold repeatLoop at h
  split at h
  · rename_i hbody
    obtain ⟨⟨condition, after⟩, hcondition, heq⟩ := Option.map_eq_some_iff.mp h
    cases heq
    rw [block_takes hinner hbody, expression_takes hcondition]
    simp [Stmt.tokens]
  · cases h

/-- A statement takes what it prints, by the token it begins with. -/
theorem statementOver_takes : (statementOver inner).Takes Stmt.tokens := by
  intro ts s rest hts
  unfold statementOver at hts
  -- one case for each word that starts a statement
  split at hts
  · exact assignmentTo_takes _ true hts
  · exact subroutineNamed_takes hinner _ hts
  · exact conditional_takes hinner hts
  · exact whileLoop_takes hinner hts
  · exact repeatLoop_takes hinner hts
  · obtain ⟨⟨e, after⟩, he, heq⟩ := Option.map_eq_some_iff.mp hts
    cases heq
    rw [expression_takes he]
    rfl
  · split at hts
    · rename_i hassign
      cases hts
      exact assignmentTo_takes _ false hassign
    · obtain ⟨⟨args, after⟩, hargs, heq⟩ := Option.map_eq_some_iff.mp hts
      cases heq
      rw [expression_takes.parenthesized hargs, Stmt.tokens, Expr.tokensOf_eq_map]
      simp
  · cases hts

end

theorem statementWithin_takes (depth : Nat) : (statementWithin depth).Takes Stmt.tokens := by
  induction depth with
  | zero =>
    intro ts s rest hts
    cases hts
  | succ depth ih => exact statementOver_takes ih

theorem statement_takes : statement.Takes Stmt.tokens := by
  intro ts s rest hts
  exact statementWithin_takes _ hts

/-- A program takes the printings of its statements. -/
theorem program_takes (ts : List Token) :
    ts = (program ts).1.flatMap Stmt.tokens ++ (program ts).2 :=
  statement_takes.many ts

end Grammar

/-! ### Texts -/

/-- Nothing is left unread just if all tokens are taken and the text is scanned to its end. -/
theorem Scan.unread?_eq_none_iff (s : Scan) {read rest : List Token}
    (h : s.sequence = read ++ rest) :
    s.unread? rest = none ↔ rest = [] ∧ s.complete = true := by
  have hlen : s.tokens.length = read.length + rest.length := by
    rw [← List.length_append, ← h, Scan.sequence, List.length_map]
  unfold Scan.unread?
  rcases rest with - | ⟨t, rest⟩
  · simp
  · -- what is dropped is what was read, so something is left exactly if `rest` is not empty
    have hdrop : (s.tokens.drop (s.tokens.length - (t :: rest).length)).length
        = rest.length + 1 := by
      rw [List.length_drop, hlen, List.length_cons]
      omega
    split
    · simp
    · rename_i hnil
      rw [hnil] at hdrop
      cases hdrop

/-- A text is accepted as a program only if its tokens are the tokens of that program. -/
theorem sequence_of_parseProgram {text : List Char} {statements : List Stmt}
    (h : parseProgram text = .ok statements) :
    (scanSource text).sequence = statements.flatMap Stmt.tokens
      ∧ (scanSource text).complete = true := by
  have htakes := Grammar.program_takes (scanSource text).sequence
  unfold parseProgram at h
  rcases hprogram : Grammar.program (scanSource text).sequence with ⟨read, rest⟩
  rw [hprogram] at htakes
  simp only [hprogram] at h
  -- a program is given only if nothing is left unread
  split at h
  · rename_i hunread
    cases h
    obtain ⟨rfl, hcomplete⟩ := (Scan.unread?_eq_none_iff _ htakes).mp hunread
    exact ⟨by rw [htakes, List.append_nil], hcomplete⟩
  · cases h

/-- A text is accepted as an expression only if its tokens are the tokens of that expression. -/
theorem sequence_of_parseExpression {text : List Char} {e : Expr}
    (h : parseExpression text = .ok e) :
    (scanSource text).sequence = e.tokens ∧ (scanSource text).complete = true := by
  unfold parseExpression at h
  dsimp only at h
  split at h
  · cases h
  rename_i read rest hread
  have htakes := Grammar.expression_takes hread
  split at h
  · rename_i hunread
    cases h
    obtain ⟨rfl, hcomplete⟩ := (Scan.unread?_eq_none_iff _ htakes).mp hunread
    exact ⟨by rw [htakes, List.append_nil], hcomplete⟩
  · cases h

end Pseudocode
