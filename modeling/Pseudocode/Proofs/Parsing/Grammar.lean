import Pseudocode.Proofs.ErrorPosition
import Pseudocode.Proofs.Parsing.Readers

/-!
The readers of programs do what the rules of the grammar say.

A statement is read by its first token, where the grammar has alternatives in an order. The token
decides between all of them but two: a name starts an assignment or a call, and both try the
assignment first. The readers of expressions and of statements are limited in how deeply brackets
and blocks may be nested, which the rules are not. Brackets and blocks take tokens, so the limit is
never felt.

Main results: from any tokens the rules for expressions, statements, blocks and programs end as
their readers do (`expression_follows`, `statement_follows`, `block_follows`, `program_rounds`).
-/

namespace Pseudocode

open Peg Reader Grammar

/-! ### Expressions -/

section

variable {inner : Reader Expr} {bound : Nat} (hinner : Follows bound (.rule .expression) inner)
  (htakes : inner.Takes Expr.tokens)
include hinner htakes

theorem ends_call (name : String) {ts : List Token} (hts : ts.length < bound + 1) :
    Ends (.rule .call) (.name name :: ts) ((parenthesized inner ts).map Prod.snd) :=
  .rule (.seq (ends_token rfl)
    (ends_last (hinner.parenthesized (htakes.advances Expr.tokens_ne_nil) ts hts)))

omit htakes in
/-- An expression in brackets is one if the closing bracket follows it. -/
theorem ends_bracket {ts : List Token} (hts : ts.length < bound) :
    Ends (.chain [Rule.sign .lparen, .rule .expression, Rule.sign .rparen]) (.lparen :: ts)
      ((operand inner (.lparen :: ts)).map Prod.snd) := by
  have hinside := hinner ts hts
  refine .seq ends_sign ?_
  rw [operand]
  rcases hread : inner ts with - | ⟨e, rest⟩
  · exact .broken (hinside.of_none hread)
  · refine .seq (hinside.of_some hread) ?_
    split
    · rename_i hclosed
      cases hclosed
      exact ends_last ends_sign
    · rename_i hclosed
      exact ends_last (ends_sign_none fun after hafter => hclosed e after (by rw [hafter]))

/-- The next token decides between the forms of an operand. -/
theorem operand_follows : Follows (bound + 1) (.rule .operand) (operand inner) := by
  rintro (- | ⟨t, ts⟩) hts
  · exact .rule (runs_oneOf_none rfl rfl)
  refine .rule ?_
  cases t with
  | number text => exact runs_oneOf_some rfl [] _ rfl (ends_token rfl)
  | boolean truth => exact runs_oneOf_some rfl [.token Rule.isNumber] _ rfl (ends_token rfl)
  | name name =>
    have hcall := ends_call hinner htakes name (Nat.lt_of_succ_lt hts)
    rw [operand]
    rcases hargs : parenthesized inner ts with - | ⟨args, after⟩
    · -- a name that is not called is a variable
      exact runs_oneOf_append rfl [.token Rule.isNumber, .token Rule.isBoolean] rfl
        (.second (hcall.of_none hargs) (.first (ends_token rfl)))
    · exact runs_oneOf_some rfl [.token Rule.isNumber, .token Rule.isBoolean] _ rfl
        (hcall.of_some hargs)
  | lparen =>
    exact runs_oneOf rfl [.token Rule.isNumber, .token Rule.isBoolean, .rule .call,
      .token Rule.isName] [] rfl (fun _ => rfl) (ends_bracket hinner (Nat.lt_of_succ_lt_succ hts))
  | _ => exact runs_oneOf_none rfl rfl

/-- The levels of operators, each over the operands of the level below. -/
theorem disjunction_follows : Follows (bound + 1) (.rule .expression) (disjunction inner) := by
  have hadvances : ∀ i, (readerAt inner i).Advances :=
    fun i => (readerAt_takes htakes i).advances Expr.tokens_ne_nil
  have hsigned : Follows (bound + 1) (.rule .signed) (signed inner) := by
    refine (operand_follows hinner htakes).prefixed rfl fun {t f} rest hf => ?_
    -- no operand starts with a sign
    cases t <;> first | rfl | cases hf
  have hproduct : Follows (bound + 1) (.rule .product) (product inner) :=
    hsigned.leftAssociative rfl (hadvances 1)
  have hsum : Follows (bound + 1) (.rule .sum) (sum inner) :=
    hproduct.leftAssociative rfl (hadvances 2)
  have hcomparison : Follows (bound + 1) (.rule .comparison) (comparison inner) :=
    hsum.leftAssociative rfl (hadvances 3)
  have hnegation : Follows (bound + 1) (.rule .negation) (negation inner) := by
    refine hcomparison.prefixed rfl fun {t f} rest hf => ?_
    unfold notOperator? at hf
    split at hf <;> cases hf
    rfl
  have hconjunction : Follows (bound + 1) (.rule .conjunction) (conjunction inner) :=
    hnegation.leftAssociative rfl (hadvances 5)
  exact hconjunction.leftAssociative rfl (hadvances 6)

end

/-- A reader for expressions of so much nesting ends as the rule does on so few tokens. -/
theorem expressionWithin_follows (depth : Nat) :
    Follows depth (.rule .expression) (expressionWithin depth) := by
  induction depth with
  | zero => nofun
  | succ depth ih => exact disjunction_follows ih (expressionWithin_takes depth)

/-- The rule for expressions ends as their reader does. -/
theorem expression_follows (ts : List Token) :
    Ends (.rule .expression) ts ((expression ts).map Prod.snd) :=
  expressionWithin_follows (ts.length + 1) ts (Nat.lt_succ_self _)

/-! ### Statements -/

theorem name_follows (bound : Nat) : Follows bound (.token Rule.isName) name := by
  intro ts hts
  unfold name
  split
  · exact ends_token rfl
  · rename_i hname
    refine ends_token_none fun t ht => ?_
    obtain ⟨rest, rfl⟩ := List.head?_eq_some_iff.mp ht
    cases t with
    | name text => exact absurd rfl (hname text rest)
    | _ => rfl

/-- What stands behind the target of an assignment. -/
theorem assignmentTo_ends (target : String) (constant : Bool) (ts : List Token) :
    Ends (.chain [Rule.sign .arrow, .rule .expression]) ts
      ((assignmentTo target constant ts).map Prod.snd) := by
  unfold assignmentTo
  split
  · rename_i rest
    have hvalue := expression_follows rest
    rw [Option.map_map]
    exact .seq ends_sign (ends_last hvalue)
  · rename_i harrow
    exact .broken (ends_sign_none harrow)

/-- A return value is absent if its keyword or its expression is. -/
theorem optionalReturn_ends (ts : List Token) :
    Ends (.optional (.chain [Rule.keyword .RETURN, .rule .expression])) ts
      (some (optionalReturn ts).2) := by
  unfold optionalReturn
  split
  · rename_i rest
    have hvalue := expression_follows rest
    rcases hread : expression rest with - | ⟨e, after⟩
    · exact ends_optional_none (.seq ends_sign (.broken (hvalue.of_none hread)))
    · exact .first (.seq ends_sign (ends_last (hvalue.of_some hread)))
  · rename_i hreturn
    exact ends_optional_none (.broken (ends_sign_none hreturn))

section

variable {inner : Reader Stmt} {bound : Nat} (hinner : Follows bound (.rule .statement) inner)
  (hadvances : inner.Advances)
include hinner hadvances

/-- A block is a statement and as many more as there are. -/
theorem Follows.block : Follows bound (.rule .block) (block inner) := by
  intro ts hts
  refine .rule ?_
  unfold Grammar.block
  rcases hfirst : inner ts with - | ⟨first, rest⟩
  · exact .broken ((hinner ts hts).of_none hfirst)
  · have hlt := hadvances hfirst
    exact .seq ((hinner ts hts).of_some hfirst)
      (ends_last (hinner.many hadvances (Nat.lt_trans hlt hts)))

variable {ts : List Token} (hts : ts.length < bound)
include hts

/-- A block is absent if its first statement is. -/
theorem optionalBlock_ends :
    Ends (.optional (.rule .block)) ts (some (optionalBlock inner ts).2) := by
  have hblock := hinner.block hadvances ts hts
  unfold optionalBlock
  rcases hread : block inner ts with - | ⟨b, rest⟩
  · exact ends_optional_none (hblock.of_none hread)
  · exact .first (hblock.of_some hread)

/-- A block behind a keyword is absent if either of the two is. -/
theorem blockAfter_ends (word : Keyword) :
    Ends (.optional (.chain [Rule.keyword word, .rule .block])) ts
      (some (blockAfter inner word ts).2) := by
  have hno : (∀ rest, ts ≠ .keyword word :: rest) →
      Ends (.optional (.chain [Rule.keyword word, .rule .block])) ts (some ts) :=
    fun hword => ends_optional_none (.broken (ends_sign_none hword))
  -- the keyword is there with a block, there without one, or not there
  unfold blockAfter
  split
  · rename_i k rest
    split
    · rename_i hk
      subst hk
      have hblock := hinner.block hadvances rest (Nat.lt_of_succ_lt hts)
      rcases hread : block inner rest with - | ⟨b, after⟩
      · exact ends_optional_none (.seq ends_sign (.broken (hblock.of_none hread)))
      · exact .first (.seq ends_sign (ends_last (hblock.of_some hread)))
    · rename_i hk
      exact hno fun _ hrest => hk (Token.keyword.inj (List.cons.inj hrest).1)
  · rename_i hword
    exact hno fun rest => hword word rest

/-- What stands behind the name of a subroutine: parameters, a body, a return value and the end. -/
theorem subroutineNamed_ends (title : String) :
    Ends (.chain [Rule.bracketed (.token Rule.isName), .optional (.rule .block),
        .optional (.chain [Rule.keyword .RETURN, .rule .expression]),
        Rule.keyword .ENDSUBROUTINE]) ts
      ((subroutineNamed inner title ts).map Prod.snd) := by
  have hname : name.Advances := name_takes.advances fun _ => List.cons_ne_nil _ _
  have hparams := (name_follows bound).parenthesized hname ts (Nat.lt_succ_of_lt hts)
  unfold subroutineNamed
  rcases hread : parenthesized name ts with - | ⟨params, rest⟩
  · exact .broken (hparams.of_none hread)
  have hparams := hparams.of_some hread
  have hlength := hparams.length_le
  have hbody := optionalBlock_ends hinner hadvances (Nat.lt_of_le_of_lt hlength hts)
  have hret := optionalReturn_ends (optionalBlock inner rest).2
  -- the body and the return value may be absent, so only the end can be missing
  refine .seq hparams (.seq hbody (.seq hret ?_))
  dsimp only
  split
  · rename_i after hend
    rw [hend]
    exact ends_last ends_sign
  · rename_i hend
    exact ends_last (ends_sign_none hend)

/-- What stands behind the first keyword of a conditional statement. -/
theorem conditional_ends :
    Ends (.chain [.rule .expression, Rule.keyword .THEN, .rule .block,
        .optional (.chain [Rule.keyword .ELSE, .rule .block]), Rule.keyword .ENDIF]) ts
      ((conditional inner ts).map Prod.snd) := by
  have hcondition := expression_follows ts
  unfold conditional
  split
  · rename_i condition rest hread
    have hcondition := hcondition.of_some hread
    -- the branches are read from fewer tokens than the statement, so the bound is kept
    have hlength := hcondition.length_le
    rw [List.length_cons] at hlength
    refine .seq hcondition (.seq ends_sign ?_)
    have hthen := hinner.block hadvances rest (by omega)
    rcases hread : block inner rest with - | ⟨thenBranch, after⟩
    · exact .broken (hthen.of_none hread)
    have hthen := hthen.of_some hread
    have hle := hthen.length_le
    refine .seq hthen (.seq (blockAfter_ends hinner hadvances (by omega) .ELSE) ?_)
    dsimp only
    split
    · rename_i more hend
      rw [hend]
      exact ends_last ends_sign
    · rename_i hend
      exact ends_last (ends_sign_none hend)
  · rename_i hthen
    rcases hread : expression ts with - | ⟨condition, rest⟩
    · exact .broken (hcondition.of_none hread)
    · refine .seq (hcondition.of_some hread) (.broken (ends_sign_none fun more hrest => ?_))
      exact hthen condition more (by rw [hread, hrest])

/-- What stands behind the first keyword of a loop that tests first. -/
theorem whileLoop_ends :
    Ends (.chain [.rule .expression, .rule .block, Rule.keyword .ENDWHILE]) ts
      ((whileLoop inner ts).map Prod.snd) := by
  have hcondition := expression_follows ts
  unfold whileLoop
  rcases hread : expression ts with - | ⟨condition, rest⟩
  · exact .broken (hcondition.of_none hread)
  have hcondition := hcondition.of_some hread
  have hlength := hcondition.length_le
  have hbody := hinner.block hadvances rest (Nat.lt_of_le_of_lt hlength hts)
  refine .seq hcondition ?_
  dsimp only
  split
  · rename_i body after hread
    exact .seq (hbody.of_some hread) (ends_last ends_sign)
  · -- the reader gives nothing: there is no body, or it is not closed
    rename_i hend
    rcases hread : block inner rest with - | ⟨body, after⟩
    · exact .broken (hbody.of_none hread)
    · refine .seq (hbody.of_some hread) (ends_last (ends_sign_none fun more hafter => ?_))
      exact hend body more (by rw [hread, hafter])

/-- What stands behind the first keyword of a loop that tests last. -/
theorem repeatLoop_ends :
    Ends (.chain [.rule .block, Rule.keyword .UNTIL, .rule .expression]) ts
      ((repeatLoop inner ts).map Prod.snd) := by
  have hbody := hinner.block hadvances ts hts
  unfold repeatLoop
  split
  · rename_i body rest hread
    rw [Option.map_map]
    exact .seq (hbody.of_some hread) (.seq ends_sign (ends_last (expression_follows rest)))
  · rename_i huntil
    rcases hread : block inner ts with - | ⟨body, rest⟩
    · exact .broken (hbody.of_none hread)
    · refine .seq (hbody.of_some hread) (.broken (ends_sign_none fun more hrest => ?_))
      exact huntil body more (by rw [hread, hrest])

end

section

variable {t : Token} {ts : List Token} {r : Option (List Token)}

/-- The next token may shut the first forms of a statement. -/
theorem ends_statement_of_append (before : List Rule) {forms : List Rule}
    (hforms : Rule.forms = before ++ forms)
    (hbefore : (before.all fun form => form.body.refuses (some t)) = true)
    (h : Ends (.oneOf (forms.map .rule)) (t :: ts) r) : Ends (.rule .statement) (t :: ts) r := by
  have hshut : (before.map Peg.rule).all (shut Rule.body (some t)) = true := by
    rw [List.all_map]
    exact hbefore
  refine .rule ?_
  rw [Rule.body, hforms, List.map_append]
  exact runs_oneOf_append rfl _ hshut h

/-- A form decides, if the next token shuts the forms before it, and those behind it in case it
fails. -/
theorem ends_statement (before after : List Rule) {form : Rule}
    (hforms : Rule.forms = before ++ form :: after)
    (hbefore : (before.all fun form => form.body.refuses (some t)) = true)
    (hafter : r = none → (after.all fun form => form.body.refuses (some t)) = true)
    (h : Ends (.rule form) (t :: ts) r) : Ends (.rule .statement) (t :: ts) r := by
  refine ends_statement_of_append before hforms hbefore ?_
  refine runs_oneOf (rfl : (front? (t :: ts)).map Prod.fst = some t) [] _ rfl (fun hr => ?_) h
  rw [List.all_map]
  exact hafter hr

end

section

variable {inner : Reader Stmt} {bound : Nat} (hinner : Follows bound (.rule .statement) inner)
  (hadvances : inner.Advances)

omit hinner hadvances in
/-- An assignment of a constant, from its keyword on. -/
theorem constant_ends (ts : List Token) :
    Ends (.rule .constant) (.keyword .CONSTANT :: ts)
      ((statementOver inner (.keyword .CONSTANT :: ts)).map Prod.snd) := by
  refine .rule (.seq ends_sign ?_)
  rcases ts with - | ⟨t, ts⟩
  · exact .broken (runs_none_of_refuses rfl rfl)
  cases t with
  | name target => exact .seq (ends_token rfl) (assignmentTo_ends target true ts)
  | _ => exact .broken (runs_none_of_refuses rfl rfl)

omit hinner hadvances in
/-- A statement that begins with a name is an assignment or else a call. -/
theorem named_ends (target : String) (ts : List Token) :
    Ends (.rule .statement) (.name target :: ts)
      ((statementOver inner (.name target :: ts)).map Prod.snd) := by
  have hassignment : Ends (.rule .assignment) (.name target :: ts)
      ((assignmentTo target false ts).map Prod.snd) :=
    .rule (.seq (ends_token rfl) (assignmentTo_ends target false ts))
  have hcall := ends_call (fun us _ => expression_follows us) expression_takes target
    (Nat.lt_succ_self ts.length)
  rw [statementOver]
  -- the forms that start with a word are shut, so the assignment is tried first and then the call
  refine ends_statement_of_append [.constant, .subroutine, .conditional, .whileLoop, .repeatLoop,
    .output] rfl rfl ?_
  rcases hread : assignmentTo target false ts with - | result
  · rw [Option.map_map]
    exact .second (hassignment.of_none hread) (runs_oneOf rfl [] [] rfl (fun _ => rfl) hcall)
  · exact .first (hassignment.of_some hread)

include hinner hadvances

/-- A definition, from its keyword on; its name has to follow at once. -/
theorem subroutine_ends {ts : List Token} (hts : ts.length < bound + 1) :
    Ends (.rule .subroutine) (.keyword .SUBROUTINE :: ts)
      ((statementOver inner (.keyword .SUBROUTINE :: ts)).map Prod.snd) := by
  refine .rule (.seq ends_sign ?_)
  rcases ts with - | ⟨t, ts⟩
  · exact .broken (runs_none_of_refuses rfl rfl)
  cases t with
  | name title =>
    exact .seq (ends_token rfl)
      (subroutineNamed_ends hinner hadvances (Nat.lt_of_succ_lt_succ hts) title)
  | _ => exact .broken (runs_none_of_refuses rfl rfl)

/-- The next token decides between the forms of a statement. -/
theorem statementOver_follows :
    Follows (bound + 1) (.rule .statement) (statementOver inner) := by
  rintro (- | ⟨t, ts⟩) hts
  · exact .rule (runs_oneOf_none rfl rfl)
  replace hts : ts.length < bound := Nat.lt_of_succ_lt_succ hts
  -- each keyword shuts the forms that begin with others; a name leaves two of them open
  cases t with
  | keyword k =>
    cases k with
    | CONSTANT => exact ends_statement [] _ rfl rfl (fun _ => rfl) (constant_ends ts)
    | SUBROUTINE =>
      exact ends_statement [.constant] _ rfl rfl (fun _ => rfl)
        (subroutine_ends hinner hadvances (Nat.lt_succ_of_lt hts))
    | IF =>
      exact ends_statement [.constant, .subroutine] _ rfl rfl (fun _ => rfl)
        (.rule (.seq ends_sign (conditional_ends hinner hadvances hts)))
    | WHILE =>
      exact ends_statement [.constant, .subroutine, .conditional] _ rfl rfl (fun _ => rfl)
        (.rule (.seq ends_sign (whileLoop_ends hinner hadvances hts)))
    | REPEAT =>
      exact ends_statement [.constant, .subroutine, .conditional, .whileLoop] _ rfl rfl
        (fun _ => rfl) (.rule (.seq ends_sign (repeatLoop_ends hinner hadvances hts)))
    | OUTPUT =>
      rw [statementOver, Option.map_map]
      exact ends_statement [.constant, .subroutine, .conditional, .whileLoop, .repeatLoop] _ rfl
        rfl (fun _ => rfl) (.rule (.seq ends_sign (ends_last (expression_follows ts))))
    | _ => exact .rule (runs_oneOf_none rfl rfl)
  | name target => exact named_ends target ts
  | _ => exact .rule (runs_oneOf_none rfl rfl)

end

/-- A reader for statements of so much nesting ends as the rule does on so few tokens. -/
theorem statementWithin_follows (depth : Nat) :
    Follows depth (.rule .statement) (statementWithin depth) := by
  induction depth with
  | zero => nofun
  | succ depth ih => exact statementOver_follows ih (statementWithin_advances depth)

/-- The rule for statements ends as their reader does. -/
theorem statement_follows (ts : List Token) :
    Ends (.rule .statement) ts ((statement ts).map Prod.snd) :=
  statementWithin_follows (ts.length + 1) ts (Nat.lt_succ_self _)

/-- The rule for blocks ends as their reader does. -/
theorem block_follows (ts : List Token) :
    Ends (.rule .block) ts ((block statement ts).map Prod.snd) := by
  have hstatement : Follows (ts.length + 1) (.rule .statement) statement :=
    fun us _ => statement_follows us
  exact hstatement.block statement_advances ts (Nat.lt_succ_self _)

/-- The rule for programs has a round for each statement that the reader reads. -/
theorem program_rounds (ts : List Token) :
    Rounds front? Rule.body (.rule .statement) (program ts).1.length ts (program ts).2 := by
  have hstatement : Follows (ts.length + 1) (.rule .statement) statement :=
    fun us _ => statement_follows us
  exact hstatement.rounds statement_advances (Nat.lt_succ_self _)

end Pseudocode
