import Mathlib.Data.List.Chain
import Pseudocode.Proofs.RoundTrip
import Pseudocode.Proofs.Truncation

/-!
The words in a program.

A name is a letter and further word characters, a number is made of digits, and a truth value is one
of two words. So the text of a leaf tells what it is, with one exception: directly behind a number,
a truth value is read as a name. But an expression never starts behind a number, nor does any
operand in it. What can be called `True` is a subroutine, or the target of an assignment.

Design. `Token.Leads t u` says what a token `t` allows of the token `u` behind it. The tokens of a
text are a chain of this relation, whatever stands before them, and so is every part of them.

Main results: `legible_of_parseProgram` and `legible_of_parseExpression`.
-/

namespace Pseudocode

/-! ### Chains of tokens -/

/-- The token `u` can be read behind `t`: its text is well formed, and if it is a name that is
reserved, it touches a number. -/
def Token.Leads (t : Token) : Token → Prop
  | .name x => IsIdentifier x ∧ (IsReserved x → ∃ s, t = .number s)
  | .number s => IsNumeral s
  | _ => True

/-- A token that is read may follow a token, if a reserved word is only read as a name behind a
number. -/
theorem leads_of_reached {cs : List Char} {c : Cursor} {l : Lexeme} {t : Token} (hc : Reached cs c)
    (hl : c.skip.lexeme? = some l)
    (hreserved : ∀ x, l.token = .name x → IsReserved x → ∃ s, t = .number s) : t.Leads l.token := by
  -- only names and numbers have a spelling that could be wrong
  rcases htoken : l.token with _ | _ | x | s | _ | _ | _ | _ | _ | _ | _ | _ | _
  case name =>
    refine ⟨?_, hreserved x htoken⟩
    have hmem := mem_scan_tokens_iff.mpr ⟨c, l, hc, hl, rfl⟩
    rw [htoken] at hmem
    exact isIdentifier_of_mem_scan hmem
  case number =>
    obtain ⟨⟨d, rest, hrest, hd⟩, rfl, htext⟩ := number_of_lex? hl htoken
    rw [Token.Leads, IsNumeral, htext]
    exact Lexeme.number_cases hrest hd
  all_goals trivial

/-- The tokens that are read up to a cursor, behind any other token. -/
theorem ReadTo.isChain {cs : List Char} (hcomplete : (scan cs).complete = true) {ts : List Token}
    {c : Cursor} (h : ReadTo cs ts c) (t : Token) : List.IsChain Token.Leads (t :: ts) := by
  induction h with
  | start => exact .singleton t
  | @past ts c l hc hl ih =>
    rw [← List.cons_append, List.isChain_append]
    refine ⟨ih, .singleton _, ?_⟩
    rintro u hu _ ⟨⟩
    apply leads_of_reached hc.reached hl
    intro x htoken hx
    obtain ⟨htouched, -, d, rest, hrest, hd⟩ :=
      hc.reached.touched_of_reserved hcomplete hl hx htoken
    -- a token ends where the word starts, and only a number can be followed by a letter
    cases hc with
    | start => cases htouched
    | @past ts b m _ hm =>
      obtain ⟨e, he, hglue⟩ := (Option.any_eq_true _ _).mp htouched
      rw [← List.cons_append, List.getLast?_concat] at hu
      obtain ⟨hnumber, -⟩ := number_of_touching hm he hglue hrest hd
      exact ⟨_, (Option.some.inj hu).symm.trans hnumber⟩

theorem isChain_sequence {text : List Char} (hcomplete : (scanSource text).complete = true)
    (t : Token) : List.IsChain Token.Leads (t :: (scanSource text).sequence) := by
  obtain ⟨c, hc⟩ := exists_readTo (List.append_nil _).symm
  exact hc.isChain hcomplete t

section

variable {t : Token} {ts us : List Token}

/-- Names in a chain are identifiers. -/
theorem isIdentifier_of_isChain (h : List.IsChain Token.Leads (t :: ts)) {x : String}
    (hx : .name x ∈ ts) : IsIdentifier x := by
  obtain ⟨before, after, rfl⟩ := List.append_of_mem hx
  rw [← List.cons_append, List.isChain_append] at h
  obtain ⟨u, hu⟩ : ∃ u, (t :: before).getLast? = some u :=
    ⟨_, List.getLast?_eq_some_getLast (List.cons_ne_nil _ _)⟩
  exact (h.2.2 u hu _ rfl).1

theorem isChain_part (h : List.IsChain Token.Leads ts) (hpart : us <:+: ts) :
    List.IsChain Token.Leads us := List.IsChain.infix h hpart

/-- A part of a chain is a chain behind the token before it. -/
theorem exists_isChain (us : List Token) (h : List.IsChain Token.Leads (t :: ts))
    (hpart : us <:+: ts) :
    ∃ u, List.IsChain Token.Leads (u :: us) := by
  obtain ⟨before, after, rfl⟩ := hpart
  obtain ⟨front, u, hfront⟩ : ∃ front u, t :: before = front ++ [u] :=
    ⟨_, _, (List.dropLast_append_getLast (List.cons_ne_nil _ _)).symm⟩
  refine ⟨u, isChain_part h ⟨front, after, ?_⟩⟩
  calc front ++ u :: us ++ after
      = front ++ [u] ++ us ++ after := by simp
    _ = t :: (before ++ us ++ after) := by rw [← hfront]; simp

/-- Lists with commas between them are chains, behind a comma or what stands before the first. -/
theorem isChain_of_commaSeparated {tss : List (List Token)}
    (h : List.IsChain Token.Leads (t :: commaSeparated tss)) (ht : ∀ s, t ≠ .number s)
    (hts : ts ∈ tss) : ∃ u, (∀ s, u ≠ .number s) ∧ List.IsChain Token.Leads (u :: ts) := by
  fun_induction commaSeparated tss generalizing t with
  | case1 => cases hts
  | case2 us =>
    cases List.mem_singleton.mp hts
    exact ⟨t, ht, h⟩
  | case3 us rest _ ih =>
    rcases List.mem_cons.mp hts with rfl | hts
    · exact ⟨t, ht, isChain_part h ⟨[], .comma :: commaSeparated rest, by simp⟩⟩
    · have hcomma : ∀ s, Token.comma ≠ .number s := fun s => by simp
      exact ih (isChain_part h ⟨t :: us, [], by simp⟩) hcomma hts

/-- No argument of a call stands directly behind a number. -/
theorem isChain_argument {name : String} {args : List Expr} (h : List.IsChain Token.Leads
      (t :: (.name name :: .lparen :: commaSeparated (Expr.tokensOf args) ++ [.rparen])))
    {a : Expr} (ha : a ∈ args) :
    ∃ u, (∀ s, u ≠ .number s) ∧ List.IsChain Token.Leads (u :: a.tokens) := by
  rw [Expr.tokensOf_eq_map] at h
  have hargs : List.IsChain Token.Leads (.lparen :: commaSeparated (args.map Expr.tokens)) :=
    isChain_part h ⟨[t, .name name], [.rparen], by simp⟩
  exact isChain_of_commaSeparated hargs nofun (List.mem_map_of_mem ha)

end

/-! ### Legible programs -/

/-- The texts of the leaves of an expression tell what they are. -/
inductive Expr.Legible : Expr → Prop
  | number {s : String} : IsNumeral s → Legible (.number s)
  | boolean (truth : Bool) : Legible (.boolean truth)
  | reference {x : String} : IsIdentifier x → ¬ IsReserved x → Legible (.reference x)
  | call {name : String} {args : List Expr} : IsIdentifier name → (∀ a ∈ args, Legible a) →
    Legible (.call name args)
  | bracket {inner : Expr} : Legible inner → Legible (.bracket inner)
  | unary (op : UnaryOp) {e : Expr} : Legible e → Legible (.unary op e)
  | binary (op : BinaryOp) {l r : Expr} : Legible l → Legible r → Legible (.binary op l r)
  | relation (rel : Relation) {l r : Expr} : Legible l → Legible r → Legible (.relation rel l r)

mutual

/-- A statement with names that are identifiers, and with legible expressions. -/
def Stmt.Legible : Stmt → Prop
  | .assign name _ value => IsIdentifier name ∧ value.Legible
  | .subroutine name params none ret =>
    IsIdentifier name ∧ (∀ p ∈ params, IsIdentifier p) ∧ ∀ e ∈ ret, e.Legible
  | .subroutine name params (some body) ret =>
    IsIdentifier name ∧ (∀ p ∈ params, IsIdentifier p) ∧ body.Legible ∧ ∀ e ∈ ret, e.Legible
  | .conditional condition thenBranch none => condition.Legible ∧ thenBranch.Legible
  | .conditional condition thenBranch (some elseBranch) =>
    condition.Legible ∧ thenBranch.Legible ∧ elseBranch.Legible
  | .whileLoop condition body => condition.Legible ∧ body.Legible
  | .repeatLoop body condition => body.Legible ∧ condition.Legible
  | .output value => value.Legible
  | .call name args => IsIdentifier name ∧ ∀ a ∈ args, a.Legible

/-- A block of legible statements. -/
def Block.Legible : Block → Prop
  | .one statement => statement.Legible
  | .cons statement rest => statement.Legible ∧ rest.Legible

end

/-- An operator is written as one token, which is no number. -/
theorem UnaryOp.exists_token {op : UnaryOp} {i : Nat} (h : op.level? = some i) :
    ∃ t, (∀ s, t ≠ .number s) ∧ op.tokens = [t] := by
  cases op <;> cases h <;> refine ⟨_, ?_, rfl⟩ <;> nofun

theorem BinaryOp.exists_token {op : BinaryOp} {i : Nat} (h : op.level? = some i) :
    ∃ t, (∀ s, t ≠ .number s) ∧ op.tokens = [t] := by
  cases op <;> cases h <;> refine ⟨_, ?_, rfl⟩ <;> nofun

/-- An expression is legible where it is not read directly behind a number. -/
theorem Expr.At.legible {i : Nat} {e : Expr} (he : e.At i) {t : Token}
    (ht : ∀ s, t ≠ .number s) (h : List.IsChain Token.Leads (t :: e.tokens)) : e.Legible := by
  induction he generalizing t with
  | number s =>
    rw [tokens, List.isChain_pair] at h
    exact .number h
  | boolean b => exact .boolean b
  | reference x =>
    rw [tokens, List.isChain_pair] at h
    refine .reference h.1 fun hx => ?_
    obtain ⟨s, hs⟩ := h.2 hx
    exact ht s hs
  | @call name args _ ih =>
    rw [tokens] at h
    refine .call (isIdentifier_of_isChain h (by simp)) fun a ha => ?_
    obtain ⟨u, hu, hchain⟩ := isChain_argument h ha
    exact ih a ha hu hchain
  | bracket _ ih =>
    rw [tokens] at h
    exact .bracket (ih (t := .lparen) nofun (isChain_part h ⟨[t], [.rparen], by simp⟩))
  | tighter _ ih => exact ih ht h
  | @unary i op e hlevel _ ih =>
    obtain ⟨u, hu, htoken⟩ := UnaryOp.exists_token hlevel
    rw [tokens, htoken] at h
    exact .unary op (ih hu (isChain_part h ⟨[t], [], by simp⟩))
  | @binary i op l r hlevel _ _ ihl ihr =>
    -- the left operand stands where the whole stands, the right one behind the operator
    obtain ⟨u, hu, htoken⟩ := BinaryOp.exists_token hlevel
    rw [tokens, htoken] at h
    refine .binary op (ihl ht (isChain_part h ⟨[], u :: r.tokens, by simp⟩)) ?_
    exact ihr hu (isChain_part h ⟨t :: l.tokens, [], by simp⟩)
  | @relation rel l r _ _ ihl ihr =>
    rw [tokens] at h
    refine .relation rel (ihl ht (isChain_part h ⟨[], .relation rel :: r.tokens, by simp⟩)) ?_
    exact ihr (t := .relation rel) nofun (isChain_part h ⟨t :: l.tokens, [], by simp⟩)

/-- What stands behind the keyword of a return is legible. -/
theorem Expr.legible_return {ret : Option Expr} (hret : ∀ e ∈ ret, e.Levelled) {t : Token}
    (h : List.IsChain Token.Leads (t :: Expr.returnTokens ret)) : ∀ e ∈ ret, e.Legible := by
  rintro e rfl
  exact Expr.At.legible (t := .keyword .RETURN) (hret e rfl) nofun h.tail

mutual

/-- A statement is legible wherever it is read. -/
theorem Stmt.legible : (s : Stmt) → s.Levelled → ∀ {t : Token},
    List.IsChain Token.Leads (t :: s.tokens) → s.Legible
  | .assign name constant value, hs, t, h => by
    rw [Stmt.tokens] at h
    refine ⟨isIdentifier_of_isChain h (by simp), ?_⟩
    apply Expr.At.legible (t := .arrow) hs nofun
    exact isChain_part h
      ⟨t :: (if constant then [.keyword .CONSTANT] else []) ++ [.name name], [], by simp⟩
  -- in front of every part stands a sign or a keyword, which is no number
  | .subroutine name params none ret, hs, t, h => by
    rw [Stmt.tokens] at h
    refine ⟨isIdentifier_of_isChain h (by simp), fun p hp => ?_, ?_⟩
    · exact isIdentifier_of_isChain h (by simp [name_mem_parameters, hp])
    · apply Expr.legible_return (t := .rparen) hs
      exact isChain_part h ⟨t :: .keyword .SUBROUTINE :: .name name :: .lparen
        :: commaSeparated (params.map fun p => [.name p]), [.keyword .ENDSUBROUTINE], by simp⟩
  | .subroutine name params (some body) ret, hs, t, h => by
    rw [Stmt.tokens] at h
    refine ⟨isIdentifier_of_isChain h (by simp), fun p hp => ?_, ?_, ?_⟩
    · exact isIdentifier_of_isChain h (by simp [name_mem_parameters, hp])
    · apply body.legible (t := .rparen) hs.1
      exact isChain_part h ⟨t :: .keyword .SUBROUTINE :: .name name :: .lparen
        :: commaSeparated (params.map fun p => [.name p]),
        Expr.returnTokens ret ++ [.keyword .ENDSUBROUTINE], by simp⟩
    · obtain ⟨u, hu⟩ := exists_isChain (Expr.returnTokens ret) h
        ⟨.keyword .SUBROUTINE :: .name name :: .lparen
          :: commaSeparated (params.map fun p => [.name p]) ++ .rparen :: body.tokens,
          [.keyword .ENDSUBROUTINE], by simp⟩
      exact Expr.legible_return hs.2 hu
  | .conditional condition thenBranch none, hs, t, h => by
    rw [Stmt.tokens] at h
    constructor
    · apply Expr.At.legible (t := .keyword .IF) hs.1 nofun
      exact isChain_part h ⟨[t], .keyword .THEN :: thenBranch.tokens ++ [.keyword .ENDIF], by simp⟩
    · apply thenBranch.legible (t := .keyword .THEN) hs.2
      exact isChain_part h ⟨t :: .keyword .IF :: condition.tokens, [.keyword .ENDIF], by simp⟩
  | .conditional condition thenBranch (some elseBranch), hs, t, h => by
    rw [Stmt.tokens] at h
    refine ⟨?_, ?_, ?_⟩
    · apply Expr.At.legible (t := .keyword .IF) hs.1 nofun
      exact isChain_part h ⟨[t], .keyword .THEN :: thenBranch.tokens
        ++ .keyword .ELSE :: elseBranch.tokens ++ [.keyword .ENDIF], by simp⟩
    · apply thenBranch.legible (t := .keyword .THEN) hs.2.1
      exact isChain_part h ⟨t :: .keyword .IF :: condition.tokens,
        .keyword .ELSE :: elseBranch.tokens ++ [.keyword .ENDIF], by simp⟩
    · apply elseBranch.legible (t := .keyword .ELSE) hs.2.2
      exact isChain_part h ⟨t :: .keyword .IF :: condition.tokens
        ++ .keyword .THEN :: thenBranch.tokens, [.keyword .ENDIF], by simp⟩
  | .whileLoop condition body, hs, t, h => by
    rw [Stmt.tokens] at h
    constructor
    · apply Expr.At.legible (t := .keyword .WHILE) hs.1 nofun
      exact isChain_part h ⟨[t], body.tokens ++ [.keyword .ENDWHILE], by simp⟩
    · obtain ⟨u, hu⟩ := exists_isChain body.tokens h
        ⟨.keyword .WHILE :: condition.tokens, [.keyword .ENDWHILE], by simp⟩
      exact body.legible hs.2 hu
  | .repeatLoop body condition, hs, t, h => by
    rw [Stmt.tokens] at h
    constructor
    · apply body.legible (t := .keyword .REPEAT) hs.1
      exact isChain_part h ⟨[t], .keyword .UNTIL :: condition.tokens, by simp⟩
    · apply Expr.At.legible (t := .keyword .UNTIL) hs.2 nofun
      exact isChain_part h ⟨t :: .keyword .REPEAT :: body.tokens, [], by simp⟩
  | .output value, hs, t, h => by
    rw [Stmt.tokens] at h
    exact Expr.At.legible (t := .keyword .OUTPUT) hs nofun h.tail
  | .call name args, hs, t, h => by
    rw [Stmt.tokens] at h
    refine ⟨isIdentifier_of_isChain h (by simp), fun a ha => ?_⟩
    obtain ⟨u, hu, hchain⟩ := isChain_argument h ha
    exact Expr.At.legible (hs a ha) hu hchain

/-- A block is legible wherever it is read. -/
theorem Block.legible : (b : Block) → b.Levelled → ∀ {t : Token},
    List.IsChain Token.Leads (t :: b.tokens) → b.Legible
  | .one statement, hb, t, h => statement.legible hb h
  | .cons statement rest, hb, t, h => by
    rw [Block.tokens] at h
    obtain ⟨u, hu⟩ := exists_isChain rest.tokens h ⟨statement.tokens, [], by simp⟩
    exact ⟨statement.legible (t := t) hb.1 (isChain_part h ⟨[], rest.tokens, by simp⟩),
      rest.legible hb.2 hu⟩

end

/-! ### Texts -/

/-- Statements that are read from a text are legible. -/
theorem legible_of_parseProgram {text : List Char} {statements : List Stmt}
    (h : parseProgram text = .ok statements) : ∀ s ∈ statements, s.Legible := by
  obtain ⟨hsequence, hcomplete⟩ := sequence_of_parseProgram h
  have hchain := isChain_sequence hcomplete .comma
  rw [hsequence] at hchain
  intro s hs
  obtain ⟨before, after, rfl⟩ := List.append_of_mem hs
  obtain ⟨u, hu⟩ := exists_isChain s.tokens hchain
    ⟨before.flatMap Stmt.tokens, after.flatMap Stmt.tokens, by simp⟩
  exact s.legible (levelled_of_parseProgram h s hs) hu

theorem legible_of_parseExpression {text : List Char} {e : Expr}
    (h : parseExpression text = .ok e) : e.Legible := by
  obtain ⟨hsequence, hcomplete⟩ := sequence_of_parseExpression h
  have hchain := isChain_sequence hcomplete .comma
  rw [hsequence] at hchain
  exact Expr.At.legible (t := .comma) (levelled_of_parseExpression h) nofun hchain

end Pseudocode
