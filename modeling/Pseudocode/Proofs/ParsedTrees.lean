import Mathlib.Data.List.TakeWhile
import Pseudocode.Proofs.Names
import Pseudocode.Proofs.SlotTable

/-!
Trees read from a text satisfy the table of properties and slots.

Two things are left to the text: that the numbers in it can be read, and that the names in it are
not empty. Both are questions about single tokens (`Token.WellSpelt`), and the scanner answers them.
Everything else is in the shape of a program, which fills the slots of each node as the evaluator
wants them.

Main result: `conforms_of_readAs`.
-/

namespace Pseudocode

open Text

/-! ### Numbers -/

/-- A digit of a script is so many places behind the zero of the script. -/
theorem exists_zero_of_digitIn {zs : List Nat} {n : Nat} (h : (digitIn zs n).isSome = true) :
    ∃ z ∈ zs, ∃ d < 10, n = z + d := by
  fun_induction digitIn zs n with
  | case1 => cases h
  | case2 => cases h
  | case3 z rest n hlow hhigh =>
    exact ⟨z, List.mem_cons_self, n - z, by omega, by omega⟩
  | case4 z rest n _ _ ih =>
    obtain ⟨z', hz', hd⟩ := ih h
    exact ⟨z', List.mem_cons_of_mem _ hz', hd⟩

/-- No digit of any script is white space. -/
theorem not_isSpace_of_isDigit {c : Char} (h : isDigit c = true) : isSpace c = false := by
  obtain ⟨z, hz, d, hd, hc⟩ := exists_zero_of_digitIn h
  have htable : ∀ z ∈ zeros, ∀ d < 10, spaceRanges.contains (z + d) = false := by decide
  rw [isSpace, hc]
  exact htable z hz d hd

theorem spelling?_whole {whole : List Char} (hne : whole ≠ [])
    (h : ∀ d ∈ whole, isDigit d = true) : Decimal.spelling? whole = some (whole, []) := by
  have htake : whole.takeWhile isDigit = whole := List.takeWhile_eq_self_iff.mpr h
  have hdrop : whole.dropWhile isDigit = [] := List.dropWhile_eq_nil_iff.mpr h
  simp [Decimal.spelling?, htake, hdrop, hne]

/-- Digits on both sides of a point are the whole part and the fraction. -/
theorem spelling?_fraction {whole fraction : List Char} (hne : whole ≠ [])
    (h : ∀ d ∈ whole, isDigit d = true) (hne' : fraction ≠ [])
    (h' : ∀ d ∈ fraction, isDigit d = true) :
    Decimal.spelling? (whole ++ '.' :: fraction) = some (whole, fraction) := by
  have hpoint : isDigit '.' = false := by decide
  have htake : (whole ++ '.' :: fraction).takeWhile isDigit = whole := by
    rw [List.takeWhile_append_of_pos h]
    simp [hpoint]
  have hdrop : (whole ++ '.' :: fraction).dropWhile isDigit = '.' :: fraction := by
    rw [List.dropWhile_append_of_pos h]
    simp [hpoint]
  have hall : fraction.all isDigit = true := List.all_eq_true.mpr h'
  simp [Decimal.spelling?, htake, hdrop, hne, hne', hall]

/-- A number that the scanner takes off a text can be read. -/
theorem number_readable {cs rest : List Char} {c : Char} (hcs : cs = c :: rest)
    (hc : isDigit c = true) :
    ∃ x, Literal.number (some (String.ofList (Lexeme.number cs).text)) = .num x := by
  obtain ⟨whole, hne, hdigits, hform⟩ := Lexeme.number_cases hcs hc
  have hspelling : ∃ parts, Decimal.spelling? (Lexeme.number cs).text = some parts := by
    rcases hform with htext | ⟨fraction, hne', hdigits', htext⟩
    · exact ⟨_, htext ▸ spelling?_whole hne hdigits⟩
    · exact ⟨_, htext ▸ spelling?_fraction hne hdigits hne' hdigits'⟩
  -- a blank text is refused before it is read, so the first digit matters
  have hblank : isBlank (Lexeme.number cs).text = false := by
    obtain ⟨d, ds, rfl⟩ := List.exists_cons_of_ne_nil hne
    have hd := not_isSpace_of_isDigit (hdigits d List.mem_cons_self)
    rcases hform with htext | ⟨fraction, -, -, htext⟩ <;> rw [htext] <;> simp [isBlank, hd]
  obtain ⟨parts, hparts⟩ := hspelling
  simp [Literal.number, hblank, Decimal.unsigned?, hparts]

/-! ### Tokens -/

/-- The token can be used in a tree: a number can be read, and a name is not empty. -/
def Token.WellSpelt : Token → Prop
  | .number text => ∃ x, Literal.number (some text) = .num x
  | .name text => text ≠ ""
  | _ => True

/-- The scanner gives well-spelt tokens only. -/
theorem wellSpelt_of_mem_scan {cs : List Char} {p : Placed} (h : p ∈ (scan cs).tokens) :
    p.token.WellSpelt := by
  obtain ⟨p, t⟩ := p
  -- only names and numbers have a spelling that could go wrong
  rcases t with _ | _ | x | text | _ | _ | _ | _ | _ | _ | _ | _ | _
  case name =>
    rintro rfl
    obtain ⟨c, cs, hcs, -⟩ := isIdentifier_of_mem_scan h
    cases hcs
  case number =>
    obtain ⟨c, l, -, hl, hp⟩ := mem_scan_tokens_iff.mp h
    obtain ⟨⟨d, rest, hrest, hd⟩, hnumber, htext⟩ := number_of_lex? hl (Placed.mk.inj hp).2.symm
    obtain ⟨x, hx⟩ := number_readable hrest hd
    refine ⟨x, ?_⟩
    rw [← hx, ← hnumber, ← htext, String.ofList_toList]
  all_goals trivial

/-! ### Programs -/

mutual

/-- The tree of an expression is as the table asks, if its tokens are well spelt. -/
theorem Expr.conforms_toNode :
    (e : Expr) → (∀ t ∈ e.tokens, t.WellSpelt) → Conforms .code e.toNode
  | .number s, h => conforms_number (h (.number s) (by simp [tokens]))
  | .boolean b, _ => conforms_boolean (Value.truthText b)
  | .reference name, _ => conforms_reference name
  | .call name args, h => by
    refine conforms_call name (conforms_toNodes args fun ts hts t ht => h t ?_)
    simp [tokens, mem_commaSeparated_of_mem hts ht]
  | .bracket e, h =>
    conforms_bracket (conforms_toNode e fun t ht => h t (by simp [tokens, ht]))
  | .unary op e, h =>
    conforms_unary op (conforms_toNode e fun t ht => h t (by simp [tokens, ht]))
  | .binary op l r, h =>
    conforms_binary op (conforms_toNode l fun t ht => h t (by simp [tokens, ht]))
      (conforms_toNode r fun t ht => h t (by simp [tokens, ht]))
  | .relation rel l r, h =>
    conforms_relation rel (conforms_toNode l fun t ht => h t (by simp [tokens, ht]))
      (conforms_toNode r fun t ht => h t (by simp [tokens, ht]))

theorem Expr.conforms_toNodes :
    (es : List Expr) → (∀ ts ∈ Expr.tokensOf es, ∀ t ∈ ts, t.WellSpelt) →
      ∀ n ∈ Expr.toNodes es, Conforms .code n
  | [], _ => nofun
  | e :: es, h => by
    have he := conforms_toNode e (h e.tokens (by simp [tokensOf]))
    have hes := conforms_toNodes es fun ts hts => h ts (by simp [tokensOf, hts])
    simpa [toNodes] using ⟨he, hes⟩

end

/-- The tree of a return expression, if there is one. -/
theorem Expr.conforms_ret {ret : Option Expr} (h : ∀ t ∈ Expr.returnTokens ret, t.WellSpelt) :
    ∀ m, ret.map Expr.toNode = some m → Conforms .code m := by
  rintro m hm
  obtain ⟨e, rfl, rfl⟩ := Option.map_eq_some_iff.mp hm
  exact e.conforms_toNode fun t ht => h t (List.mem_cons_of_mem _ ht)

/-- Well spelt tokens give no parameter with an empty name. -/
theorem params_ne_empty {params : List String}
    (h : ∀ t ∈ commaSeparated (params.map fun p => [.name p]), t.WellSpelt) :
    ∀ x ∈ params, x ≠ "" :=
  fun x hx => h (.name x) ((name_mem_parameters params).mpr hx)

mutual

/-- The tree of a statement is as the table asks, if its tokens are well spelt. -/
theorem Stmt.conforms_toNode :
    (s : Stmt) → (∀ t ∈ s.tokens, t.WellSpelt) → Conforms .code s.toNode
  | .assign name constant value, h =>
    conforms_assignment name constant
      (value.conforms_toNode fun t ht => h t (by simp [Stmt.tokens, ht]))
  | .subroutine name params none ret, h => by
    refine conforms_subroutine name (params_ne_empty fun t ht => h t ?_) nofun
      (Expr.conforms_ret fun t ht => h t ?_)
    · simp [Stmt.tokens, ht]
    · simp [Stmt.tokens, ht]
  | .subroutine name params (some body) ret, h => by
    refine conforms_subroutine name (params_ne_empty fun t ht => h t ?_) ?_
      (Expr.conforms_ret fun t ht => h t ?_)
    · simp [Stmt.tokens, ht]
    · rintro m hm
      cases hm
      -- the tokens of the body stand between those of the heading and of the return value
      exact body.conforms_toNode fun t ht => h t (by simp [Stmt.tokens, ht])
    · simp [Stmt.tokens, ht]
  | .conditional condition thenBranch none, h =>
    conforms_conditional
      (condition.conforms_toNode fun t ht => h t (by simp [Stmt.tokens, ht]))
      (thenBranch.conforms_toNode fun t ht => h t (by simp [Stmt.tokens, ht])) nofun
  | .conditional condition thenBranch (some elseBranch), h => by
    refine conforms_conditional
      (condition.conforms_toNode fun t ht => h t (by simp [Stmt.tokens, ht]))
      (thenBranch.conforms_toNode fun t ht => h t (by simp [Stmt.tokens, ht])) ?_
    rintro m hm
    cases hm
    exact elseBranch.conforms_toNode fun t ht => h t (by simp [Stmt.tokens, ht])
  | .whileLoop condition body, h =>
    conforms_loop (.inl rfl)
      (condition.conforms_toNode fun t ht => h t (by simp [Stmt.tokens, ht]))
      (body.conforms_toNode fun t ht => h t (by simp [Stmt.tokens, ht]))
  | .repeatLoop body condition, h =>
    conforms_loop (.inr rfl)
      (condition.conforms_toNode fun t ht => h t (by simp [Stmt.tokens, ht]))
      (body.conforms_toNode fun t ht => h t (by simp [Stmt.tokens, ht]))
  | .output value, h =>
    conforms_output (value.conforms_toNode fun t ht => h t (by simp [Stmt.tokens, ht]))
  | .call name args, h => by
    refine conforms_call name (Expr.conforms_toNodes args fun ts hts t ht => h t ?_)
    simp [Stmt.tokens, mem_commaSeparated_of_mem hts ht]

theorem Block.conforms_toNode :
    (b : Block) → (∀ t ∈ b.tokens, t.WellSpelt) → Conforms .code b.toNode
  | .one statement, h =>
    statement.conforms_toNode fun t ht => h t (by simp [Block.tokens, ht])
  | .cons statement rest, h =>
    conforms_sequence
      (statement.conforms_toNode fun t ht => h t (by simp [Block.tokens, ht]))
      (rest.conforms_toNode fun t ht => h t (by simp [Block.tokens, ht]))

end

/-- A tree that is read from a text is as the table asks. -/
theorem conforms_of_readAs {text : List Char} {root : Node} (h : ReadAs text root) :
    Conforms .code root := by
  have hspelt : ∀ t ∈ (scanSource text).sequence, t.WellSpelt := by
    intro t ht
    obtain ⟨p, hp, rfl⟩ := List.mem_map.mp ht
    exact wellSpelt_of_mem_scan hp
  cases h with
  | program hparse hroot =>
    -- what the reader took are the tokens of the tree, so they are well spelt
    rw [(sequence_of_parseProgram hparse).1] at hspelt
    refine conforms_block? (fun n hn => ?_) root hroot
    obtain ⟨s, hs, rfl⟩ := List.mem_map.mp hn
    exact s.conforms_toNode fun t ht => hspelt t (List.mem_flatMap_of_mem hs ht)
  | expression hparse =>
    rw [(sequence_of_parseExpression hparse).1] at hspelt
    exact Expr.conforms_toNode _ hspelt

end Pseudocode
