import Pseudocode.Proofs.Parsing.Grammar
import Pseudocode.Proofs.Parsing.Positions

/-!
The parser makes progress.

From every position of a text, every rule of the grammar has exactly one outcome, although the rules
call themselves and repeat without a bound. If it succeeds, it ends further on; the rule of whole
programs is the only one that may take nothing. So no repetition has more rounds than there are
characters left, and reading a text always ends, with a program or a report.

Design. The grammar passes the check of its rules, and every token leads forward, so the outcomes
exist and progress is made whatever the tokens are. The readers see the tokens in front of a
position and not the position. What they do there is carried over by the list of these tokens.

Main result: `parser_progress`.
-/

namespace Pseudocode

open Peg Text

/-- From a position of a text, the rule ends in the position behind what it takes, or fails. -/
abbrev EndsAt (cs : List Char) (rule : Rule) (p : Nat) (r : Option Nat) : Prop :=
  Runs (nextAt cs) Rule.body (.rule rule) p r

/-- From a position of a text, the item is taken so many times and no more, up to a last
position. -/
abbrev RoundsAt (cs : List Char) (item : Peg Token Rule) (n p q : Nat) : Prop :=
  Rounds (nextAt cs) Rule.body item n p q

/-! ### Outcomes -/

section

variable (cs : List Char)

/-- Every rule has an outcome at every position, as the grammar passes the check. -/
theorem exists_endsAt (rule : Rule) (p : Nat) : ∃ r, EndsAt cs rule p r :=
  Rule.checked.exists_runs_rule size_lt_of_nextAt rule p

/-- Every repetition of the grammar ends, after no more rounds than characters are left. -/
theorem exists_roundsAt {rule : Rule} {item : Peg Token Rule} (hitem : item ∈ rule.body.repeated)
    (p : Nat) : ∃ n q, RoundsAt cs item n p q ∧ n ≤ cs.length - p := by
  obtain ⟨n, q, hrounds, hle⟩ := Rule.checked.exists_rounds size_lt_of_nextAt hitem p
  exact ⟨n, q, hrounds, by omega⟩

variable {cs}

/-- Every rule but the one for programs leads forward where it succeeds, and stays in the text. -/
theorem EndsAt.forward {rule : Rule} (hrule : rule ≠ .program) {p q : Nat}
    (h : EndsAt cs rule p (some q)) : p < q ∧ q ≤ cs.length := by
  have hsolid : rule.solid = true := by
    cases rule with
    | program => exact absurd rfl hrule
    | _ => rfl
  have hsize : cs.length - q < cs.length - p :=
    h.size_lt size_lt_of_nextAt Rule.checked.consumes hsolid q rfl
  have hend : q = p ∨ q ≤ cs.length :=
    h.invariant (P := fun m => m = p ∨ m ≤ cs.length)
      (fun hnext _ => .inr (nextAt_forward hnext).2) (.inl rfl) q rfl
  omega

/-! ### Readers -/

/-- A position has the same tokens in front of it as the list of its tokens. -/
theorem front?_tokensAt (p : Nat) :
    front? (tokensAt cs p) = (nextAt cs p).map fun a => (a.1, tokensAt cs a.2) := by
  rw [tokensAt_eq]
  rcases nextAt cs p with - | ⟨t, q⟩ <;> rfl

/-- A reader that does what a rule says ends where the rule ends. -/
theorem EndsAt.reads {α : Type} {rule : Rule} {item : Reader α}
    (hitem : ∀ ts, Ends (.rule rule) ts ((item ts).map Prod.snd)) {p : Nat} {r : Option Nat}
    (h : EndsAt cs rule p r) : (item (tokensAt cs p)).map Prod.snd = r.map (tokensAt cs) :=
  (hitem _).unique (h.map front?_tokensAt)

/-- What is taken from the start of a text ends where the scanner comes by. -/
theorem exists_readTo_of_runs {e : Peg Token Rule} {q : Nat}
    (h : Runs (nextAt cs) Rule.body e 0 (some q)) : ∃ ts, ReadTo cs ts (cursorAt cs q) :=
  h.invariant (P := fun p => ∃ ts, ReadTo cs ts (cursorAt cs p)) ReadTo.nextAt ⟨[], .start⟩ q rfl

end

/-! ### Texts -/

section

variable {text : List Char} (filename : String)

/-- A text is the program of the statements that are taken, if nothing is left behind them. -/
theorem RoundsAt.readProgram_eq {n q : Nat}
    (h : RoundsAt (expandTabs text) (.rule .statement) n 0 q) :
    ∃ statements, statements.length = n
      ∧ readProgram filename text = match leftAt? (expandTabs text) q with
        | none => .ok statements
        | some left => .error (.atPosition text filename left) := by
  have hrest := unread?_tokensAt (exists_readTo_of_runs (runs_many_iff.mpr ⟨n, q, rfl, h⟩))
  -- the rounds on positions are those on lists of tokens, which the reader follows
  obtain ⟨rfl, hleft⟩ := (h.map front?_tokensAt).unique (program_rounds _)
  have hsequence : (scanSource text).sequence = tokensAt (expandTabs text) 0 := rfl
  refine ⟨_, rfl, ?_⟩
  rw [readProgram, parseProgram, hsequence]
  dsimp only
  rw [← hleft, scanSource, hrest]
  rcases leftAt? (expandTabs text) q with - | left <;> rfl

/-- Some statements are taken at the start of a text, and decide how it is read. -/
theorem exists_readProgram (text : List Char) :
    ∃ n q statements, RoundsAt (expandTabs text) (.rule .statement) n 0 q
      ∧ n ≤ (expandTabs text).length ∧ statements.length = n
      ∧ (n ≠ 0 → ∃ root, Stmt.program? statements = some root)
      ∧ readProgram filename text = match leftAt? (expandTabs text) q with
        | none => .ok statements
        | some left => .error (.atPosition text filename left) := by
  have hitem : Peg.rule Rule.statement ∈ Rule.program.body.repeated := List.mem_cons_self
  obtain ⟨n, q, hrounds, hle⟩ := exists_roundsAt (expandTabs text) hitem 0
  obtain ⟨statements, hlength, hread⟩ := hrounds.readProgram_eq filename
  refine ⟨n, q, statements, hrounds, hle, hlength, fun hn => ?_, hread⟩
  obtain ⟨s, hs⟩ := List.exists_mem_of_length_pos (hlength ▸ Nat.pos_of_ne_zero hn)
  exact exists_root hs

/-- An expression is taken at the start of a text or none, which decides how it is read. -/
theorem exists_readExpression (text : List Char) :
    (EndsAt (expandTabs text) .expression 0 none ∧ readExpression filename text = .error none)
    ∨ ∃ q e, EndsAt (expandTabs text) .expression 0 (some q)
      ∧ readExpression filename text = match leftAt? (expandTabs text) q with
        | none => .ok e
        | some left => .error (some (.atPosition text filename left)) := by
  obtain ⟨r, h⟩ := exists_endsAt (expandTabs text) .expression 0
  have hread := h.reads expression_follows
  have hsequence : (scanSource text).sequence = tokensAt (expandTabs text) 0 := rfl
  rw [readExpression, parseExpression, hsequence]
  -- the rule fails, or it ends somewhere and the rest decides
  cases r with
  | none =>
    rw [Option.map_none, Option.map_eq_none_iff] at hread
    refine .inl ⟨h, ?_⟩
    rw [hread]
  | some q =>
    obtain ⟨⟨e, rest⟩, hread, rfl⟩ := Option.map_eq_some_iff.mp hread
    have hrest := unread?_tokensAt (exists_readTo_of_runs h)
    refine .inr ⟨q, e, h, ?_⟩
    rw [hread]
    dsimp only
    rw [scanSource, hrest]
    rcases leftAt? (expandTabs text) q with - | left <;> rfl

end

/-- **The parser makes progress.** From every position of a text, every rule has exactly one
outcome. If a rule other than that of programs succeeds, it ends further on in the text, and nothing
is repeated more often than there are characters left. The readers end where their rules do. Reading
a text takes all statements that follow each other at its start, and gives them, or the report about
what is left behind them; reading it as an expression gives one, or an error. -/
theorem parser_progress (text : List Char) (p : Nat) (filename : String) :
    (∀ rule, ∃! r, EndsAt text rule p r)
    ∧ (∀ rule q, rule ≠ .program → EndsAt text rule p (some q) → p < q ∧ q ≤ text.length)
    ∧ (∀ rule : Rule, ∀ item ∈ rule.body.repeated,
      ∃ n q, RoundsAt text item n p q ∧ n ≤ text.length - p)
    ∧ (∀ r, EndsAt text .expression p r →
      (Grammar.expression (tokensAt text p)).map Prod.snd = r.map (tokensAt text))
    ∧ (∀ r, EndsAt text .statement p r →
      (Grammar.statement (tokensAt text p)).map Prod.snd = r.map (tokensAt text))
    ∧ (∀ r, EndsAt text .block p r →
      (Grammar.block Grammar.statement (tokensAt text p)).map Prod.snd = r.map (tokensAt text))
    ∧ (∃ n q statements, RoundsAt (expandTabs text) (.rule .statement) n 0 q
      ∧ n ≤ (expandTabs text).length ∧ statements.length = n
      ∧ (n ≠ 0 → ∃ root, Stmt.program? statements = some root)
      ∧ readProgram filename text = match leftAt? (expandTabs text) q with
        | none => .ok statements
        | some left => .error (.atPosition text filename left))
    ∧ ((EndsAt (expandTabs text) .expression 0 none ∧ readExpression filename text = .error none)
      ∨ ∃ q e, EndsAt (expandTabs text) .expression 0 (some q)
        ∧ readExpression filename text = match leftAt? (expandTabs text) q with
          | none => .ok e
          | some left => .error (some (.atPosition text filename left))) := by
  -- an outcome exists and is unique; the other parts are the results above
  refine ⟨fun rule => ?_, fun rule q hrule h => h.forward hrule,
    fun rule item hitem => exists_roundsAt text hitem p, fun r h => h.reads expression_follows,
    fun r h => h.reads statement_follows, fun r h => h.reads block_follows,
    exists_readProgram filename text, exists_readExpression filename text⟩
  obtain ⟨r, h⟩ := exists_endsAt text rule p
  exact ⟨r, h, fun r' h' => h'.unique h⟩

/-- A statement, with a sign behind it that starts none. -/
theorem parser_progress_assignment :
    ∃ q, EndsAt "x <- 1 )".toList .statement 0 (some q) ∧ 0 < q ∧ q ≤ 8 := by
  obtain ⟨hunique, hforward, -, -, hstatement, -⟩ := parser_progress "x <- 1 )".toList 0 ""
  obtain ⟨r, hr, -⟩ := hunique .statement
  have hread := hstatement r hr
  rcases r with - | q
  · have hsome : (Grammar.statement (tokensAt "x <- 1 )".toList 0)).isSome = true := by
      decide +kernel
    rw [Option.map_none, Option.map_eq_none_iff] at hread
    rw [hread] at hsome
    cases hsome
  · exact ⟨q, hr, hforward .statement q nofun hr⟩

end Pseudocode
