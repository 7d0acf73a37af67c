import Pseudocode.Proofs.Printing
import Pseudocode.Proofs.ReadBack

/-!
Printing a program and reading it again.

A program is `Canonical` if it is generated by the level grammar and its names and numbers are legal.
The two halves of reading meet here: the scanner gives the printed tokens back, and the readers give
back the program that has these tokens. In the other direction the readers give nothing but programs
of the level grammar, and the scanner gives no numbers but legal ones. Names are another matter: behind
the last digit of a number a reserved word is read as a name, and behind a blank it is not.

Main result: `parse_print`.
-/

namespace Pseudocode

/-- An expression of the level grammar with legal names and numbers. -/
def Expr.Canonical (e : Expr) : Prop := e.Levelled ∧ ∀ t ∈ e.tokens, t.Legal

/-- A statement of the level grammar with legal names and numbers. -/
def Stmt.Canonical (s : Stmt) : Prop := s.Levelled ∧ ∀ t ∈ s.tokens, t.Legal

/-! ### From tokens to programs -/

/-- A text with the tokens of a levelled expression is read as the expression. -/
theorem parseExpression_of_sequence {text : List Char} {e : Expr} (he : e.Levelled)
    (htokens : (scanSource text).sequence = e.tokens)
    (hcomplete : (scanSource text).complete = true) : parseExpression text = .ok e := by
  have hsplit : (scanSource text).sequence = e.tokens ++ [] := by rw [htokens, List.append_nil]
  have hread : Grammar.expression (scanSource text).sequence = some (e, []) := by
    rw [hsplit]
    exact Grammar.expression_read he (stops_nil 7)
  have hunread := (Scan.unread?_eq_none_iff _ hsplit).mpr ⟨rfl, hcomplete⟩
  simp only [parseExpression, hread, hunread]

/-- A text with the tokens of levelled statements is read as these statements. -/
theorem parseProgram_of_sequence {text : List Char} {statements : List Stmt}
    (hstatements : ∀ s ∈ statements, s.Levelled)
    (htokens : (scanSource text).sequence = statements.flatMap Stmt.tokens)
    (hcomplete : (scanSource text).complete = true) : parseProgram text = .ok statements := by
  have hsplit : (scanSource text).sequence = statements.flatMap Stmt.tokens ++ [] := by
    rw [htokens, List.append_nil]
  have hread : Grammar.program (scanSource text).sequence = (statements, []) := by
    rw [htokens]
    exact Grammar.program_read hstatements
  have hunread := (Scan.unread?_eq_none_iff _ hsplit).mpr ⟨rfl, hcomplete⟩
  simp only [parseProgram, hread, hunread]

/-! ### From programs to tokens -/

/-- The tokens of a text are legal, if the names among them are. -/
theorem legal_of_mem_sequence {text : List Char}
    (hnames : ∀ x, .name x ∈ (scanSource text).sequence → IsLegalName x) {t : Token}
    (ht : t ∈ (scanSource text).sequence) : t.Legal := by
  rcases t with _ | _ | x | s | _ | _ | _ | _ | _ | _ | _ | _ | _
  case name => exact hnames x ht
  case number =>
    obtain ⟨p, hp, htoken⟩ := List.mem_map.mp ht
    obtain ⟨c, l, -, hl, rfl⟩ := mem_scan_tokens_iff.mp hp
    obtain ⟨⟨d, rest, hrest, hd⟩, rfl, htext⟩ := number_of_lex? hl htoken
    rw [Token.Legal, IsNumeral, htext]
    exact Lexeme.number_cases hrest hd
  all_goals trivial

/-- What is read as an expression has its operators on their levels. -/
theorem levelled_of_parseExpression {text : List Char} {e : Expr}
    (h : parseExpression text = .ok e) : e.Levelled := by
  unfold parseExpression at h
  dsimp only at h
  split at h
  · cases h
  rename_i hread
  split at h
  · cases h
    exact Grammar.expression_gives hread
  · cases h

/-- So has every statement of what is read as a program. -/
theorem levelled_of_parseProgram {text : List Char} {statements : List Stmt}
    (h : parseProgram text = .ok statements) : ∀ s ∈ statements, s.Levelled := by
  have hgives := Grammar.program_gives (scanSource text).sequence
  unfold parseProgram at h
  dsimp only at h
  split at h
  · cases h
    exact hgives
  · cases h

/-- An expression that is read is canonical if its names are legal. -/
theorem canonical_of_parseExpression {text : List Char} {e : Expr}
    (h : parseExpression text = .ok e) (hnames : ∀ x ∈ e.toNode.names, IsLegalName x) :
    e.Canonical := by
  refine ⟨levelled_of_parseExpression h, fun t ht => ?_⟩
  rw [← (sequence_of_parseExpression h).1] at ht
  refine legal_of_mem_sequence (fun x hx => hnames x ?_) ht
  rw [(sequence_of_parseExpression h).1] at hx
  exact e.mem_names_toNode.mpr hx

/-- A program with a statement has a tree. -/
theorem exists_root {s : Stmt} {statements : List Stmt} (h : s ∈ statements) :
    ∃ root, Stmt.program? statements = some root := by
  rcases statements with - | ⟨first, rest⟩
  · cases h
  · rw [Stmt.program?, List.map_cons, Node.block?]
    split <;> exact ⟨_, rfl⟩

/-- The statements that are read are canonical if the names of the program are legal. -/
theorem canonical_of_parseProgram {text : List Char} {statements : List Stmt}
    (h : parseProgram text = .ok statements)
    (hnames : ∀ root, Stmt.program? statements = some root → ∀ x ∈ root.names, IsLegalName x) :
    ∀ s ∈ statements, s.Canonical := by
  intro s hs
  refine ⟨levelled_of_parseProgram h s hs, fun t ht => ?_⟩
  have hmem : t ∈ (scanSource text).sequence := by
    rw [(sequence_of_parseProgram h).1]
    exact List.mem_flatMap_of_mem hs ht
  obtain ⟨root, hroot⟩ := exists_root hs
  refine legal_of_mem_sequence (fun x hx => hnames root hroot x ?_) hmem
  rw [(sequence_of_parseProgram h).1] at hx
  exact (Stmt.mem_names_program? hroot).mpr hx

/-! ### Round trips -/

/-- A canonical expression or program is read back from its printed tokens, whichever spellings are
chosen. What is read from any text is canonical if its names are legal, and so it is read back from
its printed tokens too. -/
theorem parse_print (σ : Spelling) :
    (∀ e : Expr, e.Canonical → parseExpression (σ.print e.tokens) = .ok e)
      ∧ (∀ statements : List Stmt, (∀ s ∈ statements, s.Canonical) →
        parseProgram (σ.print (statements.flatMap Stmt.tokens)) = .ok statements)
      ∧ (∀ text e, parseExpression text = .ok e → (∀ x ∈ e.toNode.names, IsLegalName x) →
        e.Canonical ∧ parseExpression (σ.print e.tokens) = .ok e)
      ∧ ∀ text statements, parseProgram text = .ok statements →
        (∀ root, Stmt.program? statements = some root → ∀ x ∈ root.names, IsLegalName x) →
        (∀ s ∈ statements, s.Canonical)
          ∧ parseProgram (σ.print (statements.flatMap Stmt.tokens)) = .ok statements := by
  -- what is printed is scanned as the tokens, and these are read back
  have hexpression : ∀ e : Expr, e.Canonical → parseExpression (σ.print e.tokens) = .ok e := by
    rintro e ⟨hlevelled, hlegal⟩
    obtain ⟨htokens, hcomplete⟩ := σ.scanSource_print hlegal
    exact parseExpression_of_sequence hlevelled htokens hcomplete
  have hprogram : ∀ statements : List Stmt, (∀ s ∈ statements, s.Canonical) →
      parseProgram (σ.print (statements.flatMap Stmt.tokens)) = .ok statements := by
    intro statements hstatements
    have hlegal : ∀ t ∈ statements.flatMap Stmt.tokens, t.Legal := by
      intro t ht
      obtain ⟨s, hs, ht⟩ := List.mem_flatMap.mp ht
      exact (hstatements s hs).2 t ht
    obtain ⟨htokens, hcomplete⟩ := σ.scanSource_print hlegal
    exact parseProgram_of_sequence (fun s hs => (hstatements s hs).1) htokens hcomplete
  refine ⟨hexpression, hprogram, fun text e h hnames => ?_, fun text statements h hnames => ?_⟩
  · have hcanonical := canonical_of_parseExpression h hnames
    exact ⟨hcanonical, hexpression e hcanonical⟩
  · have hcanonical := canonical_of_parseProgram h hnames
    exact ⟨hcanonical, hprogram statements hcanonical⟩

/-- A sign below a product and a relation below a negation; a name that is followed by a bracket but
is not called; an absent part, and two statements of which the first ends with a name. -/
theorem parse_print_conditional :
    ∃ (e : Expr) (s : Stmt), e.Canonical ∧ s.Canonical
      ∧ parseExpression "NOT -1.5*(x+2)<y".toList = .ok e
      ∧ parseExpression "NOT - 1.5 * ( x + 2 ) < y".toList = .ok e
      ∧ parseProgram "IF f(x,True)THEN x←y g()ENDIF".toList = .ok [s]
      ∧ parseProgram "IF f ( x , True ) THEN x <- y g ( ) ENDIF".toList = .ok [s] := by
  have hexpression : parseExpression "NOT -1.5*(x+2)<y".toList = .ok (.unary .not (.relation .lt
      (.binary .mul (.unary .sub (.number "1.5"))
        (.bracket (.binary .add (.reference "x") (.number "2")))) (.reference "y"))) := rfl
  have hlevelled : ∀ s ∈ [Stmt.conditional (.call "f" [.reference "x", .boolean true])
      (.cons (.assign "x" false (.reference "y")) (.one (.call "g" []))) none], s.Levelled := by
    -- single words are expressions of every level
    have hargs : ∀ a ∈ [Expr.reference "x", .boolean true], a.At 7 := by
      simp [(Expr.At.reference "x").mono, (Expr.At.boolean true).mono]
    refine List.forall_mem_singleton.mpr ⟨(Expr.At.call "f" hargs).mono (by decide), ?_, nofun⟩
    exact (Expr.At.reference "y").mono (by decide)
  have hprogram : parseProgram "IF f(x,True)THEN x←y g()ENDIF".toList = .ok [.conditional
      (.call "f" [.reference "x", .boolean true])
      (.cons (.assign "x" false (.reference "y")) (.one (.call "g" []))) none] :=
    parseProgram_of_sequence hlevelled (by decide +kernel) (by decide +kernel)
  obtain ⟨hprint, hprint', hcanonical, hcanonical'⟩ := parse_print .ascii
  have hnames : ∀ x ∈ ["x", "y"], IsLegalName x := by decide
  have hnames' : ∀ x ∈ ["f", "x", "x", "y", "g"], IsLegalName x := by decide
  have he := (hcanonical _ _ hexpression hnames).1
  have hs := (hcanonical' _ _ hprogram (by rintro _ ⟨⟩; exact hnames')).1
  refine ⟨_, _, he, hs _ List.mem_cons_self, hexpression, ?_, hprogram, ?_⟩
  · rw [← hprint _ he]
    exact congrArg parseExpression (by decide +kernel)
  · rw [← hprint' _ hs]
    exact congrArg parseProgram (by decide +kernel)

end Pseudocode
