import Pseudocode.Proofs.Compact.Forms
import Pseudocode.Proofs.Compact.Words
import Pseudocode.Proofs.Outline.Lines
import Pseudocode.Script

/-!
The outline and the search agree.

The outline goes through five slots in a fixed order, a search through the children of a node in the
order in which they stand. In a tree that was read from a text these are the same, so the nodes of a
kind are found in the order of their lines.

The list of subroutines below an outline comes from a search. In the text every definition starts
with the same keyword, and that stands nowhere else. A tree keeps the statements in the order of the
text, and its expressions hold no subroutines. So the list has one line for every such keyword, also
where definitions are nested.

Main result: `traversals_agree`.
-/

namespace Pseudocode

/-! ### Headings in a text -/

/-- The name and the parameters of a subroutine. -/
abbrev Heading := String × List String

/-- The names in a list of parameters, up to its end. -/
def parametersIn : List Token → List String
  | .name x :: ts => x :: parametersIn ts
  | .comma :: ts => parametersIn ts
  | _ => []

/-- The heading behind a keyword. -/
def headingIn : List Token → Heading
  | .name x :: .lparen :: ts => (x, parametersIn ts)
  | _ => ("", [])

/-- The headings of the subroutines in a text: one for every keyword that starts a definition. -/
def headingsIn : List Token → List Heading
  | [] => []
  | t :: ts => if t = .keyword .SUBROUTINE then headingIn ts :: headingsIn ts else headingsIn ts

/-- The lines that list subroutines. -/
def headingLines : List Heading → List String
  | [] => []
  | hs =>
    [Script.rule, "Subroutines (" ++ Decimal.natText hs.length ++ "):"]
      ++ hs.map fun h => "  " ++ h.1 ++ "(" ++ ", ".intercalate h.2 ++ ")"

theorem parametersIn_commaSeparated (params : List String) (ts : List Token) :
    parametersIn (commaSeparated (params.map fun p => [.name p]) ++ .rparen :: ts) = params := by
  induction params with
  | nil => rfl
  | cons p params ih =>
    cases params with
    | nil => rfl
    | cons q params => exact congrArg (p :: ·) ih

/-- Tokens without the keyword of a definition may be passed over. -/
theorem headingsIn_append {us : List Token} (h : .keyword .SUBROUTINE ∉ us) (ts : List Token) :
    headingsIn (us ++ ts) = headingsIn ts := by
  induction us with
  | nil => rfl
  | cons u us ih =>
    obtain ⟨hu, hus⟩ := not_or.mp (mt List.mem_cons.mpr h)
    rw [List.cons_append, headingsIn, if_neg (Ne.symm hu), ih hus]

theorem keyword_not_mem_commaSeparated {k : Keyword} {tss : List (List Token)}
    (h : ∀ ts ∈ tss, .keyword k ∉ ts) : .keyword k ∉ commaSeparated tss := by
  fun_induction commaSeparated tss with
  | case1 => exact List.not_mem_nil
  | case2 ts => exact h ts List.mem_cons_self
  | case3 ts rest _ ih =>
    obtain ⟨hts, hrest⟩ := List.forall_mem_cons.mp h
    simp [hts, ih hrest]

mutual

/-- No definition starts in an expression. -/
theorem Expr.not_mem_tokens : (e : Expr) → .keyword .SUBROUTINE ∉ e.tokens
  | .number s => by simp [tokens]
  | .boolean b => by simp [tokens]
  | .reference name => by simp [tokens]
  | .call name args => by
    simp [tokens, keyword_not_mem_commaSeparated (not_mem_tokensOf args)]
  | .bracket e => by simp [tokens, e.not_mem_tokens]
  | .unary op e => by cases op <;> simp [tokens, UnaryOp.tokens, e.not_mem_tokens]
  | .binary op l r => by
    cases op <;> simp [tokens, BinaryOp.tokens, l.not_mem_tokens, r.not_mem_tokens]
  | .relation rel l r => by simp [tokens, l.not_mem_tokens, r.not_mem_tokens]

theorem Expr.not_mem_tokensOf : (es : List Expr) →
    ∀ ts ∈ Expr.tokensOf es, .keyword .SUBROUTINE ∉ ts
  | [] => nofun
  | e :: es => List.forall_mem_cons.mpr ⟨e.not_mem_tokens, not_mem_tokensOf es⟩

end

/-! ### Headings in a tree -/

namespace Node

/-- What the list of subroutines shows of a node. -/
def heading (n : Node) : Heading :=
  (((n.property? "name").getD .null).display, (parameterNames? (n.child? .params)).getD [])

/-- The headings of the subroutines in a tree, in the order of a search. -/
def headings (n : Node) : List Heading := (n.ofKind .subroutine).map heading

/-- A search looks at the root and then goes through the children in order. -/
theorem ofKind_eq (n : Node) (kind : Kind) :
    n.ofKind kind
      = (if n.kind = kind then [n] else [])
        ++ n.children.flatMap fun part => part.2.ofKind kind := by
  rw [ofKind, nodes_eq, List.filter_cons, List.filter_flatMap]
  by_cases h : n.kind = kind <;> simp [h, ofKind]

/-- The headings of a tree are that of its root, if it is a subroutine, and those of its
children. -/
theorem headings_eq (n : Node) :
    n.headings = (if n.kind = .subroutine then [n.heading] else [])
      ++ n.children.flatMap fun part => part.2.headings := by
  rw [headings, ofKind_eq, List.map_append, List.map_flatMap]
  by_cases h : n.kind = .subroutine <;> simp [h, headings]

theorem headings_mk (kind : Kind) (h : kind ≠ .subroutine) (ps : List (String × Property))
    (cs : List (Slot × Node)) :
    (mk kind ps cs).headings = cs.flatMap fun part => part.2.headings := by
  rw [headings_eq, kind_mk, if_neg h]
  rfl

theorem headings_parameters? (params : List String) :
    ∀ n ∈ parameters? params, n.headings = [] := by
  induction params with
  | nil => nofun
  | cons p params ih =>
    rintro _ ⟨⟩
    rw [ofParts, headings_mk .parameters (by decide)]
    cases hrest : parameters? params with
    | none => rfl
    | some rest => simp [ih rest hrest]

theorem headings_arguments? {ns : List Node} (h : ∀ n ∈ ns, n.headings = []) :
    ∀ n ∈ arguments? ns, n.headings = [] := by
  induction ns with
  | nil => nofun
  | cons n ns ih =>
    obtain ⟨hn, hns⟩ := List.forall_mem_cons.mp h
    rintro _ ⟨⟩
    rw [ofParts, headings_mk .arguments (by decide)]
    cases hrest : arguments? ns with
    | none => simp [hn]
    | some rest => simp [hn, ih hns rest hrest]

theorem headings_call {ns : List Node} (name : String) (h : ∀ n ∈ ns, n.headings = []) :
    (call name ns).headings = [] := by
  rw [call, ofParts, headings_mk .call (by decide)]
  cases hargs : arguments? ns with
  | none => rfl
  | some args => simp [headings_arguments? h args hargs]

/-- A subroutine has its own heading and then the headings of its body and of its return value. -/
theorem headings_subroutine (name : String) {params : List String} (hparams : ∀ p ∈ params, p ≠ "")
    (body ret : Option Node) :
    (subroutine name params body ret).headings
      = (name, params) :: (body.toList.flatMap headings ++ ret.toList.flatMap headings) := by
  have hheading : (subroutine name params body ret).heading = (name, params) := by
    have hchild : (subroutine name params body ret).child? .params = parameters? params := by
      rw [subroutine]
      cases parameters? params <;> cases body <;> cases ret <;> rfl
    rw [heading, hchild, parameterNames?_parameters? hparams]
    rfl
  -- the parameters come before the body and hold no headings
  have hnone := headings_parameters? params
  rw [headings_eq, hheading, subroutine, ofParts, children_mk]
  cases hlist : parameters? params with
  | none => cases body <;> cases ret <;> simp
  | some list => cases body <;> cases ret <;> simp [hnone list hlist]

/-- A block has the headings of its statements, in order. -/
theorem headings_block? {ns : List Node} {root : Node} (h : block? ns = some root) :
    root.headings = ns.flatMap headings := by
  induction ns generalizing root with
  | nil => cases h
  | cons n ns ih =>
    rw [block?] at h
    rcases hblock : block? ns with - | rest <;> rw [hblock] at h <;> cases h
    · cases ns with
      | nil => simp
      | cons m ns =>
        rw [block?] at hblock
        cases hmore : block? ns <;> rw [hmore] at hblock <;> cases hblock
    · rw [List.flatMap_cons, ← ih hblock, sequence, headings_mk .sequence (by decide)]
      simp

end Node

mutual

/-- The tree of an expression holds no subroutines. -/
theorem Expr.headings_toNode : (e : Expr) → e.toNode.headings = []
  | .number s => Node.headings_mk .number nofun _ _
  | .boolean b => Node.headings_mk .boolean nofun _ _
  | .reference name => Node.headings_mk .variable nofun _ _
  | .call name args => Node.headings_call name (headings_toNodes args)
  | .bracket e => by simp [toNode, Node.bracket, Node.headings_mk, e.headings_toNode]
  | .unary op e => by simp [toNode, Node.unary, Node.headings_mk, e.headings_toNode]
  | .binary op l r => by
    simp [toNode, Node.binary, Node.headings_mk, l.headings_toNode, r.headings_toNode]
  | .relation rel l r => by
    simp [toNode, Node.relation, Node.headings_mk, l.headings_toNode, r.headings_toNode]

theorem Expr.headings_toNodes : (es : List Expr) → ∀ n ∈ Expr.toNodes es, n.headings = []
  | [] => nofun
  | e :: es => List.forall_mem_cons.mpr ⟨e.headings_toNode, headings_toNodes es⟩

end

theorem Expr.headings_ret (ret : Option Expr) :
    (ret.map Expr.toNode).toList.flatMap Node.headings = [] := by
  cases ret with
  | none => rfl
  | some e => simp [e.headings_toNode]

/-! ### Definitions of a program -/

theorem Expr.not_mem_returnTokens (ret : Option Expr) :
    .keyword .SUBROUTINE ∉ Expr.returnTokens ret := by
  cases ret with
  | none => simp [Expr.returnTokens]
  | some e => simp [Expr.returnTokens, e.not_mem_tokens]

/-- The keyword is not followed by another one before the list of parameters is closed. -/
theorem headingsIn_definition (name : String) (params : List String) (ts : List Token) :
    headingsIn (.keyword .SUBROUTINE :: .name name :: .lparen
        :: (commaSeparated (params.map fun p => [.name p]) ++ .rparen :: ts))
      = (name, params) :: headingsIn ts := by
  have hparams : .keyword .SUBROUTINE ∉ commaSeparated (params.map fun p => [.name p]) :=
    keyword_not_mem_commaSeparated (by simp)
  rw [headingsIn, if_pos rfl, headingIn, parametersIn_commaSeparated]
  simp [headingsIn, headingsIn_append hparams]

theorem IsIdentifier.ne_empty {x : String} (h : IsIdentifier x) : x ≠ "" := by
  obtain ⟨c, cs, hx, -⟩ := h
  rintro rfl
  cases hx

mutual

/-- The subroutines of a statement are found in the tree in the order of the text. -/
theorem Stmt.headingsIn_append : (s : Stmt) → s.Legible → ∀ ts : List Token,
    headingsIn (s.tokens ++ ts) = s.toNode.headings ++ headingsIn ts
  | .assign name constant value, _, ts => by
    have hvalue := headingsIn_append value.not_mem_tokens ts
    cases constant <;>
      simp [Stmt.tokens, Stmt.toNode, Node.assignment, Node.headings_mk, headingsIn, hvalue,
        value.headings_toNode]
  -- only a definition has a heading of its own, and it comes before those of its body
  | .subroutine name params none ret, h, ts => by
    have hret := Expr.not_mem_returnTokens ret
    rw [Stmt.toNode, Node.headings_subroutine name fun p hp => (h.2.1 p hp).ne_empty,
      Expr.headings_ret]
    simp [Stmt.tokens, headingsIn_definition, headingsIn_append hret, headingsIn]
  | .subroutine name params (some body) ret, h, ts => by
    have hret := Expr.not_mem_returnTokens ret
    have hbody := body.headingsIn_append h.2.2.1
    rw [Stmt.toNode, Node.headings_subroutine name fun p hp => (h.2.1 p hp).ne_empty,
      Expr.headings_ret]
    simp [Stmt.tokens, headingsIn_definition, headingsIn_append hret, headingsIn, hbody]
  | .conditional condition thenBranch none, h, ts => by
    have hcondition := headingsIn_append condition.not_mem_tokens
    have hthen := thenBranch.headingsIn_append h.2
    simp [Stmt.tokens, Stmt.toNode, Node.conditional, Node.ofParts, Node.headings_mk, headingsIn,
      hcondition, hthen, condition.headings_toNode]
  | .conditional condition thenBranch (some elseBranch), h, ts => by
    have hcondition := headingsIn_append condition.not_mem_tokens
    have hthen := thenBranch.headingsIn_append h.2.1
    have helse := elseBranch.headingsIn_append h.2.2
    simp [Stmt.tokens, Stmt.toNode, Node.conditional, Node.ofParts, Node.headings_mk, headingsIn,
      hcondition, hthen, helse, condition.headings_toNode]
  | .whileLoop condition body, h, ts => by
    have hcondition := headingsIn_append condition.not_mem_tokens
    have hbody := body.headingsIn_append h.2
    simp [Stmt.tokens, Stmt.toNode, Node.loop, Node.headings_mk, headingsIn, hcondition, hbody,
      condition.headings_toNode]
  | .repeatLoop body condition, h, ts => by
    have hcondition := headingsIn_append condition.not_mem_tokens
    have hbody := body.headingsIn_append h.1
    simp [Stmt.tokens, Stmt.toNode, Node.loop, Node.headings_mk, headingsIn, hcondition, hbody,
      condition.headings_toNode]
  | .output value, _, ts => by
    have hvalue := headingsIn_append value.not_mem_tokens ts
    simp [Stmt.tokens, Stmt.toNode, Node.output, Node.headings_mk, headingsIn, hvalue,
      value.headings_toNode]
  | .call name args, _, ts => by
    have hargs := headingsIn_append (Expr.call name args).not_mem_tokens ts
    rw [Stmt.toNode, Node.headings_call name (Expr.headings_toNodes args), List.nil_append, ← hargs]
    rfl

/-- The printing of a block shows the headings of its tree, whatever follows. -/
theorem Block.headingsIn_append : (b : Block) → b.Legible → ∀ ts : List Token,
    headingsIn (b.tokens ++ ts) = b.toNode.headings ++ headingsIn ts
  | .one statement, h, ts => statement.headingsIn_append h ts
  | .cons statement rest, h, ts => by
    rw [Block.tokens, List.append_assoc, statement.headingsIn_append h.1,
      rest.headingsIn_append h.2]
    simp [Block.toNode, Node.sequence, Node.headings_mk]

end

theorem Stmt.headingsIn_flatMap {statements : List Stmt} (h : ∀ s ∈ statements, s.Legible) :
    headingsIn (statements.flatMap Stmt.tokens)
      = (statements.map Stmt.toNode).flatMap Node.headings := by
  induction statements with
  | nil => rfl
  | cons s statements ih =>
    obtain ⟨hs, hrest⟩ := List.forall_mem_cons.mp h
    rw [List.flatMap_cons, s.headingsIn_append hs, ih hrest]
    rfl

/-- The subroutines in the tree of a program are those that its text defines. -/
theorem headings_of_parseProgram {text : List Char} {statements : List Stmt} {root : Node}
    (hparse : parseProgram text = .ok statements) (hroot : Stmt.program? statements = some root) :
    root.headings = headingsIn (scanSource text).sequence := by
  rw [(sequence_of_parseProgram hparse).1, Stmt.headingsIn_flatMap (legible_of_parseProgram hparse),
    Node.headings_block? hroot]

namespace Script

/-- The list of the subroutines is made of the headings of the tree. -/
theorem subroutineLines_eq (root : Node) : subroutineLines root = headingLines root.headings := by
  rw [subroutineLines, Node.headings]
  rcases root.ofKind .subroutine with - | ⟨n, ns⟩
  · rfl
  · simp [headingLines, Node.heading]

/-- What the script writes when asked for the outline of a file that loads and parses. -/
theorem outline_eq {disk : Disk} {path : String} {text : List Char} {statements : List Stmt}
    {root : Node} (hload : load disk path = .ok text) (hparse : parseProgram text = .ok statements)
    (hroot : Stmt.program? statements = some root) (tracing : Bool) :
    outline disk path tracing =
      ⟨0, Report.linesText (("Parsing " ++ path ++ "...") :: (loadingTrace tracing path text
          ++ readingTrace tracing statements) ++ [rule])
        ++ root.outline ++ Report.linesText (headingLines (headingsIn (scanSource text).sequence)),
        ""⟩ := by
  have hread : readProgram path text = .ok statements := by rw [readProgram, hparse]
  rw [← headings_of_parseProgram hparse hroot, ← subroutineLines_eq, outline, read, hload]
  simp only [hread, hroot]

end Script

/-! ### Agreement -/

/-- **The outline and the search agree.** The outline has one line for each node of a tree that was
read from a text, and the nodes of a kind are found in the order of their lines. The subroutines in
the tree of a program are those that its text defines, one for each keyword and in this order, and
the command that shows an outline lists them so. -/
theorem traversals_agree {text : List Char} {root : Node} (h : ReadAs text root) :
    Text.lines root.outline.toList = root.rows.map (fun r => r.text.toList) ++ [[]]
      ∧ root.rows.map Node.Row.node = root.nodes
      ∧ (∀ kind, (root.rows.filter fun r => r.node.kind = kind).map Node.Row.node
        = root.ofKind kind)
      ∧ ∀ {statements : List Stmt}, parseProgram text = .ok statements →
        Stmt.program? statements = some root →
        (root.ofKind .subroutine).map Node.heading = headingsIn (scanSource text).sequence
          ∧ ∀ {disk : Disk} {path : String}, Script.load disk path = .ok text → ∀ tracing,
            Script.outline disk path tracing
              = ⟨0, Report.linesText (("Parsing " ++ path ++ "...")
                    :: (Script.loadingTrace tracing path text ++ readingTrace tracing statements)
                    ++ [Script.rule])
                  ++ root.outline
                  ++ Report.linesText (headingLines (headingsIn (scanSource text).sequence)),
                ""⟩ := by
  have hnodes : root.rows.map Node.Row.node = root.nodes := Node.map_node_rowsAt h.allShown 0 none
  -- the rows give the lines and the nodes; the rest is a search among the nodes
  refine ⟨Node.lines_outline h.allShown, hnodes, fun kind => ?_, fun hparse hroot => ?_⟩
  · rw [Node.ofKind, ← hnodes, List.filter_map]
    rfl
  · exact ⟨headings_of_parseProgram hparse hroot, fun hload => Script.outline_eq hload hparse hroot⟩

/-- Definitions in a definition and in a loop whose condition is shown before its body. -/
theorem traversals_agree_nested :
    let text := "SUBROUTINE f(a, b) SUBROUTINE g() ENDSUBROUTINE ENDSUBROUTINE "
      ++ "REPEAT SUBROUTINE h(x) RETURN x ENDSUBROUTINE UNTIL True"
    let disk : Disk := ⟨fun _ => .ok true, fun _ => .ok (text.toList.map fun c => .ofNat c.toNat)⟩
    ∃ root, ReadAs text.toList root ∧ root.rows.map Node.Row.node = root.nodes
      ∧ (Script.outline disk "s" false).output
        = "Parsing s...\n" ++ Script.rule ++ "\n" ++ root.outline ++ Script.rule
          ++ "\nSubroutines (3):\n  f(a, b)\n  g()\n  h(x)\n" := by
  intro text disk
  have hsome : ((parseProgram text.toList).toOption.bind Stmt.program?).isSome = true := by
    decide +kernel
  obtain ⟨root, hroot⟩ := Option.isSome_iff_exists.mp hsome
  obtain ⟨statements, hstatements, hroot⟩ := Option.bind_eq_some_iff.mp hroot
  have hparse : parseProgram text.toList = .ok statements := by
    rcases h : parseProgram text.toList with position | read <;> rw [h] at hstatements
    · cases hstatements
    · cases hstatements
      rfl
  -- all characters of the text are single bytes, so the file is read as the text
  have hdecode : Text.decodeUtf8 (text.toList.map fun c => .ofNat c.toNat) = .ok text.toList := by
    decide +kernel
  have hends : Text.unifyLineEnds text.toList = text.toList := by decide +kernel
  have hload : Script.load disk "s" = .ok text.toList := by
    simp only [Script.load, disk, hdecode, hends]
  obtain ⟨-, hnodes, -, hprogram⟩ := traversals_agree (.program hparse hroot)
  obtain ⟨-, houtline⟩ := hprogram hparse hroot
  have hheadings : headingsIn (scanSource text.toList).sequence
      = [("f", ["a", "b"]), ("g", []), ("h", ["x"])] := by decide +kernel
  refine ⟨root, .program hparse hroot, hnodes, ?_⟩
  have hthree : Decimal.natText 3 = "3" := by decide +kernel
  rw [houtline hload false, hheadings]
  simp [Report.linesText, headingLines, Script.loadingTrace, readingTrace, hthree,
    String.append_assoc]

end Pseudocode
