import Pseudocode.Node.Search
import Pseudocode.Proofs.Scanning
import Pseudocode.Proofs.Yield

/-!
The names in a tree that was read from a text.

The names in the tree of a program are the names among its tokens, so what can be a name is decided
by the scanner alone: letters, digits and underscores after a first letter. A reserved word is not
taken for a name, with one exception: directly behind the last digit of a number its letters count
as touched, and then they are a name like any other.

Main result: the names in a tree are identifiers, and a reserved word is one of them exactly if it
touches a number in the text (`names_of_readAs`).
-/

namespace Pseudocode

open Text

/-! ### Names in a tree -/

/-- The names in a tree: of variables, assigned names, calls, subroutines and parameters. -/
def Node.names (n : Node) : List String := n.nodes.filterMap fun m => m.text? "name"

namespace Node

variable {kind : Kind} {ps : List (String × Property)} {key : String}

@[simp] theorem text?_mk_nil {cs : List (Slot × Node)} : (mk kind [] cs).text? key = none := rfl

@[simp] theorem text?_mk_text {cs : List (Slot × Node)} {s : String} :
    (mk kind ((key, .text s) :: ps) cs).text? key = some s := by
  simp [text?, property?, Property.display]

@[simp] theorem text?_mk_of_ne {cs : List (Slot × Node)} {other : String} {p : Property}
    (h : key ≠ other) :
    (mk kind ((other, p) :: ps) cs).text? key = (mk kind ps cs).text? key := by
  have hne : (key == other) = false := beq_false_of_ne h
  simp [text?, property?, List.lookup_cons, hne]

theorem nodesOfChildren_eq_flatMap (cs : List (Slot × Node)) :
    nodesOfChildren cs = cs.flatMap fun s => s.2.nodes := by
  induction cs with
  | nil => rfl
  | cons s cs ih => rw [nodesOfChildren, ih, List.flatMap_cons]

/-- A tree names what its root names and what its children name. -/
theorem mem_names_mk {x : String} {cs : List (Slot × Node)} :
    x ∈ (mk kind ps cs).names ↔
      (mk kind ps cs).text? "name" = some x ∨ ∃ s ∈ cs, x ∈ s.2.names := by
  simp only [names, nodes, nodesOfChildren_eq_flatMap, List.mem_filterMap, List.mem_cons,
    List.mem_flatMap]
  constructor
  · rintro ⟨m, rfl | ⟨s, hs, hm⟩, hx⟩
    · exact .inl hx
    · exact .inr ⟨s, hs, m, hm, hx⟩
  · rintro (hx | ⟨s, hs, m, hm, hx⟩)
    · exact ⟨_, .inl rfl, hx⟩
    · exact ⟨m, .inr ⟨s, hs, hm⟩, hx⟩

theorem mem_names_ofParts {x : String} {cs : List (Slot × Option Node)} :
    x ∈ (ofParts kind ps cs).names ↔
      (mk kind ps []).text? "name" = some x ∨ ∃ s ∈ cs, ∃ n, s.2 = some n ∧ x ∈ n.names := by
  rw [ofParts, mem_names_mk]
  refine or_congr Iff.rfl ?_
  simp only [List.mem_filterMap, Option.map_eq_some_iff]
  constructor
  · rintro ⟨_, ⟨s, hs, n, hn, rfl⟩, hx⟩
    exact ⟨s, hs, n, hn, hx⟩
  · rintro ⟨s, hs, n, hn, hx⟩
    exact ⟨(s.1, n), ⟨s, hs, n, hn, rfl⟩, hx⟩

theorem mem_names_arguments? {x : String} (ns : List Node) :
    (∃ list, arguments? ns = some list ∧ x ∈ list.names) ↔ ∃ n ∈ ns, x ∈ n.names := by
  induction ns with
  | nil => simp [arguments?]
  | cons n ns ih => simp [arguments?, mem_names_ofParts, ih]

theorem mem_names_parameters? {x : String} (params : List String) :
    (∃ list, parameters? params = some list ∧ x ∈ list.names) ↔ x ∈ params := by
  induction params with
  | nil => simp [parameters?]
  | cons p params ih =>
    simp [parameters?, mem_names_ofParts, ih, eq_comm (a := x)]

/-- A block names what its statements name. -/
theorem mem_names_block? {x : String} {ns : List Node} {root : Node}
    (h : block? ns = some root) : x ∈ root.names ↔ ∃ n ∈ ns, x ∈ n.names := by
  induction ns generalizing root with
  | nil => cases h
  | cons n ns ih =>
    rw [block?] at h
    -- the block of one statement is the statement itself, with no node for the sequence
    rcases hblock : block? ns with - | rest
    · rcases ns with - | ⟨m, ns⟩
      · rw [hblock] at h
        cases h
        simp
      · rw [block?] at hblock
        split at hblock <;> cases hblock
    · rw [hblock] at h
      cases h
      simp [sequence, mem_names_mk, ih hblock]

end Node

/-! ### Names among tokens -/

theorem name_mem_commaSeparated {x : String} (tss : List (List Token)) :
    .name x ∈ commaSeparated tss ↔ ∃ ts ∈ tss, .name x ∈ ts := by
  fun_induction commaSeparated tss with
  | case1 => simp
  | case2 => simp
  | case3 ts rest _ ih => simp [ih]

theorem name_mem_parameters {x : String} (params : List String) :
    .name x ∈ commaSeparated (params.map fun p => [.name p]) ↔ x ∈ params := by
  rw [name_mem_commaSeparated]
  constructor
  · rintro ⟨_, hts, hx⟩
    obtain ⟨p, hp, rfl⟩ := List.mem_map.mp hts
    cases List.mem_singleton.mp hx
    exact hp
  · intro hx
    exact ⟨[.name x], List.mem_map_of_mem hx, List.mem_singleton_self _⟩

theorem name_not_mem_unary {x : String} (op : UnaryOp) : .name x ∉ op.tokens := by
  cases op <;> simp [UnaryOp.tokens]

theorem name_not_mem_binary {x : String} (op : BinaryOp) : .name x ∉ op.tokens := by
  cases op <;> simp [BinaryOp.tokens]

mutual

/-- The names in the tree of an expression are the names among its tokens. -/
theorem Expr.mem_names_toNode {x : String} :
    (e : Expr) → (x ∈ e.toNode.names ↔ .name x ∈ e.tokens)
  | .number s => by
    simp [toNode, tokens, Node.number, Node.mem_names_mk]
  | .boolean b => by
    simp [toNode, tokens, Node.boolean, Node.mem_names_mk]
  | .reference name => by
    simp [toNode, tokens, Node.reference, Node.mem_names_mk, eq_comm (a := x)]
  | .call name args => by
    simp [toNode, tokens, Node.call, Node.mem_names_ofParts, Node.mem_names_arguments?,
      mem_names_toNodes args, name_mem_commaSeparated, eq_comm (a := x)]
  | .bracket e => by
    simp [toNode, tokens, Node.bracket, Node.mem_names_mk,
      mem_names_toNode e]
  | .unary op e => by
    simp [toNode, tokens, Node.unary, Node.mem_names_mk,
      name_not_mem_unary, mem_names_toNode e]
  | .binary op l r => by
    simp [toNode, tokens, Node.binary, Node.mem_names_mk,
      name_not_mem_binary, mem_names_toNode l, mem_names_toNode r]
  | .relation rel l r => by
    simp [toNode, tokens, Node.relation, Node.mem_names_mk,
      mem_names_toNode l, mem_names_toNode r]

theorem Expr.mem_names_toNodes {x : String} :
    (es : List Expr) →
      ((∃ n ∈ Expr.toNodes es, x ∈ n.names) ↔ ∃ ts ∈ Expr.tokensOf es, .name x ∈ ts)
  | [] => by simp [toNodes, tokensOf]
  | e :: es => by simp [toNodes, tokensOf, mem_names_toNode e, mem_names_toNodes es]

end

theorem Expr.name_mem_returnTokens {x : String} (ret : Option Expr) :
    .name x ∈ Expr.returnTokens ret ↔ ∃ n, ret.map Expr.toNode = some n ∧ x ∈ n.names := by
  cases ret with
  | none => simp [Expr.returnTokens]
  | some e => simp [Expr.returnTokens, e.mem_names_toNode]

mutual

/-- The names in the tree of a statement are the names among its tokens. -/
theorem Stmt.mem_names_toNode {x : String} :
    (s : Stmt) → (x ∈ s.toNode.names ↔ .name x ∈ s.tokens)
  | .assign name constant value => by
    cases constant <;>
      simp [Stmt.toNode, Stmt.tokens, Node.assignment, Node.mem_names_mk, value.mem_names_toNode,
        eq_comm (a := x)]
  | .subroutine name params none ret => by
    simp [Stmt.toNode, Stmt.tokens, Node.subroutine, Node.mem_names_ofParts,
      Node.mem_names_parameters?, name_mem_parameters, Expr.name_mem_returnTokens,
      eq_comm (a := x)]
  | .subroutine name params (some body) ret => by
    simp [Stmt.toNode, Stmt.tokens, Node.subroutine, Node.mem_names_ofParts,
      Node.mem_names_parameters?, name_mem_parameters, Expr.name_mem_returnTokens,
      body.mem_names_toNode, eq_comm (a := x)]
  | .conditional condition thenBranch none => by
    simp [Stmt.toNode, Stmt.tokens, Node.conditional, Node.mem_names_ofParts,
      condition.mem_names_toNode, thenBranch.mem_names_toNode]
  | .conditional condition thenBranch (some elseBranch) => by
    simp [Stmt.toNode, Stmt.tokens, Node.conditional, Node.mem_names_ofParts,
      condition.mem_names_toNode, thenBranch.mem_names_toNode, elseBranch.mem_names_toNode]
  | .whileLoop condition body => by
    simp [Stmt.toNode, Stmt.tokens, Node.loop, Node.mem_names_mk, condition.mem_names_toNode,
      body.mem_names_toNode]
  | .repeatLoop body condition => by
    simp [Stmt.toNode, Stmt.tokens, Node.loop, Node.mem_names_mk, condition.mem_names_toNode,
      body.mem_names_toNode, or_comm]
  | .output value => by
    simp [Stmt.toNode, Stmt.tokens, Node.output, Node.mem_names_mk, value.mem_names_toNode]
  | .call name args => by
    simp [Stmt.toNode, Stmt.tokens, Node.call, Node.mem_names_ofParts, Node.mem_names_arguments?,
      Expr.mem_names_toNodes args, name_mem_commaSeparated, eq_comm (a := x)]

theorem Block.mem_names_toNode {x : String} :
    (b : Block) → (x ∈ b.toNode.names ↔ .name x ∈ b.tokens)
  | .one statement => by
    simp [Block.toNode, Block.tokens, statement.mem_names_toNode]
  | .cons statement rest => by
    simp [Block.toNode, Block.tokens, Node.sequence, Node.mem_names_mk, statement.mem_names_toNode,
      rest.mem_names_toNode]

end

/-- The names of the tree of a program are the names printed for its statements. -/
theorem Stmt.mem_names_program? {x : String} {statements : List Stmt} {root : Node}
    (h : Stmt.program? statements = some root) :
    x ∈ root.names ↔ .name x ∈ statements.flatMap Stmt.tokens := by
  rw [Node.mem_names_block? h, List.mem_flatMap]
  constructor
  · rintro ⟨_, hn, hx⟩
    obtain ⟨s, hs, rfl⟩ := List.mem_map.mp hn
    exact ⟨s, hs, s.mem_names_toNode.mp hx⟩
  · rintro ⟨s, hs, hx⟩
    exact ⟨s.toNode, List.mem_map_of_mem hs, s.mem_names_toNode.mpr hx⟩

/-! ### Names in a text -/

/-- A name as it may be written: a letter, and then letters, digits and underscores. -/
def IsIdentifier (x : String) : Prop :=
  ∃ c cs, x.toList = c :: cs ∧ isAsciiLetter c = true ∧ ∀ d ∈ cs, isWord d = true

/-- A word with a fixed meaning: a keyword or a truth value. -/
def IsReserved (x : String) : Prop :=
  (∃ k : Keyword, k.word = x) ∨ x = Literal.trueText ∨ x = Literal.falseText

/-- The word stands in the text directly behind a number whose last digit is an ASCII one. -/
def TouchesNumber (cs : List Char) (x : String) : Prop :=
  ∃ p t c, ⟨p, .number t⟩ ∈ (scan cs).tokens ∧ t.toList.getLast? = some c ∧ '0' ≤ c ∧ c ≤ '9'
    ∧ (cs.drop (p + t.length)).takeWhile isWord = x.toList

/-- A reserved word is read as a token of its own, not as a name. -/
theorem IsReserved.reserved?_isSome {x : String} (h : IsReserved x) :
    (Token.reserved? x).isSome = true := by
  rcases h with ⟨k, rfl⟩ | rfl | rfl
  · cases k <;> decide
  · decide
  · decide

/-- Reserved words are made of letters, with at least one. -/
theorem IsReserved.letters {x : String} (h : IsReserved x) :
    x.toList ≠ [] ∧ ∀ c ∈ x.toList, isAsciiLetter c = true := by
  have hall : x.toList.isEmpty = false ∧ x.toList.all isAsciiLetter = true := by
    rcases h with ⟨k, rfl⟩ | rfl | rfl
    · cases k <;> decide
    · decide
    · decide
  exact ⟨fun hnil => by simp [hnil] at hall, List.all_eq_true.mp hall.2⟩

/-- A name among the tokens of a text has the form of an identifier. -/
theorem isIdentifier_of_mem_scan {cs : List Char} {x : String} {p : Nat}
    (h : ⟨p, .name x⟩ ∈ (scan cs).tokens) : IsIdentifier x := by
  obtain ⟨c, l, -, hl, hp⟩ := mem_scan_tokens_iff.mp h
  obtain ⟨⟨d, rest, hrest, hd⟩, hx, -, -⟩ := name_of_lex? hl (Placed.mk.inj hp).2.symm
  rw [hrest, List.takeWhile_cons_of_pos (isWord_of_isAsciiLetter hd)] at hx
  exact ⟨d, _, hx, hd, List.all_eq_true.mp List.all_takeWhile⟩

/-- A scan that comes to a dollar sign does not get any further. -/
theorem not_complete_of_dollar {cs rest : List Char} {c : Cursor} (hc : Reached cs c)
    (hrest : c.rest = '$' :: rest) : (scan cs).complete = false := by
  have hskip : c.skip = c := by
    apply Cursor.skip_of_no_gap
    rw [hrest]
    rfl
  -- no token begins with the sign, and no space or comment is before it
  have hlex : c.skip.lexeme? = none := by
    rw [hskip, Cursor.lexeme?, hrest, lex?, if_neg (by decide), if_neg (by decide)]
    rfl
  rcases hcomplete : (scan cs).complete with - | -
  · rfl
  · have hnil := rest_eq_nil_of_complete hc hcomplete hlex
    rw [hskip, hrest] at hnil
    cases hnil

/-- The touch of a character is felt only without a gap. -/
theorem skip_of_touched {c : Cursor} (h : c.skip.before.any gluesWords = true) : c.skip = c := by
  by_cases hgap : gapLength false c.rest = 0
  · exact Cursor.skip_of_no_gap hgap
  · simp [Cursor.skip, hgap] at h

/-- The longest run of characters that touch a reserved word is the word itself, unless a dollar
sign follows. -/
theorem reserved_run {x : String} (hx : IsReserved x) {cs : List Char}
    (h : x.toList = cs.takeWhile isWord) :
    String.ofList (cs.takeWhile gluesWords) = x
      ∨ ∃ rest, cs.drop (cs.takeWhile isWord).length = '$' :: rest := by
  have hsplit : cs.takeWhile isWord ++ cs.dropWhile isWord = cs := List.takeWhile_append_dropWhile
  -- letters glue words, so the run goes over the whole of the word and on behind it
  have hrun : cs.takeWhile gluesWords
      = x.toList ++ (cs.dropWhile isWord).takeWhile gluesWords :=
    calc cs.takeWhile gluesWords
        = (x.toList ++ cs.dropWhile isWord).takeWhile gluesWords := by rw [h, hsplit]
      _ = x.toList ++ (cs.dropWhile isWord).takeWhile gluesWords :=
        List.takeWhile_append_of_pos fun c hc => gluesWords_of_isAsciiLetter (hx.letters.2 c hc)
  have hdrop : cs.drop (cs.takeWhile isWord).length = cs.dropWhile isWord := by
    have := @List.drop_left _ (cs.takeWhile isWord) (cs.dropWhile isWord)
    rwa [hsplit] at this
  rcases htail : cs.dropWhile isWord with - | ⟨d, rest⟩
  · left
    rw [hrun, htail, List.takeWhile_nil, List.append_nil, String.ofList_toList]
  · have hd : isWord d = false := not_of_drop_takeWhile (hdrop.trans htail)
    -- the one sign that glues words without being part of them is the dollar sign
    rcases hglue : gluesWords d with - | -
    · left
      rw [hrun, htail, List.takeWhile_cons_of_neg (by simp [hglue]), List.append_nil,
        String.ofList_toList]
    · right
      by_cases hdollar : d = '$'
      · exact ⟨rest, by rw [hdrop, htail, hdollar]⟩
      · rw [isWord_of_gluesWords hglue hdollar] at hd
        cases hd

/-- A reserved word is read as a name only where the token before touches it. -/
theorem Reached.touched_of_reserved {cs : List Char} {c : Cursor} {l : Lexeme} {x : String}
    (hc : Reached cs c) (hcomplete : (scan cs).complete = true) (hl : c.skip.lexeme? = some l)
    (hx : IsReserved x) (htoken : l.token = .name x) :
    c.before.any gluesWords = true ∧ x.toList = c.rest.takeWhile isWord
      ∧ ∃ d rest, c.rest = d :: rest ∧ isAsciiLetter d = true := by
  obtain ⟨⟨d, rest, hrest, hd⟩, hword, htext, htouched | hfree⟩ := name_of_lex? hl htoken
  · have hskip := skip_of_touched htouched
    rw [hskip] at htouched hword hrest
    exact ⟨htouched, hword, d, rest, hrest, hd⟩
  · -- the word stands free, so it was not recognised only because of a dollar sign
    exfalso
    rcases reserved_run hx hword with hrun | ⟨tail, htail⟩
    · have hsome := hx.reserved?_isSome
      rw [hrun] at hfree
      rw [hfree] at hsome
      cases hsome
    · rw [← htext] at htail
      have hfalse := not_complete_of_dollar (hc.past hl) htail
      rw [hcomplete] at hfalse
      cases hfalse

/-- A reserved word that is read as a name touches a number. -/
theorem touchesNumber_of_mem_scan {cs : List Char} {x : String} {p : Nat}
    (hcomplete : (scan cs).complete = true) (hx : IsReserved x)
    (h : ⟨p, .name x⟩ ∈ (scan cs).tokens) : TouchesNumber cs x := by
  obtain ⟨c, l, hc, hl, hp⟩ := mem_scan_tokens_iff.mp h
  obtain ⟨htouched, hword, d, rest, hrest, hd⟩ :=
    hc.touched_of_reserved hcomplete hl hx (Placed.mk.inj hp).2.symm
  -- a token ends where the word starts, and it is a number
  cases hc with
  | start => cases htouched
  | @past b m hb hm =>
    obtain ⟨e, he, hglue⟩ := (Option.any_eq_true _ _).mp htouched
    obtain ⟨htoken, hlow, hhigh⟩ := number_of_touching hm he hglue hrest hd
    refine ⟨b.skip.position, String.ofList m.text, e, ?_, ?_, hlow, hhigh, ?_⟩
    · rw [← htoken]
      exact mem_scan_tokens_iff.mpr ⟨b, m, hb, hm, rfl⟩
    · rw [String.toList_ofList]
      exact he
    · rw [hword, String.length_ofList, ← List.drop_drop, ← hb.rest_skip_eq_drop]
      rfl

/-- A reserved word that touches a number is read as a name. -/
theorem mem_scan_of_touchesNumber {cs : List Char} {x : String} (hx : IsReserved x)
    (h : TouchesNumber cs x) : ∃ p, ⟨p, .name x⟩ ∈ (scan cs).tokens := by
  obtain ⟨p, t, d, hnumber, hlast, hlow, hhigh, hword⟩ := h
  obtain ⟨c, l, hc, hl, hp⟩ := mem_scan_tokens_iff.mp hnumber
  obtain ⟨rfl, htoken⟩ := Placed.mk.inj hp
  obtain ⟨-, -, htext⟩ := number_of_lex? hl htoken.symm
  have hrest : (c.skip.past l).rest.takeWhile isWord = x.toList := by
    rw [← hword, ← List.drop_drop, ← hc.rest_skip_eq_drop, Cursor.past, ← htext,
      String.length_toList]
  have htouched : (c.skip.past l).before.any gluesWords = true := by
    rw [Cursor.past, ← htext, hlast, Option.any_some]
    simp [gluesWords, hlow, hhigh]
  -- what follows starts with a letter, so nothing is skipped
  obtain ⟨e, rest, he, hletter⟩ :
      ∃ e rest, (c.skip.past l).rest = e :: rest ∧ isAsciiLetter e = true := by
    rcases hcs : (c.skip.past l).rest with - | ⟨e, rest⟩
    · rw [hcs] at hrest
      exact absurd hrest.symm hx.letters.1
    · rcases he : isWord e with - | -
      · rw [hcs, List.takeWhile_cons_of_neg (by simp [he])] at hrest
        exact absurd hrest.symm hx.letters.1
      · rw [hcs, List.takeWhile_cons_of_pos he] at hrest
        exact ⟨e, rest, rfl, hx.letters.2 e (hrest ▸ List.mem_cons_self)⟩
  have hskip := skip_of_letter he hletter
  have hlex : (c.skip.past l).skip.lexeme? = some (.word (c.skip.past l).before (e :: rest)) := by
    rw [hskip, Cursor.lexeme?, he, lex?, if_pos hletter]
  refine ⟨(c.skip.past l).skip.position, mem_scan_tokens_iff.mpr ?_⟩
  refine ⟨c.skip.past l, _, hc.past hl, hlex, ?_⟩
  obtain ⟨t, hfree, -, -⟩ | ⟨-, hname⟩ := Lexeme.word_cases (c.skip.past l).before (e :: rest)
  · rw [htouched] at hfree
    cases hfree
  · rw [hname, ← he, hrest, String.ofList_toList]

/-! ### Trees read from a text -/

/-- The trees that a text is read as: of a program that is not empty, or of an expression. -/
inductive ReadAs (text : List Char) : Node → Prop
  | program {statements : List Stmt} {root : Node} : parseProgram text = .ok statements →
    Stmt.program? statements = some root → ReadAs text root
  | expression {e : Expr} : parseExpression text = .ok e → ReadAs text e.toNode

/-- The names of the tree that a text is read as are the name tokens of the text. -/
theorem ReadAs.mem_names_iff {text : List Char} {root : Node} (h : ReadAs text root) {x : String} :
    x ∈ root.names ↔ ∃ p, ⟨p, .name x⟩ ∈ (scan (expandTabs text)).tokens := by
  have hsequence : .name x ∈ (scanSource text).sequence ↔
      ∃ p, ⟨p, .name x⟩ ∈ (scan (expandTabs text)).tokens := by
    constructor
    · intro hx
      obtain ⟨⟨p, t⟩, hp, rfl⟩ := List.mem_map.mp hx
      exact ⟨p, hp⟩
    · rintro ⟨p, hp⟩
      exact List.mem_map_of_mem hp
  -- the reader takes all tokens, so what it read is printed as the sequence of them
  rw [← hsequence]
  cases h with
  | program hparse hroot =>
    rw [Stmt.mem_names_program? hroot, (sequence_of_parseProgram hparse).1]
  | expression hparse =>
    rw [Expr.mem_names_toNode, (sequence_of_parseExpression hparse).1]

/-- A text that is read is scanned to its end. -/
theorem ReadAs.complete {text : List Char} {root : Node} (h : ReadAs text root) :
    (scan (expandTabs text)).complete = true := by
  cases h with
  | program hparse => exact (sequence_of_parseProgram hparse).2
  | expression hparse => exact (sequence_of_parseExpression hparse).2

/-- The names in a tree are identifiers. A reserved word is one of them exactly if it stands in the
text directly behind the last digit of a number. -/
theorem names_of_readAs {text : List Char} {root : Node} (h : ReadAs text root) :
    (∀ x ∈ root.names, IsIdentifier x)
      ∧ ∀ x, IsReserved x → (x ∈ root.names ↔ TouchesNumber (expandTabs text) x) := by
  constructor
  · intro x hx
    obtain ⟨p, hp⟩ := h.mem_names_iff.mp hx
    exact isIdentifier_of_mem_scan hp
  · intro x hx
    rw [h.mem_names_iff]
    constructor
    · rintro ⟨p, hp⟩
      exact touchesNumber_of_mem_scan h.complete hx hp
    · exact mem_scan_of_touchesNumber hx

/-- After a digit a reserved word is read as a name. -/
theorem names_of_readAs_reserved :
    ∃ root, ReadAs "OUTPUT 1IF <- 2".toList root ∧ IsReserved "IF" ∧ "IF" ∈ root.names := by
  have hread : ReadAs "OUTPUT 1IF <- 2".toList
      (.sequence (.output (.number "1")) (.assignment "IF" false (.number "2"))) :=
    .program rfl rfl
  have hreserved : IsReserved "IF" := .inl ⟨.IF, rfl⟩
  refine ⟨_, hread, hreserved, ((names_of_readAs hread).2 "IF" hreserved).mpr ?_⟩
  exact ⟨7, "1", '1', by decide, by decide, by decide, by decide, by decide⟩

end Pseudocode
