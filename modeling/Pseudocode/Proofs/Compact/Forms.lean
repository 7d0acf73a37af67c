import Pseudocode.Proofs.Brackets.Basic
import Pseudocode.Proofs.Compact.Notation
import Pseudocode.Proofs.Names

/-!
Compact texts of nodes, form by form.

A node is `Readable` if the reader of compact texts reads its compact text as its bare form. Every
constructor of well-formed nodes keeps this: the text and the bare form of what it makes are put
together from those of the parts, and the reader has a rule for just that text.

Where a word stands before one tree in brackets, the kind of that tree decides. So the rules for
operations on one operand and for outputs ask that their part is no list link, and the rule for
calls uses that a list of arguments is one (`Readable.arguments?`).
-/

namespace Pseudocode

namespace Node

/-! ### Compact texts, form by form -/

section

variable {s : String} (hs : s ≠ "")
include hs

theorem label?_text (kind : Kind) (key : String) (ps : List (String × Property))
    (cs : List (Slot × Node)) : (mk kind ((key, .text s) :: ps) cs).label? key = some s := by
  simp [label?, property?, Property.isSet, Property.display, hs]

theorem compact_number : (number s).compact = s := by
  rw [number, compact, compactWith, label?_text hs]
  rfl

theorem compact_boolean : (boolean s).compact = s := by
  rw [boolean, compact, compactWith, label?_text hs]
  rfl

theorem compact_reference : (reference s).compact = s := by
  rw [reference, compact, compactWith, label?_text hs]
  rfl

/-- An operator stands in front of its operand in round brackets. -/
theorem compact_unary (n : Node) : (unary s n).compact = applied s n.compact := by
  rw [unary, compact, compactWith, label?_text hs]
  rfl

/-- An operator stands in front of both operands. -/
theorem compact_binary (l r : Node) :
    (binary s l r).compact = applied s (", ".intercalate [l.compact, r.compact]) := by
  rw [binary, compact, compactWith, label?_text hs]
  rfl

theorem compact_relation (l r : Node) :
    (relation s l r).compact = applied s (", ".intercalate [l.compact, r.compact]) := by
  rw [relation, compact, compactWith, label?_text hs]
  rfl

/-- A loop is its style applied to the condition and the body. -/
theorem compact_loop (l r : Node) :
    (loop s l r).compact = applied s (", ".intercalate [l.compact, r.compact]) := by
  rw [loop, compact, compactWith, label?_text hs]
  rfl

/-- The value of a constant stands in braces, that of a variable behind a colon. -/
theorem compact_assignment (constant : Bool) (n : Node) :
    (assignment s constant n).compact
      = if constant then s ++ inBraces n.compact else s ++ ": " ++ n.compact := by
  rw [assignment, compact, compactWith, label?_text hs]
  cases constant <;> rfl

/-- A call is its name applied to the text of its arguments, if it has any. -/
theorem compact_call (ns : List Node) :
    (call s ns).compact
      = applied s (", ".intercalate ((arguments? ns).map compact).toList) := by
  rw [call, ofParts, compact, compactWith, label?_text hs]
  cases arguments? ns <;> rfl

end

theorem compact_output (n : Node) : (output n).compact = applied "Output" n.compact := rfl

theorem compact_bracket (n : Node) : (bracket n).compact = n.compact := rfl

theorem compact_sequence (l r : Node) :
    (sequence l r).compact = "[" ++ (l.compact ++ ", " ++ r.compact) ++ "]" := rfl

/-- A conditional is its style applied to its parts. -/
theorem compact_conditional (condition l : Node) (r? : Option Node) :
    (conditional condition l r?).compact = applied (if r?.isSome then ifThenElse else ifThen)
      (", ".intercalate (condition.compact :: l.compact :: (r?.map compact).toList)) := by
  cases r? <;> rfl

/-- Arguments are nested as they are in the tree. -/
theorem compact_arguments (n : Node) (rest : Option Node) :
    (ofParts .arguments [] [(.left, some n), (.right, rest)]).compact
      = applied "Arguments" (", ".intercalate (n.compact :: (rest.map compact).toList)) := by
  cases rest <;> rfl

/-- The names of the parameters can be read off their list. -/
theorem parameterNames?_parameters? {params : List String} (h : ∀ p ∈ params, p ≠ "") :
    parameterNames? (parameters? params) = some params := by
  induction params with
  | nil => rfl
  | cons p params ih =>
    obtain ⟨hp, hparams⟩ := List.forall_mem_cons.mp h
    -- the rest of the list is the right child, and the name is the label
    have hright : (ofParts .parameters [("name", .text p)]
        [(.right, parameters? params)]).child? .right = parameters? params := by
      cases parameters? params <;> rfl
    have hlabel : (ofParts .parameters [("name", .text p)]
        [(.right, parameters? params)]).label? "name" = some p := label?_text hp _ _ _ _
    have hrest := ih hparams
    rw [parameterNames?] at hrest
    rw [parameterNames?, parameters?, links_some, List.mapM_cons, hlabel, hright, hrest]
    rfl

/-- A definition shows its parameters, its body and what it returns. -/
theorem compact_subroutine {s : String} (hs : s ≠ "") {params : List String}
    (hparams : ∀ p ∈ params, p ≠ "") (left ret : Option Node) :
    (subroutine s params left ret).compact
      = "SUBROUTINE " ++ applied s (", ".intercalate params)
        ++ inBraces ((left.map compact).getD "") ++ Compact.returnText (ret.map compact) := by
  have hnames : parameterNames? ((subroutine s params left ret).child? .params) = some params := by
    rw [← parameterNames?_parameters? hparams, subroutine]
    cases parameters? params <;> cases left <;> cases ret <;> rfl
  rw [subroutine, ofParts] at hnames ⊢
  rw [compact, compactWith, label?_text hs, hnames]
  cases parameters? params <;> cases left <;> cases ret <;> rfl

/-! ### Bare forms -/

/-- Putting a node together and taking off brackets commute, unless the node is a bracket. -/
theorem bare_ofParts {kind : Kind} (hk : kind ≠ .bracket) (ps : List (String × Property))
    (parts : List (Slot × Option Node)) :
    (ofParts kind ps parts).bare
      = ofParts kind ps (parts.map fun (slot, child) => (slot, child.map bare)) := by
  rw [ofParts, bare, if_neg hk, bareChildren_eq, ofParts, List.map_filterMap, List.filterMap_map]
  congr 2
  funext part
  obtain ⟨slot, child⟩ := part
  cases child <;> rfl

theorem bare_arguments? (ns : List Node) :
    (arguments? ns).map bare = arguments? (ns.map bare) := by
  induction ns with
  | nil => rfl
  | cons n ns ih =>
    rw [List.map_cons, arguments?, arguments?, ← ih, Option.map_some, bare_ofParts (by decide)]
    rfl

theorem bare_parameters? (params : List String) :
    (parameters? params).map bare = parameters? params := by
  induction params with
  | nil => rfl
  | cons p params ih =>
    rw [parameters?, Option.map_some, bare_ofParts (by decide)]
    simp only [List.map_cons, List.map_nil, ih]

theorem bare_call (s : String) (ns : List Node) : (call s ns).bare = call s (ns.map bare) := by
  rw [call, call, ← bare_arguments?, bare_ofParts (by decide)]
  rfl

theorem bare_conditional (condition l : Node) (r? : Option Node) :
    (conditional condition l r?).bare = conditional condition.bare l.bare (r?.map bare) := by
  rw [conditional, conditional, bare_ofParts (by decide), Option.isSome_map]
  rfl

theorem bare_subroutine (s : String) (params : List String) (left ret : Option Node) :
    (subroutine s params left ret).bare
      = subroutine s params (left.map bare) (ret.map bare) := by
  rw [subroutine, subroutine, bare_ofParts (by decide), ← bare_parameters? params]
  simp only [List.map_cons, List.map_nil, bare_parameters?]

/-! ### Readable trees -/

/-- The compact text of the tree is read as its bare form. -/
def Readable (n : Node) : Prop := Compact.Reads n.compact n.bare

namespace Readable

variable {s : String} {n l r : Node}

/-- A row of digits is read back as a number. -/
theorem number (hs : Compact.Unmarked s) (hdigit : s.toList.head?.any Text.isDigit = true) :
    (number s).Readable := by
  have hreads := Compact.Reads.word hs
  have hnode : Compact.ofWord s = Node.number s := by
    rw [Compact.ofWord, if_neg, if_pos hdigit]
    rintro (rfl | rfl) <;> cases hdigit
  rw [hnode] at hreads
  rw [Readable, compact_number hs.1]
  exact hreads

/-- A truth value is a word with a meaning of its own. -/
theorem boolean (b : Bool) : (boolean (Value.truthText b)).Readable := by
  have hword : Compact.Unmarked (Value.truthText b) := by
    cases b <;> decide
  have hreads := Compact.Reads.word hword
  have hnode : Compact.ofWord (Value.truthText b) = Node.boolean (Value.truthText b) := by
    cases b <;> rfl
  rw [hnode] at hreads
  rw [Readable, compact_boolean hword.1]
  exact hreads

/-- Any other word is read back as a name. -/
theorem reference (hs : Compact.Unmarked s) (hdigit : s.toList.head?.any Text.isDigit = false)
    (hreserved : ¬ IsReserved s) : (reference s).Readable := by
  have hreads := Compact.Reads.word hs
  have hnode : Compact.ofWord s = Node.reference s := by
    rw [Compact.ofWord, if_neg (fun h => hreserved (.inr h)), if_neg (by simp [hdigit])]
  rw [hnode] at hreads
  rw [Readable, compact_reference hs.1]
  exact hreads

theorem bracket (h : n.Readable) : (bracket n).Readable := by
  rw [Readable, compact_bracket]
  exact h

/-- A word with one tree in brackets. -/
theorem single (hs : Compact.Unmarked s) (h : n.Readable) {m : Node}
    (hnode : Compact.ofRound s [n.bare] = m) : Compact.Reads (applied s n.compact) m := by
  have hreads := Compact.Reads.round hs (.cons h .nil)
  rw [hnode] at hreads
  exact hreads

theorem unary (op : UnaryOp) (h : n.Readable) (hn : n.bare.kind ≠ .arguments) :
    (unary op.name n).Readable := by
  have hword : Compact.Unmarked op.name := by
    cases op <;> decide
  rw [Readable, compact_unary hword.1]
  apply single hword h
  rw [Compact.ofRound, if_neg hn]
  cases op <;> rfl

theorem output (h : n.Readable) (hn : n.bare.kind ≠ .arguments) : (output n).Readable := by
  rw [Readable, compact_output]
  apply single (by decide) h
  rw [Compact.ofRound, if_neg hn]
  rfl

/-- A word with two trees in brackets. -/
theorem double (hs : Compact.Unmarked s) (hl : l.Readable) (hr : r.Readable) {m : Node}
    (hnode : Compact.ofRound s [l.bare, r.bare] = m) :
    Compact.Reads (applied s (", ".intercalate [l.compact, r.compact])) m := by
  have hreads := Compact.Reads.round hs (.cons hl (.cons hr .nil))
  rw [hnode] at hreads
  exact hreads

theorem binary (op : BinaryOp) (hl : l.Readable) (hr : r.Readable) :
    (binary op.name l r).Readable := by
  have hword : Compact.Unmarked op.name := by
    cases op <;> decide
  rw [Readable, compact_binary hword.1]
  apply double hword hl hr
  cases op <;> rfl

theorem relation (rel : Relation) (hl : l.Readable) (hr : r.Readable) :
    (relation rel.name l r).Readable := by
  have hword : Compact.Unmarked rel.name := by
    cases rel <;> decide
  rw [Readable, compact_relation hword.1]
  apply double hword hl hr
  cases rel <;> rfl

theorem loop (hs : s = whileStyle ∨ s = repeatStyle) (hl : l.Readable) (hr : r.Readable) :
    (loop s l r).Readable := by
  have hword : Compact.Unmarked s := by
    obtain rfl | rfl := hs <;> decide
  rw [Readable, compact_loop hword.1]
  apply double hword hl hr
  obtain rfl | rfl := hs <;> rfl

theorem conditional (hn : n.Readable) (hl : l.Readable) {r? : Option Node}
    (hr : ∀ r ∈ r?, r.Readable) : (conditional n l r?).Readable := by
  rw [Readable, compact_conditional, bare_conditional]
  cases r? with
  | none =>
    apply double (by decide) hn hl
    rfl
  | some r =>
    have hword : Compact.Unmarked ifThenElse := by decide
    exact Compact.Reads.round hword (.cons hn (.cons hl (.cons (hr r rfl) .nil)))

theorem assignment (hs : Compact.Unmarked s) (constant : Bool) (h : n.Readable) :
    (assignment s constant n).Readable := by
  rw [Readable, compact_assignment hs.1]
  cases constant with
  | false => exact Compact.Reads.assigned hs h
  | true => exact Compact.Reads.braced hs h

theorem sequence (hl : l.Readable) (hr : r.Readable) : (sequence l r).Readable := by
  rw [Readable, compact_sequence]
  exact Compact.Reads.pair hl hr

/-- What may be missing is readable if it is there. -/
theorem rel {n? : Option Node} (h : ∀ n ∈ n?, n.Readable) :
    Option.Rel Compact.Reads (n?.map compact) (n?.map bare) := by
  cases n? with
  | none => exact .none
  | some n => exact .some (h n rfl)

theorem subroutine (hs : Compact.Unmarked s) {params : List String}
    (hparams : ∀ p ∈ params, Compact.Unmarked p) {left ret : Option Node}
    (hleft : ∀ n ∈ left, n.Readable) (hret : ∀ n ∈ ret, n.Readable) :
    (subroutine s params left ret).Readable := by
  rw [Readable, compact_subroutine hs.1 (fun p hp => (hparams p hp).1), bare_subroutine]
  exact Compact.Reads.definition hs hparams (rel hleft) (rel hret)

/-- A list of arguments is read as one, since no argument of its own is one. -/
theorem arguments? {ns : List Node} (h : ∀ n ∈ ns, n.Readable ∧ n.bare.kind ≠ .arguments) :
    ∀ list ∈ Node.arguments? ns, list.Readable ∧ list.bare.kind = .arguments := by
  induction ns with
  | nil => nofun
  | cons n ns ih =>
    obtain ⟨⟨hn, hkind⟩, hns⟩ := List.forall_mem_cons.mp h
    rintro _ ⟨⟩
    refine ⟨?_, rfl⟩
    rw [Readable, compact_arguments, bare_ofParts (by decide)]
    -- the last argument stands alone in its node, each other one with the rest behind it
    rcases hrest : Node.arguments? ns with - | rest
    · apply single (by decide) hn
      rw [Compact.ofRound, if_neg hkind]
      rfl
    · exact double (by decide) hn (ih hns rest hrest).1 rfl

theorem call (hs : Compact.Unmarked s) {ns : List Node}
    (h : ∀ n ∈ ns, n.Readable ∧ n.bare.kind ≠ .arguments) : (call s ns).Readable := by
  rw [Readable, compact_call hs.1, Node.call, bare_ofParts (by decide)]
  rcases hlist : Node.arguments? ns with - | list
  · exact Compact.Reads.round hs .nil
  · obtain ⟨hlist, hkind⟩ := arguments? h list hlist
    apply single hs hlist
    rw [Compact.ofRound, if_pos hkind]
    rfl

end Readable

end Node

end Pseudocode
