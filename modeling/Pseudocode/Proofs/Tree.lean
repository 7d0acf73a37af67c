import Pseudocode.Eval.Step

/-!
Trees as the evaluator meets them.

The first half is about the trees alone: induction over the children, and the two kinds of chain
(parameter and argument lists, and the spine of a block) as recursions through the right slot.

The second half names what the rules of evaluation ask of a node. `requiredProperties`,
`requiredSlots` and `optionalSlots` are the table of properties and slots, kind by kind. `Part n m`
says that the rule of `n` may evaluate `m`; `Defect n f` says that the rule of `n` may report `f`
about the node itself, whatever the environment is.

Main results: the rule of a block is a recursion along its right spine (`sequence_of_parts` and its
companions), so a property of blocks needs only `child_induction`.
-/

namespace Pseudocode

namespace Node

/-! ### Induction over children -/

theorem mem_children_of_child? {n c : Node} {slot : Slot} (h : n.child? slot = some c) :
    (slot, c) ∈ n.children := by
  obtain ⟨before, after, heq, -⟩ := List.lookup_eq_some_iff.mp h
  rw [heq]
  exact List.mem_append_right before List.mem_cons_self

theorem sizeOf_lt_of_child? {n c : Node} {slot : Slot} (h : n.child? slot = some c) :
    sizeOf c < sizeOf n := by
  obtain ⟨kind, properties, children⟩ := n
  have hmem : (slot, c) ∈ children := mem_children_of_child? h
  have hlt := List.sizeOf_lt_of_mem hmem
  simp only [Prod.mk.sizeOf_spec, mk.sizeOf_spec] at hlt ⊢
  omega

/-- A property that passes from the filled slots of a node to the node holds of all nodes. -/
theorem child_induction {P : Node → Prop}
    (step : ∀ n : Node, (∀ slot c, n.child? slot = some c → P c) → P n) (n : Node) : P n :=
  step n fun _ c h =>
    have := sizeOf_lt_of_child? h
    child_induction step c
termination_by sizeOf n

/-! ### Parameter and argument lists -/

/-- A chain goes on with what stands in the right slot. -/
theorem chainOfRight_eq (children : List (Slot × Node)) :
    chainOfRight children = links (children.lookup .right) := by
  induction children with
  | nil => rfl
  | cons entry rest ih =>
    obtain ⟨slot, child⟩ := entry
    rw [chainOfRight, List.lookup_cons]
    by_cases h : slot = .right
    · subst h
      simp [links]
    · have hne : (Slot.right == slot) = false := by simpa using fun e => h e.symm
      simp [h, hne, ih]

/-- A list is its first link and the list in that link's right slot. -/
theorem links_some (n : Node) : links (some n) = n :: links (n.child? .right) := by
  obtain ⟨kind, properties, children⟩ := n
  show chain _ = _
  rw [chain, chainOfRight_eq]
  rfl

@[simp] theorem child?_call (name : String) (args : List Node) :
    (call name args).child? .argument = arguments? args := by
  cases args with
  | nil => rfl
  | cons e es => rfl

/-- Taking an argument list apart undoes putting it together. -/
theorem argumentExpressions?_arguments? (es : List Node) :
    argumentExpressions? (arguments? es) = some es := by
  induction es with
  | nil => rfl
  | cons e es ih =>
    -- the rest of the list stands in the right slot, if there is one
    have hright : (ofParts .arguments [] [(.left, some e), (.right, arguments? es)]).child? .right
        = arguments? es := by
      rcases arguments? es with - | rest <;> rfl
    rw [arguments?, argumentExpressions?, links_some, List.mapM_cons, hright]
    show (do
      let e' ← some e
      let es' ← argumentExpressions? (arguments? es)
      pure (e' :: es')) = _
    rw [ih]
    rfl

/-! ### Spines -/

/-- A spine goes on with what stands in the right slot. -/
theorem spineOfRight_eq (children : List (Slot × Node)) :
    spineOfRight children = (children.lookup .right).map spine := by
  induction children with
  | nil => rfl
  | cons entry rest ih =>
    obtain ⟨slot, child⟩ := entry
    rw [spineOfRight, List.lookup_cons]
    by_cases h : slot = .right
    · subst h
      simp
    · have hne : (Slot.right == slot) = false := by simpa using fun e => h e.symm
      simp [h, hne, ih]

theorem spine_of_kind_ne {n : Node} (h : n.kind ≠ .sequence) : n.spine = ([], .last n) := by
  obtain ⟨kind, properties, children⟩ := n
  have hk : kind ≠ .sequence := h
  rw [spine, if_neg hk]

theorem spine_of_no_left {n : Node} (hk : n.kind = .sequence) (hl : n.child? .left = none) :
    n.spine = ([], .broken .left) := by
  obtain ⟨kind, properties, children⟩ := n
  obtain rfl : kind = .sequence := hk
  have hl' : children.lookup .left = none := hl
  rw [spine, if_pos rfl, hl']

theorem spine_of_no_right {n l : Node} (hk : n.kind = .sequence) (hl : n.child? .left = some l)
    (hr : n.child? .right = none) : n.spine = ([], .broken .right) := by
  obtain ⟨kind, properties, children⟩ := n
  obtain rfl : kind = .sequence := hk
  have hl' : children.lookup .left = some l := hl
  have hr' : children.lookup .right = none := hr
  rw [spine, if_pos rfl, hl', spineOfRight_eq, hr']
  rfl

/-- A sequence with both parts has the first one and then the spine of the second. -/
theorem spine_of_parts {n l r : Node} (hk : n.kind = .sequence) (hl : n.child? .left = some l)
    (hr : n.child? .right = some r) : n.spine = (l :: r.spine.1, r.spine.2) := by
  obtain ⟨kind, properties, children⟩ := n
  obtain rfl : kind = .sequence := hk
  have hl' : children.lookup .left = some l := hl
  have hr' : children.lookup .right = some r := hr
  rw [spine, if_pos rfl, hl', spineOfRight_eq, hr']
  rfl

theorem text?_eq_none_iff {n : Node} {key : String} :
    n.text? key = none ↔ n.property? key = none :=
  Option.map_eq_none_iff

end Node

namespace Eval

/-! ### Blocks as a recursion -/

variable {ev : Evaluator} {ctx : Context} {n l r : Node} {s : State}

theorem sequence_of_kind_ne (h : n.kind ≠ .sequence) : sequence ev ctx n s = ev ctx n s := by
  rw [sequence, Node.spine_of_kind_ne h]
  rfl

/-- A sequence that lacks its first statement is refused. -/
theorem sequence_of_no_left (hk : n.kind = .sequence) (hl : n.child? .left = none) :
    sequence ev ctx n s = malformed .sequence "left" s := by
  rw [sequence, Node.spine_of_no_left hk hl]
  rfl

/-- So is one that lacks the rest, and its first statement is not evaluated. -/
theorem sequence_of_no_right (hk : n.kind = .sequence) (hl : n.child? .left = some l)
    (hr : n.child? .right = none) : sequence ev ctx n s = malformed .sequence "right" s := by
  rw [sequence, Node.spine_of_no_right hk hl hr]
  rfl

/-- A block runs its first statement and then, unless that is an error, the block that follows. -/
theorem sequence_of_parts (hk : n.kind = .sequence) (hl : n.child? .left = some l)
    (hr : n.child? .right = some r) :
    sequence ev ctx n s = (ev ctx l s).andThen fun _ s => sequence ev ctx r s := by
  rw [sequence, Node.spine_of_parts hk hl hr]
  rfl

end Eval

/-! ### The table of properties and slots -/

namespace Kind

/-- The properties that a node of the kind must have. -/
def requiredProperties : Kind → List String
  | .assignment => ["name", "constant"]
  | .subroutine | .call | .parameters | .variable => ["name"]
  | .conditional | .loop => ["style"]
  | .relation => ["relation"]
  | .binary | .unary => ["operation"]
  | .number | .boolean => ["significand"]
  | _ => []

/-- The slots that a node of the kind must fill. -/
def requiredSlots : Kind → List Slot
  | .sequence | .relation | .binary => [.left, .right]
  | .assignment | .unary | .output | .bracket => [.argument]
  | .conditional | .loop => [.argument, .left]
  | .arguments => [.left]
  | _ => []

/-- The slots that a node of the kind may fill besides. -/
def optionalSlots : Kind → List Slot
  | .subroutine => [.params, .left, .ret]
  | .call => [.argument]
  | .conditional | .arguments | .parameters => [.right]
  | _ => []

/-- The slots whose contents the rule of the kind evaluates as they stand. A call takes its argument
list apart first, and a definition evaluates nothing. -/
def evaluatedSlots : Kind → List Slot
  | .subroutine | .call | .parameters => []
  | kind => kind.requiredSlots ++ kind.optionalSlots

end Kind

/-- The rule of the first node may evaluate the second one. -/
inductive Part (n : Node) : Node → Prop
  | child {slot m} : slot ∈ n.kind.evaluatedSlots → n.child? slot = some m → Part n m
  | argument {es m} : n.kind = .call →
      Node.argumentExpressions? (n.child? .argument) = some es → m ∈ es → Part n m

/-- What the rule of a node may report about the node itself. -/
inductive Defect (n : Node) : Fault → Prop
  | property {key} : key ∈ n.kind.requiredProperties → n.property? key = none →
      Defect n (.malformed n.kind.name (some key))
  | slot {slot} : slot ∈ n.kind.requiredSlots → n.child? slot = none →
      Defect n (.malformed n.kind.name (some slot.name))
  /-- A conditional with an alternative lacks it. -/
  | alternative : n.kind = .conditional → n.text? "style" = some Node.ifThenElse →
      n.child? .right = none → Defect n (.malformed n.kind.name (some "right"))
  /-- A link of a parameter list has no name. -/
  | parameters : n.kind = .subroutine → Node.parameterNames? (n.child? .params) = none →
      Defect n (.malformed Kind.parameters.name (some "name"))
  /-- A link of an argument list holds no expression. -/
  | arguments : n.kind = .call → Node.argumentExpressions? (n.child? .argument) = none →
      Defect n (.malformed Kind.arguments.name (some "left"))
  | conditionalStyle {style} : n.kind = .conditional → n.text? "style" = some style →
      style ≠ Node.ifThen → style ≠ Node.ifThenElse → Defect n (.unknownConditional style)
  | loopStyle {style} : n.kind = .loop → n.text? "style" = some style →
      style ≠ Node.whileStyle → style ≠ Node.repeatStyle → Defect n (.unknownLoop style)
  | parameterList : n.kind = .parameters → Defect n .parametersEvaluated
  | unclassified : (n.kind = .unknown ∨ ∃ name, n.kind = .other name) →
      Defect n .unknownInstruction

end Pseudocode
