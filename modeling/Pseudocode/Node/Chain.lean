import Pseudocode.Node.Basic

/-!
Chains of nodes.

Parameter and argument lists are linked through the right slot, and so are the statements of a
block. A list chain is any node with its successors. The spine of a block is the list of the
statements in the left slots, with what stands at its end: the last statement, or the slot whose
absence breaks the spine off.
-/

namespace Pseudocode.Node

/-! ### Parameter and argument lists -/

mutual

/-- The node, its right child, that one's right child, and so on. -/
def chain : Node → List Node
  | mk kind properties children => mk kind properties children :: chainOfRight children

/-- The chain that starts at the right slot; empty if that slot is. -/
def chainOfRight : List (Slot × Node) → List Node
  | [] => []
  | (slot, child) :: rest => if slot = .right then child.chain else chainOfRight rest

end

/-- The links of a list; no node is the empty list. -/
def links : Option Node → List Node
  | none => []
  | some n => n.chain

/-- The names in a parameter list; none if a link has no name. -/
def parameterNames? (list : Option Node) : Option (List String) :=
  (links list).mapM fun link => link.label? "name"

/-- The expressions in an argument list; none if a link holds no expression. -/
def argumentExpressions? (list : Option Node) : Option (List Node) :=
  (links list).mapM fun link => link.child? .left

/-! ### Blocks -/

/-- What stands at the end of a spine. -/
inductive SpineEnd where
  /-- A node that is no sequence. -/
  | last (node : Node)
  /-- A sequence that lacks the slot. -/
  | broken (slot : Slot)

mutual

/-- The statements of a block before its end, and the end. -/
def spine : Node → List Node × SpineEnd
  | mk kind properties children =>
    if kind = .sequence then
      match children.lookup .left, spineOfRight children with
      | none, _ => ([], .broken .left)
      | some _, none => ([], .broken .right)
      | some first, some (statements, stop) => (first :: statements, stop)
    else ([], .last (mk kind properties children))

/-- The spine that starts at the right slot, if that slot is filled. -/
def spineOfRight : List (Slot × Node) → Option (List Node × SpineEnd)
  | [] => none
  | (slot, child) :: rest => if slot = .right then some child.spine else spineOfRight rest

end

end Pseudocode.Node
