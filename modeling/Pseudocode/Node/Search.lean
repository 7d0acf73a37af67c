import Pseudocode.Node.Basic

/-!
Search in a tree: every node comes before its children, and these in their own order.
-/

namespace Pseudocode.Node

mutual

/-- All nodes of a tree. -/
def nodes : Node → List Node
  | mk kind properties children => mk kind properties children :: nodesOfChildren children

/-- All nodes of the children. -/
def nodesOfChildren : List (Slot × Node) → List Node
  | [] => []
  | (_, child) :: rest => child.nodes ++ nodesOfChildren rest

end

/-- The nodes of a kind. -/
def ofKind (n : Node) (kind : Kind) : List Node :=
  n.nodes.filter fun m => m.kind = kind

end Pseudocode.Node
