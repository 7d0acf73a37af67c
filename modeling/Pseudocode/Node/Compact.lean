import Pseudocode.Node.Chain

/-!
The compact text of a tree: one line, in the notation of the read loop.

An operation is written as its name before the texts of its children, an assignment as
`name: value`, or with the value in braces for a constant, a block in square brackets, and a bracket
as what it encloses. Properties that are missing show as fixed words.
-/

namespace Pseudocode.Node

/-- The text between braces. -/
def inBraces (s : String) : String := "\x7b" ++ s ++ "\x7d"

/-- A word before a text in round brackets. -/
def applied (word inner : String) : String := word ++ "(" ++ inner ++ ")"

/-- The texts of the children that stand for the whole node: the argument, or left and right. The
argument of a conditional or a loop is its condition and stands with the branches. -/
def childrenText (kind : Kind) (parts : List (Slot × String)) : String :=
  match parts.lookup .argument with
  | some argument =>
    if kind = .conditional ∨ kind = .loop then sidesText parts else argument
  | none => sidesText parts
where
  /-- The texts of left and right, separated if both are there. -/
  sidesText (parts : List (Slot × String)) : String :=
    match parts.lookup .left, parts.lookup .right with
    | some left, some right => left ++ ", " ++ right
    | some left, none => left
    | none, some right => right
    | none, none => ""

/-- The text of a node from the texts of its children. -/
def compactWith (n : Node) (parts : List (Slot × String)) : String :=
  let inner := childrenText n.kind parts
  match n.kind with
  | .number => (n.label? "significand").getD "NaN"
  | .boolean => (n.label? "significand").getD "NaB"
  | .assignment =>
    let name := (n.label? "name").getD "Unknown"
    if n.isSet "constant" then name ++ inBraces inner else name ++ ": " ++ inner
  | .variable => (n.label? "name").getD "Unknown"
  | .sequence => "[" ++ inner ++ "]"
  | .bracket => inner
  | .relation => applied ((n.label? "relation").getD "Unknown") inner
  | .call => applied ((n.label? "name").getD "Unknown") inner
  | .subroutine =>
    let params := ", ".intercalate ((parameterNames? (n.child? .params)).getD [])
    "SUBROUTINE " ++ applied ((n.label? "name").getD "Unknown") params
      ++ inBraces ((parts.lookup .left).getD "")
      ++ match parts.lookup .ret with
        | some ret => " -> " ++ ret
        | none => ""
  | .conditional | .loop =>
    applied ((n.label? "style").getD n.kind.name)
      (", ".intercalate ([Slot.argument, .left, .right].filterMap fun slot => parts.lookup slot))
  | .parameters => applied (((n.property? "name").getD .null).display) inner
  | .output | .arguments | .unknown => applied n.kind.name inner
  | .binary | .unary | .other _ => applied ((n.label? "operation").getD "NOP") inner

mutual

/-- The compact text of a tree. -/
def compact : Node → String
  | mk kind properties children =>
    compactWith (mk kind properties children) (compactChildren children)

/-- The compact texts of the children, slot by slot. -/
def compactChildren : List (Slot × Node) → List (Slot × String)
  | [] => []
  | (slot, child) :: rest => (slot, child.compact) :: compactChildren rest

end

end Pseudocode.Node
