import Pseudocode.Node.Basic
import Pseudocode.Text.Quoted

/-!
The outline of a tree: one line for each node, indented by its depth.

`rows` lists the nodes that the outline shows, in order, with their depths and slots; `outline`
writes each row as a line. Only the five slots that mean something are shown, in a fixed order.
-/

namespace Pseudocode.Node

/-- A node in its place in the outline. -/
structure Row where
  depth : Nat
  slot : Option Slot
  node : Node

/-- The slots that the outline shows, in its order. -/
def outlineSlots : List Slot := [.argument, .params, .left, .right, .ret]

mutual

/-- The rows of a tree that stands at a depth in a slot. -/
def rowsAt : Nat → Option Slot → Node → List Row
  | depth, slot, mk kind properties children =>
    let below := rowsOfChildren (depth + 1) children
    ⟨depth, slot, mk kind properties children⟩ ::
      outlineSlots.flatMap fun s => (below.lookup s).getD []

/-- The rows of each child, slot by slot. -/
def rowsOfChildren : Nat → List (Slot × Node) → List (Slot × List Row)
  | _, [] => []
  | depth, (slot, child) :: rest =>
    (slot, rowsAt depth (some slot) child) :: rowsOfChildren depth rest

end

/-- The rows of a tree. -/
def rows (n : Node) : List Row := rowsAt 0 none n

/-- A property as the outline writes it: a text is quoted. -/
def propertyText : String × Property → String
  | (key, .text s) => key ++ "=" ++ Text.quoted s
  | (key, p) => key ++ "=" ++ p.display

/-- The line of a row, without its end. -/
def Row.text (r : Row) : String :=
  String.ofList (List.replicate (2 * r.depth) ' ')
    ++ (match r.slot with
      | some slot => slot.name ++ ": "
      | none => "")
    ++ r.node.kind.name
    ++ if r.node.properties.isEmpty then ""
      else "(" ++ ", ".intercalate (r.node.properties.map propertyText) ++ ")"

/-- The outline of a tree; every line is ended. -/
def outline (n : Node) : String :=
  String.join (n.rows.map fun r => r.text ++ "\n")

end Pseudocode.Node
