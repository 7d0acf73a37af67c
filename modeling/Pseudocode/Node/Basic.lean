/-!
Tree nodes: the form in which programs are evaluated, shown and exchanged.

A node has a kind, properties in order, and children in named slots, in order. Nothing ties the
kind to the properties and slots that are present: a tree may come from anywhere, and the evaluator
reports what is missing. The kinds and slots that mean something are enumerated; any other name is
kept as it is.
-/

namespace Pseudocode

/-- The kind of a node. -/
inductive Kind where
  | sequence | assignment | subroutine | call | conditional | loop | relation | binary | unary
  | output | arguments | parameters | bracket | variable | number | boolean | unknown
  /-- A name that is none of the above. -/
  | other (name : String)
deriving DecidableEq, Repr

namespace Kind

def name : Kind → String
  | .sequence => "Sequence"
  | .assignment => "Assignment"
  | .subroutine => "Subroutine"
  | .call => "Call"
  | .conditional => "Conditional"
  | .loop => "Loop"
  | .relation => "Relation"
  | .binary => "BinaryOperation"
  | .unary => "UnaryOperation"
  | .output => "Output"
  | .arguments => "Arguments"
  | .parameters => "Parameters"
  | .bracket => "Bracket"
  | .variable => "Variable"
  | .number => "Number"
  | .boolean => "Boolean"
  | .unknown => "Unknown"
  | .other s => s

def ofName : String → Kind
  | "Sequence" => .sequence
  | "Assignment" => .assignment
  | "Subroutine" => .subroutine
  | "Call" => .call
  | "Conditional" => .conditional
  | "Loop" => .loop
  | "Relation" => .relation
  | "BinaryOperation" => .binary
  | "UnaryOperation" => .unary
  | "Output" => .output
  | "Arguments" => .arguments
  | "Parameters" => .parameters
  | "Bracket" => .bracket
  | "Variable" => .variable
  | "Number" => .number
  | "Boolean" => .boolean
  | "Unknown" => .unknown
  | s => .other s

end Kind

/-- The place of a child in its parent. -/
inductive Slot where
  | left | right | argument | params | ret
  /-- A name that is none of the above. -/
  | other (name : String)
deriving DecidableEq, Repr

namespace Slot

def name : Slot → String
  | .left => "left"
  | .right => "right"
  | .argument => "argument"
  | .params => "params"
  | .ret => "ret"
  | .other s => s

def ofName : String → Slot
  | "left" => .left
  | "right" => .right
  | "argument" => .argument
  | "params" => .params
  | "ret" => .ret
  | s => .other s

end Slot

/-- The value of a property. -/
inductive Property where
  | text (text : String)
  | flag (flag : Bool)
  /-- Written down without a value, which is the same as not being there. -/
  | null
deriving DecidableEq, Repr

namespace Property

/-- The property as part of a message. -/
def display : Property → String
  | .text s => s
  | .flag true => "True"
  | .flag false => "False"
  | .null => "None"

/-- Does the property count as set: a text that is not empty, or a raised flag? -/
def isSet : Property → Bool
  | .text s => s != ""
  | .flag b => b
  | .null => false

end Property

/-- A tree node. -/
inductive Node where
  | mk (kind : Kind) (properties : List (String × Property)) (children : List (Slot × Node))

namespace Node

def kind : Node → Kind
  | mk k _ _ => k

def properties : Node → List (String × Property)
  | mk _ ps _ => ps

def children : Node → List (Slot × Node)
  | mk _ _ cs => cs

instance : Inhabited Node := ⟨mk .unknown [] []⟩

/-- The child in a slot. -/
def child? (n : Node) (slot : Slot) : Option Node :=
  n.children.lookup slot

/-- The property of that name; one without a value counts as absent. -/
def property? (n : Node) (key : String) : Option Property :=
  match n.properties.lookup key with
  | some .null => none
  | p => p

/-- The text of a property that is present. Names are taken to be texts: a flag in the place of a
name stands for its display, so the flag and the text `True` are one name. -/
def text? (n : Node) (key : String) : Option String :=
  (n.property? key).map Property.display

/-- The text of a property that is present and set. -/
def label? (n : Node) (key : String) : Option String :=
  match n.property? key with
  | some p => if p.isSet then some p.display else none
  | none => none

/-- Is a property present and set? -/
def isSet (n : Node) (key : String) : Bool :=
  match n.property? key with
  | some p => p.isSet
  | none => false

@[simp] theorem kind_mk (k : Kind) (ps : List (String × Property)) (cs : List (Slot × Node)) :
    (mk k ps cs).kind = k := rfl

@[simp] theorem properties_mk (k : Kind) (ps : List (String × Property))
    (cs : List (Slot × Node)) : (mk k ps cs).properties = ps := rfl

@[simp] theorem children_mk (k : Kind) (ps : List (String × Property)) (cs : List (Slot × Node)) :
    (mk k ps cs).children = cs := rfl

end Node

/-- Put a pair into a list of pairs with one entry for each key: an old entry keeps its place and
takes the new value. -/
def putEntry {α β : Type} [DecidableEq α] (entries : List (α × β)) (key : α) (value : β) :
    List (α × β) :=
  match entries with
  | [] => [(key, value)]
  | (k, v) :: rest => if k = key then (k, value) :: rest else (k, v) :: putEntry rest key value

/-- A node from the names of its parts; of two entries with one name the later value counts. -/
def Node.ofNames (kind : String) (properties : List (String × Property))
    (children : List (String × Node)) : Node :=
  mk (Kind.ofName kind)
    (properties.foldl (fun ps (key, value) => putEntry ps key value) [])
    (children.foldl (fun cs (slot, child) => putEntry cs (Slot.ofName slot) child) [])

end Pseudocode
