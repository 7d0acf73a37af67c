import Pseudocode.Node.Basic

/-!
Well-formed nodes: one constructor for each kind, with the properties and slots that the evaluator
asks for.
-/

namespace Pseudocode.Node

/-- A node of the children that are there. -/
def ofParts (kind : Kind) (properties : List (String × Property))
    (children : List (Slot × Option Node)) : Node :=
  mk kind properties (children.filterMap fun (slot, child) => child.map (slot, ·))

def sequence (left right : Node) : Node :=
  mk .sequence [] [(.left, left), (.right, right)]

/-- Statements as a block: sequences nested to the right. There is no empty block. -/
def block? : List Node → Option Node
  | [] => none
  | statement :: rest => match block? rest with
    | none => some statement
    | some block => some (sequence statement block)

def assignment (name : String) (constant : Bool) (argument : Node) : Node :=
  mk .assignment [("name", .text name), ("constant", .flag constant)] [(.argument, argument)]

/-- A parameter list; there is no node for the empty one. -/
def parameters? : List String → Option Node
  | [] => none
  | name :: rest => some (ofParts .parameters [("name", .text name)] [(.right, parameters? rest)])

/-- An argument list; there is no node for the empty one. -/
def arguments? : List Node → Option Node
  | [] => none
  | expression :: rest =>
    some (ofParts .arguments [] [(.left, some expression), (.right, arguments? rest)])

def subroutine (name : String) (params : List String) (body ret : Option Node) : Node :=
  ofParts .subroutine [("name", .text name)]
    [(.params, parameters? params), (.left, body), (.ret, ret)]

def call (name : String) (args : List Node) : Node :=
  ofParts .call [("name", .text name)] [(.argument, arguments? args)]

/-- The style of a conditional without an alternative. -/
def ifThen : String := "if-then"

/-- The style of a conditional with an alternative. -/
def ifThenElse : String := "if-then-else"

def conditional (condition thenBranch : Node) (elseBranch : Option Node) : Node :=
  ofParts .conditional
    [("style", .text (if elseBranch.isSome then ifThenElse else ifThen))]
    [(.argument, some condition), (.left, some thenBranch), (.right, elseBranch)]

/-- The style of a loop that tests before its body. -/
def whileStyle : String := "While"

/-- The style of a loop that tests after its body. -/
def repeatStyle : String := "Repeat"

def loop (style : String) (condition body : Node) : Node :=
  mk .loop [("style", .text style)] [(.argument, condition), (.left, body)]

def relation (relation : String) (left right : Node) : Node :=
  mk .relation [("relation", .text relation)] [(.left, left), (.right, right)]

def binary (operation : String) (left right : Node) : Node :=
  mk .binary [("operation", .text operation)] [(.left, left), (.right, right)]

def unary (operation : String) (argument : Node) : Node :=
  mk .unary [("operation", .text operation)] [(.argument, argument)]

def output (argument : Node) : Node :=
  mk .output [] [(.argument, argument)]

def bracket (argument : Node) : Node :=
  mk .bracket [] [(.argument, argument)]

/-- A node within a number of brackets. -/
def bracketed (argument : Node) : Nat → Node
  | 0 => argument
  | depth + 1 => bracketed (bracket argument) depth

def reference (name : String) : Node :=
  mk .variable [("name", .text name)] []

def number (significand : String) : Node :=
  mk .number [("significand", .text significand)] []

def boolean (significand : String) : Node :=
  mk .boolean [("significand", .text significand)] []

end Pseudocode.Node
