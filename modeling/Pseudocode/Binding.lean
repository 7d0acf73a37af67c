import Pseudocode.Node.Basic
import Pseudocode.Value

/-!
What a name stands for: a variable with its value, or a subroutine with its parameters and trees.
-/

namespace Pseudocode

/-- What a name is bound to. -/
inductive Binding where
  /-- A variable; a constant one keeps its value. -/
  | variable (value : Value) (constant : Bool)
  /-- A subroutine: its parameters, its body and the expression whose value it returns. -/
  | subroutine (params : List String) (body ret : Option Node)

namespace Binding

def isVariable : Binding → Bool
  | .variable _ _ => true
  | .subroutine _ _ _ => false

def isSubroutine : Binding → Bool
  | .variable _ _ => false
  | .subroutine _ _ _ => true

def isConstant : Binding → Bool
  | .variable _ constant => constant
  | .subroutine _ _ _ => false

/-- The display of a binding under its name. -/
def display (name : String) : Binding → String
  | .variable value _ => value.display
  | .subroutine params _ _ =>
    "<subroutine " ++ name ++ "(" ++ ", ".intercalate params ++ ")>"

end Binding

end Pseudocode
