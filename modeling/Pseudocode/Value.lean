import Pseudocode.Fault

/-!
Values of a running program.

Errors are values: they travel where results do. A string arises only as the display of an argument
list, and `void` is the result of a call that returns nothing.
-/

namespace Pseudocode

/-- A value of a running program. -/
inductive Value where
  | num (number : Float)
  | bool (truth : Bool)
  | string (text : String)
  | void
  | error (fault : Fault)
deriving DecidableEq

namespace Value

instance : Inhabited Value := ⟨.void⟩

/-- The value of a statement that is run for its effect: the number zero. -/
def unit : Value := .num 0

/-- The name of the value's type, as messages give it. -/
def typeName : Value → String
  | .num _ => "Num"
  | .bool _ => "Bool"
  | .string _ => "String"
  | .void => "Void"
  | .error _ => "Error"

def isError : Value → Bool
  | .error _ => true
  | _ => false

def isNumber : Value → Bool
  | .num _ => true
  | _ => false

def isBoolean : Value → Bool
  | .bool _ => true
  | _ => false

/-- The spelling of a truth value. -/
def truthText (b : Bool) : String := if b then "True" else "False"

/-- The display of a value: whole numbers have no point, an error shows its message. -/
def display : Value → String
  | .num x => Decimal.displayText x
  | .bool b => truthText b
  | .string s => s
  | .void => "<void>"
  | .error fault => fault.message

@[simp] theorem isError_error (f : Fault) : isError (.error f) = true := rfl

@[simp] theorem isError_unit : isError unit = false := rfl

/-- Errors are the values made of a fault. -/
theorem isError_iff {v : Value} : v.isError = true ↔ ∃ f, v = .error f := by
  cases v <;> simp [isError]

end Value

/-- A value handed in under the name of its type, which need not be a type of this library. -/
inductive Tagged where
  | known (value : Value)
  | unknown (typeName : String)

namespace Tagged

/-- The display of a value of an unknown type is that type's name. -/
def display : Tagged → String
  | known v => v.display
  | unknown typeName => "<" ++ typeName ++ ">"

/-- A property of values, which no value of an unknown type has. -/
def has (p : Value → Bool) : Tagged → Bool
  | known v => p v
  | unknown _ => false

end Tagged

end Pseudocode
