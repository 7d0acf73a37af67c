import Pseudocode.Value

/-!
Operators on values.

An operation reaches a tree by its name, and the name may be one that means nothing; `ofName?`
decides which operation it is. The three functions `binary`, `unary` and `relate` first pass an
error operand through, the left one before the right one, then look the name up, and then apply the
operation.

Design. Each family is an enumeration with an `apply` on values. Numbers are doubles and follow
their usual arithmetic, except that a division by zero of either sign is an error.
-/

namespace Pseudocode

open Value

/-! ### Operations on two operands -/

/-- An operation on two numbers or on two truth values; `nop` keeps the left operand. -/
inductive BinaryOp where
  | add | sub | mul | div | and | or | nop
deriving DecidableEq, Repr

namespace BinaryOp

def name : BinaryOp → String
  | .add => "ADD"
  | .sub => "SUB"
  | .mul => "MUL"
  | .div => "DIV"
  | .and => "AND"
  | .or => "OR"
  | .nop => "NOP"

def ofName? : String → Option BinaryOp
  | "ADD" => some .add
  | "SUB" => some .sub
  | "MUL" => some .mul
  | "DIV" => some .div
  | "AND" => some .and
  | "OR" => some .or
  | "NOP" => some .nop
  | _ => none

/-- The operation on two operands; operands of other types are an error. -/
def apply : BinaryOp → Value → Value → Value
  | .add, .num x, .num y => .num (x + y)
  | .sub, .num x, .num y => .num (x - y)
  | .mul, .num x, .num y => .num (x * y)
  | .div, .num x, .num y => if y == 0 then .error .divisionByZero else .num (x / y)
  | .and, .bool x, .bool y => .bool (x && y)
  | .or, .bool x, .bool y => .bool (x || y)
  | .nop, .num x, .num _ => .num x
  | .nop, .bool x, .bool _ => .bool x
  | op, v, w => .error (.wrongOperands op.name v.typeName w.typeName)

@[simp] theorem ofName?_name (op : BinaryOp) : ofName? op.name = some op := by
  cases op <;> rfl

end BinaryOp

/-- Apply the operation of that name; an error operand is the result, the left one first. -/
def binary (operation : String) (v w : Value) : Value :=
  if v.isError then v
  else if w.isError then w
  else match BinaryOp.ofName? operation with
    | some op => op.apply v w
    | none => .error (.unknownBinary operation)

/-! ### Relations -/

/-- An order or equality test of two numbers. -/
inductive Relation where
  | eq | neq | lt | gt | leq | geq
deriving DecidableEq, Repr

namespace Relation

def name : Relation → String
  | .eq => "EQ"
  | .neq => "NEQ"
  | .lt => "LT"
  | .gt => "GT"
  | .leq => "LEQ"
  | .geq => "GEQ"

def ofName? : String → Option Relation
  | "EQ" => some .eq
  | "NEQ" => some .neq
  | "LT" => some .lt
  | "GT" => some .gt
  | "LEQ" => some .leq
  | "GEQ" => some .geq
  | _ => none

/-- Does the relation hold between two numbers? -/
def holds : Relation → Float → Float → Bool
  | .eq, x, y => x == y
  | .neq, x, y => !(x == y)
  | .lt, x, y => x < y
  | .gt, x, y => y < x
  | .leq, x, y => x ≤ y
  | .geq, x, y => y ≤ x

/-- The relation on two values; only numbers can be compared. -/
def apply (r : Relation) : Value → Value → Value
  | .num x, .num y => .bool (r.holds x y)
  | v, w => .error (.wrongOperands r.name v.typeName w.typeName)

@[simp] theorem ofName?_name (r : Relation) : ofName? r.name = some r := by
  cases r <;> rfl

end Relation

/-- Apply the relation of that name; an error operand is the result, the left one first. -/
def relate (relation : String) (v w : Value) : Value :=
  if v.isError then v
  else if w.isError then w
  else match Relation.ofName? relation with
    | some r => r.apply v w
    | none => .error (.unknownRelation relation)

/-! ### Operations on one operand -/

/-- An operation on one number or one truth value; `add` and `nop` keep it. -/
inductive UnaryOp where
  | sub | add | not | nop
deriving DecidableEq, Repr

namespace UnaryOp

def name : UnaryOp → String
  | .sub => "SUB"
  | .add => "ADD"
  | .not => "NOT"
  | .nop => "NOP"

def ofName? : String → Option UnaryOp
  | "SUB" => some .sub
  | "ADD" => some .add
  | "NOT" => some .not
  | "NOP" => some .nop
  | _ => none

/-- The operand types of the operation, as the message about a wrong operand lists them. -/
def operandTypes : UnaryOp → String
  | .sub | .add => "Num"
  | .not => "Bool"
  | .nop => "Num or Bool"

/-- The operation on one operand; an operand of another type is an error. -/
def apply : UnaryOp → Value → Value
  | .sub, .num x => .num (-x)
  | .add, .num x => .num x
  | .not, .bool b => .bool (!b)
  | .nop, .num x => .num x
  | .nop, .bool b => .bool b
  | op, v => .error (.wrongOperand op.name op.operandTypes v.typeName)

@[simp] theorem ofName?_name (op : UnaryOp) : ofName? op.name = some op := by
  cases op <;> rfl

end UnaryOp

/-- Apply the operation of that name; an error operand is the result. -/
def unary (operation : String) (v : Value) : Value :=
  if v.isError then v
  else match UnaryOp.ofName? operation with
    | some op => op.apply v
    | none => .error (.unknownUnary operation)

end Pseudocode
