import Pseudocode.Node.Build
import Pseudocode.Operator

/-!
Programs as they are written: expressions, statements and blocks, with nothing missing.

A program is made into a tree for the evaluator by `toNode`. Brackets are kept, so a tree shows how
its program was written.
-/

namespace Pseudocode

/-- An expression. -/
inductive Expr where
  | number (significand : String)
  | boolean (truth : Bool)
  | reference (name : String)
  | call (name : String) (args : List Expr)
  | bracket (inner : Expr)
  | unary (op : UnaryOp) (operand : Expr)
  | binary (op : BinaryOp) (left right : Expr)
  | relation (relation : Relation) (left right : Expr)

mutual

/-- A statement. -/
inductive Stmt where
  | assign (name : String) (constant : Bool) (value : Expr)
  | subroutine (name : String) (params : List String) (body : Option Block) (ret : Option Expr)
  | conditional (condition : Expr) (thenBranch : Block) (elseBranch : Option Block)
  | whileLoop (condition : Expr) (body : Block)
  | repeatLoop (body : Block) (condition : Expr)
  | output (value : Expr)
  | call (name : String) (args : List Expr)

/-- One or more statements. -/
inductive Block where
  | one (statement : Stmt)
  | cons (statement : Stmt) (rest : Block)

end

namespace Expr

instance : Inhabited Expr := ⟨.number "0"⟩

mutual

/-- The tree of an expression. -/
def toNode : Expr → Node
  | .number s => .number s
  | .boolean b => .boolean (Value.truthText b)
  | .reference name => .reference name
  | .call name args => .call name (toNodes args)
  | .bracket e => .bracket e.toNode
  | .unary op e => .unary op.name e.toNode
  | .binary op l r => .binary op.name l.toNode r.toNode
  | .relation rel l r => .relation rel.name l.toNode r.toNode

/-- The trees of expressions. -/
def toNodes : List Expr → List Node
  | [] => []
  | e :: es => e.toNode :: toNodes es

end

end Expr

mutual

/-- The tree of a statement. -/
def Stmt.toNode : Stmt → Node
  | .assign name constant value => .assignment name constant value.toNode
  | .subroutine name params none ret => .subroutine name params none (ret.map Expr.toNode)
  | .subroutine name params (some body) ret =>
    .subroutine name params (some body.toNode) (ret.map Expr.toNode)
  | .conditional condition thenBranch none =>
    .conditional condition.toNode thenBranch.toNode none
  | .conditional condition thenBranch (some elseBranch) =>
    .conditional condition.toNode thenBranch.toNode (some elseBranch.toNode)
  | .whileLoop condition body => .loop Node.whileStyle condition.toNode body.toNode
  | .repeatLoop body condition => .loop Node.repeatStyle condition.toNode body.toNode
  | .output value => .output value.toNode
  | .call name args => .call name (Expr.toNodes args)

/-- The tree of a block: sequences nested to the right. -/
def Block.toNode : Block → Node
  | .one statement => statement.toNode
  | .cons statement rest => .sequence statement.toNode rest.toNode

end

/-- A block of a first statement and further ones. -/
def Block.ofList : Stmt → List Stmt → Block
  | first, [] => .one first
  | first, second :: rest => .cons first (Block.ofList second rest)

/-- The tree of a whole program; the empty program has none. -/
def Stmt.program? (statements : List Stmt) : Option Node :=
  Node.block? (statements.map Stmt.toNode)

end Pseudocode
