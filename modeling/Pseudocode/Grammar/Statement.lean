import Pseudocode.Grammar.Expression

/-!
The grammar of statements, blocks and programs.

The first token decides which statement is meant, except that a name starts an assignment or a
call. A part that may be absent is absent when it cannot be read. Line ends mean nothing.
-/

namespace Pseudocode.Grammar

open Reader

/-- A name. -/
def name : Reader String
  | .name text :: rest => some (text, rest)
  | _ => none

/-- The rest of an assignment to a name: an arrow and an expression. -/
def assignmentTo (target : String) (constant : Bool) : Reader Stmt
  | .arrow :: rest => (expression rest).map fun (e, after) => (.assign target constant e, after)
  | _ => none

/-- One or more statements. -/
def block (statement : Reader Stmt) : Reader Block := fun ts =>
  match statement ts with
  | none => none
  | some (first, rest) =>
    let (more, after) := many statement rest
    some (Block.ofList first more, after)

/-- The statements after a keyword, if they are there. -/
def blockAfter (statement : Reader Stmt) (word : Keyword) (ts : List Token) :
    Option Block × List Token :=
  match ts with
  | .keyword k :: rest =>
    if k = word then
      match block statement rest with
      | some (b, after) => (some b, after)
      | none => (none, ts)
    else (none, ts)
  | _ => (none, ts)

/-- The statements of a subroutine, if it has any. -/
def optionalBlock (statement : Reader Stmt) (ts : List Token) : Option Block × List Token :=
  match block statement ts with
  | some (b, after) => (some b, after)
  | none => (none, ts)

/-- The expression that a subroutine returns, if it returns one. -/
def optionalReturn (ts : List Token) : Option Expr × List Token :=
  match ts with
  | .keyword .RETURN :: rest =>
    match expression rest with
    | some (e, after) => (some e, after)
    | none => (none, ts)
  | _ => (none, ts)

/-- What follows the name of a subroutine. -/
def subroutineNamed (statement : Reader Stmt) (title : String) : Reader Stmt := fun ts =>
  match parenthesized name ts with
  | none => none
  | some (params, rest) =>
    let (body, rest) := optionalBlock statement rest
    let (ret, rest) := optionalReturn rest
    match rest with
    | .keyword .ENDSUBROUTINE :: after => some (.subroutine title params body ret, after)
    | _ => none

/-- What follows the word that starts a conditional. -/
def conditional (statement : Reader Stmt) : Reader Stmt := fun ts =>
  match expression ts with
  | some (condition, .keyword .THEN :: rest) =>
    match block statement rest with
    | none => none
    | some (thenBranch, rest) =>
      let (elseBranch, rest) := blockAfter statement .ELSE rest
      match rest with
      | .keyword .ENDIF :: after => some (.conditional condition thenBranch elseBranch, after)
      | _ => none
  | _ => none

/-- What follows the word that starts a loop with the test first. -/
def whileLoop (statement : Reader Stmt) : Reader Stmt := fun ts =>
  match expression ts with
  | none => none
  | some (condition, rest) =>
    match block statement rest with
    | some (body, .keyword .ENDWHILE :: after) => some (.whileLoop condition body, after)
    | _ => none

/-- What follows the word that starts a loop with the test last. -/
def repeatLoop (statement : Reader Stmt) : Reader Stmt := fun ts =>
  match block statement ts with
  | some (body, .keyword .UNTIL :: rest) =>
    (expression rest).map fun (condition, after) => (.repeatLoop body condition, after)
  | _ => none

/-- A statement; `inner` reads the statements of its blocks. -/
def statementOver (inner : Reader Stmt) : Reader Stmt
  | .keyword .CONSTANT :: .name target :: rest => assignmentTo target true rest
  | .keyword .SUBROUTINE :: .name title :: rest => subroutineNamed inner title rest
  | .keyword .IF :: rest => conditional inner rest
  | .keyword .WHILE :: rest => whileLoop inner rest
  | .keyword .REPEAT :: rest => repeatLoop inner rest
  | .keyword .OUTPUT :: rest => (expression rest).map fun (e, after) => (.output e, after)
  | .name target :: rest =>
    match assignmentTo target false rest with
    | some result => some result
    | none => (parenthesized expression rest).map fun (args, after) => (.call target args, after)
  | _ => none

/-- A statement whose blocks are nested less deeply than `depth`. -/
def statementWithin : Nat → Reader Stmt
  | 0 => fun _ => none
  | depth + 1 => statementOver (statementWithin depth)

/-- A statement. Every block follows a token, so no statement is nested too deeply. -/
def statement : Reader Stmt := fun ts => statementWithin (ts.length + 1) ts

/-- The statements at the start of a program, and the tokens that they leave. -/
def program (ts : List Token) : List Stmt × List Token := many statement ts

end Pseudocode.Grammar
