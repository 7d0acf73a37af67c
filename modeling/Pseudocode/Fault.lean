import Pseudocode.Decimal.Layout

/-!
Causes of errors.

An error is a value like any other, so a program can come across one wherever it expects a number.
`Fault` says why an error arose; `Fault.message` is the only place where the causes are put into
words. Every message of a cause that arises in this library starts with the same mark, so a host can
tell an error from other output; `given` stands for an error that was handed in from outside with
its text.
-/

namespace Pseudocode

/-- Why an error arose. -/
inductive Fault where
  /-- A node lacks something that its kind requires. -/
  | malformed (node : String) (missing : Option String)
  /-- The text of a number literal is not a number. -/
  | unreadable (significand : String)
  /-- An operation on one operand got a value of another type. -/
  | wrongOperand (operation expected actual : String)
  /-- An operation on two operands got values of other types. -/
  | wrongOperands (operation left right : String)
  | divisionByZero
  | unknownBinary (operation : String)
  | unknownUnary (operation : String)
  | unknownRelation (relation : String)
  /-- A subroutine was called with another number of arguments than it has parameters. -/
  | wrongArity (name : String) (expected received : Int)
  /-- A name is bound to nothing; `role` is what it was looked up as. -/
  | unresolved (role name : String)
  /-- A name is bound to a thing of the other kind. -/
  | wrongKind (name expected actual : String)
  | constantReassigned (name : String)
  | repeatedParameter (name : String)
  /-- A call would exceed the depth limit. -/
  | depthExceeded (limit : Int) (name : String)
  /-- The stack was exhausted inside a call. -/
  | callTooDeep (name : String) (depth : Int)
  /-- The stack was exhausted outside all calls. -/
  | programTooDeep
  /-- The condition of a statement is not a truth value. -/
  | conditionNotBoolean (statement actual : String)
  | unknownConditional (style : String)
  | unknownLoop (style : String)
  /-- A parameter list stands where a value is wanted. -/
  | parametersEvaluated
  /-- A node of a kind that cannot be evaluated. -/
  | unknownInstruction
  /-- A cause described in words. -/
  | described (description : String)
  /-- An error from outside, with its whole text. -/
  | given (message : String)
deriving DecidableEq, Repr

namespace Fault

/-- The mark that every error message starts with. -/
def mark : String := "ERROR! "

/-- The text in single quotes. -/
def inQuotes (s : String) : String := "'" ++ s ++ "'"

/-- The cause in words, without the mark. -/
def description : Fault → String
  | malformed node missing => match missing with
    | none | some "" => "Malformed " ++ node ++ " node."
    | some part => "Malformed " ++ node ++ " node (missing " ++ inQuotes part ++ ")."
  | unreadable significand => "Malformed Number node (cannot read " ++ inQuotes significand ++ ")."
  | wrongOperand operation expected actual =>
    operation ++ " requires " ++ expected ++ ", got " ++ actual ++ "."
  | wrongOperands operation left right =>
    "Cannot apply " ++ operation ++ " to " ++ left ++ " and " ++ right ++ "."
  | divisionByZero => "Division by zero."
  | unknownBinary operation => "Unknown binary operation " ++ inQuotes operation ++ "."
  | unknownUnary operation => "Unknown unary operation " ++ inQuotes operation ++ "."
  | unknownRelation relation => "Unknown relation " ++ inQuotes relation ++ "."
  | wrongArity name expected received =>
    "Subroutine " ++ inQuotes name ++ " expects " ++ Decimal.intText expected
      ++ " argument(s) but received " ++ Decimal.intText received ++ "."
  | unresolved role name => role ++ " " ++ inQuotes name ++ " not found."
  | wrongKind name expected actual =>
    inQuotes name ++ " is a " ++ actual ++ ", not a " ++ expected ++ "."
  | constantReassigned name => "Cannot reassign constant " ++ inQuotes name ++ "."
  | repeatedParameter name => "Subroutine " ++ inQuotes name ++ " repeats a parameter name."
  | depthExceeded limit name =>
    "Maximum call depth (" ++ Decimal.intText limit ++ ") exceeded calling " ++ inQuotes name ++ "."
  | callTooDeep name depth =>
    "Call to " ++ inQuotes name ++ " at depth " ++ Decimal.intText depth
      ++ " nests too deeply to evaluate."
  | programTooDeep => "Program nests too deeply to evaluate."
  | conditionNotBoolean statement actual =>
    "Non-boolean condition in " ++ statement ++ " (got " ++ actual ++ ")."
  | unknownConditional style => "Unknown conditional style " ++ inQuotes style ++ "."
  | unknownLoop style => "Unknown loop style " ++ inQuotes style ++ "."
  | parametersEvaluated => "Parameter list evaluated outside a subroutine definition."
  | unknownInstruction => "Unknown instruction."
  | described text => text
  | given message => message

/-- The message of an error. -/
def message : Fault → String
  | given text => text
  | fault => mark ++ fault.description

end Fault

end Pseudocode
