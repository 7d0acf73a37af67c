import Pseudocode.Node.Basic
import Pseudocode.Value

/-!
Events of an evaluation.

An evaluation keeps a log of what happens, in order. Emissions are always in the log; the other
events are there only while tracing. Most events have a line in the printed trace; that a node is
completed has none and is recorded for reasoning about runs.
-/

namespace Pseudocode

/-- Something that happens during an evaluation. -/
inductive Event where
  /-- The evaluation of a node starts. -/
  | started (kind : Kind)
  /-- The evaluation of a node ends with a value. -/
  | completed (value : Value)
  | assigned (name : String) (value : Value)
  | defined (name : String) (params : List String)
  /-- The arguments of a call are bound and its body is next. -/
  | entered (name : String) (depth : Int)
  /-- A call has its result. -/
  | returned (name : String) (value : Value)
  /-- A loop starts its body for the `count`-th time. -/
  | iterated (style : String) (count : Nat)
  /-- A node of a kind that cannot be evaluated was met. -/
  | unclassified (kind : Kind)
  /-- A value was put out. -/
  | emitted (value : Value)
deriving DecidableEq

namespace Event

/-- The value of an emission. -/
def emission? : Event → Option Value
  | .emitted v => some v
  | _ => none

/-- The line of the event in the printed trace; emissions are not part of it. -/
def trace? : Event → Option String
  | .started kind => some ("Evaluating: " ++ kind.name)
  | .completed _ => none
  | .assigned name value => some ("  " ++ name ++ " <- " ++ value.display)
  | .defined name params =>
    some ("  Defined subroutine " ++ name ++ "(" ++ ", ".intercalate params ++ ")")
  | .entered name depth => some ("  Call " ++ name ++ " (depth " ++ Decimal.intText depth ++ ")")
  | .returned name value => some ("  Return from " ++ name ++ ": " ++ value.display)
  | .iterated style count => some ("  " ++ style ++ " iteration " ++ Decimal.natText count)
  | .unclassified kind => some ("Unknown node type: " ++ kind.name)
  | .emitted _ => none

/-- The line of the event where emissions and trace go to one place. -/
def line? : Event → Option String
  | .emitted v => some v.display
  | e => e.trace?

end Event

end Pseudocode
