import Pseudocode.Decimal.Reading
import Pseudocode.Node.Basic
import Pseudocode.Text.Space
import Pseudocode.Value

/-!
Literals: from the text of a number or truth-value literal, its significand, to the value.
-/

namespace Pseudocode.Literal

/-- The spelling of the truth value true. -/
def trueText : String := Value.truthText true

/-- The spelling of the truth value false. -/
def falseText : String := Value.truthText false

/-- The value of a number literal. A literal without text is malformed, never zero. -/
def number : Option String → Value
  | none => .error (.malformed "Number" (some "significand"))
  | some s =>
    if Text.isBlank s.toList then .error (.malformed "Number" (some "significand"))
    else match Decimal.unsigned? s.toList with
      | some x => .num x
      | none => .error (.unreadable s)

/-- The value of a truth-value literal: everything but the spelling of true is false. -/
def boolean : Option Property → Value
  | none => .error (.malformed "Boolean" (some "significand"))
  | some p => .bool (p = .text trueText)

end Pseudocode.Literal
