import Pseudocode.Interpreter

/-!
What a host tells about a finished run: its bindings, and whether it succeeded.
-/

namespace Pseudocode

/-- The greatest length of a binding's display in a list of bindings. -/
def displayBound : Nat := 60

/-- A display that is too long is cut and ends with three points. -/
def shortened (s : String) : String :=
  if displayBound < s.length then String.ofList (s.toList.take (displayBound - 3)) ++ "..." else s

/-- The lines that list an environment. -/
def Env.listing (env : Env) : List String :=
  if env.isEmpty then ["  (no bindings)"]
  else env.display.map fun (name, s) => "  " ++ name ++ " = " ++ shortened s

namespace Run

/-- Did the run end without an error? -/
def succeeded (r : Run) : Bool := !r.value.isError

/-- The lines about a finished run: the error, or the bindings that it leaves. -/
def summary (r : Run) : List String :=
  if r.succeeded then
    ["Program executed successfully!", "",
      "Final environment (" ++ Decimal.natText r.env.size ++ " bindings):"] ++ r.env.listing
  else [r.value.display]

end Run

end Pseudocode
