import Pseudocode.Binding
import Std.Data.ExtTreeMap

/-!
Environments: finite maps from names to bindings, listed in the order of the names.

Design. Two environments with the same bindings are equal, whatever their histories, so a statement
about an environment is a statement about its look-ups. Each operation below comes with the one
equation that says what it does to a look-up.
-/

namespace Pseudocode

/-- The bindings of a program, name by name. -/
abbrev Env := Std.ExtTreeMap String Binding

namespace Env

/-- The environment without the given names. -/
def without (env : Env) (names : List String) : Env :=
  names.foldl (fun e name => e.erase name) env

/-- The environment that a finished call leaves. The call's frame is kept except for the
parameters; a name that is then missing has the binding that it had for the caller. -/
def restore (caller frame : Env) (params : List String) : Env :=
  caller ∪ frame.without params

/-- The display of every binding, in the order of the names. -/
def display (env : Env) : List (String × String) :=
  env.toList.map fun (name, binding) => (name, binding.display name)

@[simp] theorem getElem?_without (env : Env) (names : List String) (x : String) :
    (env.without names)[x]? = if x ∈ names then none else env[x]? := by
  induction names generalizing env with
  | nil => simp [without]
  | cons name rest ih =>
    -- the first name is erased first, so the rest of the names see a smaller environment
    show (without (env.erase name) rest)[x]? = _
    rw [ih, Std.ExtTreeMap.getElem?_erase]
    by_cases hx : x ∈ rest
    · simp [hx]
    · by_cases hn : name = x
      · subst hn
        simp
      · have hne : x ≠ name := fun h => hn h.symm
        simp [hx, hn, hne]

/-- A parameter has the caller's binding again; every other name has the frame's binding, or the
caller's if the frame has none. -/
theorem getElem?_restore (caller frame : Env) (params : List String) (x : String) :
    (restore caller frame params)[x]?
      = if x ∈ params then caller[x]? else frame[x]?.or caller[x]? := by
  show (caller ∪ frame.without params)[x]? = _
  rw [Std.ExtTreeMap.getElem?_union, getElem?_without]
  split <;> simp

end Env

end Pseudocode
