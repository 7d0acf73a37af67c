import Pseudocode.Env
import Pseudocode.Eval.Event

/-!
Outcomes of an evaluation.

An evaluation ends with a value and a state, or exhausts the stack, or does not end within the
steps that it was given. An exhausted stack loses the environment but not the log: what was put out
stays put out.

Design. `andThen` runs a continuation on a value that is no error and passes an error on, so every
rule of the evaluator that is written with it stops at the first error. `inEnv` is for arguments,
whose effects on the environment are discarded, and `caught` for calls and programs, which turn an
exhausted stack into an error.
-/

namespace Pseudocode

/-- What an evaluation works on: the bindings, and the log with the latest event first. -/
structure State where
  env : Env
  log : List Event

/-- What an evaluation depends on besides the state. -/
structure Context where
  /-- Are all events recorded, and not only emissions? -/
  tracing : Bool
  /-- The greatest call depth. -/
  limit : Int
  /-- The number of calls around the node under evaluation. -/
  depth : Int
  /-- The number of nested nodes that the stack still holds; none if it holds any number. -/
  room : Option Nat
deriving DecidableEq, Repr

namespace Context

/-- The context for the parts of a node; none if the stack holds no further node. -/
def descend? (ctx : Context) : Option Context :=
  match ctx.room with
  | none => some ctx
  | some 0 => none
  | some (r + 1) => some { ctx with room := some r }

/-- A stack without bound always holds one more node. -/
theorem descend?_of_room_eq_none {ctx : Context} (h : ctx.room = none) :
    ctx.descend? = some ctx := by
  rw [descend?, h]

/-- The context of a subroutine's body. -/
def inCall (ctx : Context) : Context :=
  { ctx with depth := ctx.depth + 1 }

end Context

namespace State

/-- Record an event if tracing. -/
def note (s : State) (ctx : Context) (e : Event) : State :=
  if ctx.tracing then { s with log := e :: s.log } else s

/-- Put out a value. -/
def emit (s : State) (v : Value) : State :=
  { s with log := .emitted v :: s.log }

/-- Bind a name. -/
def bind (s : State) (name : String) (b : Binding) : State :=
  { s with env := s.env.insert name b }

/-- An event changes the log and not the environment. -/
@[simp] theorem env_note (s : State) (ctx : Context) (e : Event) : (s.note ctx e).env = s.env := by
  unfold note
  split <;> rfl

@[simp] theorem env_bind (s : State) (name : String) (b : Binding) :
    (s.bind name b).env = s.env.insert name b := rfl

end State

/-- How an evaluation ends. -/
inductive Outcome where
  | done (value : Value) (state : State)
  /-- The stack is exhausted. -/
  | overflow (log : List Event)
  /-- The evaluation did not end within its steps. -/
  | unfinished

namespace Outcome

/-- End with an error. -/
def fail (fault : Fault) (s : State) : Outcome := .done (.error fault) s

/-- Go on with the value unless it is an error. -/
@[inline] def andThen (o : Outcome) (f : Value → State → Outcome) : Outcome :=
  match o with
  | .done v s => if v.isError then .done v s else f v s
  | .overflow log => .overflow log
  | .unfinished => .unfinished

/-- The outcome with another environment. -/
def mapEnv (f : Env → Env) : Outcome → Outcome
  | .done v s => .done v { s with env := f s.env }
  | o => o

/-- The outcome with its effects on the environment discarded. -/
def inEnv (o : Outcome) (env : Env) : Outcome := o.mapEnv fun _ => env

/-- Record an event about the value, error or not, if tracing. -/
def noted (ctx : Context) (e : Value → Event) : Outcome → Outcome
  | .done v s => .done v (s.note ctx (e v))
  | o => o

/-- Turn an exhausted stack into an error in the given environment. -/
def caught (fault : Fault) (env : Env) : Outcome → Outcome
  | .overflow log => .fail fault ⟨env, log⟩
  | o => o

/-- An error is not continued. -/
@[simp] theorem andThen_done_error (fault : Fault) (s : State) (f : Value → State → Outcome) :
    (done (.error fault) s).andThen f = .done (.error fault) s := rfl

/-- Any other value is. -/
theorem andThen_done_of_not_isError {v : Value} (h : v.isError = false) (s : State)
    (f : Value → State → Outcome) : (done v s).andThen f = f v s := by
  simp [andThen, h]

@[simp] theorem andThen_overflow (log : List Event) (f : Value → State → Outcome) :
    (overflow log).andThen f = .overflow log := rfl

@[simp] theorem andThen_unfinished (f : Value → State → Outcome) :
    unfinished.andThen f = .unfinished := rfl

end Outcome

end Pseudocode
