import Pseudocode.Eval.Basic

/-!
The interpreter as a host uses it: settings, whole runs, and what a run shows.

The stack is sized by the depth limit, so every depth up to the limit can be reached, however deeply
the calls sit inside other constructs, and trees that are nested far beyond any written program are
refused. A limit for which no stack can be sized is refused before anything is read or run.
-/

namespace Pseudocode

/-- The settings of an interpreter. -/
structure Settings where
  /-- The greatest call depth. -/
  limit : Int
  /-- Is the trace printed? -/
  tracing : Bool
  /-- The number of nested nodes that the stack holds; none if it holds any number. -/
  room : Option Nat
  /-- The number of steps that a run may take. -/
  fuel : Nat
deriving DecidableEq, Repr

/-- Why no stack can be sized by a depth limit. -/
inductive LimitError where
  /-- A limit was asked for, and none was given. -/
  | missing
  | tooGreat
deriving DecidableEq, Repr

/-- The message about a depth limit. -/
def LimitError.message : LimitError → String
  | .missing => "can only concatenate list (not \"int\") to list"
  | .tooGreat => "Python int too large to convert to C int"

namespace Settings

/-- The greatest call depth unless another one is asked for. -/
def defaultLimit : Int := 50

/-- The number of nested nodes that may be open at once under a depth limit. The stack is made for
sixty frames a call and a thousand more, and a node takes at least two frames, so this many nodes
are an upper estimate of what it holds. -/
def roomFor (limit : Int) : Nat := 30 * limit.toNat + 1000

/-- More steps than any run can take in practice. -/
def ample : Nat := 0x4000000000000000

/-- The settings for a depth limit. -/
def standard (limit : Int) (tracing : Bool) : Settings :=
  { limit := limit, tracing := tracing, room := some (roomFor limit), fuel := ample }

/-- The greatest depth limit for which a stack can be asked for: a call takes sixty places, a
thousand are kept free, and places are counted in thirty-one bits. -/
def greatestLimit : Int := (0x7FFFFFFF - 1000) / 60

/-- The settings for a depth limit, if there is one and a stack can be sized by it. -/
def ofLimit (limit : Option Int) (tracing : Bool) : Except LimitError Settings :=
  match limit with
  | none => .error .missing
  | some n => if greatestLimit < n then .error .tooGreat else .ok (standard n tracing)

/-- The context of an evaluation that starts within `depth` calls. -/
def context (settings : Settings) (depth : Int) : Context :=
  { tracing := settings.tracing
    limit := settings.limit
    depth := depth
    room := settings.room }

end Settings

/-- A finished evaluation: its value, its environment, and its events, the earliest first. -/
structure Run where
  value : Value
  env : Env
  events : List Event

namespace Run

/-- The displays of the emitted values. -/
def outputs (r : Run) : List String :=
  r.events.filterMap fun e => e.emission?.map Value.display

/-- The printed trace. -/
def trace (r : Run) : List String :=
  r.events.filterMap Event.trace?

/-- The lines that appear where emissions and trace go to one place. -/
def lines (r : Run) : List String :=
  r.events.filterMap Event.line?

end Run

/-- What a finished evaluation leaves. -/
def Outcome.run? : Outcome → Option Run
  | .done v s => some ⟨v, s.env, s.log.reverse⟩
  | _ => none

/-- A run shows the value, the environment and the events of an outcome, in the order in which they
happened. -/
theorem Outcome.run?_eq_some_iff {o : Outcome} {r : Run} :
    o.run? = some r ↔ ∃ t, o = .done r.value t ∧ t.env = r.env ∧ t.log.reverse = r.events := by
  rcases o with ⟨v, t⟩ | log | -
  · constructor
    · intro h
      cases h
      exact ⟨t, rfl, rfl, rfl⟩
    · rintro ⟨t', h, henv, hevents⟩
      cases h
      rw [run?, henv, hevents]
  · simp [run?]
  · simp [run?]

namespace Interpreter

/-- Evaluate a node in an environment, within a number of calls. -/
def evaluateAt (settings : Settings) (depth : Int) (n : Node) (env : Env) : Outcome :=
  evalGuarded settings.fuel (settings.context depth) n ⟨env, []⟩

/-- Evaluate a node in an environment. -/
def evaluate (settings : Settings) (n : Node) (env : Env) : Outcome :=
  evaluateAt settings 0 n env

/-- Run a program from the empty environment; the value of the empty program is void. -/
def run (settings : Settings) : Option Node → Outcome
  | none => .done .void ⟨∅, []⟩
  | some root => evaluate settings root ∅

/-- Apply the rule for calls to a node of any kind. -/
def evaluateCall (settings : Settings) (n : Node) (env : Env) : Outcome :=
  Eval.call (eval settings.fuel) (settings.context 0) n ⟨env, []⟩

/-- Apply the rule for output to a node of any kind. -/
def evaluateOutput (settings : Settings) (n : Node) (env : Env) : Outcome :=
  Eval.output (eval settings.fuel) (settings.context 0) n ⟨env, []⟩

end Interpreter

end Pseudocode
