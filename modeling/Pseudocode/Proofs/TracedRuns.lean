import Pseudocode.Proofs.Tracing
import Pseudocode.ReadLoop
import Pseudocode.Script

/-!
Tracing changes no meaning.

A host turns the trace on for evaluations and for readings alike. What it gets back is the same: the
value and the environment of an evaluation with what it puts out, and the program or the error of a
reading. A traced run has more events, and those that an untraced run has as well are the emissions.

Design. `eval_untraced` says this of outcomes; here it is carried to whole runs, to files and to the
read loop. A traced reading is what `parseString` says, and the readings of files and of the read
loop are put together from it.

Main result: `tracing_changes_no_meaning`.
-/

namespace Pseudocode

open Eval

/-! ### Runs -/

namespace Run

/-- What a run tells with tracing and without: its value, its environment and what it puts out. -/
def told (r : Run) : Value × Env × List Value := (r.value, r.env, r.emitted)

/-- The run with all but the emissions struck out of its events. -/
def untraced (r : Run) : Run := ⟨r.value, r.env, r.events.filter Event.isEmission⟩

/-- What a run tells is told without its trace too. -/
theorem told_untraced (r : Run) : r.untraced.told = r.told := by
  have hemitted : r.untraced.emitted = r.emitted := by
    show (r.events.filter Event.isEmission).filterMap Event.emission? = _
    rw [List.filterMap_filter, emitted]
    congr 1
    funext e
    cases e <;> rfl
  rw [told, hemitted]
  rfl

/-- Without remarks among its events, a run shows what it puts out and nothing else. -/
theorem lines_untraced (r : Run) : r.untraced.lines = r.emitted.map Value.display := by
  show (r.events.filter Event.isEmission).filterMap Event.line? = _
  rw [List.filterMap_filter, emitted, List.map_filterMap]
  congr 1
  funext e
  cases e <;> rfl

end Run

/-- The run of an outcome without remarks is the run without them. -/
theorem Outcome.run?_untraced (o : Outcome) : o.untraced.run? = o.run?.map Run.untraced := by
  rcases o with ⟨v, s⟩ | log | -
  · show some (Run.mk v s.env (s.log.filter Event.isEmission).reverse) = _
    rw [← List.filter_reverse]
    rfl
  · rfl
  · rfl

/-- The settings with the trace turned off. -/
def Settings.untraced (settings : Settings) : Settings := { settings with tracing := false }

namespace Interpreter

variable (settings : Settings)

/-- An evaluation without tracing is the traced one without its remarks. -/
theorem evaluateAt_untraced (depth : Int) (n : Node) (env : Env) :
    evaluateAt settings.untraced depth n env = (evaluateAt settings depth n env).untraced := by
  rw [evaluateAt, evaluateAt, evalGuarded, evalGuarded, Outcome.untraced_caught, eval_untraced]
  rfl

theorem run_untraced (root : Option Node) :
    run settings.untraced root = (run settings root).untraced := by
  cases root with
  | none => rfl
  | some n => exact evaluateAt_untraced settings 0 n ∅

/-- A finished run without tracing is the finished run with it, less the remarks. -/
theorem run?_untraced (root : Option Node) :
    (run settings.untraced root).run? = (run settings root).run?.map Run.untraced := by
  rw [run_untraced, Outcome.run?_untraced]

/-- A run tells the same with and without tracing. -/
theorem told_run_untraced (root : Option Node) :
    (run settings.untraced root).run?.map Run.told = (run settings root).run?.map Run.told := by
  rw [run?_untraced, Option.map_map]
  exact congrArg (Option.map · _) (funext Run.told_untraced)

theorem told_evaluateAt_untraced (depth : Int) (n : Node) (env : Env) :
    (evaluateAt settings.untraced depth n env).run?.map Run.told
      = (evaluateAt settings depth n env).run?.map Run.told := by
  rw [evaluateAt_untraced, Outcome.run?_untraced, Option.map_map]
  exact congrArg (Option.map · _) (funext Run.told_untraced)

end Interpreter

/-! ### Readings -/

/-- Read a text with the trace on or off: what is printed, and the tree of the program, none if it
is empty, or the report about the error. -/
def parseString (tracing : Bool) (filename : String) (source : List Char) :
    List String × Except ParseError (Option Node) :=
  match readProgram filename source with
  | .error e => ([], .error e)
  | .ok statements => (readingTrace tracing statements, .ok (Stmt.program? statements))

/-- The trace of a reading is one line in front of the program, and no line in front of an error. -/
theorem parseString_traced (filename : String) (source : List Char) :
    (parseString false filename source).1 = []
      ∧ (parseString true filename source).2 = (parseString false filename source).2 := by
  unfold parseString
  cases readProgram filename source <;> exact ⟨rfl, rfl⟩

/-- What is read from a file is the same with and without tracing. -/
theorem Script.read_traced (disk : Disk) (path : String) :
    (read disk path true).2 = (read disk path false).2 := by
  unfold read
  rcases load disk path with e | text
  · rfl
  · dsimp only
    cases readProgram path text <;> rfl

namespace ReadLoop

/-- The read loop shows a buffer as its text is read. -/
theorem showProgram_eq_parseString (settings : Settings) (m : Memory) :
    (showProgram settings m).lines
      = ["+++PROGRAM+++"] ++ (parseString settings.tracing ParseError.inputName m.source).1
        ++ [match (parseString settings.tracing ParseError.inputName m.source).2 with
          | .error e => e.text
          | .ok root => (root.map Node.compact).getD "(empty program)"]
        ++ ["+++++++++++++"] := by
  unfold showProgram parseString
  cases readProgram ParseError.inputName m.source <;> rfl

/-- With tracing a buffer is shown as without it, behind the line of the trace. -/
theorem showProgram_traced (settings : Settings) (m : Memory) :
    ∃ trace shown,
      (showProgram { settings with tracing := true } m).lines
        = ["+++PROGRAM+++"] ++ trace ++ shown
      ∧ (showProgram { settings with tracing := false } m).lines = ["+++PROGRAM+++"] ++ shown := by
  obtain ⟨hsilent, hsame⟩ := parseString_traced ParseError.inputName m.source
  rw [showProgram_eq_parseString, showProgram_eq_parseString, hsilent, hsame, List.append_nil]
  exact ⟨_, _, List.append_assoc .., List.append_assoc ..⟩

/-- What a line leads to, apart from what is printed. -/
def Reply.kept (r : Reply) : Memory × Bool := (r.memory, r.running)

/-- Running a program leaves the same in the loop with and without tracing. -/
theorem kept_runProgram_untraced (settings : Settings) (m : Memory) :
    (runProgram settings.untraced m).map Reply.kept
      = (runProgram settings m).map Reply.kept := by
  unfold runProgram
  rcases readProgram ParseError.inputName m.source with e | statements
  · rfl
  · have hruns := Interpreter.told_run_untraced settings (Stmt.program? statements)
    have henvs := congrArg (Option.map fun told => (Memory.mk [] told.2.1, true)) hruns
    rw [Option.map_map, Option.map_map] at henvs
    show ((Interpreter.run _ _).run?.map _).map _ = ((Interpreter.run _ _).run?.map _).map _
    rw [Option.map_map, Option.map_map]
    exact henvs

/-- The trace has no influence on how a session goes on. -/
theorem kept_step_untraced (settings : Settings) (m : Memory) (line : String) :
    (step settings.untraced m line).map Reply.kept = (step settings m line).map Reply.kept := by
  unfold step
  rcases requestOf line with c | - | -
  · cases c with
    | run => exact kept_runProgram_untraced settings m
    | _ => rfl
  · rfl
  · rfl

end ReadLoop

/-! ### The trace and the meaning -/

/-- **Tracing changes no meaning.** An evaluation with tracing comes to an end exactly if the one
without it does, with the same value, in the same environment, and with the same values put out.
This holds as well for what a host is told of an evaluation that is guarded against an exhausted
stack, and of the run of a program. A text that is read with tracing has the same tree or the same
error as without it, whether it comes from a host or from a file, and the read loop shows the same
of it. A line of a session with tracing leads to the same bindings and the same buffer. -/
theorem tracing_changes_no_meaning :
    (∀ (ctx : Context) n env v env' out,
      behaviour eval { ctx with tracing := true } n env v env' out
        ↔ behaviour eval { ctx with tracing := false } n env v env' out)
    ∧ (∀ (settings : Settings) depth n env,
      (Interpreter.evaluateAt { settings with tracing := true } depth n env).run?.map Run.told
        = (Interpreter.evaluateAt { settings with tracing := false } depth n env).run?.map Run.told)
    ∧ (∀ (settings : Settings) root,
      (Interpreter.run { settings with tracing := true } root).run?.map Run.told
        = (Interpreter.run { settings with tracing := false } root).run?.map Run.told)
    ∧ (∀ filename source,
      (parseString true filename source).2 = (parseString false filename source).2)
    ∧ (∀ disk path, (Script.read disk path true).2 = (Script.read disk path false).2)
    ∧ (∀ (settings : Settings) m, ∃ trace shown,
      (ReadLoop.showProgram { settings with tracing := true } m).lines
        = ["+++PROGRAM+++"] ++ trace ++ shown
      ∧ (ReadLoop.showProgram { settings with tracing := false } m).lines
        = ["+++PROGRAM+++"] ++ shown)
    ∧ ∀ (settings : Settings) m line,
      (ReadLoop.step { settings with tracing := true } m line).map ReadLoop.Reply.kept
        = (ReadLoop.step { settings with tracing := false } m line).map ReadLoop.Reply.kept := by
  -- each part compares the traced run with its image, in which the remarks are left out
  refine ⟨?_, ?_, ?_, ?_, Script.read_traced, ReadLoop.showProgram_traced, ?_⟩
  · intro ctx n env v env' out
    have heq := behaviour_untraced { ctx with tracing := true } n
    show _ ↔ behaviour eval (Context.untraced { ctx with tracing := true }) n env v env' out
    rw [heq]
  · intro settings depth n env
    exact (Interpreter.told_evaluateAt_untraced { settings with tracing := true } depth n env).symm
  · intro settings root
    exact (Interpreter.told_run_untraced { settings with tracing := true } root).symm
  · intro filename source
    exact (parseString_traced filename source).2
  · intro settings m line
    exact (ReadLoop.kept_step_untraced { settings with tracing := true } m line).symm

end Pseudocode
