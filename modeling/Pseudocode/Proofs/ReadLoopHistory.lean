import Mathlib.Data.List.DropRight
import Mathlib.Data.List.Infix
import Pseudocode.ReadLoop

/-!
The read loop and its history.

What the loop remembers is determined by the lines that were entered. The buffer has the lines of
source text since the last line that used it up. The bindings are those of the last program that was
run, counting only the runs of texts that can be read: an error on reading uses the buffer up and
leaves the bindings alone, an error on running is a run like any other.

Design. `pending` and `lastProgram?` say this about a history without a look at the loop. `Turn`
lists what one line can do to the memory, and from it follows by induction over the history, from
its first line to its last, what the memory is (`Remembers`). A run that does not end has no reply,
and no line after it has one.

Main result: `read_loop_history`.
-/

namespace Pseudocode.ReadLoop

open Text

/-! ### Lines -/

/-- The line without the white space at its two ends. -/
def stripped (line : String) : String := String.ofList (trim line.toList)

/-- Does the line use the buffer up? -/
def usesUp (line : String) : Bool := stripped line ∈ ["clear", "parse", "run"]

/-- Is the line source text: neither blank nor a command? -/
def isSource (line : String) : Bool :=
  stripped line ≠ "" ∧ stripped line ∉ Command.all.map Command.word

/-- A command is asked for by its word and by nothing else. -/
theorem Command.ofWord?_eq_some_iff {s : String} {c : Command} :
    ofWord? s = some c ↔ s = c.word := by
  constructor
  · intro h
    unfold ofWord? at h
    have hword := List.find?_some h
    exact (beq_iff_eq.mp hword).symm
  · rintro rfl
    cases c <;> rfl

/-- A line asks for a command if all that stands on it is the word of one. -/
theorem requestOf_eq (line : String) :
    requestOf line = match Command.ofWord? (stripped line) with
      | some c => .command c
      | none => if (trim line.toList).isEmpty then .blank else .source := rfl

theorem requestOf_of_command {line : String} {c : Command} (h : stripped line = c.word) :
    requestOf line = .command c := by
  rw [requestOf_eq, Command.ofWord?_eq_some_iff.mpr h]

/-- What a line asks for, in terms of the stripped line. -/
theorem requestOf_cases (line : String) :
    (∃ c, requestOf line = .command c ∧ stripped line = c.word)
      ∨ (requestOf line = .blank ∧ stripped line = "")
      ∨ (requestOf line = .source ∧ isSource line = true) := by
  by_cases hcommand : stripped line ∈ Command.all.map Command.word
  · obtain ⟨c, -, hc⟩ := List.mem_map.mp hcommand
    exact .inl ⟨c, requestOf_of_command hc.symm, hc.symm⟩
  have hnone : Command.ofWord? (stripped line) = none := by
    refine Option.eq_none_iff_forall_ne_some.mpr fun c hc => hcommand ?_
    rw [Command.ofWord?_eq_some_iff.mp hc]
    exact List.mem_map_of_mem (by cases c <;> decide)
  rw [requestOf_eq, hnone]
  -- a line that is no command is blank or goes to the source
  rcases htrim : trim line.toList with - | ⟨d, ds⟩
  · exact .inr (.inl ⟨rfl, by rw [stripped, htrim]⟩)
  · have hne : stripped line ≠ "" := by
      intro h
      have hnil := congrArg String.toList h
      rw [stripped, String.toList_ofList, htrim] at hnil
      cases hnil
    exact .inr (.inr ⟨rfl, decide_eq_true ⟨hne, hcommand⟩⟩)

theorem not_command_of_isSource {line : String} (h : isSource line = true) (c : Command) :
    stripped line ≠ c.word := by
  intro hword
  refine (of_decide_eq_true h).2 ?_
  rw [hword]
  exact List.mem_map_of_mem (by cases c <;> decide)

/-! ### Histories -/

/-- The lines since the last one that used the buffer up. -/
def linesSince (history : List String) : List String := history.rtakeWhile fun line => !usesUp line

/-- The lines of source text since the last line that used the buffer up. -/
def pending (history : List String) : List String := (linesSince history).filter isSource

/-- The program that the last line of a history runs, if that line is `run` and the pending lines
are a program. -/
def programRun? (history : List String) : Option (List Stmt) :=
  if history.getLast?.map stripped = some "run" then
    (parseProgram (unlines ((pending history.dropLast).map String.toList))).toOption
  else none

/-- The last program that is run in a history, if there is one. -/
def lastProgram? (history : List String) : Option (List Stmt) :=
  history.inits.reverse.findSome? programRun?

/-- The run of a program from the empty environment, if it ends. -/
def finalRun? (settings : Settings) (statements : List Stmt) : Option Run :=
  (Interpreter.run settings (Stmt.program? statements)).run?

/-- What the loop remembers after a history; none if a run in it does not end. -/
def after (settings : Settings) (history : List String) : Option Memory :=
  history.foldlM (fun m line => (step settings m line).map Reply.memory) .initial

variable {settings : Settings} {m : Memory} {line : String}

/-- One more line uses the pending lines up or is pending itself, if it is source. -/
theorem pending_concat (history : List String) (line : String) :
    pending (history ++ [line])
      = if usesUp line then [] else pending history ++ [line].filter isSource := by
  rw [pending, linesSince, List.rtakeWhile_concat]
  rcases usesUp line with - | -
  · exact List.filter_append ..
  · rfl

/-- A program is run just if the last line asks for it and the pending lines parse. -/
theorem programRun?_concat (history : List String) (line : String) :
    programRun? (history ++ [line])
      = if stripped line = "run" then
          (parseProgram (unlines ((pending history).map String.toList))).toOption
        else none := by
  simp [programRun?]

/-- The last program is that of the last line, if it runs one, and else the one before. -/
theorem lastProgram?_concat (history : List String) (line : String) :
    lastProgram? (history ++ [line])
      = (programRun? (history ++ [line])).or (lastProgram? history) := by
  -- the longest beginning is the history itself
  have hinits : (history ++ [line]).inits.reverse
      = (history ++ [line]) :: history.inits.reverse := by
    simp [List.inits_append]
  rw [lastProgram?, hinits, List.findSome?_cons]
  rcases programRun? (history ++ [line]) with - | statements <;> rfl

/-- The memory after one more line is that of one more step. -/
theorem after_concat (history : List String) (line : String) :
    after settings (history ++ [line])
      = (after settings history).bind fun m => (step settings m line).map Reply.memory := by
  rw [after, List.foldlM_append]
  simp [after, bind, pure]

/-! ### One line -/

/-- What a line does to the memory, and whether the loop goes on. -/
inductive Turn (settings : Settings) (m : Memory) (line : String) : Memory → Bool → Prop
  | added : isSource line = true → Turn settings m line { m with buffer := m.buffer ++ [line] } true
  | ignored : stripped line = "" ∨ stripped line = "env" ∨ stripped line = "help" →
      Turn settings m line m true
  | ended : stripped line = "quit" → Turn settings m line m false
  | cleared : stripped line = "clear" ∨ stripped line = "parse" →
      Turn settings m line m.cleared true
  | refused {position : Nat} : stripped line = "run" → parseProgram m.source = .error position →
      Turn settings m line m.cleared true
  | ran {statements : List Stmt} {r : Run} : stripped line = "run" →
      parseProgram m.source = .ok statements → finalRun? settings statements = some r →
      Turn settings m line ⟨[], r.env⟩ true

theorem step_of_run (h : stripped line = "run") : step settings m line = runProgram settings m := by
  rw [step, requestOf_of_command (c := .run) h]
  rfl

/-- If the buffer does not parse, it is cleared and nothing else is changed. -/
theorem runProgram_of_error (settings : Settings) {position : Nat}
    (h : parseProgram m.source = .error position) :
    ∃ lines, runProgram settings m = some ⟨m.cleared, true, lines⟩ := by
  simp [runProgram, readProgram, h]

/-- If it parses, the program is run, and its environment replaces the old one. -/
theorem runProgram_of_ok (settings : Settings) {statements : List Stmt}
    (h : parseProgram m.source = .ok statements) :
    ∃ lines : Run → List String, runProgram settings m
      = (finalRun? settings statements).map fun r => ⟨⟨[], r.env⟩, true, lines r⟩ := by
  simp only [runProgram, readProgram, h]
  exact ⟨_, rfl⟩

/-- The line runs the program in the buffer, and the run does not end. -/
def Hangs (settings : Settings) (m : Memory) (line : String) : Prop :=
  stripped line = "run" ∧ ∃ statements, parseProgram m.source = .ok statements
    ∧ finalRun? settings statements = none

/-- A line does one of the things in the list, unless it hangs. -/
theorem step_cases (settings : Settings) (m : Memory) (line : String) :
    (step settings m line = none ∧ Hangs settings m line)
      ∨ ∃ reply, step settings m line = some reply
        ∧ Turn settings m line reply.memory reply.running := by
  obtain ⟨c, hrequest, hword⟩ | ⟨hrequest, hblank⟩ | ⟨hrequest, hsource⟩ := requestOf_cases line <;>
    rw [step, hrequest]
  · -- only running a program can fail to come back
    cases c with
    | parse => exact .inr ⟨_, rfl, .cleared (.inr hword)⟩
    | run =>
      rcases hparse : parseProgram m.source with position | statements
      · obtain ⟨lines, hreply⟩ := runProgram_of_error settings hparse
        exact .inr ⟨_, hreply, .refused hword hparse⟩
      · obtain ⟨lines, hreply⟩ := runProgram_of_ok settings hparse
        rcases hr : finalRun? settings statements with - | r <;> rw [hr] at hreply
        · exact .inl ⟨hreply, hword, statements, hparse, hr⟩
        · exact .inr ⟨_, hreply, .ran hword hparse hr⟩
    | env => exact .inr ⟨_, rfl, .ignored (.inr (.inl hword))⟩
    | clear => exact .inr ⟨_, rfl, .cleared (.inl hword)⟩
    | help => exact .inr ⟨_, rfl, .ignored (.inr (.inr hword))⟩
    | quit => exact .inr ⟨_, rfl, .ended hword⟩
  · exact .inr ⟨_, rfl, .ignored (.inl hblank)⟩
  · exact .inr ⟨_, rfl, .added hsource⟩

theorem turn_of_step {reply : Reply} (h : step settings m line = some reply) :
    Turn settings m line reply.memory reply.running := by
  obtain ⟨hnone, -⟩ | ⟨reply', hreply, hturn⟩ := step_cases settings m line
  · rw [h] at hnone
    cases hnone
  · obtain rfl := Option.some.inj (h.symm.trans hreply)
    exact hturn

/-- A step has no reply just if it runs a program that does not end. -/
theorem step_eq_none_iff : step settings m line = none ↔ Hangs settings m line := by
  obtain ⟨hnone, hhangs⟩ | ⟨reply, hreply, hturn⟩ := step_cases settings m line
  · exact iff_of_true hnone hhangs
  · refine iff_of_false (by rw [hreply]; nofun) ?_
    rintro ⟨hword, statements, hparse, hr⟩
    obtain ⟨lines, hnone⟩ := runProgram_of_ok settings hparse
    rw [step_of_run hword, hnone, hr] at hreply
    cases hreply

namespace Turn

variable {m' : Memory} {running : Bool}

/-- The loop ends exactly at a line that asks for it. -/
theorem running_iff (h : Turn settings m line m' running) :
    running = false ↔ stripped line = "quit" := by
  cases h with
  | added hsource => exact iff_of_false nofun (not_command_of_isSource hsource .quit)
  | ignored hword => rcases hword with hword | hword | hword <;> simp [hword]
  | ended hword => simp [hword]
  | cleared hword => rcases hword with hword | hword <;> simp [hword]
  | refused hword _ => simp [hword]
  | ran hword _ _ => simp [hword]

/-- A turn empties the buffer or adds the line to it, if it is source. -/
theorem buffer (h : Turn settings m line m' running) :
    m'.buffer = if usesUp line then [] else m.buffer ++ [line].filter isSource := by
  -- both questions about a line are about the word on it
  have hclass : ∀ w, stripped line = w → usesUp line = decide (w ∈ ["clear", "parse", "run"])
      ∧ isSource line = decide (w ≠ "" ∧ w ∉ Command.all.map Command.word) := by
    rintro w rfl
    exact ⟨rfl, rfl⟩
  cases h with
  | added hsource =>
    have hkeeps : usesUp line = false := by
      refine decide_eq_false fun hmem => ?_
      simp only [List.mem_cons, List.not_mem_nil, or_false] at hmem
      rcases hmem with hword | hword | hword
      · exact not_command_of_isSource hsource .clear hword
      · exact not_command_of_isSource hsource .parse hword
      · exact not_command_of_isSource hsource .run hword
    simp [hkeeps, hsource]
  | ignored hword =>
    rcases hword with hword | hword | hword <;> obtain ⟨hkeeps, hsource⟩ := hclass _ hword <;>
      simp [hkeeps, hsource, Command.all, Command.word]
  | ended hword =>
    obtain ⟨hkeeps, hsource⟩ := hclass _ hword
    simp [hkeeps, hsource, Command.all, Command.word]
  | cleared hword =>
    rcases hword with hword | hword <;> simp [(hclass _ hword).1, Memory.cleared]
  | refused hword _ => simp [(hclass _ hword).1, Memory.cleared]
  | ran hword _ _ => simp [(hclass _ hword).1]

/-- The bindings change only if a program is run, and are those of the run then. -/
theorem env (h : Turn settings m line m' running) :
    (m'.env = m.env
        ∧ (stripped line = "run" → ∀ statements, parseProgram m.source ≠ .ok statements))
      ∨ (stripped line = "run" ∧ ∃ statements r, parseProgram m.source = .ok statements
        ∧ finalRun? settings statements = some r ∧ m'.env = r.env) := by
  cases h with
  | added hsource =>
    exact .inl ⟨rfl, fun hword => absurd hword (not_command_of_isSource hsource .run)⟩
  | ignored hword => exact .inl ⟨rfl, by rcases hword with hword | hword | hword <;> simp [hword]⟩
  | ended hword => exact .inl ⟨rfl, by simp [hword]⟩
  | cleared hword => exact .inl ⟨rfl, by rcases hword with hword | hword <;> simp [hword]⟩
  | refused hword hparse => exact .inl ⟨rfl, by simp [hparse]⟩
  | ran hword hparse hr => exact .inr ⟨hword, _, _, hparse, hr, rfl⟩

end Turn

/-! ### All lines -/

/-- What the loop remembers of a history. -/
structure Remembers (settings : Settings) (history : List String) (m : Memory) : Prop where
  buffer : m.buffer = pending history
  unbound : lastProgram? history = none → m.env = ∅
  bound : ∀ statements, lastProgram? history = some statements →
    ∃ r, finalRun? settings statements = some r ∧ m.env = r.env

theorem Remembers.source {history : List String} (h : Remembers settings history m) :
    m.source = unlines ((pending history).map String.toList) := by
  rw [Memory.source, h.buffer]

/-- A turn keeps the memory in step with the history. -/
theorem Remembers.turn {history : List String} {m' : Memory} {running : Bool}
    (h : Remembers settings history m) (hturn : Turn settings m line m' running) :
    Remembers settings (history ++ [line]) m' := by
  have hbuffer : m'.buffer = pending (history ++ [line]) := by
    rw [hturn.buffer, pending_concat, h.buffer]
  have hlast := lastProgram?_concat history line
  rw [programRun?_concat, ← h.source] at hlast
  obtain ⟨henv, hnone⟩ | ⟨hword, statements, r, hparse, hr, henv⟩ := hturn.env
  · -- no program is run, so the last one is still the last
    have hsame : lastProgram? (history ++ [line]) = lastProgram? history := by
      rw [hlast]
      split
      · rename_i hword
        rcases hparse : parseProgram m.source with position | statements
        · rfl
        · exact absurd hparse (hnone hword statements)
      · rfl
    refine ⟨hbuffer, ?_, ?_⟩ <;> rw [hsame, henv]
    · exact h.unbound
    · exact h.bound
  · rw [if_pos hword, hparse] at hlast
    refine ⟨hbuffer, ?_, ?_⟩ <;> rw [hlast]
    · nofun
    · rintro _ ⟨⟩
      exact ⟨r, hr, henv⟩

/-- The memory after a history is in step with it. -/
theorem remembers_of_after {history : List String} (h : after settings history = some m) :
    Remembers settings history m := by
  induction history using List.reverseRecOn generalizing m with
  | nil =>
    cases h
    exact ⟨rfl, fun _ => rfl, nofun⟩
  | append_singleton history line ih =>
    rw [after_concat] at h
    obtain ⟨m₀, hm₀, h⟩ := Option.bind_eq_some_iff.mp h
    obtain ⟨reply, hreply, rfl⟩ := Option.map_eq_some_iff.mp h
    exact (ih hm₀).turn (turn_of_step hreply)

/-- The last line of a history runs a program if and only if it is `run` and the buffer is that
program. -/
theorem Remembers.programRun?_iff {history : List String} (h : Remembers settings history m)
    (statements : List Stmt) :
    programRun? (history ++ [line]) = some statements
      ↔ stripped line = "run" ∧ parseProgram m.source = .ok statements := by
  rw [programRun?_concat, ← h.source]
  split
  · rename_i hword
    rcases parseProgram m.source with position | statements' <;> simp [Except.toOption, hword]
  · rename_i hword
    simp [hword]

/-- There is no end to a history exactly if a program is run in it whose run has none. -/
theorem after_eq_none_iff {history : List String} :
    after settings history = none ↔ ∃ earlier, earlier <+: history ∧ ∃ statements,
      programRun? earlier = some statements ∧ finalRun? settings statements = none := by
  induction history using List.reverseRecOn with
  | nil =>
    refine iff_of_false nofun ?_
    rintro ⟨earlier, hearlier, statements, hrun, -⟩
    rw [List.prefix_nil.mp hearlier] at hrun
    cases hrun
  | append_singleton history line ih =>
    rw [after_concat]
    rcases hm : after settings history with - | m
    · -- an earlier run has no end
      obtain ⟨earlier, hearlier, hrun⟩ := ih.mp hm
      exact iff_of_true rfl ⟨earlier, hearlier.trans (List.prefix_append ..), hrun⟩
    · have hremembers := remembers_of_after hm
      rw [Option.bind_some, Option.map_eq_none_iff, step_eq_none_iff]
      constructor
      · rintro ⟨hword, statements, hparse, hnone⟩
        exact ⟨_, List.prefix_rfl, statements,
          (hremembers.programRun?_iff statements).mpr ⟨hword, hparse⟩, hnone⟩
      · rintro ⟨earlier, hearlier, statements, hrun, hnone⟩
        rcases List.prefix_concat_iff.mp hearlier with rfl | hearlier
        · obtain ⟨hword, hparse⟩ := (hremembers.programRun?_iff statements).mp hrun
          exact ⟨hword, statements, hparse, hnone⟩
        · rw [ih.mpr ⟨earlier, hearlier, statements, hrun, hnone⟩] at hm
          cases hm

/-- With the same buffer a run has the same reply, but for the bindings that are kept if the buffer
is no program. -/
theorem run_congr {m m' : Memory} (hbuffer : m.buffer = m'.buffer) (hword : stripped line = "run") :
    (step settings m line).map (fun reply => (reply.running, reply.lines))
        = (step settings m' line).map (fun reply => (reply.running, reply.lines))
      ∧ ∀ statements, parseProgram m.source = .ok statements →
        step settings m line = step settings m' line := by
  have hsource : m.source = m'.source := by rw [Memory.source, Memory.source, hbuffer]
  rw [step_of_run hword, step_of_run hword, runProgram, runProgram, ← hsource]
  refine ⟨?_, fun statements hparse => ?_⟩
  · rcases readProgram ParseError.inputName m.source with e | statements <;> rfl
  · rw [readProgram, hparse]

/-- **The read loop as a state machine.** After any history, the buffer has the lines of source
text, as they were entered, that came after the last `clear`, `parse` or `run`; the bindings are
those of the last program that was run, error or not, from the empty environment, and there are none
before the first. There is no such memory exactly if a program that is run does not end. The loop
ends at a line that is `quit` up to white space, and at no other. And what a `run` replies depends
on the lines since the last `clear`, `parse` or `run` only, and so do the bindings that it leaves,
if these lines are a program. -/
theorem read_loop_history (settings : Settings) :
    (∀ history m, after settings history = some m →
        m.buffer = pending history
          ∧ (lastProgram? history = none → m.env = ∅)
          ∧ ∀ statements, lastProgram? history = some statements →
            ∃ r, finalRun? settings statements = some r ∧ m.env = r.env)
      ∧ (∀ history, after settings history = none ↔ ∃ earlier, earlier <+: history ∧ ∃ statements,
        programRun? earlier = some statements ∧ finalRun? settings statements = none)
      ∧ (∀ m line reply, step settings m line = some reply →
        (reply.running = false ↔ stripped line = "quit"))
      ∧ ∀ history history' m m' line, after settings history = some m →
        after settings history' = some m' → linesSince history = linesSince history' →
        stripped line = "run" →
        (step settings m line).map (fun reply => (reply.running, reply.lines))
            = (step settings m' line).map (fun reply => (reply.running, reply.lines))
          ∧ ∀ statements, parseProgram m.source = .ok statements →
            step settings m line = step settings m' line := by
  refine ⟨fun history m h => ?_, fun history => after_eq_none_iff, fun m line reply h => ?_, ?_⟩
  · have hremembers := remembers_of_after h
    exact ⟨hremembers.buffer, hremembers.unbound, hremembers.bound⟩
  · exact (turn_of_step h).running_iff
  · intro history history' m m' line h h' hlines hword
    have hbuffer : m.buffer = m'.buffer := by
      -- the pending lines are among those since the last command that used some up
      rw [(remembers_of_after h).buffer, (remembers_of_after h').buffer, pending, pending, hlines]
    exact run_congr hbuffer hword

/-- A program, a text that is none, and a further line of source text, which is not run yet. -/
def mixedHistory : List String :=
  ["u <- True", " run ", "u <-", "run", "env", "  OUTPUT u", ""]

/-- The text that is no program has used the buffer up and left the bindings of the program alone.
The line in the buffer reads `u`, and running it does not find the binding. -/
theorem read_loop_history_mixed :
    ∃ m m', after ⟨50, false, none, 12⟩ mixedHistory = some m
      ∧ after ⟨50, false, none, 12⟩ ["env", "  OUTPUT u", ""] = some m'
      ∧ m.buffer = ["  OUTPUT u"]
      ∧ lastProgram? mixedHistory = some [.assign "u" false (.boolean true)]
      ∧ m.env["u"]? = some (.variable (.bool true) false) ∧ m'.env = ∅
      ∧ step ⟨50, false, none, 12⟩ m "run" = step ⟨50, false, none, 12⟩ m' "run" := by
  obtain ⟨m, hm⟩ : ∃ m, after ⟨50, false, none, 12⟩ mixedHistory = some m := ⟨_, rfl⟩
  obtain ⟨m', hm'⟩ : ∃ m', after ⟨50, false, none, 12⟩ ["env", "  OUTPUT u", ""] = some m' :=
    ⟨_, rfl⟩
  have hpending : pending mixedHistory = ["  OUTPUT u"] := by decide +kernel
  have hlast : lastProgram? mixedHistory = some [.assign "u" false (.boolean true)] := rfl
  have hnone : lastProgram? ["env", "  OUTPUT u", ""] = none := rfl
  have hlines : linesSince mixedHistory = linesSince ["env", "  OUTPUT u", ""] := by decide +kernel
  have hparse : parseProgram "  OUTPUT u".toList = .ok [.output (.reference "u")] := rfl
  obtain ⟨r, hr, hu⟩ : ∃ r, finalRun? ⟨50, false, none, 12⟩ [.assign "u" false (.boolean true)]
      = some r ∧ r.env["u"]? = some (.variable (.bool true) false) := ⟨_, rfl, rfl⟩
  obtain ⟨hmemory, -, -, hrun⟩ := read_loop_history ⟨50, false, none, 12⟩
  obtain ⟨hbuffer, -, hbound⟩ := hmemory mixedHistory m hm
  obtain ⟨-, hunbound, -⟩ := hmemory _ m' hm'
  obtain ⟨r', hr', henv⟩ := hbound _ hlast
  obtain rfl : r = r' := Option.some.inj (hr.symm.trans hr')
  have hsource : m.source = "  OUTPUT u".toList := by
    rw [Memory.source, hbuffer, hpending]
    rfl
  refine ⟨m, m', hm, hm', hbuffer.trans hpending, hlast, henv ▸ hu, hunbound hnone, ?_⟩
  refine (hrun _ _ m m' "run" hm hm' hlines (by decide)).2 [.output (.reference "u")] ?_
  rw [hsource, hparse]

end Pseudocode.ReadLoop
