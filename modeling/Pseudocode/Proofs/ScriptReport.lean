import Mathlib.Data.List.Sort
import Pseudocode.Proofs.FrontEnds
import Pseudocode.Proofs.TracedRuns

/-!
The report about a script.

What the runner prints about a file is settled by what its program does, evaluated from the empty
environment. Everything that is put out comes first, line by line, and stays there when an error
follows. Then there is the error, or the word that all went well with the bindings that are left.

Design. The runner gives up after a number of steps that no program takes in practice. `Reports` is
what it reports if it is given enough steps, so that it can be compared with a behaviour. The lines
about the bindings are determined by the names alone, and these by `Env.Lists`: a list that is in
order and has the names that are bound is the list of the keys.

Main result: `script_report`.
-/

namespace Pseudocode

open Eval Text

/-! ### Bindings in order -/

namespace Env

/-- The names are those that the environment binds, each of them once and in order. -/
structure Lists (env : Env) (names : List String) : Prop where
  sorted : names.Pairwise (· < ·)
  mem_iff : ∀ x, x ∈ names ↔ x ∈ env

/-- The lines that list names with their bindings. -/
def listingOf (env : Env) (names : List String) : List String :=
  if names = [] then ["  (no bindings)"]
  else names.map fun x =>
    "  " ++ x ++ " = " ++ shortened ((env[x]?.map (Binding.display x)).getD "")

theorem lists_keys (env : Env) : env.Lists env.keys := by
  have hordered : env.keys.Pairwise fun x y => compare x y = .lt := Std.ExtTreeMap.ordered_keys
  exact ⟨hordered.imp fun h => compareOfLessAndEq_eq_lt.mp h, fun x => Std.ExtTreeMap.mem_keys⟩

/-- An environment has one list of its names, since that is sorted. -/
theorem Lists.eq_keys {env : Env} {names : List String} (h : env.Lists names) :
    names = env.keys := by
  apply h.sorted.eq_of_mem_iff env.lists_keys.sorted
  intro x
  rw [h.mem_iff, env.lists_keys.mem_iff]

/-- The listing of an environment goes through its keys. -/
theorem listing_eq (env : Env) : env.listing = env.listingOf env.keys := by
  have hkeys : env.keys = env.toList.map Prod.fst := Std.ExtTreeMap.map_fst_toList_eq_keys.symm
  have hempty : env.isEmpty = true ↔ env.keys = [] := by
    rw [← Std.ExtTreeMap.isEmpty_keys, List.isEmpty_iff]
  unfold listing listingOf
  by_cases h : env.keys = []
  · rw [if_pos (hempty.mpr h), if_pos h]
  · rw [if_neg (mt hempty.mp h), if_neg h, display, hkeys, List.map_map, List.map_map]
    apply List.map_congr_left
    rintro ⟨x, b⟩ hmem
    have hlook : env[x]? = some b := Std.ExtTreeMap.mem_toList_iff_getElem?_eq_some.mp hmem
    simp [hlook]

end Env

/-! ### Runs of programs -/

namespace Interpreter

variable {settings : Settings} {root : Option Node}

/-- More steps keep the outcome of a run that has ended. -/
theorem precedes_run {fuel fuel' : Nat} (hle : fuel ≤ fuel') :
    (run { settings with fuel := fuel } root).Precedes
      (run { settings with fuel := fuel' } root) := by
  cases root with
  | none => exact .refl _
  | some n => exact (precedes_eval hle).map (g := Outcome.caught .programTooDeep ∅) rfl

/-- A run that ends within its steps ends in the same way within more of them. -/
theorem run?_of_le {fuel fuel' : Nat} (hle : fuel ≤ fuel') {r : Run}
    (h : (run { settings with fuel := fuel } root).run? = some r) :
    (run { settings with fuel := fuel' } root).run? = some r := by
  have hends : run { settings with fuel := fuel } root ≠ .unfinished := by
    intro heq
    rw [heq] at h
    cases h
  rw [precedes_run hle hends]
  exact h

/-- What a program does, evaluated from the empty environment. -/
theorem exists_run_iff (hfits : ∀ n, root = some n → Fits (settings.context 0) n ∅)
    {v : Value} {env : Env} {out : List Value} :
    (∃ fuel r, (run { settings with fuel := fuel } root).run? = some r
      ∧ r.value = v ∧ r.env = env ∧ r.emitted = out)
      ↔ Behaviour.optional (behaviour eval (settings.context 0).plain) root ∅ v env out := by
  cases root with
  | none =>
    constructor
    · rintro ⟨fuel, r, h, rfl, rfl, rfl⟩
      cases h
      exact ⟨rfl, rfl, rfl⟩
    · rintro ⟨rfl, rfl, rfl⟩
      exact ⟨0, ⟨.void, ∅, []⟩, rfl, rfl, rfl, rfl⟩
  | some n =>
    have hn := hfits n rfl
    show _ ↔ behaviour eval (settings.context 0).plain n ∅ v env out
    rw [← hn.behaviour_eq_plain]
    constructor
    · rintro ⟨fuel, r, h, rfl, rfl, rfl⟩
      -- the guard has nothing to catch
      obtain ⟨t, hdone, henv, hevents⟩ := Outcome.run?_eq_some_iff.mp h
      have hne : ∀ log, eval fuel (settings.context 0) n ⟨∅, []⟩ ≠ .overflow log := by
        intro log
        rw [← hn.eval_unbounded]
        exact eval_ne_overflow rfl n _ log
      refine ⟨t, ⟨fuel, Outcome.caught_eq_done_of_ne_overflow hne hdone⟩, henv, ?_⟩
      rw [emissions, hevents, Run.emitted]
    · intro h
      rw [hn.behaviour_eq] at h
      obtain ⟨steps, hsteps⟩ := exists_evaluate_of_behaviour hn h
      exact ⟨steps, hsteps steps (Nat.le_refl _)⟩

/-- Without tracing, a run shows what it puts out and nothing else. -/
theorem lines_eq (hquiet : settings.tracing = false) {r : Run}
    (h : (run settings root).run? = some r) : r.lines = r.emitted.map Value.display := by
  -- to turn the trace off makes no difference, so the run is its own image
  have huntraced : settings.untraced = settings := by
    rw [Settings.untraced, ← hquiet]
  have hsame := run?_untraced settings root
  rw [huntraced, h] at hsame
  have hr : r = r.untraced := Option.some.inj hsame
  calc r.lines
    _ = r.untraced.lines := congrArg Run.lines hr
    _ = r.emitted.map Value.display := r.lines_untraced

end Interpreter

/-! ### Reports -/

/-- The file name does not matter for what is read. -/
theorem readProgram_eq_ok_iff {filename : String} {source : List Char} {statements : List Stmt} :
    readProgram filename source = .ok statements ↔ parseProgram source = .ok statements := by
  unfold readProgram
  cases parseProgram source <;> simp

/-- Nor does it matter for where an error is; it only becomes part of the error. -/
theorem readProgram_eq_error_iff {filename : String} {source : List Char} {e : ParseError} :
    readProgram filename source = .error e
      ↔ ∃ position, parseProgram source = .error position
        ∧ ParseError.atPosition source filename position = e := by
  unfold readProgram
  cases parseProgram source <;> simp

namespace Script

/-- The report about a program that has come to an end: what it has put out, and then its error, or
that all went well and the bindings with the given names. -/
def reportOf (v : Value) (env : Env) (names : List String) (out : List Value) : Report :=
  match v with
  | .error fault => .ofLines 1 (out.map Value.display ++ [fault.message])
  | _ => .ofLines 0 (out.map Value.display
      ++ ["Program executed successfully!", "",
        "Final environment (" ++ Decimal.natText names.length ++ " bindings):"]
      ++ env.listingOf names)

/-- The report of a run without tracing is made of what it puts out, its value and its
environment. -/
theorem finished_eq_reportOf {r : Run} (hlines : r.lines = r.emitted.map Value.display) :
    finished [] r = reportOf r.value r.env r.env.keys r.emitted := by
  rw [finished, List.nil_append, hlines]
  obtain ⟨v, env, events⟩ := r
  cases v with
  | error fault => rfl
  | _ =>
    show Report.ofLines 0 (_ ++ (_ ++ _)) = Report.ofLines 0 (_ ++ _ ++ _)
    rw [← List.append_assoc, Env.listing_eq, Std.ExtTreeMap.length_keys]

/-- Run the program in a file under a depth limit and without tracing, in at most `fuel` steps. -/
def runIn (fuel : Nat) (disk : Disk) (path : String) (limit : Int) : Option Report :=
  match Settings.ofLimit (some limit) false with
  | .error e => some (failure path "executing" false [] (.unexpected e.message))
  | .ok settings => runWith disk path { settings with fuel := fuel }

/-- The report about the program in a file, with steps enough. -/
def Reports (disk : Disk) (path : String) (limit : Int) (report : Report) : Prop :=
  ∃ steps, ∀ fuel, steps ≤ fuel → runIn fuel disk path limit = some report

section
variable {disk : Disk} {path : String} {limit : Int} {text : List Char} {report : Report}

/-- The script gives its run a fixed, ample number of steps. -/
theorem run_eq_runIn (disk : Disk) (path : String) (limit : Int) :
    run disk path (some limit) false = runIn Settings.ample disk path limit := by
  by_cases h : Settings.greatestLimit < limit
  · simp only [run, runIn, Settings.ofLimit, if_pos h]
  · simp only [run, runIn, Settings.ofLimit, if_neg h]
    rfl

/-- A limit that is too great is refused before anything is read. -/
theorem runIn_of_greater (h : Settings.greatestLimit < limit) (fuel : Nat) :
    runIn fuel disk path limit
      = some (.ofLines 1 ["Unexpected error while executing '" ++ path ++ "': "
        ++ LimitError.tooGreat.message]) := by
  simp only [runIn, Settings.ofLimit, if_pos h]
  rfl

theorem runIn_of_le (h : limit ≤ Settings.greatestLimit) (fuel : Nat) :
    runIn fuel disk path limit
      = runWith disk path { Settings.standard limit false with fuel := fuel } := by
  simp only [runIn, Settings.ofLimit, if_neg (Int.not_lt.mpr h)]

theorem runIn_of_error (h : limit ≤ Settings.greatestLimit) (hload : load disk path = .ok text)
    {e : ParseError} (hread : readProgram path text = .error e) (fuel : Nat) :
    runIn fuel disk path limit = some (.ofLines 1 [e.text]) := by
  obtain ⟨position, hparse, rfl⟩ := readProgram_eq_error_iff.mp hread
  rw [runIn_of_le h, runWith_of_error _ hload hparse]
  rfl

theorem runIn_of_ok (h : limit ≤ Settings.greatestLimit) (hload : load disk path = .ok text)
    {statements : List Stmt} (hread : readProgram path text = .ok statements) (fuel : Nat) :
    runIn fuel disk path limit
      = (Interpreter.run { Settings.standard limit false with fuel := fuel }
        (Stmt.program? statements)).run?.map (finished []) := by
  rw [runIn_of_le h, runWith_of_ok _ hload (readProgram_eq_ok_iff.mp hread)]
  rfl

/-- More steps give the same report. -/
theorem runIn_of_fuel_le (hload : load disk path = .ok text) {fuel fuel' : Nat}
    (hle : fuel ≤ fuel') (h : runIn fuel disk path limit = some report) :
    runIn fuel' disk path limit = some report := by
  rcases Int.lt_or_le Settings.greatestLimit limit with hlimit | hlimit
  · rw [runIn_of_greater hlimit] at h ⊢
    exact h
  rcases hread : readProgram path text with e | statements
  · rw [runIn_of_error hlimit hload hread] at h ⊢
    exact h
  · rw [runIn_of_ok hlimit hload hread, Option.map_eq_some_iff] at h ⊢
    obtain ⟨r, hr, hreport⟩ := h
    exact ⟨r, Interpreter.run?_of_le hle hr, hreport⟩

/-- Steps enough are steps that lead to a report. -/
theorem reports_iff (hload : load disk path = .ok text) :
    Reports disk path limit report ↔ ∃ fuel, runIn fuel disk path limit = some report := by
  constructor
  · rintro ⟨steps, h⟩
    exact ⟨steps, h steps (Nat.le_refl _)⟩
  · rintro ⟨steps, h⟩
    exact ⟨steps, fun fuel hle => runIn_of_fuel_le hload hle h⟩

/-- A report that takes no steps. -/
theorem reports_iff_of_forall {report' : Report}
    (h : ∀ fuel, runIn fuel disk path limit = some report') :
    Reports disk path limit report ↔ report = report' := by
  simp only [Reports, h, Option.some.injEq]
  constructor
  · rintro ⟨steps, hreport⟩
    exact (hreport steps (Nat.le_refl _)).symm
  · rintro rfl
    exact ⟨0, fun _ _ => rfl⟩

/-- The reports of a file that parses are those of the behaviour of its program in an empty
environment. -/
theorem reports_iff_of_ok (h : limit ≤ Settings.greatestLimit) (hload : load disk path = .ok text)
    {statements : List Stmt} (hread : readProgram path text = .ok statements)
    (hfits : ∀ n, Stmt.program? statements = some n →
      Fits ((Settings.standard limit false).context 0) n ∅) :
    Reports disk path limit report ↔ ∃ v env out names,
      Behaviour.optional (behaviour eval ((Settings.standard limit false).context 0).plain)
        (Stmt.program? statements) ∅ v env out
      ∧ env.Lists names ∧ report = reportOf v env names out := by
  simp only [reports_iff hload, runIn_of_ok h hload hread, ← Interpreter.exists_run_iff hfits,
    Option.map_eq_some_iff]
  constructor
  · rintro ⟨fuel, r, hr, rfl⟩
    -- without tracing the lines are the displayed emissions
    have hlines : r.lines = r.emitted.map Value.display := Interpreter.lines_eq rfl hr
    exact ⟨r.value, r.env, r.emitted, r.env.keys, ⟨fuel, r, hr, rfl, rfl, rfl⟩, r.env.lists_keys,
      finished_eq_reportOf hlines⟩
  · rintro ⟨-, -, -, names, ⟨fuel, r, hr, rfl, rfl, rfl⟩, hnames, rfl⟩
    have hlines : r.lines = r.emitted.map Value.display := Interpreter.lines_eq rfl hr
    refine ⟨fuel, r, hr, ?_⟩
    rw [finished_eq_reportOf hlines, hnames.eq_keys]

end

/-- A disk with one file. -/
def oneFile (bytes : List UInt8) : Disk := ⟨fun _ => .ok true, fun _ => .ok bytes⟩

/-- The bytes of `x <- True`, `OUTPUT x` and `a <- x`, a line each. -/
def copyingBytes : List UInt8 :=
  [0x78, 0x20, 0x3C, 0x2D, 0x20, 0x54, 0x72, 0x75, 0x65, 0x0A, 0x4F, 0x55, 0x54, 0x50, 0x55, 0x54,
    0x20, 0x78, 0x0A, 0x61, 0x20, 0x3C, 0x2D, 0x20, 0x78]

/-- The program in these bytes. -/
def copyingProgram : List Stmt :=
  [.assign "x" false (.boolean true), .output (.reference "x"), .assign "a" false (.reference "x")]

/-- The bindings that the program leaves, the last one first. -/
def copiedEnv : Env :=
  ((∅ : Env).insert "x" (.variable (.bool true) false)).insert "a" (.variable (.bool true) false)

/-- The bytes of `OUTPUT True`. -/
def outputBytes : List UInt8 :=
  [0x4F, 0x55, 0x54, 0x50, 0x55, 0x54, 0x20, 0x54, 0x72, 0x75, 0x65]

end Script

end Pseudocode
