import Pseudocode.Disk
import Pseudocode.Node.Outline
import Pseudocode.Node.Search
import Pseudocode.Program.Read
import Pseudocode.Summary
import Pseudocode.Text.Utf8

/-!
Running and showing the program in a file.

Both end with a report: what was printed, and an exit status that is zero exactly when all went
well. Emissions and trace are printed as they happen, so they come before the error or the summary.
-/

namespace Pseudocode

/-- What a command leaves: its exit status and what it printed. -/
structure Report where
  status : Nat
  output : String
  errors : String
deriving DecidableEq, Repr

namespace Report

/-- Lines of output, each of them ended. -/
def linesText (lines : List String) : String := String.join (lines.map (· ++ "\n"))

/-- A report of printed lines. -/
def ofLines (status : Nat) (lines : List String) : Report := ⟨status, linesText lines, ""⟩

/-- What stands for the account of an unexpected failure on the error channel. -/
def failureMark : String := "<traceback>"

end Report

namespace Script

/-- Why a file gives no program. -/
inductive LoadError where
  /-- It is there, but it is no program; or it is not there. -/
  | unreadable (e : ParseError)
  | denied
  /-- Anything else. -/
  | unexpected (message : String)

/-- The text of the file at a path. -/
def load (disk : Disk) (path : String) : Except LoadError (List Char) :=
  match disk.read path with
  | .error .notFound => .error (.unreadable (.ofFile path "File not found"))
  | .error .denied => .error .denied
  | .error e => .error (.unexpected (e.message path))
  | .ok bytes =>
    match Text.decodeUtf8 bytes with
    | .error e => .error (.unreadable (.ofFile path ("Cannot decode file: " ++ e.message)))
    | .ok text => .ok (Text.unifyLineEnds text)

/-- The line that the trace has for a file that was loaded. -/
def loadingTrace (tracing : Bool) (path : String) (text : List Char) : List String :=
  if tracing then
    ["Parsing " ++ path ++ " (" ++ Decimal.natText text.length ++ " characters)"]
  else []

/-- The program in a file, or why there is none, with the lines of the trace. -/
def read (disk : Disk) (path : String) (tracing : Bool) :
    List String × Except LoadError (List Stmt) :=
  match load disk path with
  | .error e => ([], .error e)
  | .ok text =>
    let loading := loadingTrace tracing path text
    match readProgram path text with
    | .error e => (loading, .error (.unreadable e))
    | .ok statements => (loading ++ readingTrace tracing statements, .ok statements)

/-- The report about a file that gives no program; `activity` says what was being done with it. -/
def failure (path activity : String) (tracing : Bool) (before : List String) :
    LoadError → Report
  | .unreadable e => .ofLines 1 (before ++ [e.text])
  | .denied => .ofLines 1 (before ++
      ["Error: Permission denied reading '" ++ path ++ "'",
        "  Hint: Make sure you have read permissions for this file"])
  | .unexpected message =>
    { Report.ofLines 1
        (before ++ ["Unexpected error while " ++ activity ++ " '" ++ path ++ "': " ++ message]) with
      errors := if tracing then Report.failureMark else "" }

/-- The rule between the parts of an output. -/
def rule : String := String.ofList (List.replicate 50 '=')

/-- The lines that list the subroutines of a program. -/
def subroutineLines (root : Node) : List String :=
  match root.ofKind .subroutine with
  | [] => []
  | subroutines =>
    [rule, "Subroutines (" ++ Decimal.natText subroutines.length ++ "):"]
      ++ subroutines.map fun n =>
        "  " ++ ((n.property? "name").getD .null).display ++ "("
          ++ ", ".intercalate ((Node.parameterNames? (n.child? .params)).getD []) ++ ")"

/-- Show the outline of the program in a file, and its subroutines. -/
def outline (disk : Disk) (path : String) (tracing : Bool) : Report :=
  let opening := "Parsing " ++ path ++ "..."
  let (trace, program) := read disk path tracing
  match program with
  | .error e => failure path "processing" tracing (opening :: trace) e
  | .ok statements =>
    let before := Report.linesText (opening :: trace ++ [rule])
    match Stmt.program? statements with
    | none => ⟨0, before ++ Report.linesText ["(empty program)"], ""⟩
    | some root => ⟨0, before ++ root.outline ++ Report.linesText (subroutineLines root), ""⟩

/-- The report about a finished run. -/
def finished (before : List String) (r : Run) : Report :=
  .ofLines (if r.succeeded then 0 else 1) (before ++ r.lines ++ r.summary)

/-- Run the program in a file from the empty environment; none if the run does not end within its
steps. -/
def runWith (disk : Disk) (path : String) (settings : Settings) : Option Report :=
  let (trace, program) := read disk path settings.tracing
  match program with
  | .error e => some (failure path "executing" settings.tracing trace e)
  | .ok statements =>
    let before := trace ++ if settings.tracing then ["Evaluating program..."] else []
    (Interpreter.run settings (Stmt.program? statements)).run?.map (finished before)

/-- Run the program in a file under a depth limit. If the limit is refused the file is not read. -/
def run (disk : Disk) (path : String) (limit : Option Int) (tracing : Bool) : Option Report :=
  match Settings.ofLimit limit tracing with
  | .error e => some (failure path "executing" tracing [] (.unexpected e.message))
  | .ok settings => runWith disk path settings

end Script

end Pseudocode
