import Pseudocode.CommandLine.Options
import Pseudocode.ReadLoop
import Pseudocode.Script

/-!
The command line as a whole: from arguments, files and standard input to a report.
-/

namespace Pseudocode.CommandLine

/-! ### Fixed texts -/

def versionText : String := "AQA pseudocode 0.1.0"

def usageLines : List String :=
  ["usage: aqa [-h] [-i] [--parse] [--debug] [--max-depth MAX_DEPTH] [--version]",
    "           [script]"]

def helpLines : List String :=
  usageLines ++
  ["",
    "AQA pseudocode interpreter",
    "",
    "positional arguments:",
    "  script                pseudocode file to execute",
    "",
    "options:",
    "  -h, --help            show this help message and exit",
    "  -i, --interactive     Start interactive mode",
    "  --parse               Parse file and show the syntax tree",
    "  --debug               Enable debug output for all stages",
    "  --max-depth MAX_DEPTH",
    "                        Maximum subroutine call depth (default 50)",
    "  --version             show program's version number and exit",
    "",
    "Examples:",
    "  aqa program.aqa            # Run a pseudocode file",
    "  aqa -i                     # Interactive mode",
    "  aqa --parse program.aqa    # Parse and show the syntax tree",
    "  aqa --debug program.aqa    # Run with evaluation trace",
    "        "]

/-- What the language offers. -/
def languageLines : List String :=
  ["AQA Pseudocode",
    Script.rule,
    "A textbook pseudocode language with:",
    "• Variables and CONSTANT declarations (x <- 1)",
    "• IF / THEN / ELSE / ENDIF conditionals",
    "• WHILE / ENDWHILE and REPEAT / UNTIL loops",
    "• SUBROUTINE definitions with RETURN",
    "• OUTPUT",
    ""]

/-! ### The interactive session -/

/-- What is asked for each line. -/
def prompt : String := "aqa> "

/-- What is printed when a session ends without having been told to. -/
def farewell : String := "\nGoodbye!\n"

/-- The line that stands for an interrupt. -/
def interrupt : String := "\x03"

/-- What a session prints before it asks for the first line. -/
def greeting (editing tracing : Bool) : List String :=
  [versionText ++ " - Interactive Mode", "Type 'help' for commands, 'quit' to exit"]
    ++ (if editing then ["Readline enabled: Use ↑/↓ for history, Tab for completion"] else [])
    ++ (if tracing then ["Debug mode enabled"] else [])
    ++ [""]

/-- What a session prints from the first line on; none if a run does not end within its steps. -/
def dialogue (settings : Settings) : ReadLoop.Memory → List String → Option String
  | _, [] => some (prompt ++ farewell)
  | m, line :: rest =>
    if line = interrupt then some (prompt ++ farewell)
    else
      match ReadLoop.step settings m line with
      | none => none
      | some reply =>
        let printed := prompt ++ Report.linesText reply.lines
        if reply.running then (dialogue settings reply.memory rest).map (printed ++ ·)
        else some printed

/-! ### From arguments to a report -/

/-- What is to be done on a command line. -/
inductive Task where
  /-- All is done; none if a program did not end within its steps. -/
  | finished (report : Option Report)
  /-- A session follows what is printed first. -/
  | session (opening : String) (settings : Settings)

/-- The report about a failure that nothing is prepared for, after what was printed. -/
def brokenOff (printed : List String) : Report :=
  ⟨1, Report.linesText printed, Report.failureMark⟩

/-- A session, unless its depth limit is refused; `before` is printed first. -/
def startSession (before : List String) (limit : Option Int) (tracing editing : Bool) : Task :=
  let opening := before ++ greeting editing tracing
  match Settings.ofLimit limit tracing with
  | .error _ => .finished (some (brokenOff opening))
  | .ok settings => .session (Report.linesText (opening ++ ["++++INPUT++++"])) settings

/-- Do what the options say; `editing` says whether lines can be edited in a session. -/
def perform (disk : Disk) (editing : Bool) (o : Options) : Task :=
  match o.script with
  | none | some "" =>
    if o.interactive then startSession [] o.maxDepth o.debug editing
    else .finished (some (.ofLines 0 (helpLines ++ [""] ++ languageLines)))
  | some path =>
    match disk.hasPath path with
    | .error _ => .finished (some (brokenOff []))
    | .ok false =>
      .finished (some (.ofLines 1 ["Error: Script file '" ++ path ++ "' does not exist"]))
    | .ok true =>
      if o.parse then .finished (some (Script.outline disk path o.debug))
      else .finished (Script.run disk path o.maxDepth o.debug)

/-- What the arguments ask for. Without arguments a session follows a word about the language. -/
def task (disk : Disk) (editing : Bool) (arguments : List String) : Task :=
  match read arguments with
  | .showHelp => .finished (some (.ofLines 0 helpLines))
  | .showVersion => .finished (some (.ofLines 0 [versionText]))
  | .refuse message =>
    .finished (some ⟨2, "", Report.linesText (usageLines ++ ["aqa: error: " ++ message])⟩)
  | .proceed o =>
    if arguments.isEmpty then
      startSession languageLines (some Settings.defaultLimit) false editing
    else perform disk editing o

/-- Run a command on the lines of standard input; none if a program does not end within its
steps. -/
def run (disk : Disk) (editing : Bool) (input arguments : List String) : Option Report :=
  match task disk editing arguments with
  | .finished report => report
  | .session opening settings =>
    (dialogue settings .initial input).map fun said => ⟨0, opening ++ said, ""⟩

/-- The lines of standard input: the text after the last line feed is a line only if there is
some. -/
def inputLines (text : String) : List String :=
  let all := (Text.lines text.toList).map String.ofList
  if all.getLast? = some "" then all.dropLast else all

end Pseudocode.CommandLine
