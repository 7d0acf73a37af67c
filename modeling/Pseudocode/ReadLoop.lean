import Pseudocode.Node.Compact
import Pseudocode.Program.Read
import Pseudocode.Summary

/-!
The read loop: lines are collected in a buffer until a command runs or shows them.

A line that is a command up to white space is carried out; a blank line is ignored; every other line
is added to the buffer as it stands. `run` and `parse` use the buffer up, whether or not it can be
read. A run starts from the empty environment, and its bindings are kept for `env`.
-/

namespace Pseudocode.ReadLoop

/-- A command of the read loop. -/
inductive Command where
  | parse | run | env | clear | help | quit
deriving DecidableEq, Repr

namespace Command

/-- The commands in the order in which they are listed to a user. -/
def all : List Command := [.parse, .run, .env, .clear, .help, .quit]

def word : Command → String
  | .parse => "parse"
  | .run => "run"
  | .env => "env"
  | .clear => "clear"
  | .help => "help"
  | .quit => "quit"

def ofWord? (s : String) : Option Command :=
  all.find? fun c => c.word == s

end Command

/-- What a line asks for. -/
inductive Request where
  | command (c : Command)
  | blank
  | source
deriving DecidableEq, Repr

/-- What a line asks for. -/
def requestOf (line : String) : Request :=
  let trimmed := Text.trim line.toList
  match Command.ofWord? (String.ofList trimmed) with
  | some c => .command c
  | none => if trimmed.isEmpty then .blank else .source

/-- What the loop remembers: the lines since the buffer was last used up, and the bindings of the
last run. -/
structure Memory where
  buffer : List String
  env : Env

namespace Memory

/-- Nothing entered, nothing run. -/
def initial : Memory := ⟨[], ∅⟩

/-- The buffer as one source text. -/
def source (m : Memory) : List Char := Text.unlines (m.buffer.map String.toList)

/-- The memory with the buffer used up. -/
def cleared (m : Memory) : Memory := { m with buffer := [] }

end Memory

/-- What a line leads to. -/
structure Reply where
  memory : Memory
  running : Bool
  lines : List String

/-- The explanation of the commands. -/
def helpLines : List String :=
  ["Type pseudocode lines, then a command on its own line:",
    "  parse   - Show the syntax tree of the buffered program",
    "  run     - Run the buffered program from an empty environment",
    "  env     - Show the bindings left by the last run",
    "  clear   - Discard the buffered lines",
    "  help    - Show this help",
    "  quit    - Exit"]

/-- Show the buffered program. -/
def showProgram (settings : Settings) (m : Memory) : Reply :=
  let shown := match readProgram ParseError.inputName m.source with
    | .error e => [e.text]
    | .ok statements =>
      readingTrace settings.tracing statements
        ++ [((Stmt.program? statements).map Node.compact).getD "(empty program)"]
  ⟨m.cleared, true, ["+++PROGRAM+++"] ++ shown ++ ["+++++++++++++"]⟩

/-- The line about the value of a run. -/
def valueLine (v : Value) : String :=
  if v.isError then v.display else "=> " ++ v.display

/-- Run the buffered program; none if the run does not end within its steps. -/
def runProgram (settings : Settings) (m : Memory) : Option Reply :=
  match readProgram ParseError.inputName m.source with
  | .error e => some ⟨m.cleared, true, ["+++OUTPUT+++", e.text]⟩
  | .ok statements =>
    (Interpreter.run settings (Stmt.program? statements)).run?.map fun r =>
      ⟨⟨[], r.env⟩, true,
        ["+++OUTPUT+++"] ++ readingTrace settings.tracing statements ++ r.lines
          ++ [valueLine r.value, "++++++++++++"]⟩

/-- Carry out a command; none if a run does not end within its steps. -/
def obey (settings : Settings) (m : Memory) : Command → Option Reply
  | .quit => some ⟨m, false, []⟩
  | .help => some ⟨m, true, helpLines⟩
  | .clear => some ⟨m.cleared, true, []⟩
  | .env => some ⟨m, true, "Bindings from last run:" :: m.env.listing⟩
  | .parse => some (showProgram settings m)
  | .run => runProgram settings m

/-- Handle one line; none if a run does not end within its steps. -/
def step (settings : Settings) (m : Memory) (line : String) : Option Reply :=
  match requestOf line with
  | .command c => obey settings m c
  | .blank => some ⟨m, true, []⟩
  | .source => some ⟨{ m with buffer := m.buffer ++ [line] }, true, []⟩

/-- The words that can complete a started word: keywords, truth values and commands. -/
def completions (start : String) : List String :=
  (Keyword.all.map Keyword.word ++ [Literal.trueText, Literal.falseText]
    ++ Command.all.map Command.word).filter fun word => start.toList.isPrefixOf word.toList

end Pseudocode.ReadLoop
