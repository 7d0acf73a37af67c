import Pseudocode.CommandLine.Run

/-!
The program: arguments, files and standard input are handed to `Pseudocode.CommandLine`, and what it
answers is printed.
-/

namespace Pseudocode

/-- The code under which the system reports that a folder was read as a file. -/
def folderCode : UInt32 := 21

/-- Read the file at a path. -/
def readFile (path : String) : IO (Except FileError (List UInt8)) := do
  try
    return .ok (← IO.FS.readBinFile path).toList
  catch
    | .permissionDenied .. => return .error .denied
    | .inappropriateType _ code _ =>
      return .error (if code = folderCode then .isFolder else .notFolder)
    | .invalidArgument .. => return .error .nameTooLong
    | _ => return .error .notFound

/-- The disk as it answers about one path. -/
def diskOf (path : String) : IO Disk := do
  let there ← readFile (Folder.plainPath path)
  let found ← readFile path
  return {
    hasPath := fun _ => match there with
      | .error .nameTooLong => .error .nameTooLong
      | .error e => .ok (!e.meansAbsent)
      | .ok _ => .ok true
    read := fun _ => found }

/-- The script that the arguments name. -/
def scriptOf (arguments : List String) : Option String :=
  match CommandLine.read arguments with
  | .proceed o => o.script
  | _ => none

/-- Ask for lines and answer them until the session ends. -/
partial def converse (settings : Settings) (m : ReadLoop.Memory) : IO Unit := do
  IO.print CommandLine.prompt
  (← IO.getStdout).flush
  let line ← (← IO.getStdin).getLine
  if line.isEmpty then IO.print CommandLine.farewell
  else
    let text := if line.endsWith "\n" then (line.dropEnd 1).toString else line
    match ReadLoop.step settings m text with
    | none => pure ()
    | some reply =>
      IO.print (Report.linesText reply.lines)
      if reply.running then converse settings reply.memory

end Pseudocode

open Pseudocode in
/-- Run the command line. -/
def main (arguments : List String) : IO UInt32 := do
  let disk ← diskOf ((scriptOf arguments).getD "")
  match CommandLine.task disk false arguments with
  | .finished none => return 1
  | .finished (some report) =>
    IO.print report.output
    IO.eprint report.errors
    return report.status.toUInt32
  | .session opening settings =>
    IO.print opening
    converse settings .initial
    return 0
