import Pseudocode.Text.Quoted

/-!
Files, as far as a host looks at them.

A `Disk` answers two questions about a path. `Folder` is a disk that is given as a list of paths in
one folder; a path may have steps that stay where they are and steps up, and one that ends with a
slash or a step that stays asks for a folder.

Design. Names are followed one after the other from where the path starts, so of several faults the
leftmost decides; only a null character and the length of the whole path are looked at before.
-/

namespace Pseudocode

/-- Why a file cannot be read. -/
inductive FileError where
  | notFound | denied | isFolder | notFolder
  /-- The path, or a name in it, is longer than any can be. -/
  | nameTooLong
  /-- The path has a null character in it. -/
  | nullInPath
deriving DecidableEq, Repr

/-- A failure at a path, as the system words it. -/
def FileError.message (path : String) : FileError → String
  | .notFound => "[Errno 2] No such file or directory: " ++ Text.quoted path
  | .denied => "[Errno 13] Permission denied: " ++ Text.quoted path
  | .isFolder => "[Errno 21] Is a directory: " ++ Text.quoted path
  | .notFolder => "[Errno 20] Not a directory: " ++ Text.quoted path
  | .nameTooLong => "[Errno 36] File name too long: " ++ Text.quoted path
  | .nullInPath => "embedded null byte"

/-- Does the failure mean that nothing is at the path? -/
def FileError.meansAbsent : FileError → Bool
  | .notFound | .notFolder | .nullInPath => true
  | .denied | .isFolder | .nameTooLong => false

/-- What can be asked about paths. -/
structure Disk where
  /-- Is there something at the path? An error if that cannot be told. -/
  hasPath : String → Except FileError Bool
  /-- The bytes of the file at the path. -/
  read : String → Except FileError (List UInt8)

/-- What a name in a folder stands for. -/
inductive Entry where
  | file (bytes : List UInt8)
  /-- A file that may not be read. -/
  | denied
  | folder
deriving DecidableEq, Repr

/-- The paths in a folder and what they stand for. -/
abbrev Folder := List (String × Entry)

namespace Folder

/-- The names of a path, from the outside in; empty names and steps that stay are not counted. -/
def pathNames (path : String) : List String :=
  (path.splitOn "/").filter fun part => part != "" && part != "."

/-- The slashes that a path starts with; two of them are kept apart from one, more are one. -/
def rootOf (path : String) : String :=
  match (path.toList.takeWhile (· == '/')).length with
  | 0 => ""
  | 2 => "//"
  | _ => "/"

/-- The path without the parts that are not counted. -/
def plainPath (path : String) : String := rootOf path ++ "/".intercalate (pathNames path)

/-- The greatest number of bytes in a name. -/
def longestName : Nat := 255

/-- The greatest number of bytes in a path. -/
def longestPath : Nat := 4095

/-- Does the path itself ask for a folder? -/
def asksFolder (path : String) : Bool :=
  match (path.splitOn "/").getLast? with
  | some part => part == "" || part == "."
  | none => false

/-- What stands at a place in the folder. The folders on the way to an entry are there too. -/
def entryAt? (folder : Folder) (names : List String) : Option Entry :=
  match folder.find? fun (path, _) => pathNames path = names with
  | some (_, entry) => some entry
  | none =>
    if names.isEmpty || folder.any fun (path, _) => names.isPrefixOf (pathNames path) then
      some .folder
    else none

/-- Follow names from a place outside the folder. Nothing is known there but that the places a step
up leads to are folders. -/
def walkOutside : List String → Except FileError Entry
  | [] => .ok .folder
  | ".." :: rest => walkOutside rest
  | name :: _ => .error (if longestName < name.utf8ByteSize then .nameTooLong else .notFound)

/-- Follow names from a place in the folder; a step up leads out of a place. -/
def walk (folder : Folder) (here : List String) : List String → Except FileError Entry
  | [] => match folder.entryAt? here with
    | some entry => .ok entry
    | none => .error .notFound
  | ".." :: rest =>
    if here.isEmpty then walkOutside rest else folder.walk here.dropLast rest
  | name :: rest =>
    if longestName < name.utf8ByteSize then .error .nameTooLong
    else match folder.entryAt? (here ++ [name]) with
      | none => .error .notFound
      | some .folder => folder.walk (here ++ [name]) rest
      | some entry => if rest.isEmpty then .ok entry else .error .notFolder

/-- What a path leads to. A path that starts with a slash starts outside the folder. -/
def find (folder : Folder) (path : String) : Except FileError Entry :=
  if path.toList.contains '\x00' then .error .nullInPath
  else if longestPath < path.utf8ByteSize then .error .nameTooLong
  else if rootOf path = "" then folder.walk [] (pathNames path)
  else walkOutside (pathNames path)

/-- The bytes of the file at a path. -/
def read (folder : Folder) (path : String) : Except FileError (List UInt8) :=
  if path = "" then .error .notFound
  else match folder.find path with
    | .error e => .error e
    | .ok .folder => .error .isFolder
    | .ok .denied => if asksFolder path then .error .notFolder else .error .denied
    | .ok (.file bytes) => if asksFolder path then .error .notFolder else .ok bytes

/-- The folder as a disk. -/
def disk (folder : Folder) : Disk where
  hasPath path := match folder.find (plainPath path) with
    | .ok _ => .ok true
    | .error e => if e.meansAbsent then .ok false else .error e
  read := folder.read

end Folder

end Pseudocode
