import FieldMask.CommandLine.Run

namespace FieldMask.CommandLine

/-!
# A tree of files

A command can be run on files that are known beforehand, without a system to ask.  A path is
followed name by name, and each name is looked up in the directory that the names before it lead
to.  So the first name that leads nowhere decides why the path leads nowhere.

* `FileTree` — a file, or a directory with what it holds.
* `PathFault` — why a path leads nowhere; `PathFault.message` — its wording.
* `FileTree.step` — one name of a path; `FileTree.follow?` — a whole path.
* `Input.ofTree` — what is found where a path leads.
-/

/-- A file with its content, or a directory with what it holds under which names. -/
inductive FileTree where
  | file (bytes : List UInt8)
  | directory (entries : List (String × FileTree))

/-- Why a path leads nowhere.  Each of them is reported in the words that the system has for
it. -/
inductive PathFault where
  /-- The path holds a NUL, which ends a path for the system. -/
  | unexpectedNul
  /-- The path, or a name in it, has more bytes than the system takes. -/
  | tooLong
  /-- A directory holds nothing of a name. -/
  | missing
  /-- A file is to be gone through as a directory. -/
  | notADirectory
  deriving DecidableEq

/-- The wording of a fault. -/
def PathFault.message : PathFault → String
  | unexpectedNul => "file name contained an unexpected NUL byte"
  | tooLong => "File name too long (os error 36)"
  | missing => "No such file or directory (os error 2)"
  | notADirectory => "Not a directory (os error 20)"

/-- The wording for the attempt to read a directory as if it were a file. -/
def directoryReason : String := "Is a directory (os error 21)"

/-- How many bytes one name of a path can have. -/
def maxNameBytes : Nat := 255

/-- How many bytes a path can have; one more ends it. -/
def maxPathBytes : Nat := 4095

namespace FileTree

/-- Takes one name of a path.  The state is what has been reached, and the directories around it,
the innermost first; nothing is around the root, which is its own parent. -/
def step : FileTree × List FileTree → String → Except PathFault (FileTree × List FileTree)
  | (.file _, _), _ => .error .notADirectory
  | (.directory entries, around), name =>
    if name = "" ∨ name = "." then .ok (.directory entries, around)
    else if name = ".." then
      match around with
      | [] => .ok (.directory entries, [])
      | parent :: outer => .ok (parent, outer)
    -- A name too long for any entry is refused before it is looked up.
    else if maxNameBytes < name.utf8ByteSize then .error .tooLong
    else
      match entries.lookup name with
      | none => .error .missing
      | some found => .ok (found, .directory entries :: around)

/-- Follows a path: from the root if it begins with a slash, else from the working directory, which
is itself given by a path from the root. -/
def follow? (root : FileTree) (workingDirectory path : String) : Except PathFault FileTree :=
  if path.contains '\x00' then .error .unexpectedNul
  else if maxPathBytes < path.utf8ByteSize then .error .tooLong
  else if path = "" then .error .missing
  else
    let absolute := if path.startsWith "/" then path else workingDirectory ++ "/" ++ path
    ((absolute.splitOn "/").foldlM step (root, [])).map Prod.fst

end FileTree

/-- What is found where a path leads.  A directory can be opened, and then not be read. -/
def Input.ofTree (root : FileTree) (workingDirectory path : String) : Input :=
  match root.follow? workingDirectory path with
  | .error fault => .unopened fault.message
  | .ok (.file bytes) => .content bytes .closed
  | .ok (.directory _) => .content [] (.failing directoryReason)

end FieldMask.CommandLine
