import FieldMask.CommandLine.Run

/-!
# The program

Reads files, standard input and the environment, and shows the report of the run.
-/

namespace FieldMask

/-- The system's own words for a failure.  Its number stands behind it, as it does in the
system's messages. -/
def systemReason : IO.Error → String
  | .noFileOrDirectory _ code details
  | .permissionDenied _ code details
  | .inappropriateType _ code details
  | .invalidArgument _ code details
  | .resourceExhausted _ code details
  | .noSuchThing _ code details
  | .interrupted _ code details
  | .hardwareFault code details
  | .resourceBusy code details
  | .otherError code details => details ++ " (os error " ++ toString code ++ ")"
  | error => toString error

/-- What a stream holds behind some bytes that are known; `read` takes a piece of it, an empty one
at its end. -/
partial def readPieces (read : IO ByteArray) (known : ByteArray) : IO CommandLine.Input := do
  match ← read.toBaseIO with
  | .error error => return .content known.toList (.failing (systemReason error))
  | .ok piece =>
    if piece.isEmpty then return .content known.toList .closed
    readPieces read (known ++ piece)

/-- How many bytes are read at a time. -/
def pieceSize : USize := 65536

/-- The content of a file, or of standard input.  It is read in pieces up to its end or to
the first failure. -/
def readInput : Option String → IO CommandLine.Input
  | none => do
    let input ← IO.getStdin
    readPieces (input.read pieceSize) .empty
  | some file => do
    match ← (IO.FS.Handle.mk file .read).toBaseIO with
    | .error error => return .unopened (systemReason error)
    | .ok handle => readPieces (handle.read pieceSize) .empty

end FieldMask

open FieldMask

/-- The program: the mask of the environment is in `SIEVE_MASK`.  What was written goes out
even if the command failed, then the complaint, and the code last. -/
def main (arguments : List String) : IO UInt32 := do
  let report ← CommandLine.runProgram readInput (← IO.getEnv "SIEVE_MASK") arguments
  let output ← IO.getStdout
  output.write ⟨report.written⟩
  output.flush
  IO.eprint report.complaint
  return report.code.toUInt32
