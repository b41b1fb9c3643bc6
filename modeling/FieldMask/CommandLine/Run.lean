import FieldMask.CommandLine.Arguments
import FieldMask.Expression.Parser
import FieldMask.Flat
import FieldMask.Json.Lines
import FieldMask.Mask.Document
import FieldMask.Mask.Overlay
import FieldMask.Mask.Text
import FieldMask.Text.Debug

namespace FieldMask.CommandLine

/-!
# Running a command

All masks are read before any input is, so a wrong mask never waits for a document.  What has been
written when a failure comes stays written.

* `Task` — what a command comes to once its masks are read; `Invocation.task`.
* `Input` — what is found where a document is to be read.
* `Failure` — why a command fails; `Failure.message` — its wording.
* `Outcome` — what a command writes, and how it ends; `Invocation.run`.
* `Report` — what a process shows of a run; `runProgram` — the whole program, with a way to read
  input as its parameter.
-/

/-- Why a command fails. -/
inductive Failure where
  | invalidMask (expression : String) (error : Expression.ParseError)
  | unopened (file reason : String)
  | projection (error : StreamError)
  | lines (fault : LineFault)

/-- The wording of a failure.  An expression that is no mask is quoted in front of what is
wrong with it. -/
def Failure.message : Failure → String
  | invalidMask expression error =>
    "invalid mask " ++ debugQuoted expression ++ ": " ++ error.message
  | unopened file reason => "failed to open " ++ file ++ ": " ++ reason
  | projection error => "projection failed: " ++ error.report
  | lines fault => fault.message

/-- What a command comes to once its masks are read. -/
inductive Task where
  /-- Printing a line. -/
  | print (line : String)
  /-- Projecting what a file or standard input holds. -/
  | project (mask : Option Mask) (byLine : Bool) (file : Option String)

/-- The mask that an expression denotes. -/
def readMask (maxDepth : Option Nat) (expression : String) : Except Failure Mask :=
  (Expression.parse maxDepth expression).mapError (.invalidMask expression)

/-- The one mask that layered expressions come to; no expression is no mask.  The first
expression that is wrong decides the failure. -/
def readLayers (maxDepth : Option Nat) (expressions : List String) :
    Except Failure (Option Mask) := do
  let masks ← expressions.mapM (readMask maxDepth)
  return if masks.isEmpty then none else some (Mask.overlayAll masks)

/-- Reads the masks of a command.  Masks are read before any input is, in the order in which
they are given, and the first one that fails ends the command. -/
def Invocation.task (invocation : Invocation) : Except Failure Task := do
  match invocation.command with
  | .check expression asObject =>
    let mask ← readMask invocation.maxDepth expression
    return .print (if asObject then mask.toDoc.text else mask.text)
  | .merge expressions =>
    let masks ← expressions.mapM (readMask invocation.maxDepth)
    return .print (Mask.overlayAll masks).text
  | .flatten expression =>
    let mask ← readMask invocation.maxDepth expression
    return .print (FlatProjection.ofMask (some mask)).toDoc.text
  | .project masks byLine file =>
    return .project (← readLayers invocation.maxDepth masks) byLine file

/-- What is found where a document is to be read. -/
inductive Input where
  /-- There is nothing that can be read. -/
  | unopened (reason : String)
  /-- Some bytes, and how they end. -/
  | content (bytes : List UInt8) (ending : Ending)

/-- What a command has written, and how it ends. -/
structure Outcome where
  written : Array UInt8
  result : Except Failure Unit

/-- A line of text as bytes. -/
def lineBytes (line : String) : Array UInt8 := (line ++ "\n").toUTF8.data

/-- Projects an input, as one document or line by line.  A document that has come out whole
is ended with a newline. -/
def projectInput (mask : Option Mask) (byLine : Bool) (bytes : List UInt8) (ending : Ending) :
    Outcome :=
  if byLine then
    let (result, written) := projectLines mask bytes ending
    ⟨written, result.mapError .lines⟩
  else
    match projectBytes mask bytes ending (.empty .unlimited) with
    | (.error e, device) => ⟨device.received, .error (.projection e)⟩
    | (.ok (), device) => ⟨device.received ++ lineBytes "", .ok ()⟩

/-- Runs a command; `read` delivers the content of a file, or of standard input.  Nothing is
asked of `read` unless all masks are right and an input is to be projected. -/
def Invocation.run {m : Type → Type} [Monad m] (read : Option String → m Input)
    (invocation : Invocation) : m Outcome := do
  match invocation.task with
  | .error failure => return ⟨#[], .error failure⟩
  | .ok (.print line) => return ⟨lineBytes line, .ok ()⟩
  | .ok (.project mask byLine file) =>
    match ← read file with
    | .unopened reason => return ⟨#[], .error (.unopened (file.getD "") reason)⟩
    | .content bytes ending => return projectInput mask byLine bytes ending

/-- What a process shows of a run. -/
structure Report where
  code : UInt8
  written : Array UInt8
  complaint : String

/-- The report of arguments that ask for no command. -/
def UsageError.report (error : UsageError) : Report :=
  match error with
  | .help | .version => ⟨0, error.message.toUTF8.data, ""⟩
  | _ => ⟨2, #[], error.message⟩

/-- The report of a run.  What was written before a failure is shown beside the
complaint. -/
def Outcome.report (outcome : Outcome) : Report :=
  match outcome.result with
  | .ok () => ⟨0, outcome.written, ""⟩
  | .error failure => ⟨1, outcome.written, "sieve: " ++ failure.message ++ "\n"⟩

/-- Runs the program on its arguments and the mask of the environment. -/
def runProgram {m : Type → Type} [Monad m] (read : Option String → m Input)
    (maskVariable : Option String) (arguments : List String) : m Report := do
  match Invocation.ofArguments maskVariable arguments with
  | .error error => return error.report
  | .ok invocation => return (← invocation.run read).report

end FieldMask.CommandLine
