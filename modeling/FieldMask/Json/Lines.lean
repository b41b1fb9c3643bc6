import FieldMask.Json.Projection
import FieldMask.Text.Blank

namespace FieldMask

/-!
# Projecting JSON Lines

In JSON Lines every line is a document of its own.  Blank lines are passed over and still counted;
the first line that fails ends the run, and what was written for the lines before it stays.

* `splitLines` — the pieces between newlines; `linesOf` — the lines of an input.
* `LineFault` — why a run ends early; `LineFault.message` — its wording.
* `projectLine` — one line; `projectLines` — an input with many of them.
-/

/-- The byte that ends a line. -/
def newline : UInt8 := 0x0A

/-- Puts a byte in front of the first piece. -/
def consFirst (b : UInt8) : List (List UInt8) → List (List UInt8)
  | [] => [[b]]
  | piece :: pieces => (b :: piece) :: pieces

/-- The pieces between the newlines, one more than there are newlines. -/
def splitLines (bytes : List UInt8) : List (List UInt8) :=
  bytes.foldr (fun b pieces => if b = newline then [] :: pieces else consFirst b pieces) [[]]

/-- A newline ends a piece that is empty as yet; any other byte joins the first piece. -/
theorem splitLines_cons (b : UInt8) (bytes : List UInt8) :
    splitLines (b :: bytes) =
      if b = newline then [] :: splitLines bytes else consFirst b (splitLines bytes) := rfl

/-- There is always a piece, the one behind the last newline if no other. -/
theorem splitLines_ne_nil (bytes : List UInt8) : splitLines bytes ≠ [] := by
  cases bytes with
  | nil => simp [splitLines]
  | cons b bytes =>
    rw [splitLines_cons]
    split
    · simp
    · cases splitLines bytes <;> simp [consFirst]

/-- A line without the carriage return before its newline. -/
def dropReturn (line : List UInt8) : List UInt8 :=
  if line.getLast? = some 0x0D then line.dropLast else line

/-- The lines of an input: every newline ends one, and what stands behind the last newline is one
more if there is anything.  An input that fails delivers only lines that have ended. -/
def linesOf (bytes : List UInt8) (ending : Ending) : List (List UInt8) :=
  let pieces := splitLines bytes
  let ended := pieces.dropLast.map dropReturn
  match ending, pieces.getLast? with
  | .closed, some (b :: line) => ended ++ [b :: line]
  | _, _ => ended

/-- Why a run over lines ends early. -/
inductive LineFault where
  /-- The input cannot be read further. -/
  | unreadable (reason : String)
  /-- The document on a line, counted from one, cannot be projected. -/
  | line (number : Nat) (error : StreamError)

/-- The wording of a failure. -/
def LineFault.message : LineFault → String
  | unreadable reason => "failed to read input: " ++ reason
  | line number error => "line " ++ toString number ++ ": " ++ error.report

/-- What is written for one line: nothing if it is blank, else its projection and a newline.
A line that is not UTF-8 cannot be read at all, and has no number in its message. -/
def projectLine (mask : Option Mask) (number : Nat) (line : List UInt8) : Except LineFault String :=
  match String.fromUTF8? ⟨line.toArray⟩ with
  | none => .error (.unreadable "stream did not contain valid UTF-8")
  | some text =>
    if text.toList.all isBlank then .ok ""
    else
      match projectText mask text with
      | .error e => .error (.line number e)
      | .ok projected => .ok (projected ++ "\n")

/-- Projects lines up to the first that fails, the first of them counted as `number`.  What
was written for the lines before the failure stays. -/
def projectEach (mask : Option Mask) (number : Nat) (written : Array UInt8) :
    List (List UInt8) → Except LineFault Unit × Array UInt8
  | [] => (.ok (), written)
  | line :: rest =>
    match projectLine mask number line with
    | .error fault => (.error fault, written)
    | .ok text => projectEach mask (number + 1) (written ++ text.toUTF8.data) rest

/-- Projects an input line by line; the result says what was written and whether the input was read
to its end. -/
def projectLines (mask : Option Mask) (bytes : List UInt8) (ending : Ending) :
    Except LineFault Unit × Array UInt8 :=
  match projectEach mask 1 #[] (linesOf bytes ending), ending with
  | (.ok (), written), .failing reason => (.error (.unreadable reason), written)
  | result, _ => result

end FieldMask
