namespace FieldMask

/-!
# How a JSON text can be wrong

* `TextFault` — a text breaks off, or it goes astray.
* `NumberFault` — the same of a text that should be one number, with the place where it shows.
-/

/-- How a JSON text can be wrong.  No place is kept here: what reads a text as data does not
tell it. -/
inductive TextFault where
  /-- The text ends too early. -/
  | truncated
  /-- The text holds what cannot stand there. -/
  | malformed
  deriving DecidableEq

/-- Why a text is no number, and the line and column where it shows. -/
structure NumberFault where
  fault : TextFault
  line : Nat
  column : Nat
  deriving DecidableEq

/-- The wording of a fault in a number. -/
def NumberFault.message (fault : NumberFault) : String :=
  match fault.fault with
  | .truncated => "EOF while parsing a value"
  | .malformed => "invalid number"

/-- The wording of a fault in a number, with its place. -/
def NumberFault.placedMessage (fault : NumberFault) : String :=
  fault.message ++ " at line " ++ toString fault.line ++ " column " ++ toString fault.column

end FieldMask
