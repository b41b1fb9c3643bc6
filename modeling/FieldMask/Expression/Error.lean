namespace FieldMask.Expression

/-!
# Why an expression is rejected

* `Fault` — the reasons, each with the names and characters it speaks of.
* `ParseError` — a reason and the byte offset of the character it concerns.
* `Fault.message`, `ParseError.message` — the wording.
-/

/-- The reason an expression is rejected.  It says what is wrong; the place is kept beside
it. -/
inductive Fault where
  /-- A name was expected and none is there. -/
  | emptyField
  /-- A level names the same field twice. -/
  | duplicateField (name : String)
  /-- A colon without the parenthesis it announces. -/
  | expectedOpenParen (name : String)
  /-- A subtree that names no field. -/
  | emptySubtree (name : String)
  /-- The text ends inside a subtree. -/
  | unclosedSubtree
  /-- A closing parenthesis where no subtree is open. -/
  | unmatchedClose
  /-- A comma with nothing behind it. -/
  | trailingSeparator
  /-- A character that cannot follow a name. -/
  | unexpectedChar (found : Char) (field : String)
  /-- A character that cannot follow a subtree. -/
  | expectedSeparator (found : Char)
  /-- More subtrees inside each other than allowed. -/
  | depthExceeded (limit : Nat)
  deriving DecidableEq

/-- The wording of a reason.  Names and characters are written into it as they stand in the
text. -/
def Fault.message : Fault → String
  | emptyField => "empty field name"
  | duplicateField name => "duplicate field '" ++ name ++ "'"
  | expectedOpenParen name => "expected '(' after ':' for field '" ++ name ++ "'"
  | emptySubtree name => "empty subtree for field '" ++ name ++ "'"
  | unclosedSubtree => "unexpected end of input: missing closing ')'"
  | unmatchedClose => "unmatched ')'"
  | trailingSeparator => "trailing ','"
  | unexpectedChar found field =>
    "unexpected '" ++ String.singleton found ++ "' after field '" ++ field ++ "'"
  | expectedSeparator found => "expected ',' or ')' but found '" ++ String.singleton found ++ "'"
  | depthExceeded limit => "nesting exceeds the maximum depth of " ++ toString limit

/-- A rejected expression: the reason, and where it shows as a byte offset into the text. -/
structure ParseError where
  fault : Fault
  offset : Nat
  deriving DecidableEq

/-- The wording of a rejection. -/
def ParseError.message (error : ParseError) : String :=
  error.fault.message ++ " at offset " ++ toString error.offset

end FieldMask.Expression
