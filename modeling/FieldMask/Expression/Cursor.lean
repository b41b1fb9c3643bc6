import FieldMask.Text.Blank

namespace FieldMask.Expression

/-!
# A place in a text

* `Cursor` — the characters still to be read and the byte offset of the first of them.
* `Cursor.span`, `Cursor.skipBlanks`, `Cursor.next` — moving on; none of them ever moves back
  (`span_rest_length_le`, `skipBlanks_rest_length_le`, `next_rest`).
-/

/-- A place in a text. -/
structure Cursor where
  offset : Nat
  rest : List Char
  deriving DecidableEq

/-- The number of bytes that some characters take in UTF-8. -/
def byteLength : List Char → Nat
  | [] => 0
  | c :: cs => c.utf8Size + byteLength cs

namespace Cursor

/-- The start of a text. -/
def start (text : String) : Cursor := ⟨0, text.toList⟩

/-- The character at the cursor; none at the end of the text. -/
def peek? (cursor : Cursor) : Option Char := cursor.rest.head?

/-- The place one byte on.  It is the place behind the character at the cursor if there is one that
takes a single byte. -/
def next (cursor : Cursor) : Cursor := ⟨cursor.offset + 1, cursor.rest.drop 1⟩

/-- The longest run of characters of a class at the cursor, and the place behind it. -/
def span (cursor : Cursor) (p : Char → Bool) : List Char × Cursor :=
  let run := cursor.rest.takeWhile p
  (run, ⟨cursor.offset + byteLength run, cursor.rest.dropWhile p⟩)

/-- The place of the next character that is not blank. -/
def skipBlanks (cursor : Cursor) : Cursor := (cursor.span isBlank).2

@[simp] theorem next_rest (cursor : Cursor) : cursor.next.rest = cursor.rest.drop 1 := rfl

/-- A run and what is left behind it make up what was there. -/
theorem span_append (cursor : Cursor) (p : Char → Bool) :
    (cursor.span p).1 ++ (cursor.span p).2.rest = cursor.rest :=
  List.takeWhile_append_dropWhile

/-- So their lengths add up, which is all that the parser's measure asks of a run. -/
theorem span_rest_length (cursor : Cursor) (p : Char → Bool) :
    (cursor.span p).1.length + (cursor.span p).2.rest.length = cursor.rest.length := by
  rw [← List.length_append, span_append]

/-- Behind the blanks there is no more left to read than before them. -/
theorem skipBlanks_rest_length_le (cursor : Cursor) :
    cursor.skipBlanks.rest.length ≤ cursor.rest.length := by
  have := cursor.span_rest_length isBlank
  unfold skipBlanks
  omega

/-- One place on there is no more left to read, even at the end of the text. -/
theorem next_rest_length_le (cursor : Cursor) : cursor.next.rest.length ≤ cursor.rest.length := by
  simp

/-- Where a character stands at the cursor, there is less left to read behind it. -/
theorem next_rest_length_lt {cursor : Cursor} {c : Char} (h : cursor.peek? = some c) :
    cursor.next.rest.length < cursor.rest.length := by
  obtain ⟨_, rest⟩ := cursor
  cases rest with
  | nil => simp [peek?] at h
  | cons => simp

end Cursor

end FieldMask.Expression
