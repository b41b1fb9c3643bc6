namespace FieldMask

/-!
# Pieces with commas between them

* `commaSeparated` — some pieces of text with commas between them.
* `commaSeparated_cons` — the first piece, and each further one behind a comma.
-/

/-- Some pieces of text with commas between them. -/
def commaSeparated (pieces : List (List Char)) : List Char := [','].intercalate pieces

@[simp] theorem commaSeparated_nil : commaSeparated [] = [] := rfl

/-- No comma stands before the first piece, and one before each of the others; in this form
a text is built, and read, piece by piece. -/
theorem commaSeparated_cons (piece : List Char) (pieces : List (List Char)) :
    commaSeparated (piece :: pieces) = piece ++ pieces.flatMap (',' :: ·) := by
  induction pieces generalizing piece with
  | nil => simp [commaSeparated]
  | cons next pieces ih =>
    unfold commaSeparated at ih ⊢
    rw [List.intercalate_cons_cons, ih]
    simp

end FieldMask
