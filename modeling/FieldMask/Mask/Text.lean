import FieldMask.Mask.Basic
import FieldMask.Text.Separated

namespace FieldMask

/-!
# The canonical text of a mask

A mask is written as the expression that names its fields in order: `-` before an excluded name,
and `:(…)` around the level below a name.  An empty level below a name is not written, and neither
is a mode.

* `Fields.pieces` — one text for each field of a level; `Fields.chars` — the pieces with commas
  between them.
* `Fields.charsBefore` — the same characters in front of others, written in one pass
  (`charsBefore_eq`).
* `Mask.text` — the whole expression (`Mask.text_eq`).
-/

/-- The mark before the name of an excluded field. -/
def Polarity.sign : Polarity → List Char
  | included => []
  | excluded => ['-']

namespace Fields

/-- The text of each field of a level, in order.  A level that mentions no name is left out,
as a text has no way to say it. -/
def pieces : Fields → List (List Char)
  | nil => []
  | leaf name polarity rest => (polarity.sign ++ name.toList) :: rest.pieces
  | subtree name polarity _ children rest =>
    let below :=
      if children.isEmpty then []
      else ":(".toList ++ commaSeparated children.pieces ++ [')']
    (polarity.sign ++ name.toList ++ below) :: rest.pieces

/-- The text of a level: its fields with commas between them. -/
def chars (fields : Fields) : List Char := commaSeparated fields.pieces

/-- The text of a level in front of some characters, with `mark` before its first field and a comma
before each further one. -/
def charsBefore (mark : List Char) (fields : Fields) (after : List Char) : List Char :=
  match fields with
  | nil => after
  | leaf name polarity rest =>
    mark ++ (polarity.sign ++ (name.toList ++ rest.charsBefore [','] after))
  | subtree name polarity _ children rest =>
    let after := rest.charsBefore [','] after
    let below :=
      if children.isEmpty then after
      else ':' :: '(' :: children.charsBefore [] (')' :: after)
    mark ++ (polarity.sign ++ (name.toList ++ below))

/-- Behind the first mark stand the pieces of the level, each further one behind a comma. -/
theorem charsBefore_eq_flatMap (fields : Fields) (after : List Char) :
    fields.charsBefore [','] after = fields.pieces.flatMap (',' :: ·) ++ after ∧
      fields.charsBefore [] after = commaSeparated fields.pieces ++ after := by
  induction fields generalizing after with
  | nil => simp [charsBefore, pieces]
  | leaf name polarity rest ih => simp [charsBefore, pieces, commaSeparated_cons, (ih _).1]
  | subtree name polarity mode children rest ihc ihr =>
    cases h : children.isEmpty <;>
      simp [charsBefore, pieces, commaSeparated_cons, h, (ihr _).1, (ihc _).2]

/-- The text of a level in front of others is the text of the level, followed by the
others. -/
theorem charsBefore_eq (fields : Fields) (after : List Char) :
    fields.charsBefore [] after = fields.chars ++ after :=
  (charsBefore_eq_flatMap fields after).2

end Fields

/-- The canonical expression of a mask. -/
def Mask.text (mask : Mask) : String := String.ofList (mask.fields.charsBefore [] [])

theorem Mask.text_eq (mask : Mask) : mask.text = String.ofList mask.fields.chars := by
  rw [Mask.text, Fields.charsBefore_eq, List.append_nil]

end FieldMask
