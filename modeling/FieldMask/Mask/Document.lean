import FieldMask.Document.Basic
import FieldMask.Mask.Basic

namespace FieldMask

/-!
# A mask as a document

The structural form of a mask is an object with one member for each field: `true` or `false` for a
field with nothing below it, and an object again for one with a level below.  The polarity of the
latter has no place in this form, nor has a mode.

* `Fields.members` — the members of a level; `Mask.toDoc` — the object of a mask.
-/

/-- The members that stand for the fields of a level.  A level that mentions no name is left
out, and its field stands as a plain decision. -/
def Fields.members : Fields → List (String × Doc)
  | nil => []
  | leaf name polarity rest => (name, .scalar (.bool (polarity == .included))) :: rest.members
  | subtree name polarity _ children rest =>
    let value :=
      if children.isEmpty then .scalar (.bool (polarity == .included))
      else .object children.members
    (name, value) :: rest.members

/-- The structural form of a mask. -/
def Mask.toDoc (mask : Mask) : Doc := .object mask.fields.members

end FieldMask
