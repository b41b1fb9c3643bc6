import FieldMask.Datum.Document
import FieldMask.Mask.Basic

namespace FieldMask

/-!
# Masks from data

The structural form of a mask is a map from field names to booleans, numbers or maps of the same
kind.  A truth value says whether the field is kept, a number does so by not being negative, and a
map is the level below a field that is kept.

* `Mask.ofDatum`, `Mask.ofEntries` — the mask that a datum or some entries stand for.
* `Node.ofDatum` — what an entry's value says about its name.
* `Mask.ofJson`, `Mask.ofDoc` — the mask that a JSON text or a document stands for.
-/

/-- A plain decision by a number: one that is less than zero excludes. -/
def Node.ofSign (negative : Bool) : Node Mask := ⟨if negative then .excluded else .included, none⟩

/-- A plain decision by the text of a number. -/
def Node.ofDecimal (text : String) : Except ReadError (Node Mask) :=
  match Binary64.read text with
  | .ok x => .ok (.ofSign x.isNegative)
  | .error fault => .error (.badFloat fault)

mutual

/-- What the value of an entry says about its name.  A truth value or a number is a plain
decision, by its truth or by its sign; a map is a level below an included field.  Everything
else is refused. -/
def Node.ofDatum (origin : Origin) : Datum → Except ReadError (Node Mask)
  | .bool value => .ok ⟨if value then .included else .excluded, none⟩
  | .integer value => .ok (.ofSign (value < 0))
  | .float x => .ok (.ofSign x.isNegative)
  | .numeral text => Node.ofDecimal text
  | .map (.entry key value rest) =>
    -- A number that is handed over as a map decides as any other number does.
    if key = numberKey then
      match value.readString origin .string with
      | .error e => .error e
      | .ok text =>
        match Node.ofDecimal text with
        | .error e => .error e
        | .ok node => (rest.checkEnd origin).map fun () => node
    else
      match Node.ofDatum origin value with
      | .error e => .error e
      | .ok node =>
        (Mask.ofEntries origin (Mask.empty.put key node) rest).map fun children =>
          ⟨.included, some children⟩
  | .map .done => .ok ⟨.included, some .empty⟩
  | .map (.broken fault _) => .error (.text fault)
  | .tooDeep _ => .error (.text .malformed)
  | .broken fault => .error (.text fault)
  -- Whatever follows is neither a truth value nor a number of 64 bits nor a map.
  | .wide value => .error (.invalidType (.wide value) .field)
  | .null => .error (Datum.mismatch origin .field .null)
  | .absent => .error (Datum.mismatch origin .field .absent)
  | .present value => .error (Datum.mismatch origin .field (.present value))
  | .text value => .error (Datum.mismatch origin .field (.text value))
  | .bytes value => .error (Datum.mismatch origin .field (.bytes value))
  | .sequence items => .error (Datum.mismatch origin .field (.sequence items))

/-- The mask read before with what some entries add to it.  A name that is there already is
refused before its value is looked at. -/
def Mask.ofEntries (origin : Origin) (mask : Mask) : Entries → Except ReadError Mask
  | .done => .ok mask
  | .entry key value rest =>
    if mask.contains key then .error (.duplicateField key)
    else
      match Node.ofDatum origin value with
      | .error e => .error e
      | .ok node => Mask.ofEntries origin (mask.put key node) rest
  | .broken fault _ => .error (.text fault)

end

/-- The mask that a datum stands for. -/
def Mask.ofDatum (origin : Origin) (datum : Datum) : Except ReadError Mask :=
  match datum with
  | .map entries => Mask.ofEntries origin .empty entries
  | datum => .error (datum.mismatch origin .mask)

/-- The mask that a JSON text stands for. -/
def Mask.ofJson (bytes : List UInt8) : Except ReadError Mask :=
  match Mask.ofDatum .json (.ofJson bytes) with
  | .error e => .error e
  | .ok mask => (JsonText.checkRest bytes).map fun () => mask

/-- The mask that a document in memory stands for. -/
def Mask.ofDoc (doc : Doc) : Except ReadError Mask := Mask.ofDatum .document (.ofDoc doc)

end FieldMask
