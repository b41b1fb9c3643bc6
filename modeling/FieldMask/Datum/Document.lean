import FieldMask.Datum.Json
import FieldMask.Document.Basic

namespace FieldMask

/-!
# Data and documents

* `Datum.ofDoc` — a document in memory as a datum: its numbers are told apart by size and by the way
  they are written.
* `Doc.ofDatum` — the document that a datum stands for, with the members of every object in the
  order of their names; of members of one name the last one counts.
* `Datum.ofJson` — the datum of a JSON text; `JsonText.checkRest` — whether only spaces follow it.
* `Doc.ofJson` — the document that a JSON text denotes.
-/

/-- The datum of a number in a document.  A floating-point value is one that is written with its
shortest digits, in either of the two ways. -/
def Datum.ofNumber (n : Number) : Datum :=
  match JsonText.integer? n.text.toList with
  | some value =>
    if -(Nat.pow 2 63 : Int) ≤ value ∧ value < (Nat.pow 2 64 : Int) then .integer value
    -- Beyond 64 bits a whole number still has a kind of its own, up to 128 bits.
    else if -(Nat.pow 2 127 : Int) ≤ value ∧ value < (Nat.pow 2 128 : Int) then .wide value
    else ofFloat
  | none => ofFloat
where
  /-- A number that is no integer of up to 128 bits. -/
  ofFloat : Datum :=
    match Binary64.read n.text with
    | .ok x =>
      if x.isFinite && (x.canonicalText == n.text || x.plainText == n.text) then .float x
      else .numeral n.text
    | .error _ => .numeral n.text

mutual

/-- A document as a datum.  Members stay in the order of the document, and a number may be
handed over as an integer, as a value or as its text. -/
def Datum.ofDoc : Doc → Datum
  | .scalar .null => .null
  | .scalar (.bool value) => .bool value
  | .scalar (.number n) => .ofNumber n
  | .scalar (.string value) => .text value
  | .array items => .sequence (Items.ofDocs items)
  | .object members => .map (Entries.ofMembers members)

/-- The items of an array as data. -/
def Items.ofDocs : List Doc → Items
  | [] => .done
  | item :: rest => .item (Datum.ofDoc item) (Items.ofDocs rest)

/-- The members of an object as entries. -/
def Entries.ofMembers : List (String × Doc) → Entries
  | [] => .done
  | (name, value) :: rest => .entry name (Datum.ofDoc value) (Entries.ofMembers rest)

end

/-- The number that a text denotes, as it is read from data. -/
def readNumeral (origin : Origin) (text : String) : Except ReadError Number :=
  match Number.read text with
  | .ok n => .ok n
  | .error fault => .error (.badNumber fault (origin == .typed))

mutual

/-- The document that a datum stands for.  It is more generous than a projection, which
refuses an integer of more than 64 bits and a value that is not finite: here the one stays
as it is, and the other becomes null. -/
def Doc.ofDatum (origin : Origin) : Datum → Except ReadError Doc
  | .null => .ok (.scalar .null)
  | .absent => .ok (.scalar .null)
  | .present value => Doc.ofDatum origin value
  | .bool value => .ok (.scalar (.bool value))
  | .integer value => .ok (.scalar (.number (.ofInt value)))
  | .wide value => .ok (.scalar (.number (.ofInt value)))
  | .float x => .ok (.scalar (((Number.ofBinary64? x).map Scalar.number).getD .null))
  | .numeral text => (readNumeral origin text).map fun n => .scalar (.number n)
  | .text value => .ok (.scalar (.string value))
  | .sequence items => (Doc.ofItems origin items).map .array
  | .map (.entry key value rest) =>
    -- The first key tells whether the map stands for a number.
    if key = numberKey then
      match value.readNumber origin .numberText with
      | .error e => .error e
      | .ok n => (rest.checkEnd origin).map fun () => .scalar (.number n)
    else
      match Doc.ofDatum origin value with
      | .error e => .error e
      | .ok doc => (Doc.ofEntries origin [(key, doc)] rest).map .object
  | .map .done => .ok (.object [])
  | .map (.broken fault _) => .error (.text fault)
  | .tooDeep _ => .error (.text .malformed)
  | .broken fault => .error (.text fault)
  | .bytes value => .error (Datum.mismatch origin .document (.bytes value))

/-- The documents that some items stand for.  The first that stands for none ends the
reading. -/
def Doc.ofItems (origin : Origin) : Items → Except ReadError (List Doc)
  | .done => .ok []
  | .item value rest =>
    match Doc.ofDatum origin value with
    | .error e => .error e
    | .ok doc => (Doc.ofItems origin rest).map (doc :: ·)
  | .broken fault => .error (.text fault)

/-- The members read before and those that some entries stand for.  They are kept in the
order of their names, and of two with one name the later one stays. -/
def Doc.ofEntries (origin : Origin) (members : List (String × Doc)) :
    Entries → Except ReadError (List (String × Doc))
  | .done => .ok members
  | .entry key value rest =>
    match Doc.ofDatum origin value with
    | .error e => .error e
    | .ok doc => Doc.ofEntries origin (Doc.insertMember key doc members) rest
  | .broken fault _ => .error (.text fault)

end

/-- The datum of the value in a JSON text.  What follows the value is not part of it. -/
def Datum.ofJson (bytes : List UInt8) : Datum := (JsonText.visit JsonText.maxDepth bytes).seen

/-- Checks that nothing but spaces follows the value in a JSON text. -/
def JsonText.checkRest (bytes : List UInt8) : Except ReadError Unit :=
  match JsonText.skip bytes with
  | .error fault => .error (.text fault)
  | .ok rest => if (JsonText.dropSpaces rest).isEmpty then .ok () else .error (.text .malformed)

/-- The document that a JSON text denotes.  A fault in the value is told before one behind
it. -/
def Doc.ofJson (bytes : List UInt8) : Except ReadError Doc :=
  match Doc.ofDatum .json (.ofJson bytes) with
  | .error e => .error e
  | .ok doc => (JsonText.checkRest bytes).map fun () => doc

end FieldMask
