import FieldMask.Binary64.Text
import FieldMask.Stream.Token
import FieldMask.Text.Debug

namespace FieldMask

/-!
# Data from any format

A datum is a value as some format hands it over, before anyone has said what it should be: more
kinds of value than a JSON document has, and texts of which the end is missing or wrong.  Whoever
reads a datum sees what stands before a fault, and the fault only on getting there.

* `Datum`, `Items`, `Entries` — a value, the items of a sequence, the entries of a map.
* `Origin` — where data come from, which decides on a few words and rules.
* `Found`, `Wanted` — what a reader found and what it wanted.
* `ReadError` — why a datum cannot be read, and its wording.
* `numberKey` — the key of a map that stands for a number.
-/

mutual

/-- A value as a format hands it over.  Containers hold what is seen of them up to a fault,
so that a reader can be asked what it has read before the fault stops it. -/
inductive Datum where
  /-- Nothing. -/
  | null
  /-- An optional value that is not there. -/
  | absent
  /-- An optional value that is there. -/
  | present (value : Datum)
  | bool (value : Bool)
  /-- A whole number of 64 bits, with or without a sign. -/
  | integer (value : Int)
  /-- A whole number that needs more bits. -/
  | wide (value : Int)
  | float (value : Binary64)
  /-- Any other number, as its text. -/
  | numeral (text : String)
  | text (value : String)
  | bytes (value : ByteArray)
  | sequence (items : Items)
  | map (entries : Entries)
  /-- A container inside more of them than the format allows. -/
  | tooDeep (container : Container)
  /-- A text that goes wrong where the value should be. -/
  | broken (fault : TextFault)

/-- The items of a sequence. -/
inductive Items where
  | done
  | item (value : Datum) (rest : Items)
  /-- A text that goes wrong behind the items before. -/
  | broken (fault : TextFault)

/-- The entries of a map. -/
inductive Entries where
  | done
  | entry (key : String) (value : Datum) (rest : Entries)
  /-- A text that goes wrong behind the entries before, and behind a comma too if `behindComma`. -/
  | broken (fault : TextFault) (behindComma : Bool)

end

instance : Inhabited Datum := ⟨.null⟩

/-- The items of a list. -/
def Items.ofList : List Datum → Items
  | [] => .done
  | value :: rest => .item value (ofList rest)

/-- The entries of a list. -/
def Entries.ofList : List (String × Datum) → Entries
  | [] => .done
  | (key, value) :: rest => .entry key value (ofList rest)

/-- The number of entries before the end or a fault. -/
def Entries.size : Entries → Nat
  | .done => 0
  | .entry _ _ rest => rest.size + 1
  | .broken .. => 0

/-- Where data come from.  The same datum is read by slightly different rules, and named by
different words, depending on it. -/
inductive Origin where
  /-- A JSON text. -/
  | json
  /-- A document in memory. -/
  | document
  /-- A format that gives every value a kind of its own. -/
  | typed
  deriving DecidableEq

/-- The key that makes the map whose first entry it is stand for a number: the entry's value is the
number's text. -/
def numberKey : String := "$serde_json::private::Number"

/-! ### Why a datum cannot be read -/

/-- What a reader found.  It is a coarser view of a datum than the datum itself, as only
what the message says is kept. -/
inductive Found where
  /-- Nothing, where the format has a word for it. -/
  | null
  /-- Nothing, as a value without content. -/
  | unit
  | optional
  | bool (value : Bool)
  | integer (value : Int)
  /-- A whole number of 128 bits. -/
  | wide (value : Int)
  | float (value : Binary64)
  | number
  | text (value : String)
  | bytes
  | sequence
  | map

/-- The text of a floating-point value with a point, if it is a number. -/
def pointedText (x : Binary64) : String :=
  let text := x.plainText
  if x.isFinite && !text.contains '.' then text ++ ".0" else text

/-- The phrase for what was found.  A scalar is shown with its value, anything else by its
kind alone. -/
def Found.phrase : Found → String
  | null => "null"
  | unit => "unit value"
  | optional => "Option value"
  | bool value => "boolean `" ++ (if value then "true" else "false") ++ "`"
  | integer value => "integer `" ++ toString value ++ "`"
  | wide value => "integer `" ++ toString value ++ "` as " ++ (if value < 0 then "i128" else "u128")
  | float value => "floating point `" ++ pointedText value ++ "`"
  | number => "number"
  | text value => "string " ++ debugQuoted value
  | bytes => "byte array"
  | sequence => "sequence"
  | map => "map"

/-- What a reader wanted.  Every reader says what it would have taken, for the sake of the
message. -/
inductive Wanted where
  | mask
  | field
  | document
  | string
  | numberText
  deriving DecidableEq

/-- The phrase for what was wanted.  It completes the message that begins with what was
found. -/
def Wanted.phrase : Wanted → String
  | mask => "a map of field names to booleans, numbers or nested maps"
  | field => "a boolean, a number or a nested map"
  | document => "any JSON value"
  | string => "a string"
  | numberText => "string containing a number"

/-- Why a datum cannot be read.  Faults of the text, of a value and of the sink are kept
apart, and every one has its own message. -/
inductive ReadError where
  /-- The text that the datum comes from is wrong. -/
  | text (fault : TextFault)
  /-- A value is of the wrong type. -/
  | invalidType (found : Found) (wanted : Wanted)
  /-- A value is of the right type and still cannot be used. -/
  | invalidValue (found : Found) (wanted : Wanted)
  /-- A mask names a field twice. -/
  | duplicateField (name : String)
  /-- A text is no number; `placed` if the place of the fault is told. -/
  | badNumber (fault : NumberFault) (placed : Bool)
  /-- A text is no decimal. -/
  | badFloat (fault : FloatFault)
  /-- A floating-point value is not finite. -/
  | nonFinite
  /-- A map that stands for a number has further entries; `size` counts all of them. -/
  | extraEntries (size : Nat)
  /-- The tokens of the value were refused. -/
  | refused (error : StreamError)

/-- The wording of a failure.  Where a fault has a message of its own it is passed on
unchanged. -/
def ReadError.message : ReadError → String
  | text .truncated => "unexpected end of text"
  | text .malformed => "malformed text"
  | invalidType found wanted => "invalid type: " ++ found.phrase ++ ", expected " ++ wanted.phrase
  | invalidValue found wanted => "invalid value: " ++ found.phrase ++ ", expected " ++ wanted.phrase
  | duplicateField name => "duplicate field '" ++ name ++ "'"
  | badNumber fault placed => if placed then fault.placedMessage else fault.message
  | badFloat fault => fault.message
  | nonFinite => "non-finite number"
  | extraEntries size =>
    "invalid length " ++ toString size ++ ", expected fewer elements in map"
  | refused error => error.message

namespace Datum

/-- What a reader that has no use for a datum says of it.  A text that goes wrong has no
name.  Numbers of a document have one word for all their kinds, and nothing is called by
another word in a format that gives every value a kind of its own. -/
def found? (origin : Origin) : Datum → Except TextFault Found
  | null => .ok (if origin = .typed then .unit else .null)
  | absent => .ok .optional
  | present _ => .ok .optional
  | bool value => .ok (.bool value)
  | integer value => .ok (if origin = .document then .number else .integer value)
  | wide _ => .ok .number
  | float value => .ok (if origin = .document then .number else .float value)
  | numeral _ => .ok .number
  | text value => .ok (.text value)
  | bytes _ => .ok .bytes
  | sequence _ => .ok .sequence
  | map _ => .ok .map
  | tooDeep .array => .ok .sequence
  | tooDeep .object => .ok .map
  | broken fault => .error fault

/-- The failure of a reader that has no use for a datum. -/
def mismatch (origin : Origin) (wanted : Wanted) (datum : Datum) : ReadError :=
  match datum.found? origin with
  | .ok found => .invalidType found wanted
  | .error fault => .text fault

/-- The string that a datum is.  Bytes are taken for a string too, if they are UTF-8;
anything else is a mismatch. -/
def readString (origin : Origin) (wanted : Wanted) (datum : Datum) : Except ReadError String :=
  match datum with
  | .text value => .ok value
  | .bytes value =>
    match String.fromUTF8? value with
    | some value => .ok value
    | none => .error (.invalidValue .bytes wanted)
  | datum => .error (datum.mismatch origin wanted)

end Datum

/-- Checks what follows the one entry of a map that stands for a number.  A text must close the map
there, a document may have no entry more, and other formats do not ask. -/
def Entries.checkEnd (origin : Origin) (rest : Entries) : Except ReadError Unit :=
  match origin, rest with
  | .typed, _ => .ok ()
  | _, .done => .ok ()
  | .document, rest => .error (.extraEntries (rest.size + 1))
  | .json, .broken fault false => .error (.text fault)
  | .json, _ => .error (.text .malformed)

/-- The number whose text is the value of an entry.  The text must be a number to its end.
Whether the message tells the place of a fault depends on the origin. -/
def Datum.readNumber (origin : Origin) (wanted : Wanted) (value : Datum) :
    Except ReadError Number :=
  match value.readString origin wanted with
  | .error e => .error e
  | .ok s =>
    match Number.read s with
    | .ok n => .ok n
    | .error fault => .error (.badNumber fault (origin == .typed))

end FieldMask
