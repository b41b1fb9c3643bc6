import FieldMask.Datum.Document
import FieldMask.Json.Writer
import FieldMask.Mask.View

namespace FieldMask

/-!
# Projecting data

A datum is projected while it is read: what a mask keeps goes to a sink of tokens as soon as it is
seen, what it drops is passed over.

* `Datum.projectBy` — a value, under any rule of decision; without a view the value is copied.
* `Datum.project` — a value, under a mask.
* `projectJson`, `projectTree` — a JSON text and a document in memory, by way of their data.
-/

variable {ν κ : Type} [TokenSink κ]

/-- Hands one token to a sink. -/
def emit (token : Token) (sink : κ) : Except ReadError Unit × κ :=
  match TokenSink.write token sink with
  | (.ok (), sink) => (.ok (), sink)
  | (.error e, sink) => (.error (.refused e), sink)

/-- Hands a number to a sink, if it could be read. -/
def emitNumber (number : Except ReadError Number) (sink : κ) : Except ReadError Unit × κ :=
  match number with
  | .ok n => emit (.scalar (.number n)) sink
  | .error e => (.error e, sink)

/-- Goes on after a step that did not fail. -/
def followedBy (done : Except ReadError Unit × κ) (more : κ → Except ReadError Unit × κ) :
    Except ReadError Unit × κ :=
  match done with
  | (.error e, sink) => (.error e, sink)
  | (.ok (), sink) => more sink

mutual

/-- Projects a value; without a view it is copied.  What was handed to the sink before a
fault stays there.  A map is looked at by its first key, which may say that it stands for a
number. -/
def Datum.projectBy (decide : ν → String → Action ν) (origin : Origin) (view : Option ν)
    (sink : κ) : Datum → Except ReadError Unit × κ
  | .null => emit (.scalar .null) sink
  | .absent => emit (.scalar .null) sink
  | .present value => Datum.projectBy decide origin view sink value
  | .bool value => emit (.scalar (.bool value)) sink
  | .integer value => emit (.scalar (.number (.ofInt value))) sink
  | .wide value => (.error (.invalidType (.wide value) .document), sink)
  | .float x =>
    match Number.ofBinary64? x with
    | some n => emit (.scalar (.number n)) sink
    | none => (.error .nonFinite, sink)
  | .numeral text => emitNumber (readNumeral origin text) sink
  | .text value => emit (.scalar (.string value)) sink
  | .bytes value => (.error (Datum.mismatch origin .document (.bytes value)), sink)
  | .sequence items =>
    followedBy (emit .beginArray sink) fun sink => Items.projectBy decide origin view sink items
  | .map (.entry key value rest) =>
    if key = numberKey then
      followedBy (emitNumber (value.readNumber origin .string) sink) fun sink =>
        (rest.checkEnd origin, sink)
    else
      followedBy (emit .beginObject sink) fun sink =>
        followedBy
          (match (view.map (decide · key)).getD .copy with
          | .skip => (.ok (), sink)
          | .copy =>
            followedBy (emit (.key key) sink) fun sink =>
              Datum.projectBy decide origin none sink value
          | .descend view =>
            followedBy (emit (.key key) sink) fun sink =>
              Datum.projectBy decide origin (some view) sink value)
          fun sink => Entries.projectBy decide origin view sink rest
  | .map .done => followedBy (emit .beginObject sink) (emit .endObject)
  | .map (.broken fault _) => (.error (.text fault), sink)
  | .tooDeep _ => (.error (.text .malformed), sink)
  | .broken fault => (.error (.text fault), sink)

/-- Projects the items of a sequence and ends it.  They all have the view of the
sequence. -/
def Items.projectBy (decide : ν → String → Action ν) (origin : Origin) (view : Option ν)
    (sink : κ) : Items → Except ReadError Unit × κ
  | .done => emit .endArray sink
  | .item value rest =>
    followedBy (Datum.projectBy decide origin view sink value) fun sink =>
      Items.projectBy decide origin view sink rest
  | .broken fault => (.error (.text fault), sink)

/-- Projects the entries of a map and ends it.  Of one that is skipped nothing is asked, so
it can be anything at all. -/
def Entries.projectBy (decide : ν → String → Action ν) (origin : Origin) (view : Option ν)
    (sink : κ) : Entries → Except ReadError Unit × κ
  | .done => emit .endObject sink
  | .entry key value rest =>
    followedBy
      (match (view.map (decide · key)).getD .copy with
      | .skip => (.ok (), sink)
      | .copy =>
        followedBy (emit (.key key) sink) fun sink => Datum.projectBy decide origin none sink value
      | .descend view =>
        followedBy (emit (.key key) sink) fun sink =>
          Datum.projectBy decide origin (some view) sink value)
      fun sink => Entries.projectBy decide origin view sink rest
  | .broken fault _ => (.error (.text fault), sink)

end

/-- Projects a value through a mask. -/
def Datum.project (origin : Origin) (mask : Option Mask) (datum : Datum) (sink : κ) :
    Except ReadError Unit × κ :=
  datum.projectBy View.decide origin (View.ofMask? mask) sink

/-- Projects the value in a JSON text, which nothing but spaces may follow. -/
def projectJson (mask : Option Mask) (bytes : List UInt8) (sink : κ) :
    Except ReadError Unit × κ :=
  followedBy (Datum.project .json mask (.ofJson bytes) sink) fun sink =>
    (JsonText.checkRest bytes, sink)

/-- Projects a document in memory. -/
def projectTree (mask : Option Mask) (doc : Doc) (sink : κ) : Except ReadError Unit × κ :=
  Datum.project .document mask (.ofDoc doc) sink

end FieldMask
