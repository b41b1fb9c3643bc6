import FieldMask.Document.Basic
import FieldMask.Stream.Sink

namespace FieldMask

/-!
# Writing tokens as JSON text

The writer turns tokens into compact JSON.  It accepts a token only where the grammar of documents
has room for it, so what it has written is always the beginning of a JSON text.

* `Device` — where the bytes go; `Device.write` — it takes what it has room for.
* `JsonWriter` — the state of the writer; `JsonWriter.write` — one token;
  `JsonWriter.finish` — whether the document is complete.
* `JsonWriter` is a `TokenSink`.

A device that is full fails in the middle of a token.  What the writer knew before those bytes then
stays as it was set for them.
-/

/-- How much a device takes. -/
inductive Room where
  /-- Everything. -/
  | unlimited
  /-- So many more bytes; further ones fail for the given reason. -/
  | limited (bytes : Nat) (reason : String)

/-- Where bytes go: what it has received, and how much more it takes. -/
structure Device where
  received : Array UInt8
  room : Room

namespace Device

/-- A device that has received nothing. -/
def empty (room : Room) : Device := ⟨#[], room⟩

/-- Hands over some bytes; of bytes that do not fit, those are taken that do.  A device that
has failed is full from then on. -/
def write (device : Device) (bytes : List UInt8) : Except String Unit × Device :=
  match device.room with
  | .unlimited => (.ok (), ⟨device.received ++ bytes, .unlimited⟩)
  | .limited room reason =>
    let received := device.received ++ bytes.take room
    let result := if bytes.length ≤ room then .ok () else .error reason
    (result, ⟨received, .limited (room - bytes.length) reason⟩)

end Device

/-- A container that the writer has begun: whether nothing has been written into it yet, and for an
object whether a member's name waits for its value. -/
inductive Begun where
  | object (fresh : Bool) (named : Bool)
  | array (fresh : Bool)
  deriving DecidableEq

/-- A writer of one document: where its bytes go, what is open, and whether the document is
complete. -/
structure JsonWriter where
  device : Device
  begun : List Begun
  complete : Bool

/-- Some characters in UTF-8. -/
def utf8Bytes (cs : List Char) : List UInt8 := cs.flatMap String.utf8EncodeChar

namespace JsonWriter

/-- A writer that has written nothing. -/
def ofDevice (device : Device) : JsonWriter := ⟨device, [], false⟩

/-- Writes some characters; `wrap` says what it means if they do not fit. -/
def put (cs : List Char) (wrap : String → StreamError) (writer : JsonWriter) :
    Except StreamError Unit × JsonWriter :=
  let (result, device) := writer.device.write (utf8Bytes cs)
  (result.mapError wrap, { writer with device })

/-- Goes on after a step that did not fail.  After a failure the writer stays as that step
has left it. -/
def andThen (done : Except StreamError Unit × JsonWriter)
    (more : JsonWriter → Except StreamError Unit × JsonWriter) :
    Except StreamError Unit × JsonWriter :=
  match done with
  | (.error e, writer) => (.error e, writer)
  | (.ok (), writer) => more writer

/-- Makes room for a value: a comma between items, nothing behind a member's name.  A value
behind the end of the document, and one in the place of a name, are refused before anything
is written. -/
def beginValue (kind : TokenKind) (writer : JsonWriter) : Except StreamError Unit × JsonWriter :=
  match writer.begun with
  | [] =>
    if writer.complete then (.error (.unexpectedToken .endOfDocument kind), writer)
    else (.ok (), writer)
  | .array true :: outer => (.ok (), { writer with begun := .array false :: outer })
  | .array false :: _ => writer.put [','] .io
  | .object fresh true :: outer => (.ok (), { writer with begun := .object fresh false :: outer })
  | .object _ false :: _ => (.error (.unexpectedToken .key kind), writer)

/-- Enters a container. -/
def enter (container : Begun) (writer : JsonWriter) : Except StreamError Unit × JsonWriter :=
  (.ok (), { writer with begun := container :: writer.begun })

/-- Ends a value: outside of every container the document is complete, inside of one nothing
changes. -/
def endValue (writer : JsonWriter) : Except StreamError Unit × JsonWriter :=
  (.ok (), { writer with complete := writer.complete || writer.begun.isEmpty })

/-- How a scalar that does not fit is reported. -/
def scalarFailure : Scalar → String → StreamError
  | .string _ => .encoding
  | _ => .io

/-- Writes a member's name and the colon behind it. -/
def putName (name : String) (writer : JsonWriter) : Except StreamError Unit × JsonWriter :=
  andThen (writer.put (Quoted.encode name) .encoding) (put [':'] .io)

/-- Writes one token.  A token that has no place there is refused with nothing written and
nothing changed; one that the device does not take may leave a part of itself behind. -/
def write (token : Token) (writer : JsonWriter) : Except StreamError Unit × JsonWriter :=
  match token with
  | .beginObject =>
    andThen (andThen (writer.beginValue .beginObject) (put ['{'] .io)) (enter (.object true false))
  | .beginArray =>
    andThen (andThen (writer.beginValue .beginArray) (put ['['] .io)) (enter (.array true))
  | .key name =>
    match writer.begun with
    -- The writer waits for the value from here on, even if the name does not fit.
    | .object true false :: outer =>
      putName name { writer with begun := .object false true :: outer }
    | .object false false :: outer =>
      andThen (writer.put [','] .io) fun writer =>
        putName name { writer with begun := .object false true :: outer }
    | _ => (.error (.unexpectedToken .value .key), writer)
  | .endObject =>
    match writer.begun with
    -- The container is left first, so a bracket that does not fit leaves it too.
    | .object _ false :: outer => andThen (put ['}'] .io { writer with begun := outer }) endValue
    | _ => (.error (.unexpectedToken .value .endObject), writer)
  | .endArray =>
    match writer.begun with
    | .array _ :: outer => andThen (put [']'] .io { writer with begun := outer }) endValue
    | _ => (.error (.unexpectedToken .value .endArray), writer)
  | .scalar value =>
    andThen
      (andThen (writer.beginValue .scalar) (put value.chars (scalarFailure value)))
      endValue

/-- Checks that a whole document has been written. -/
def finish (writer : JsonWriter) : Except StreamError Unit :=
  if writer.complete then .ok () else .error .unexpectedEnd

instance : TokenSink JsonWriter where
  write := write

end JsonWriter

end FieldMask
