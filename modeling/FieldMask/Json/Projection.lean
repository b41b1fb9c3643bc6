import FieldMask.Document.Builder
import FieldMask.Document.Walker
import FieldMask.Json.Reader
import FieldMask.Json.Writer
import FieldMask.Stream.Projection

namespace FieldMask

/-!
# Projecting JSON text and documents

* `projectBytes` — one JSON document from bytes to a device; what the device has received of it
  before a failure stays there.
* `projectText` — one JSON document held in a string.
* `projectDoc` — a document in memory.
-/

/-- Projects the one JSON document in some bytes onto a device.  Nothing but spaces may follow the
document. -/
def projectBytes (mask : Option Mask) (bytes : List UInt8) (ending : Ending) (device : Device) :
    Except StreamError Unit × Device :=
  let source := Lookahead.of (JsonReader.ofBytes bytes ending)
  match project mask source (JsonWriter.ofDevice device) with
  | (.error e, _, writer) => (.error e, writer.device)
  | (.ok (), source, writer) =>
    match source.producer.finish.1 with
    | .error e => (.error e, writer.device)
    | .ok () => (writer.finish, writer.device)

/-- Projects the one JSON document in a text.  What is received is bytes, which are made
into a text at the end. -/
def projectText (mask : Option Mask) (text : String) : Except StreamError String :=
  match projectBytes mask text.toUTF8.toList .closed (.empty .unlimited) with
  | (.error e, _) => .error e
  | (.ok (), device) =>
    match String.fromUTF8? ⟨device.received⟩ with
    | some text => .ok text
    | none => .error (.io "invalid utf-8 sequence")

/-- Projects a document in memory. -/
def projectDoc (mask : Option Mask) (doc : Doc) : Except StreamError Doc :=
  match project mask (Lookahead.of (DocWalker.of doc)) DocBuilder.empty with
  | (.error e, _, _) => .error e
  | (.ok (), _, builder) => builder.finish

end FieldMask
