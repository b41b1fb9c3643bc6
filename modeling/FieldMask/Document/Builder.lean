import FieldMask.Document.Basic
import FieldMask.Stream.Sink

namespace FieldMask

/-!
# Building a document

The builder puts tokens together to a document.  Members are kept in the order of their names, and
of members of one name the last one counts.

* `Unfinished` — a container that is being built; `DocBuilder` — the state of the builder.
* `DocBuilder.place` — puts a finished value where it belongs; `DocBuilder.write` — one token;
  `DocBuilder.finish` — the document, once it is complete.
* `DocBuilder` is a `TokenSink`.
-/

/-- A container that is being built: an array with its items, last one first, or an object with its
members and the name that waits for a value. -/
inductive Unfinished where
  | array (reversed : List Doc)
  | object (members : List (String × Doc)) (name : Option String)

/-- A document that is being built: the open containers, innermost first, and the finished
document. -/
structure DocBuilder where
  unfinished : List Unfinished
  root : Option Doc

namespace DocBuilder

/-- A builder of which nothing has been built. -/
def empty : DocBuilder := ⟨[], none⟩

/-- Whether a value may come next: as the whole document, as one more item, or behind a
name. -/
def expectsValue (builder : DocBuilder) : Bool :=
  match builder.unfinished with
  | [] => builder.root.isNone
  | .array _ :: _ => true
  | .object _ name :: _ => name.isSome

/-- Puts a finished value where it belongs: into the innermost container, or in the place of the
document. -/
def place (value : Doc) (kind : TokenKind) (builder : DocBuilder) :
    Except StreamError Unit × DocBuilder :=
  match builder.unfinished, builder.root with
  | [], none => (.ok (), { builder with root := some value })
  | [], some _ => (.error (.unexpectedToken .endOfDocument kind), builder)
  | .array reversed :: outer, _ =>
    (.ok (), { builder with unfinished := .array (value :: reversed) :: outer })
  | .object members (some name) :: outer, _ =>
    let members := Doc.insertMember name value members
    (.ok (), { builder with unfinished := .object members none :: outer })
  | .object _ none :: _, _ => (.error (.unexpectedToken .key kind), builder)

/-- Begins a container, if a value may come next. -/
def enter (container : Unfinished) (kind : TokenKind) (builder : DocBuilder) :
    Except StreamError Unit × DocBuilder :=
  if builder.expectsValue then
    (.ok (), { builder with unfinished := container :: builder.unfinished })
  else (.error (.unexpectedToken .keyOrClose kind), builder)

/-- Takes one token.  A closing token takes the innermost container off before it is compared with
it, so one that does not fit loses that container. -/
def write (token : Token) (builder : DocBuilder) : Except StreamError Unit × DocBuilder :=
  match token with
  | .beginObject => builder.enter (.object [] none) .beginObject
  | .beginArray => builder.enter (.array []) .beginArray
  | .key name =>
    match builder.unfinished with
    | .object members none :: outer =>
      (.ok (), { builder with unfinished := .object members (some name) :: outer })
    | _ => (.error (.unexpectedToken .value .key), builder)
  | .endObject =>
    -- The container is gone before anyone asks whether it fits.
    let outer := { builder with unfinished := builder.unfinished.tail }
    match builder.unfinished with
    | .object members none :: _ => outer.place (.object members) .endObject
    | _ => (.error (.unexpectedToken .value .endObject), outer)
  | .endArray =>
    let outer := { builder with unfinished := builder.unfinished.tail }
    match builder.unfinished with
    | .array reversed :: _ => outer.place (.array reversed.reverse) .endArray
    | _ => (.error (.unexpectedToken .value .endArray), outer)
  | .scalar value => builder.place (.scalar value) .scalar

/-- The document, once it is complete. -/
def finish (builder : DocBuilder) : Except StreamError Doc :=
  match builder.unfinished, builder.root with
  | [], some doc => .ok doc
  | _, _ => .error .unexpectedEnd

instance : TokenSink DocBuilder where
  write := write

end DocBuilder

end FieldMask
