import FieldMask.Json.Number

namespace FieldMask

/-!
# Tokens

A document is handed on piece by piece, in the order of its text:

```text
value  = scalar
       | beginObject (key value)* endObject
       | beginArray value* endArray
```

* `Scalar` — a value without parts; `Container` — the kinds of value that have parts.
* `Token` — one piece; `TokenKind` — a piece without its content.
* `StreamError` — why a stream of tokens stops; `StreamError.message` — its wording;
  `StreamError.report` — its wording with the cause behind it.
-/

/-- A value without parts.  Numbers are kept by their text, so none is rounded. -/
inductive Scalar where
  | null
  | bool (value : Bool)
  | number (value : Number)
  | string (value : String)
  deriving DecidableEq

/-- One piece of a document.  A document is a list of them, in the order in which a text has
them. -/
inductive Token where
  | beginObject
  /-- The name of an object's member; the member's value follows. -/
  | key (name : String)
  | endObject
  | beginArray
  | endArray
  | scalar (value : Scalar)
  deriving DecidableEq

/-- The two kinds of value that have parts. -/
inductive Container where
  | object
  | array
  deriving DecidableEq

/-- What a token is, without its content.  It is what a source may announce before the token
is taken. -/
inductive TokenKind where
  | beginObject
  | key
  | endObject
  | beginArray
  | endArray
  | scalar
  deriving DecidableEq

/-- What a token is.  Names and values are forgotten. -/
def Token.kind : Token → TokenKind
  | beginObject => .beginObject
  | key _ => .key
  | endObject => .endObject
  | beginArray => .beginArray
  | endArray => .endArray
  | scalar _ => .scalar

/-- The word for a kind of token. -/
def TokenKind.name : TokenKind → String
  | beginObject => "begin-object"
  | key => "key"
  | endObject => "end-object"
  | beginArray => "begin-array"
  | endArray => "end-array"
  | scalar => "scalar"

/-! ### Failures -/

/-- What should have stood in the place of an unexpected token.  What is expected depends on
the container and on whether a member's value is due. -/
inductive Expected where
  | value
  | key
  | keyOrEndObject
  | keyOrClose
  | endOfDocument
  deriving DecidableEq

/-- The phrase for what was expected. -/
def Expected.phrase : Expected → String
  | value => "a value"
  | key => "a key"
  | keyOrEndObject => "a key or end-object"
  | keyOrClose => "a key or close"
  | endOfDocument => "end of document"

/-- What is wrong at a place of a JSON text.  Where it is, is kept beside it. -/
inductive Mistake where
  | expectedValue
  | expectedMemberName
  | expectedColon
  | expectedCommaOrClose
  | mismatchedClose
  | malformedString
  | malformedNumber
  | trailingCharacters
  deriving DecidableEq

/-- The phrase for a mistake. -/
def Mistake.phrase : Mistake → String
  | expectedValue => "expected a value"
  | expectedMemberName => "expected a member name"
  | expectedColon => "expected ':' after a member name"
  | expectedCommaOrClose => "expected ',' or a closing bracket"
  | mismatchedClose => "mismatched closing bracket"
  | malformedString => "malformed string"
  | malformedNumber => "malformed number"
  | trailingCharacters => "trailing characters after the document"

/-- Why a stream of tokens stops.  The first two come from below the stream, the others are
its own. -/
inductive StreamError where
  /-- The bytes below the stream cannot be read or written. -/
  | io (reason : String)
  /-- A string literal cannot be written. -/
  | encoding (reason : String)
  /-- A token stands where the grammar of documents has no room for it. -/
  | unexpectedToken (expected : Expected) (found : TokenKind)
  /-- The stream ends inside a value. -/
  | unexpectedEnd
  /-- The text is not JSON; `offset` counts bytes. -/
  | invalidText (mistake : Mistake) (offset : Nat)
  deriving DecidableEq

/-- The wording of a failure.  The device's own words are passed on behind what kind of
failure it is. -/
def StreamError.message : StreamError → String
  | io reason => "I/O error: " ++ reason
  | encoding reason => "JSON error: " ++ reason
  | unexpectedToken expected found =>
    "unexpected " ++ found.name ++ " token, expected " ++ expected.phrase
  | unexpectedEnd => "unexpected end of token stream"
  | invalidText mistake offset =>
    "invalid JSON at byte " ++ toString offset ++ ": " ++ mistake.phrase

/-- The failure below the stream that stops it, if it is not the stream's own. -/
def StreamError.cause? : StreamError → Option String
  | io reason | encoding reason => some reason
  | unexpectedToken .. | unexpectedEnd | invalidText .. => none

/-- The wording of a failure as the end of a report, which names every cause down to the first. -/
def StreamError.report (error : StreamError) : String :=
  match error.cause? with
  | none => error.message
  | some reason => error.message ++ ": " ++ reason

end FieldMask
