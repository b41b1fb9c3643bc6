import FieldMask.Json.Byte
import FieldMask.Json.Quoted
import FieldMask.Stream.Lookahead

namespace FieldMask

/-!
# Reading JSON text as tokens

The reader takes one token at a time from a list of bytes.  Open containers are held in a list, so
nesting costs no recursion; numbers keep their text.  Strings may hold anything up to their closing
quote and are decoded as a whole.

* `Ending` — what happens behind the last byte: the text is over, or reading fails.
* `Place` — what may stand next; `JsonReader` — the state of the reader.
* `JsonReader.readToken` — reads a token, or finds that there is none.
* `JsonReader.finish` — whether the document is complete and only spaces follow it.
* `JsonReader` is a `TokenProducer`: no token is read without at least one byte
  (`length_lt_of_readToken`).
-/

/-- What happens behind the last byte. -/
inductive Ending where
  /-- The text is over. -/
  | closed
  /-- Reading fails for a reason that lies outside of the text. -/
  | failing (reason : String)

/-- What may stand at the place of the reader.  In a container it also tells whether a comma
is due. -/
inductive Place where
  /-- The document, the value of a member, or an item behind a comma. -/
  | value
  /-- An item, or the end of its array. -/
  | firstItem
  /-- A member's name, or the end of its object. -/
  | firstName
  /-- A member's name behind a comma. -/
  | name
  /-- A comma, or the end of the innermost container. -/
  | comma
  /-- Nothing more. -/
  | done
  deriving DecidableEq

/-- A reader of one document: the bytes not read yet, how many were read, and what is open.
The ending says what comes behind the last byte, and the place what may stand next. -/
structure JsonReader where
  rest : List UInt8
  offset : Nat
  ending : Ending
  containers : List Container
  place : Place

namespace JsonReader

/-- A reader before the first byte. -/
def ofBytes (bytes : List UInt8) (ending : Ending) : JsonReader :=
  ⟨bytes, 0, ending, [], .value⟩

/-- The reader some bytes further on.  What is open and what may stand next are for the
caller to change. -/
def advance (reader : JsonReader) (count : Nat) : JsonReader :=
  { reader with rest := reader.rest.drop count, offset := reader.offset + count }

/-- The next byte; none if the text is over. -/
def peekByte (reader : JsonReader) : Except StreamError (Option UInt8) :=
  match reader.rest, reader.ending with
  | b :: _, _ => .ok (some b)
  | [], .closed => .ok none
  | [], .failing reason => .error (.io reason)

/-- A mistake at the place of the reader. -/
def mistake (reader : JsonReader) (what : Mistake) : StreamError :=
  .invalidText what reader.offset

/-- The reader behind the spaces at its place. -/
def skipSpaces (reader : JsonReader) : JsonReader :=
  reader.advance (reader.rest.takeWhile JsonByte.isSpace).length

/-- The next byte behind spaces.  There is none before a document that is missing
altogether; the text may not be over anywhere else. -/
def nextByte (reader : JsonReader) : Except StreamError (Option UInt8) :=
  match reader.peekByte with
  | .error e => .error e
  | .ok (some b) => .ok (some b)
  | .ok none =>
    if reader.place = .value ∧ reader.containers = [] then .ok none else .error .unexpectedEnd

/-! ### Scalars -/

/-- Reads the letters of a word.  The mistake is reported at the first letter that differs,
not at the beginning of the word. -/
def readWord (word : List Char) (reader : JsonReader) : Except StreamError Unit × JsonReader :=
  match word with
  | [] => (.ok (), reader)
  | letter :: word =>
    match reader.peekByte with
    | .error e => (.error e, reader)
    | .ok none => (.error .unexpectedEnd, reader)
    | .ok (some b) =>
      if Char.ofUInt8 b = letter then readWord word (reader.advance 1)
      else (.error (reader.mistake .expectedValue), reader)

/-- The number of bytes through the quote that ends a literal, from behind its opening quote. -/
def literalLength? (escaped : Bool) : List UInt8 → Option Nat
  | [] => none
  | b :: rest =>
    if !escaped && b == Quoted.quote then some 1
    else (literalLength? (!escaped && b == Quoted.backslash) rest).map (· + 1)

/-- Reads a string from its opening quote on.  The mistake is reported at the opening quote,
whatever is wrong inside of the literal. -/
def readString (reader : JsonReader) : Except StreamError String × JsonReader :=
  let body := reader.advance 1
  match literalLength? false body.rest with
  -- No quote ends the literal: every byte has been read in search of one.
  | none =>
    let spent := body.advance body.rest.length
    match spent.peekByte with
    | .error e => (.error e, spent)
    | .ok _ => (.error .unexpectedEnd, spent)
  | some count =>
    match Quoted.readString (body.rest.take count) with
    | .ok (s, _) => (.ok s, body.advance count)
    | .error _ => (.error (reader.mistake .malformedString), body.advance count)

/-- Reads a number: all bytes that can be part of one must form one.  The mistake is
reported where the number begins. -/
def readNumber (reader : JsonReader) : Except StreamError Number × JsonReader :=
  let run := reader.rest.takeWhile JsonByte.inNumeral
  let after := reader.advance run.length
  -- Where reading fails, nobody knows whether the number is over.
  match after.peekByte with
  | .error e => (.error e, after)
  | .ok _ =>
    match Number.ofText? (String.ofList (run.map Char.ofUInt8)) with
    | some n => (.ok n, after)
    | none => (.error (reader.mistake .malformedNumber), after)

/-! ### Tokens -/

/-- The reader behind a value. -/
def finishValue (reader : JsonReader) : JsonReader :=
  { reader with place := if reader.containers.isEmpty then .done else .comma }

/-- Hands on a scalar that has been read. -/
def scalarToken (value : Scalar) (result : Except StreamError Unit × JsonReader) :
    Except StreamError Token × JsonReader :=
  match result with
  | (.error e, reader) => (.error e, reader)
  | (.ok (), reader) => (.ok (.scalar value), reader.finishValue)

/-- Reads the first token of a value that begins with a given byte.  A container is opened
and its first part is left to the next token; a scalar is read whole. -/
def readValue (reader : JsonReader) (b : UInt8) : Except StreamError Token × JsonReader :=
  match Char.ofUInt8 b with
  | '{' =>
    (.ok .beginObject,
      { reader.advance 1 with containers := .object :: reader.containers, place := .firstName })
  | '[' =>
    (.ok .beginArray,
      { reader.advance 1 with containers := .array :: reader.containers, place := .firstItem })
  | '"' =>
    match reader.readString with
    | (.error e, reader) => (.error e, reader)
    | (.ok s, reader) => (.ok (.scalar (.string s)), reader.finishValue)
  | 't' => scalarToken (.bool true) (readWord "true".toList reader)
  | 'f' => scalarToken (.bool false) (readWord "false".toList reader)
  | 'n' => scalarToken .null (readWord "null".toList reader)
  | c =>
    if c = '-' ∨ c.isDigit then
      match reader.readNumber with
      | (.error e, reader) => (.error e, reader)
      | (.ok n, reader) => (.ok (.scalar (.number n)), reader.finishValue)
    else (.error (reader.mistake .expectedValue), reader)

/-- Reads a member's name and the colon behind it.  Spaces may stand between the two. -/
def readName (reader : JsonReader) : Except StreamError Token × JsonReader :=
  match reader.readString with
  | (.error e, reader) => (.error e, reader)
  | (.ok name, reader) =>
    let reader := reader.skipSpaces
    match reader.peekByte with
    | .error e => (.error e, reader)
    | .ok none => (.error .unexpectedEnd, reader)
    | .ok (some b) =>
      if b = 0x3A then (.ok (.key name), { reader.advance 1 with place := .value })
      else (.error (reader.mistake .expectedColon), reader)

/-- Reads the bracket that ends a container, which must be the innermost one.  The container
around it is then behind a value. -/
def readClose (reader : JsonReader) (container : Container) :
    Except StreamError Token × JsonReader :=
  match reader.containers with
  | [] => (.error (reader.mistake .mismatchedClose), reader)
  | innermost :: outer =>
    if innermost = container then
      let token := match container with
        | .object => .endObject
        | .array => .endArray
      (.ok token, finishValue { reader.advance 1 with containers := outer })
    else (.error (reader.mistake .mismatchedClose), reader)

/-- Reads a token where no comma may stand.  At the beginning of a container its end may
stand there too; behind a comma it may not. -/
def readElement (reader : JsonReader) (b : UInt8) : Except StreamError Token × JsonReader :=
  match reader.place, Char.ofUInt8 b with
  | .firstItem, ']' => reader.readClose .array
  | .firstItem, _ => reader.readValue b
  | .firstName, '}' => reader.readClose .object
  | .firstName, '"' => reader.readName
  | .name, '"' => reader.readName
  | .firstName, _ => (.error (reader.mistake .expectedMemberName), reader)
  | .name, _ => (.error (reader.mistake .expectedMemberName), reader)
  | _, _ => reader.readValue b

/-- The reader behind a comma. -/
def passComma (reader : JsonReader) : JsonReader :=
  { reader.advance 1 with
    place := if reader.containers.head? = some .object then .name else .value }

/-- Reads the next token, spaces and a comma before it included; none if the text is over where a
document may be missing, or the document is complete. -/
def readToken (reader : JsonReader) : Except StreamError (Option Token) × JsonReader :=
  if reader.place = .done then (.ok none, reader)
  else
    let reader := reader.skipSpaces
    match reader.nextByte with
    | .error e => (.error e, reader)
    | .ok none => (.ok none, reader)
    | .ok (some b) =>
      if reader.place = .comma then
        match Char.ofUInt8 b with
        | ']' => let (result, reader) := reader.readClose .array; (result.map some, reader)
        | '}' => let (result, reader) := reader.readClose .object; (result.map some, reader)
        | ',' =>
          -- A comma is no token: what follows it is, in the same step.
          let reader := reader.passComma.skipSpaces
          match reader.nextByte with
          | .error e => (.error e, reader)
          | .ok none => (.ok none, reader)
          | .ok (some b) => let (result, reader) := reader.readElement b; (result.map some, reader)
        | _ => (.error (reader.mistake .expectedCommaOrClose), reader)
      else let (result, reader) := reader.readElement b; (result.map some, reader)

/-- Checks that the document is complete and that only spaces follow it.  A document that is
not complete fails as a text that breaks off. -/
def finish (reader : JsonReader) : Except StreamError Unit × JsonReader :=
  if reader.place = .done then
    let reader := reader.skipSpaces
    match reader.peekByte with
    | .error e => (.error e, reader)
    | .ok none => (.ok (), reader)
    | .ok (some _) => (.error (reader.mistake .trailingCharacters), reader)
  else (.error .unexpectedEnd, reader)

/-! ### Every token takes a byte -/

@[simp] theorem length_advance (reader : JsonReader) (count : Nat) :
    (reader.advance count).rest.length = reader.rest.length - count :=
  List.length_drop

/-- Behind spaces there is no more left to read. -/
theorem length_skipSpaces_le (reader : JsonReader) :
    reader.skipSpaces.rest.length ≤ reader.rest.length := by
  simp [skipSpaces]

@[simp] theorem rest_finishValue (reader : JsonReader) : reader.finishValue.rest = reader.rest :=
  rfl

/-- A byte that shows is left to be read. -/
theorem length_pos_of_peekByte {reader : JsonReader} {b : UInt8}
    (h : reader.peekByte = .ok (some b)) : 0 < reader.rest.length := by
  unfold peekByte at h
  grind

/-- So is one that shows behind spaces. -/
theorem length_pos_of_nextByte {reader : JsonReader} {b : UInt8}
    (h : reader.nextByte = .ok (some b)) : 0 < reader.rest.length := by
  unfold nextByte at h
  grind [→ length_pos_of_peekByte]

/-- A word, read to its end or to the letter that is wrong, leaves no more than there
was. -/
theorem length_readWord_le (word : List Char) (reader : JsonReader) :
    (readWord word reader).2.rest.length ≤ reader.rest.length := by
  fun_induction readWord word reader <;> grind [length_advance]

/-- A word that has been read has taken as many bytes as it has letters.  So a scalar that
is written as a word makes the text shorter. -/
theorem length_of_readWord {word : List Char} {reader reader' : JsonReader}
    (h : readWord word reader = (.ok (), reader')) :
    reader'.rest.length + word.length = reader.rest.length := by
  fun_induction readWord word reader with
  | case1 => grind
  | case2 => cases h
  | case3 => cases h
  | case4 _ _ _ hpeek ih =>
    have := length_pos_of_peekByte hpeek
    have := ih h
    grind [length_advance]
  | case5 => cases h

/-- A literal that ends has its closing quote at least. -/
theorem length_pos_of_literalLength? {escaped : Bool} {bytes : List UInt8} {count : Nat}
    (h : literalLength? escaped bytes = some count) : 0 < count ∧ 0 < bytes.length := by
  unfold literalLength? at h
  grind [Option.map_eq_some_iff]

/-- A string leaves no more to read than there was, whether or not it can be decoded. -/
theorem length_readString_le (reader : JsonReader) :
    reader.readString.2.rest.length ≤ reader.rest.length := by
  unfold readString
  grind [length_advance]

/-- A string that has been read has taken its opening quote and what stands behind it. -/
theorem length_lt_of_readString {reader reader' : JsonReader} {s : String}
    (h : reader.readString = (.ok s, reader')) : reader'.rest.length < reader.rest.length := by
  unfold readString at h
  grind [length_advance, → length_pos_of_literalLength?]

/-- A number leaves no more to read than there was. -/
theorem length_readNumber_le (reader : JsonReader) :
    reader.readNumber.2.rest.length ≤ reader.rest.length := by
  unfold readNumber
  grind [length_advance]

/-- A number that has been read has taken a byte, since no number has an empty text. -/
theorem length_lt_of_readNumber {reader reader' : JsonReader} {n : Number}
    (h : reader.readNumber = (.ok n, reader')) : reader'.rest.length < reader.rest.length := by
  unfold readNumber at h
  dsimp only at h
  -- Without a byte left, or with a run of no bytes, the text would be empty.
  have hne : reader.rest ≠ [] := by
    intro hnil
    simp only [hnil, List.takeWhile_nil, List.map_nil] at h
    split at h
    · cases h
    · rw [show Number.ofText? (String.ofList []) = none by decide] at h
      cases h
  have hlen : 0 < reader.rest.length := List.length_pos_iff.2 hne
  have htake : (reader.rest.takeWhile JsonByte.inNumeral).length ≠ 0 := by
    intro hzero
    rw [List.length_eq_zero_iff] at hzero
    simp only [hzero, List.map_nil] at h
    split at h
    · cases h
    · rw [show Number.ofText? (String.ofList []) = none by decide] at h
      cases h
  split at h
  · cases h
  · split at h
    · cases h
      simp only [length_advance]
      omega
    · cases h

/-- Handing on a word changes nothing of what is left to read. -/
theorem length_scalarToken (value : Scalar) (result : Except StreamError Unit × JsonReader) :
    (scalarToken value result).2.rest = result.2.rest := by
  unfold scalarToken
  grind [rest_finishValue]

/-- The first token of a value leaves no more to read than there was. -/
theorem length_readValue_le (reader : JsonReader) (b : UInt8) :
    (reader.readValue b).2.rest.length ≤ reader.rest.length := by
  unfold readValue
  have := length_readString_le reader
  have := length_readNumber_le reader
  split <;> grind [length_scalarToken, length_readWord_le, length_advance, rest_finishValue]

/-- A word of at least one letter, once read, has taken a byte. -/
theorem length_lt_of_scalarToken {value : Scalar} {word : List Char} {reader reader' : JsonReader}
    {token : Token} (hword : 0 < word.length)
    (h : scalarToken value (readWord word reader) = (.ok token, reader')) :
    reader'.rest.length < reader.rest.length := by
  unfold scalarToken at h
  split at h
  · cases h
  next hread =>
    cases h
    have := length_of_readWord hread
    simp only [rest_finishValue]
    omega

/-- The first token of a value takes a byte: its bracket, or all of a scalar. -/
theorem length_lt_of_readValue {reader reader' : JsonReader} {b : UInt8} {token : Token}
    (hpos : 0 < reader.rest.length) (h : reader.readValue b = (.ok token, reader')) :
    reader'.rest.length < reader.rest.length := by
  unfold readValue at h
  split at h
  · -- The two brackets take the byte that was seen.
    cases h
    exact Nat.lt_of_le_of_lt (Nat.le_of_eq (length_advance reader 1)) (Nat.sub_one_lt (by omega))
  · cases h
    exact Nat.lt_of_le_of_lt (Nat.le_of_eq (length_advance reader 1)) (Nat.sub_one_lt (by omega))
  · split at h
    · cases h
    next hread =>
      simp only [Prod.mk.injEq] at h
      rw [← h.2, rest_finishValue]
      exact length_lt_of_readString hread
  · exact length_lt_of_scalarToken (by decide) h
  · exact length_lt_of_scalarToken (by decide) h
  · exact length_lt_of_scalarToken (by decide) h
  · split at h
    · split at h
      · cases h
      next hread =>
        simp only [Prod.mk.injEq] at h
        rw [← h.2, rest_finishValue]
        exact length_lt_of_readNumber hread
    · cases h

/-- A name leaves no more to read than there was, even where no colon follows. -/
theorem length_readName_le (reader : JsonReader) :
    reader.readName.2.rest.length ≤ reader.rest.length := by
  unfold readName
  have := length_readString_le reader
  grind [length_advance, length_skipSpaces_le]

/-- A name that has been read has taken its quotes, and the colon on top. -/
theorem length_lt_of_readName {reader reader' : JsonReader} {token : Token}
    (h : reader.readName = (.ok token, reader')) : reader'.rest.length < reader.rest.length := by
  unfold readName at h
  grind [length_advance, length_skipSpaces_le, → length_lt_of_readString]

/-- A closing bracket leaves no more to read than there was; one that does not fit is not
taken. -/
theorem length_readClose_le (reader : JsonReader) (container : Container) :
    (reader.readClose container).2.rest.length ≤ reader.rest.length := by
  unfold readClose
  grind [length_advance, rest_finishValue]

/-- A bracket that closes has taken a byte. -/
theorem length_lt_of_readClose {reader reader' : JsonReader} {container : Container}
    {token : Token} (hpos : 0 < reader.rest.length)
    (h : reader.readClose container = (.ok token, reader')) :
    reader'.rest.length < reader.rest.length := by
  unfold readClose at h
  grind [length_advance, rest_finishValue]

/-- Where no comma may stand, a token leaves no more to read than there was. -/
theorem length_readElement_le (reader : JsonReader) (b : UInt8) :
    (reader.readElement b).2.rest.length ≤ reader.rest.length := by
  unfold readElement
  split <;>
    first
      | exact length_readClose_le ..
      | exact length_readValue_le ..
      | exact length_readName_le _
      | exact Nat.le_refl _

/-- Where no comma may stand, a token takes a byte, whichever kind it is. -/
theorem length_lt_of_readElement {reader reader' : JsonReader} {b : UInt8} {token : Token}
    (hpos : 0 < reader.rest.length) (h : reader.readElement b = (.ok token, reader')) :
    reader'.rest.length < reader.rest.length := by
  unfold readElement at h
  split at h <;>
    first
      | exact length_lt_of_readClose hpos h
      | exact length_lt_of_readValue hpos h
      | exact length_lt_of_readName h
      | cases h

/-- Behind a comma there is no more left to read. -/
theorem length_passComma_le (reader : JsonReader) :
    reader.passComma.rest.length ≤ reader.rest.length := by
  simp [passComma]

/-- A token leaves no more to read than there was, and a failure does not either: the reader
never moves back. -/
theorem length_readToken_le (reader : JsonReader) :
    reader.readToken.2.rest.length ≤ reader.rest.length := by
  unfold readToken
  have := length_skipSpaces_le reader
  have := length_passComma_le reader.skipSpaces
  have := length_skipSpaces_le reader.skipSpaces.passComma
  grind [length_readClose_le, length_readElement_le]

/-- What a result was before it was wrapped, if it is a success. -/
theorem map_some_eq {α : Type} {result : Except StreamError α} {a : α}
    (h : result.map some = .ok (some a)) : result = .ok a := by
  cases result with
  | error => cases h
  | ok => cases h; rfl

/-- No token is read without at least one byte, so a text has no more tokens than bytes. -/
theorem length_lt_of_readToken {reader reader' : JsonReader} {token : Token}
    (h : reader.readToken = (.ok (some token), reader')) :
    reader'.rest.length < reader.rest.length := by
  have h₁ := length_skipSpaces_le reader
  have h₂ := length_passComma_le reader.skipSpaces
  have h₃ := length_skipSpaces_le reader.skipSpaces.passComma
  unfold readToken at h
  dsimp only at h
  split at h
  · cases h
  · split at h
    · cases h
    · cases h
    next hnext =>
      have hpos := length_pos_of_nextByte hnext
      -- The spaces before the token are not counted: a byte has been seen behind them.
      refine Nat.lt_of_lt_of_le ?_ h₁
      split at h
      · split at h
        · simp only [Prod.mk.injEq] at h
          exact length_lt_of_readClose hpos (Prod.ext (map_some_eq h.1) h.2)
        · simp only [Prod.mk.injEq] at h
          exact length_lt_of_readClose hpos (Prod.ext (map_some_eq h.1) h.2)
        · split at h
          · cases h
          · cases h
          next hitem =>
            -- A comma is passed, and the token behind it takes a byte of its own.
            have hpos' := length_pos_of_nextByte hitem
            simp only [Prod.mk.injEq] at h
            have := length_lt_of_readElement hpos' (Prod.ext (map_some_eq h.1) h.2)
            omega
        · cases h
      · simp only [Prod.mk.injEq] at h
        exact length_lt_of_readElement hpos (Prod.ext (map_some_eq h.1) h.2)

instance : TokenProducer JsonReader where
  produce := readToken
  remaining reader := reader.rest.length
  remaining_produce_le := length_readToken_le
  remaining_lt_of_produce := length_lt_of_readToken

end JsonReader

end FieldMask
