import FieldMask.Proofs.Json.Step

namespace FieldMask

/-!
# The reader's parts

What the reader does at a position of a text, as far as it can be said without the grammar of
documents: the bytes that it looks at, the scalars that it reads, and which of its parts reads the
next token.

* `JsonText.Position.place` — how a reader calls a position.
* `JsonReader.At` — a reader stands at a position, in front of some bytes.
* `readWord_eq_ok`, `readString_eq_ok`, `readNumber_eq_ok` — what is read as a scalar is one;
  `readWord_of_rest`, `readString_of_literalText`, `readNumber_of_numberText` — scalars are read.
* `readElement_value`, `readElement_firstItem`, …, `readToken_eq` — what is asked at each position.
-/

namespace JsonText.Position

/-- How a reader calls a position.  It forgets the containers, which the reader keeps beside
it, except for whether there are any. -/
def place : Position → Place
  | value _ => .value
  | first .array _ => .firstItem
  | first .object _ => .firstName
  | name _ => .name
  | behind [] => .done
  | behind (_ :: _) => .comma

/-- The containers that are open at a position, innermost first. -/
def containers : Position → List Container
  | value containers => containers
  | first container outer => container :: outer
  | name outer => .object :: outer
  | behind containers => containers

/-- Where a comma may stand, a container is open. -/
theorem eq_behind_of_place {position : Position} (h : position.place = .comma) :
    ∃ container outer, position = behind (container :: outer) := by
  match position, h with
  | .behind (container :: outer), _ => exact ⟨container, outer, rfl⟩
  | .first .array _, h => cases h
  | .first .object _, h => cases h

/-- Where nothing more may stand, the document is complete. -/
theorem eq_behind_nil_of_place {position : Position} (h : position.place = .done) :
    position = behind [] := by
  match position, h with
  | .behind [], _ => rfl
  | .first .array _, h => cases h
  | .first .object _, h => cases h

/-- Where an element is due, neither a comma nor the end of the document may stand. -/
theorem place_of_element {position position' : Position} {bytes rest : List UInt8} {token : Token}
    (h : Element position bytes token position' rest) :
    position.place ≠ .comma ∧ position.place ≠ .done := by
  cases h <;> exact ⟨nofun, nofun⟩

/-- So it is where a part of a container is due. -/
theorem place_part (container : Container) (outer : List Container) :
    (part container outer).place ≠ .comma ∧ (part container outer).place ≠ .done := by
  cases container <;> exact ⟨nofun, nofun⟩

/-- So it is where the container could end in the place of its first part. -/
theorem place_first (container : Container) (outer : List Container) :
    (first container outer).place ≠ .comma ∧ (first container outer).place ≠ .done := by
  cases container <;> exact ⟨nofun, nofun⟩

end JsonText.Position

namespace JsonReader

open JsonText

variable {reader reader' : JsonReader} {position position' : Position} {container : Container}
  {containers outer : List Container} {bytes rest : List UInt8} {ending : Ending} {b : UInt8}
  {token : Token}

/-- A reader stands at a position in front of some bytes.  How many it has read before plays
no part in what it reads next. -/
structure At (reader : JsonReader) (position : Position) (bytes : List UInt8) (ending : Ending) :
    Prop where
  place : reader.place = position.place
  containers : reader.containers = position.containers
  rest : reader.rest = bytes
  ending : reader.ending = ending

/-- A reader starts where a value is to come. -/
theorem at_ofBytes (bytes : List UInt8) (ending : Ending) :
    (ofBytes bytes ending).At (.value []) bytes ending := ⟨rfl, rfl, rfl, rfl⟩

/-- What a reader passes over leaves it at its position. -/
theorem At.advance (h : reader.At position bytes ending) (count : Nat) :
    (reader.advance count).At position (reader.advance count).rest ending :=
  ⟨h.place, h.containers, rfl, h.ending⟩

/-- A reader that has finished a value stands behind it, inside of the innermost container
or at the end of the document. -/
theorem At.finishValue (hcontainers : reader.containers = containers)
    (hrest : reader.rest = rest) (hending : reader.ending = ending) :
    reader.finishValue.At (.behind containers) rest ending := by
  refine ⟨?_, hcontainers, hrest, hending⟩
  rw [JsonReader.finishValue]
  dsimp only
  rw [hcontainers]
  cases containers <;> rfl

/-! ### Bytes -/

/-- The next byte is the first of those not read yet. -/
theorem peekByte_of_rest (h : reader.rest = b :: bytes) : reader.peekByte = .ok (some b) := by
  rw [peekByte, h]

/-- A text that is over has no next byte. -/
theorem peekByte_of_nil (h : reader.rest = []) (hending : reader.ending = .closed) :
    reader.peekByte = .ok none := by
  rw [peekByte, h, hending]

/-- A byte that is seen is the first of those not read yet. -/
theorem rest_of_peekByte (h : reader.peekByte = .ok (some b)) :
    ∃ bytes, reader.rest = b :: bytes := by
  unfold peekByte at h
  split at h
  next heq =>
    cases h
    exact ⟨_, heq⟩
  · cases h
  · cases h

/-- There is no next byte only where the text is over. -/
theorem peekByte_eq_none (h : reader.peekByte = .ok none) :
    reader.rest = [] ∧ reader.ending = .closed := by
  unfold peekByte at h
  split at h
  · cases h
  next hrest hending => exact ⟨hrest, hending⟩
  · cases h

/-- The next byte is found whatever may stand at the place. -/
theorem nextByte_of_rest (h : reader.rest = b :: bytes) : reader.nextByte = .ok (some b) := by
  rw [nextByte, peekByte_of_rest h]

/-- A byte that is found is the first of those not read yet. -/
theorem rest_of_nextByte (h : reader.nextByte = .ok (some b)) :
    ∃ bytes, reader.rest = b :: bytes := by
  unfold nextByte at h
  split at h
  · cases h
  next hpeek =>
    cases h
    exact rest_of_peekByte hpeek
  · split at h <;> cases h

/-- What is left behind some bytes is what follows them. -/
theorem rest_advance_length (piece : List UInt8) (h : reader.rest = piece ++ rest) :
    (reader.advance piece.length).rest = rest := by
  show reader.rest.drop piece.length = rest
  rw [h, List.drop_left]

/-- What is left behind the spaces is what follows all of them. -/
theorem rest_skipSpaces (reader : JsonReader) :
    reader.skipSpaces.rest = reader.rest.dropWhile JsonByte.isSpace :=
  rest_advance_length _ List.takeWhile_append_dropWhile.symm

/-- What is skipped are spaces. -/
theorem spaces_skipSpaces (reader : JsonReader) : Spaces reader.rest reader.skipSpaces.rest := by
  rw [rest_skipSpaces]
  exact .dropWhile reader.rest

/-- A byte that could be a token is reached by passing over spaces. -/
theorem rest_skipSpaces_of_spaces (h : Spaces reader.rest (b :: bytes))
    (hb : JsonByte.isSpace b = false) : reader.skipSpaces.rest = b :: bytes := by
  rw [rest_skipSpaces, h.dropWhile_cons hb]

/-! ### Scalars -/

/-- What is read as a word is the word, letter by letter. -/
theorem readWord_eq_ok {word : List Char} (hword : ∀ c ∈ word, c.toNat < 0x80)
    (h : readWord word reader = (.ok (), reader')) :
    (∃ count, reader' = reader.advance count) ∧ reader.rest = utf8Bytes word ++ reader'.rest := by
  fun_induction readWord word reader with
  | case1 reader =>
    cases h
    exact ⟨⟨0, rfl⟩, rfl⟩
  | case2 => cases h
  | case3 => cases h
  -- The letter that has been compared is one byte, and the others follow it.
  | case4 reader word b hpeek ih =>
    obtain ⟨bytes, hrest⟩ := rest_of_peekByte hpeek
    obtain ⟨⟨count, rfl⟩, htail⟩ := ih (fun c hc => hword c (List.mem_cons_of_mem _ hc)) h
    have hletter : String.utf8EncodeChar (Char.ofUInt8 b) = [b] :=
      utf8EncodeChar_ofUInt8 (hword _ List.mem_cons_self)
    refine ⟨⟨1 + count, ?_⟩, ?_⟩
    · simp only [advance, List.drop_drop, Nat.add_assoc]
    · rw [utf8Bytes_cons, hletter, List.append_assoc, ← htail]
      show _ = b :: reader.rest.drop 1
      rw [hrest]
      rfl
  | case5 => cases h

/-- A word that stands there is read, whatever follows it.  The induction is on the word,
letter by letter, as it is read. -/
theorem readWord_of_rest {word : List Char} (hword : ∀ c ∈ word, c.toNat < 0x80)
    (h : reader.rest = utf8Bytes word ++ rest) :
    ∃ count, readWord word reader = (.ok (), reader.advance count) ∧
      (reader.advance count).rest = rest := by
  induction word generalizing reader with
  | nil => exact ⟨0, rfl, h⟩
  | cons letter word ih =>
    have hletter := hword letter List.mem_cons_self
    rw [utf8Bytes_cons, utf8EncodeChar_of_ascii hletter, List.append_assoc] at h
    have hnext : (reader.advance 1).rest = utf8Bytes word ++ rest := rest_advance_length _ h
    obtain ⟨count, hread, hrest⟩ := ih (fun c hc => hword c (List.mem_cons_of_mem _ hc)) hnext
    have hall : (reader.advance 1).advance count = reader.advance (1 + count) := by
      simp only [advance, List.drop_drop, Nat.add_assoc]
    rw [hall] at hread hrest
    refine ⟨1 + count, ?_, hrest⟩
    rw [readWord, peekByte_of_rest h]
    dsimp only
    rw [if_pos (ofUInt8_toUInt8 hletter), hread]

/-- What is read as a string is a literal.  It was read from the bytes through its closing
quote alone, so it has to be seen that nothing of these is left. -/
theorem readString_eq_ok {s : String} (hrest : reader.rest = 0x22 :: bytes)
    (h : reader.readString = (.ok s, reader')) :
    (∃ count, reader' = reader.advance count) ∧ LiteralText reader.rest s reader'.rest := by
  have hbody : (reader.advance 1).rest = bytes := rest_advance_length [0x22] hrest
  unfold readString at h
  dsimp only at h
  rw [hbody] at h
  split at h
  · split at h <;> cases h
  next count hcount =>
    split at h
    next hread =>
      cases h
      have hchars := Quoted.readString_eq_ok_iff.1 hread
      obtain rfl := hchars.eq_nil hcount
      obtain ⟨body, htake, -, hframe⟩ := hchars.exists_body
      rw [List.append_nil] at htake
      -- What is a literal in front of nothing is one in front of the rest of the text.
      have hall : LiteralText (0x22 :: bytes) s (bytes.drop count) := by
        refine .mk ?_
        have := hframe (bytes.drop count)
        rwa [← htake, List.take_append_drop] at this
      refine ⟨⟨1 + count, ?_⟩, ?_⟩
      · simp only [advance, List.drop_drop, Nat.add_assoc]
      · rw [hrest]
        show LiteralText _ s ((reader.advance 1).rest.drop count)
        rwa [hbody]
    · cases h

/-- A literal that stands there is read: its closing quote is the first one that nothing
escapes. -/
theorem readString_of_literalText {s : String} (h : LiteralText reader.rest s rest) :
    ∃ count, reader.readString = (.ok s, reader.advance count) ∧
      (reader.advance count).rest = rest := by
  generalize hrest : reader.rest = all at h
  obtain @⟨bytes, _, _, hchars⟩ := h
  have hbody : (reader.advance 1).rest = bytes := rest_advance_length [0x22] hrest
  obtain ⟨body, rfl, hlength, hframe⟩ := hchars.exists_body
  have hread : Quoted.readString body = .ok (s, []) := by
    rw [Quoted.readString_eq_ok_iff]
    exact List.append_nil body ▸ hframe []
  refine ⟨1 + body.length, ?_, ?_⟩
  · rw [readString]
    dsimp only
    rw [hbody, hlength]
    dsimp only
    rw [List.take_left, hread]
    simp only [advance, List.drop_drop, Nat.add_assoc]
  · exact rest_advance_length (0x22 :: body) hrest ▸ by
      rw [List.length_cons, Nat.add_comm]

/-- What is read as a number is a numeral, and the number is what it stands for.  The reader
has moved behind it, and nothing else has changed. -/
theorem readNumber_eq_ok {n : Number} (h : reader.readNumber = (.ok n, reader')) :
    (∃ count, reader' = reader.advance count) ∧
      ∃ cs, NumberText cs n ∧ reader.rest = utf8Bytes cs ++ reader'.rest := by
  unfold readNumber at h
  dsimp only at h
  split at h
  · cases h
  · split at h
    next hnumber =>
      cases h
      refine ⟨⟨_, rfl⟩, _, Number.ofText?_eq_some_iff.1 hnumber, ?_⟩
      rw [utf8Bytes_map_ofUInt8 fun b hb =>
        toNat_lt_of_inNumeral (List.all_eq_true.1 List.all_takeWhile b hb),
        rest_advance_length _ List.takeWhile_append_dropWhile.symm, List.takeWhile_append_dropWhile]
    · cases h

/-- A numeral is read as its number if no byte follows that could be part of one, and the
end of the text is known. -/
theorem readNumber_of_numberText {cs : List Char} {n : Number} (h : NumberText cs n)
    (hrest : reader.rest = utf8Bytes cs ++ rest) (hends : EndsNumeral rest)
    (hending : reader.ending = .closed) :
    ∃ count, reader.readNumber = (.ok n, reader.advance count) ∧
      (reader.advance count).rest = rest := by
  have hrun : reader.rest.takeWhile JsonByte.inNumeral = utf8Bytes cs := by
    rw [hrest]
    exact h.numeral.takeWhile hends
  -- Where the input fails, nobody knows whether the number goes on; here it does not fail.
  have hpeek (r : JsonReader) (hr : r.ending = .closed) : ∃ b?, r.peekByte = .ok b? := by
    cases hbytes : r.rest with
    | nil => exact ⟨none, peekByte_of_nil hbytes hr⟩
    | cons b bytes => exact ⟨some b, peekByte_of_rest hbytes⟩
  obtain ⟨b?, hb⟩ := hpeek (reader.advance (utf8Bytes cs).length) hending
  refine ⟨(utf8Bytes cs).length, ?_, rest_advance_length _ hrest⟩
  rw [readNumber, hrun, hb, map_ofUInt8_utf8Bytes h.numeral.toNat_lt,
    Number.ofText?_eq_some_iff.2 h]

/-! ### The places where an element may stand -/

/-- Where a value may stand, a value is read. -/
theorem readElement_value (h : reader.place = .value) :
    reader.readElement b = reader.readValue b := by
  rw [readElement, h]

/-- Where an item may stand or its array may end, the byte tells which of them is read. -/
theorem readElement_firstItem (h : reader.place = .firstItem) :
    reader.readElement b =
      if Char.ofUInt8 b = ']' then reader.readClose .array else reader.readValue b := by
  rw [readElement, h]
  split <;> simp_all

/-- Behind a comma in an object, a name is read and nothing else. -/
theorem readElement_name (h : reader.place = .name) :
    reader.readElement b =
      if Char.ofUInt8 b = '"' then reader.readName
      else (.error (reader.mistake .expectedMemberName), reader) := by
  rw [readElement, h]
  split <;> simp_all

/-- Where a member may stand or its object may end, a name or a bracket is read. -/
theorem readElement_firstName (h : reader.place = .firstName) :
    reader.readElement b =
      if Char.ofUInt8 b = '}' then reader.readClose .object
      else if Char.ofUInt8 b = '"' then reader.readName
      else (.error (reader.mistake .expectedMemberName), reader) := by
  rw [readElement, h]
  split <;> simp_all

/-- Reads the next token behind a part of a container: a closing bracket, or what stands
behind a comma. -/
def readBehind (reader : JsonReader) (b : UInt8) :
    Except StreamError (Option Token) × JsonReader :=
  match Char.ofUInt8 b with
  | ']' => let (result, reader) := reader.readClose .array; (result.map some, reader)
  | '}' => let (result, reader) := reader.readClose .object; (result.map some, reader)
  | ',' =>
    let reader := reader.passComma.skipSpaces
    match reader.nextByte with
    | .error e => (.error e, reader)
    | .ok none => (.ok none, reader)
    | .ok (some b) => let (result, reader) := reader.readElement b; (result.map some, reader)
  | _ => (.error (reader.mistake .expectedCommaOrClose), reader)

/-- Both brackets are read alike. -/
theorem readBehind_closing (reader : JsonReader) (container : Container) :
    reader.readBehind container.closing =
      ((reader.readClose container).1.map some, (reader.readClose container).2) := by
  cases container <;> rfl

/-- Behind a comma an element is read, with spaces before it. -/
theorem readBehind_comma (reader : JsonReader) :
    reader.readBehind 0x2C =
      match reader.passComma.skipSpaces.nextByte with
      | .error e => (.error e, reader.passComma.skipSpaces)
      | .ok none => (.ok none, reader.passComma.skipSpaces)
      | .ok (some b) =>
        ((reader.passComma.skipSpaces.readElement b).1.map some,
          (reader.passComma.skipSpaces.readElement b).2) := rfl

/-- What a token begins with decides on how it is read.  The branch behind a part of a
container has got a name of its own here. -/
theorem readToken_eq (reader : JsonReader) :
    reader.readToken =
      if reader.place = .done then (.ok none, reader)
      else
        match reader.skipSpaces.nextByte with
        | .error e => (.error e, reader.skipSpaces)
        | .ok none => (.ok none, reader.skipSpaces)
        | .ok (some b) =>
          if reader.place = .comma then reader.skipSpaces.readBehind b
          else
            let (result, reader) := reader.skipSpaces.readElement b
            (result.map some, reader) := rfl

/-- Behind a complete document there is no further token, and the reader stays where it is. -/
theorem At.readToken_done (hat : reader.At (.behind []) bytes ending) :
    reader.readToken = (.ok none, reader) := if_pos hat.place

/-- Behind a comma the reader stands where a part of the innermost container is due.  An
array goes on with a value, and an object with a name. -/
theorem At.passComma (hat : reader.At (.behind (container :: outer)) (b :: bytes) ending) :
    reader.passComma.At (.part container outer) bytes ending := by
  obtain ⟨hplace, hcontainers, hrest, rfl⟩ := hat
  have hhead : reader.containers.head? = some container := by rw [hcontainers]; rfl
  refine ⟨?_, ?_, rest_advance_length [b] hrest, rfl⟩
  · rw [JsonReader.passComma]
    dsimp only
    rw [hhead]
    cases container <;> rfl
  · show reader.containers = _
    rw [hcontainers]
    cases container <;> rfl

/-- Spaces do not lead to another position. -/
theorem At.skipSpaces (hat : reader.At position bytes ending)
    (hrest : reader.skipSpaces.rest = b :: rest) :
    reader.skipSpaces.At position (b :: rest) ending ∧ Spaces bytes (b :: rest) := by
  constructor
  · exact ⟨hat.place, hat.containers, hrest, hat.ending⟩
  · rw [← hat.rest, ← hrest]
    exact spaces_skipSpaces reader

/-- Behind the spaces that part it from the next byte a reader stands in front of that byte. -/
theorem At.skipSpaces_of_spaces (hat : reader.At position bytes ending)
    (hspaces : Spaces bytes (b :: rest)) (hb : JsonByte.isSpace b = false) :
    reader.skipSpaces.At position (b :: rest) ending :=
  (hat.skipSpaces (rest_skipSpaces_of_spaces (hat.rest ▸ hspaces) hb)).1

end JsonReader

end FieldMask
