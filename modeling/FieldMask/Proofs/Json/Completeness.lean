import FieldMask.Proofs.Json.Reader

namespace FieldMask.JsonReader

open JsonText

/-!
# The next token is read

* `readValue_of_scalarText`, `readValue_of_element`, `readElement_of_element`, … — what is read by
  way of its first byte.
* `readToken_of_comma` — behind a comma the reader goes on like at the start of a part.
* `readToken_of_step` — the next token by the grammar is read, if no numeral goes on behind it, and
  the reader then stands where the token leads.
-/

variable {reader reader' : JsonReader} {position position' : Position} {container : Container}
  {containers outer : List Container} {bytes rest : List UInt8} {ending : Ending} {b : UInt8}
  {token : Token}

/-- What begins with a quote is read as a string. -/
theorem readValue_quote : reader.readValue Quoted.quote =
    match reader.readString with
    | (.error e, reader) => (.error e, reader)
    | (.ok s, reader) => (.ok (.scalar (.string s)), reader.finishValue) := rfl

/-- What begins like a numeral is read as a number.  The other cases of the definition are
told apart from it by their first characters. -/
theorem readValue_numeral (hb : Char.ofUInt8 b = '-' ∨ (Char.ofUInt8 b).isDigit = true) :
    reader.readValue b =
      match reader.readNumber with
      | (.error e, reader) => (.error e, reader)
      | (.ok n, reader) => (.ok (.scalar (.number n)), reader.finishValue) := by
  rw [readValue]
  split
  all_goals first
    | exact if_pos hb
    | simp_all

/-- A word is read as the scalar that it stands for.  The three words are read alike. -/
theorem scalarToken_of_word {word : List Char} (value : Scalar)
    (hascii : ∀ c ∈ word, c.toNat < 0x80) (hrest : reader.rest = utf8Bytes word ++ rest)
    (hcontainers : reader.containers = containers) (hending : reader.ending = ending) :
    ∃ reader', scalarToken value (readWord word reader) = (.ok (.scalar value), reader') ∧
      reader'.At (.behind containers) rest ending := by
  obtain ⟨count, hread, hbehind⟩ := readWord_of_rest hascii hrest
  have hat : (reader.advance count).finishValue.At (.behind containers) rest ending :=
    .finishValue hcontainers hbehind hending
  exact ⟨_, by rw [hread]; rfl, hat⟩

/-- A scalar is read as one, by way of its first byte. -/
theorem readValue_of_scalarText {value : Scalar} (hcontainers : reader.containers = containers)
    (hending : reader.ending = .closed) (h : ScalarText reader.rest value rest)
    (hends : ∀ n, value = .number n → EndsNumeral rest) :
    ∃ b bytes reader', reader.rest = b :: bytes ∧
      reader.readValue b = (.ok (.scalar value), reader') ∧
      reader'.At (.behind containers) rest .closed := by
  have hfinish {count : Nat} (h : (reader.advance count).rest = rest) :
      (reader.advance count).finishValue.At (.behind containers) rest .closed :=
    .finishValue hcontainers h hending
  generalize hrest : reader.rest = first at h
  cases h with
  | null =>
    obtain ⟨reader', hread, hat⟩ :=
      scalarToken_of_word .null (by simp) hrest hcontainers hending
    exact ⟨0x6E, _, reader', rfl, hread, hat⟩
  | true =>
    obtain ⟨reader', hread, hat⟩ :=
      scalarToken_of_word (.bool true) (by simp) hrest hcontainers hending
    exact ⟨0x74, _, reader', rfl, hread, hat⟩
  | false =>
    obtain ⟨reader', hread, hat⟩ :=
      scalarToken_of_word (.bool false) (by simp) hrest hcontainers hending
    exact ⟨0x66, _, reader', rfl, hread, hat⟩
  | @number cs n _ h =>
    -- A numeral begins with a minus or a digit, and is read to its end.
    obtain ⟨count, hread, hbehind⟩ := readNumber_of_numberText h hrest (hends n rfl) hending
    have hascii := h.numeral.toNat_lt
    obtain ⟨c, more, rfl, hc⟩ := head_numeralText h.numeral
    have hlt := hascii c List.mem_cons_self
    refine ⟨c.toUInt8, utf8Bytes more ++ rest, _, ?_, ?_, hfinish hbehind⟩
    · rw [utf8Bytes_cons, utf8EncodeChar_of_ascii hlt]
      rfl
    · rw [readValue_numeral ((ofUInt8_toUInt8 hlt).symm ▸ hc), hread]
  | @string _ _ s h =>
    -- The literal is what the reader has left, until it has been read.
    rw [← hrest] at h
    obtain ⟨count, hread, hbehind⟩ := readString_of_literalText h
    rw [hrest] at h
    cases h
    refine ⟨0x22, _, _, rfl, ?_, hfinish hbehind⟩
    refine readValue_quote.trans ?_
    rw [hread]

/-- The first token of a value is read as one: a scalar, or the bracket that opens a container. -/
theorem readValue_of_element (hcontainers : reader.containers = containers)
    (hending : reader.ending = .closed)
    (h : Element (.value containers) reader.rest token position rest)
    (hends : ∀ n, token = .scalar (.number n) → EndsNumeral rest) :
    ∃ b bytes reader', reader.rest = b :: bytes ∧ reader.readValue b = (.ok token, reader') ∧
      reader'.At position rest .closed := by
  generalize hrest : reader.rest = first at h
  cases h with
  | scalar h =>
    rw [← hrest] at h
    have hnumber : ∀ n, _ = Scalar.number n → EndsNumeral rest :=
      fun n hvalue => hends n (congrArg _ hvalue)
    exact hrest ▸ readValue_of_scalarText hcontainers hending h hnumber
  | @enter container =>
    have hbehind : (reader.advance 1).rest = rest :=
      rest_advance_length [container.opening] hrest
    cases container with
    | array => exact ⟨0x5B, rest, _, rfl, rfl, rfl, congrArg _ hcontainers, hbehind, hending⟩
    | object => exact ⟨0x7B, rest, _, rfl, rfl, rfl, congrArg _ hcontainers, hbehind, hending⟩

/-- A member's name is read as one, and the colon behind it with the spaces between them. -/
theorem readName_of_element (hcontainers : reader.containers = .object :: outer)
    (hending : reader.ending = .closed)
    (h : Element (.name outer) reader.rest token position rest) :
    ∃ bytes reader', reader.rest = 0x22 :: bytes ∧ reader.readName = (.ok token, reader') ∧
      reader'.At position rest .closed := by
  generalize hrest : reader.rest = first at h
  cases h with
  | name hname hcolon =>
    rw [← hrest] at hname
    -- The literal is read to its end, the spaces behind it are dropped, and the colon stands there.
    obtain ⟨count, hread, hbehind⟩ := readString_of_literalText hname
    rw [← hbehind] at hcolon
    have hspaced := rest_skipSpaces_of_spaces hcolon rfl
    rw [hrest] at hname
    cases hname
    refine ⟨_, { (reader.advance count).skipSpaces.advance 1 with place := .value }, rfl, ?_, rfl,
      hcontainers, rest_advance_length [0x3A] hspaced, hending⟩
    rw [readName, hread]
    dsimp only
    rw [peekByte_of_rest hspaced]
    exact if_pos rfl

/-- The bracket of the innermost container is read, whichever container it is. -/
theorem readClose_of_rest (hcontainers : reader.containers = container :: outer)
    (hrest : reader.rest = b :: rest) (hending : reader.ending = .closed) :
    ∃ reader', reader.readClose container = (.ok container.last, reader') ∧
      reader'.At (.behind outer) rest .closed := by
  refine ⟨finishValue { reader.advance 1 with containers := outer }, ?_, ?_⟩
  · unfold readClose
    rw [hcontainers]
    dsimp only
    rw [if_pos rfl]
    cases container <;> rfl
  · exact .finishValue rfl (rest_advance_length [b] hrest) hending

/-- An element is read as one, where one may stand and nothing else may.  By cases on the
element, each of which has a reader of its own. -/
theorem readElement_of_element (hat : reader.At position (b :: bytes) .closed)
    (h : Element position (b :: bytes) token position' rest)
    (hends : ∀ n, token = .scalar (.number n) → EndsNumeral rest) :
    ∃ reader', reader.readElement b = (.ok token, reader') ∧ reader'.At position' rest .closed := by
  obtain ⟨hplace, hcontainers, hrest, hending⟩ := hat
  match position with
  | .value containers =>
    obtain ⟨b', bytes', reader', hb, hread, hat'⟩ :=
      readValue_of_element hcontainers hending (hrest ▸ h) hends
    obtain ⟨rfl, -⟩ := List.cons.inj (hrest.symm.trans hb)
    exact ⟨reader', (readElement_value hplace).trans hread, hat'⟩
  | .name outer =>
    obtain ⟨bytes', reader', hb, hread, hat'⟩ := readName_of_element hcontainers hending (hrest ▸ h)
    obtain ⟨rfl, -⟩ := List.cons.inj (hrest.symm.trans hb)
    refine ⟨reader', ?_, hat'⟩
    rw [readElement_name hplace]
    exact (if_pos rfl).trans hread

/-- So it is where the container of which it is the first part could end: the part does not
begin with its closing bracket. -/
theorem readElement_of_part (hat : reader.At (.first container outer) (b :: bytes) .closed)
    (h : Element (.part container outer) (b :: bytes) token position rest)
    (hends : ∀ n, token = .scalar (.number n) → EndsNumeral rest) :
    ∃ reader', reader.readElement b = (.ok token, reader') ∧ reader'.At position rest .closed := by
  obtain ⟨hplace, hcontainers, hrest, hending⟩ := hat
  cases container with
  | array =>
    -- An item does not begin with the bracket that would end the array.
    obtain ⟨_, _, hcons, -, hne, -⟩ := head_element h
    obtain ⟨rfl, -⟩ := List.cons.inj hcons
    obtain ⟨b', bytes', reader', hb, hread, hat'⟩ :=
      readValue_of_element hcontainers hending (hrest ▸ h) hends
    obtain ⟨rfl, -⟩ := List.cons.inj (hrest.symm.trans hb)
    refine ⟨reader', ?_, hat'⟩
    rw [readElement_firstItem hplace]
    exact (if_neg fun hb => hne (eq_toUInt8_of_ofUInt8_eq hb)).trans hread
  | object =>
    obtain ⟨bytes', reader', hb, hread, hat'⟩ := readName_of_element hcontainers hending (hrest ▸ h)
    obtain ⟨rfl, -⟩ := List.cons.inj (hrest.symm.trans hb)
    refine ⟨reader', ?_, hat'⟩
    rw [readElement_firstName hplace]
    exact ((if_neg (by decide)).trans (if_pos rfl)).trans hread

/-- A token that no comma precedes is read by way of its first byte, which stands behind the
spaces. -/
theorem readToken_of_readElement (hat : reader.At position bytes ending)
    (hplace : position.place ≠ .comma ∧ position.place ≠ .done)
    (hspaces : Spaces bytes (b :: rest)) (hb : JsonByte.isSpace b = false)
    (hread : reader.skipSpaces.readElement b = (.ok token, reader')) :
    reader.readToken = (.ok (some token), reader') := by
  have hrest := rest_skipSpaces_of_spaces (hat.rest ▸ hspaces) hb
  rw [readToken_eq, if_neg (hat.place ▸ hplace.2), nextByte_of_rest hrest]
  dsimp only
  rw [if_neg (hat.place ▸ hplace.1), hread]
  rfl

/-- An element is the next token where it stands alone, with nothing but spaces before it. -/
theorem readToken_of_element {first : List UInt8} (hat : reader.At position bytes .closed)
    (hspaces : Spaces bytes first) (h : Element position first token position' rest)
    (hends : ∀ n, token = .scalar (.number n) → EndsNumeral rest) :
    ∃ reader', reader.readToken = (.ok (some token), reader') ∧
      reader'.At position' rest .closed := by
  obtain ⟨b, bytes', rfl, hb, -, -⟩ := head_element h
  obtain ⟨reader', hread, hat'⟩ :=
    readElement_of_element (hat.skipSpaces_of_spaces hspaces hb) h hends
  have hplace := Position.place_of_element h
  exact ⟨reader', readToken_of_readElement hat hplace hspaces hb hread, hat'⟩

/-- Behind a part of a container the next byte decides. -/
theorem readToken_of_behind (hat : reader.At (.behind (container :: outer)) bytes ending)
    (hspaces : Spaces bytes (b :: rest)) (hb : JsonByte.isSpace b = false) :
    reader.readToken = reader.skipSpaces.readBehind b := by
  have hrest := rest_skipSpaces_of_spaces (hat.rest ▸ hspaces) hb
  rw [readToken_eq, if_neg (hat.place ▸ Place.noConfusion), nextByte_of_rest hrest]
  exact if_pos hat.place

/-- Behind a comma the reader goes on like at the start of a part. -/
theorem readToken_of_comma (hat : reader.At (.behind (container :: outer)) bytes ending)
    (hcomma : Spaces bytes (0x2C :: rest)) :
    reader.skipSpaces.passComma.At (.part container outer) rest ending ∧
      reader.readToken = reader.skipSpaces.passComma.readToken := by
  have hpassed := (hat.skipSpaces_of_spaces hcomma rfl).passComma
  have hplace := Position.place_part container outer
  refine ⟨hpassed, ?_⟩
  rw [readToken_of_behind hat hcomma rfl, readBehind_comma, readToken_eq,
    if_neg (hpassed.place ▸ hplace.2)]
  simp only [if_neg (hpassed.place ▸ hplace.1)]

/-- The end of the innermost container is read as such behind the spaces before it. -/
theorem readClose_of_spaces (hat : reader.At position bytes .closed)
    (hcontainers : position.containers = container :: outer)
    (hspaces : Spaces bytes (container.closing :: rest)) :
    ∃ reader', reader.skipSpaces.readClose container = (.ok container.last, reader') ∧
      reader'.At (.behind outer) rest .closed := by
  have hspaced := hat.skipSpaces_of_spaces hspaces container.isSpace_closing
  exact readClose_of_rest (hspaced.containers.trans hcontainers) hspaced.rest hspaced.ending

/-- A container that has no part is closed where its first part could stand. -/
theorem readToken_of_empty (hat : reader.At (.first container outer) bytes .closed)
    (hspaces : Spaces bytes (container.closing :: rest)) :
    ∃ reader', reader.readToken = (.ok (some container.last), reader') ∧
      reader'.At (.behind outer) rest .closed := by
  have hplace := Position.place_first container outer
  have hb := container.isSpace_closing
  have hspaced := (hat.skipSpaces_of_spaces hspaces hb).place
  obtain ⟨reader', hread, hat'⟩ := readClose_of_spaces hat rfl hspaces
  refine ⟨reader', readToken_of_readElement hat hplace hspaces hb ?_, hat'⟩
  -- The bracket that is due is looked for before anything else.
  cases container with
  | array =>
    rw [readElement_firstItem hspaced]
    exact (if_pos rfl).trans hread
  | object =>
    rw [readElement_firstName hspaced]
    exact (if_pos rfl).trans hread

/-- **The next token is read.**  The next token by the grammar is read, and the reader then
stands where it leads; a numeral must not go on behind what is taken for a number.  The
cases are the rules by which a token follows another. -/
theorem readToken_of_step (hat : reader.At position bytes .closed)
    (h : Step position bytes token position' rest)
    (hends : ∀ n, token = .scalar (.number n) → EndsNumeral rest) :
    ∃ reader', reader.readToken = (.ok (some token), reader') ∧
      reader'.At position' rest .closed := by
  cases h with
  | element hspaces h => exact readToken_of_element hat hspaces h hends
  | @part container outer _ _ _ _ _ hspaces h =>
    obtain ⟨b, bytes', rfl, hb, -, -⟩ := head_element h
    obtain ⟨reader', hread, hat'⟩ :=
      readElement_of_part (hat.skipSpaces_of_spaces hspaces hb) h hends
    have hplace := Position.place_first container outer
    exact ⟨reader', readToken_of_readElement hat hplace hspaces hb hread, hat'⟩
  | empty hspaces => exact readToken_of_empty hat hspaces
  | more hcomma hspaces h =>
    obtain ⟨hpassed, htoken⟩ := readToken_of_comma hat hcomma
    rw [htoken]
    exact readToken_of_element hpassed hspaces h hends
  | @close container outer _ _ hspaces =>
    obtain ⟨reader', hread, hat'⟩ := readClose_of_spaces hat rfl hspaces
    refine ⟨reader', ?_, hat'⟩
    rw [readToken_of_behind hat hspaces container.isSpace_closing, readBehind_closing, hread]
    rfl

end FieldMask.JsonReader
