import FieldMask.Proofs.Json.Completeness
import FieldMask.Proofs.Json.Frame
import FieldMask.Proofs.Json.Offset
import Mathlib.Data.List.TakeWhile

namespace FieldMask

open JsonText

/-!
# Tokens that are cut

What the reader makes of a token of which only the first bytes are there.  It finds the end of the
text where it needs more, with one exception: the first bytes of a numeral are taken for a numeral
of their own, and they are one or they are not.

* `JsonText.spaces_cut` — where bytes are cut, they are all spaces or something follows the spaces.
* `JsonReader.readWord_cut`, `JsonReader.readString_cut`, `JsonReader.readNumber_cut` — scalars.
* `JsonReader.readValue_cut`, `JsonReader.readElement_cut` — values and elements.
-/

namespace JsonText

variable {position position' : Position} {bytes first rest missing : List UInt8} {b : UInt8}

/-- Bytes that are cut are all spaces, or they go on with what follows the spaces. -/
theorem spaces_cut (h : Spaces (bytes ++ missing) first) :
    Spaces bytes [] ∨ ∃ b more, first = b :: more ++ missing ∧ Spaces bytes (b :: more) := by
  obtain ⟨spaces, heq, hspaces⟩ := h
  rcases List.append_eq_append_iff.1 heq with ⟨between, rfl, -⟩ | ⟨between, rfl, rfl⟩
  · exact .inl (spaces_nil_iff.2 fun b hb => hspaces b (List.mem_append_left _ hb))
  · cases between with
    | nil =>
      rw [List.append_nil]
      exact .inl (spaces_nil_iff.2 hspaces)
    | cons b more => exact .inr ⟨b, more, rfl, spaces, rfl, hspaces⟩

/-- Bytes that are cut in front of a byte, or before, are all spaces if those up to there
are. -/
theorem spaces_cut_before {more : List UInt8} (h : Spaces (bytes ++ missing) (b :: rest))
    (hmissing : missing = more ++ rest) (hmore : more ≠ []) : Spaces bytes [] := by
  rcases spaces_cut h with hspaces | ⟨c, behind, heq, -⟩
  · exact hspaces
  · have hlength := congrArg List.length heq
    have hpos := List.length_pos_iff.2 hmore
    simp only [hmissing, List.length_cons, List.length_append] at hlength
    omega

/-- Some bytes are the first ones of a numeral, at least one but not all; the text from there on is
the whole numeral with what stands behind it. -/
def CutsNumeral (bytes text rest : List UInt8) : Prop :=
  bytes ≠ [] ∧ ∃ part cs n, bytes = utf8Bytes part ∧ part <+: cs ∧ part ≠ cs ∧ NumberText cs n ∧
    text = utf8Bytes cs ++ rest

end JsonText

namespace JsonReader

variable {reader reader' : JsonReader} {position position' : Position} {container : Container}
  {containers outer : List Container} {bytes rest missing : List UInt8} {b : UInt8} {token : Token}

/-! ### Scalars -/

/-- A word of which letters are missing is found too short, since the letters that are there
are its own. -/
theorem readWord_cut {word : List Char} (hword : ∀ c ∈ word, c.toNat < 0x80)
    (hcut : utf8Bytes word = reader.rest ++ missing) (hmissing : missing ≠ [])
    (hending : reader.ending = .closed) : (readWord word reader).1 = .error .unexpectedEnd := by
  induction word generalizing reader with
  | nil => exact absurd (List.append_eq_nil_iff.1 hcut.symm).2 hmissing
  | cons letter word ih =>
    cases hrest : reader.rest with
    | nil => rw [readWord, peekByte_of_nil hrest hending]
    | cons b bytes =>
      have hletter := hword letter List.mem_cons_self
      rw [utf8Bytes_cons, utf8EncodeChar_of_ascii hletter, hrest] at hcut
      obtain ⟨rfl, htail⟩ := List.cons.inj hcut
      have hnext : (reader.advance 1).rest = bytes := rest_advance_length [_] hrest
      rw [readWord, peekByte_of_rest hrest]
      dsimp only
      -- The letter fits, and the others are a word that is cut.
      rw [if_pos (ofUInt8_toUInt8 hletter)]
      refine ih (fun c hc => hword c (List.mem_cons_of_mem _ hc)) ?_ hending
      rw [hnext]
      exact htail

/-- Bytes behind the end of a literal do not move it.  By induction on the bytes up to the
quote that ends it. -/
theorem literalLength?_append {escaped : Bool} {count : Nat}
    (h : literalLength? escaped bytes = some count) (more : List UInt8) :
    literalLength? escaped (bytes ++ more) = some count := by
  induction bytes generalizing escaped count with
  | nil => cases h
  | cons b bytes ih =>
    rw [List.cons_append, literalLength?]
    rw [literalLength?] at h
    split at h
    next hquote =>
      rw [if_pos hquote]
      exact h
    next hquote =>
      obtain ⟨count, hcount, rfl⟩ := Option.map_eq_some_iff.1 h
      rw [if_neg hquote, ih hcount]
      rfl

/-- A literal of which bytes are missing is found too short: among those that are there no
quote ends it. -/
theorem readString_cut {literal : List UInt8} {s : String}
    (h : ∀ rest, LiteralText (literal ++ rest) s rest) (hcut : literal = reader.rest ++ missing)
    (hrest : reader.rest ≠ []) (hmissing : missing ≠ []) (hending : reader.ending = .closed) :
    reader.readString.1 = .error .unexpectedEnd := by
  obtain ⟨b, bytes, hbytes⟩ := List.exists_cons_of_ne_nil hrest
  have hliteral := h []
  rw [hcut, hbytes, List.append_nil] at hliteral
  obtain ⟨hchars⟩ := hliteral
  obtain ⟨body, hbody, hlength, -⟩ := hchars.exists_body
  have hbehind : (reader.advance 1).rest = bytes := rest_advance_length [_] hbytes
  have hnone : literalLength? false bytes = none := by
    cases hsome : literalLength? false bytes with
    | none => rfl
    | some count =>
      -- The quote would be one of the bytes that are missing.
      have hle := literalLength?_le hsome
      have heq := (literalLength?_append hsome missing).symm.trans hlength
      have hpos := List.length_pos_iff.2 hmissing
      have hall : (bytes ++ missing).length = (body ++ []).length := congrArg List.length hbody
      rw [List.length_append, List.append_nil] at hall
      cases heq
      omega
  have hspent : ((reader.advance 1).advance bytes.length).rest = [] :=
    rest_advance_length bytes (by rw [hbehind, List.append_nil])
  rw [readString]
  dsimp only
  rw [hbehind, hnone]
  dsimp only
  rw [peekByte_of_nil hspent hending]

/-- The bytes of a numeral that are left are read as a number, or they are malformed as one.
A reader takes them for the whole numeral, since the text ends behind them. -/
theorem readNumber_cut {cs : List Char} {n : Number} (h : NumberText cs n)
    (hcut : utf8Bytes cs = reader.rest ++ missing) (hmissing : missing ≠ [])
    (hending : reader.ending = .closed) :
    ∃ part, reader.rest = utf8Bytes part ∧ part <+: cs ∧ part ≠ cs ∧
      ((∃ behind, reader.readNumber = (.error (reader.mistake .malformedNumber), behind)) ∨
        ∃ n', reader.readNumber = (.ok n', reader.advance reader.rest.length)) := by
  have hbytes : ∀ b ∈ reader.rest, JsonByte.inNumeral b = true := fun b hb =>
    h.numeral.inNumeral b (hcut ▸ List.mem_append_left _ hb)
  have hpart : utf8Bytes (reader.rest.map Char.ofUInt8) = reader.rest :=
    utf8Bytes_map_ofUInt8 fun b hb => toNat_lt_of_inNumeral (hbytes b hb)
  refine ⟨reader.rest.map Char.ofUInt8, hpart.symm, ?_, ?_, ?_⟩
  · -- A numeral has only ASCII characters, so its bytes can be cut anywhere.
    refine ⟨missing.map Char.ofUInt8, ?_⟩
    rw [← List.map_append, ← hcut, map_ofUInt8_utf8Bytes h.numeral.toNat_lt]
  · rintro rfl
    rw [hpart] at hcut
    exact hmissing (List.append_right_eq_self.1 hcut.symm)
  · -- All bytes that are left are taken, and the end of the text follows them.
    have hrun : reader.rest.takeWhile JsonByte.inNumeral = reader.rest :=
      List.takeWhile_eq_self_iff.2 hbytes
    have hafter : (reader.advance reader.rest.length).rest = [] :=
      rest_advance_length reader.rest (List.append_nil _).symm
    rw [readNumber, hrun, peekByte_of_nil hafter hending]
    dsimp only
    cases Number.ofText? (String.ofList (reader.rest.map Char.ofUInt8)) with
    | none => exact .inl ⟨_, rfl⟩
    | some n' => exact .inr ⟨n', rfl⟩

/-! ### Elements -/

/-- A numeral that is cut is malformed, or it is read as a number and the text is over. -/
def ReadsCut (reader : JsonReader) (containers : List Container)
    (result : Except StreamError Token × JsonReader) : Prop :=
  (∃ behind, result = (.error (reader.mistake .malformedNumber), behind)) ∨
    ∃ n behind, result = (.ok (.scalar (.number n)), behind) ∧
      behind.At (.behind containers) [] .closed

/-- A word of which letters are missing is no token, whatever value it stands for. -/
theorem scalarToken_cut {word : List Char} (value : Scalar) (hword : ∀ c ∈ word, c.toNat < 0x80)
    (hcut : utf8Bytes word = reader.rest ++ missing) (hmissing : missing ≠ [])
    (hending : reader.ending = .closed) :
    (scalarToken value (readWord word reader)).1 = .error .unexpectedEnd := by
  have hread := readWord_cut hword hcut hmissing hending
  unfold scalarToken
  generalize readWord word reader = result at hread
  obtain ⟨_ | _, _⟩ := result <;> cases hread
  rfl

/-- A string of which bytes are missing is no token.  Its quote is there, so the reader looks for a
string. -/
theorem readValue_cut_string {literal : List UInt8} {s : String}
    (h : ∀ rest, LiteralText (literal ++ rest) s rest) (hcut : literal = reader.rest ++ missing)
    (hrest : reader.rest = b :: bytes) (hmissing : missing ≠ [])
    (hending : reader.ending = .closed) : (reader.readValue b).1 = .error .unexpectedEnd := by
  have hread := readString_cut h hcut (hrest ▸ List.cons_ne_nil b bytes) hmissing hending
  have hliteral := h []
  rw [hcut, hrest] at hliteral
  obtain ⟨-⟩ := hliteral
  show (reader.readValue Quoted.quote).1 = _
  rw [readValue_quote]
  generalize reader.readString = result at hread
  obtain ⟨_ | _, _⟩ := result <;> cases hread
  rfl

/-- A numeral of which bytes are missing begins with what a numeral may begin with, so the reader
looks for a number, and takes what is left for all of it. -/
theorem readValue_cut_number (hcontainers : reader.containers = containers) {cs : List Char}
    {n : Number} (h : NumberText cs n) (hcut : utf8Bytes cs = reader.rest ++ missing)
    (hrest : reader.rest = b :: bytes) (hmissing : missing ≠ [])
    (hending : reader.ending = .closed) :
    CutsNumeral (b :: bytes) (utf8Bytes cs ++ rest) rest ∧
      reader.ReadsCut containers (reader.readValue b) := by
  obtain ⟨part, hpart, hprefix, hne, hread⟩ := readNumber_cut h hcut hmissing hending
  have hb : Char.ofUInt8 b = '-' ∨ (Char.ofUInt8 b).isDigit = true := by
    obtain ⟨c, digits, rfl, hc⟩ := head_numeralText h.numeral
    have hlt := h.numeral.toNat_lt c List.mem_cons_self
    rw [hrest, utf8Bytes_cons, utf8EncodeChar_of_ascii hlt] at hcut
    rw [← (List.cons.inj hcut).1, ofUInt8_toUInt8 hlt]
    exact hc
  refine ⟨⟨List.cons_ne_nil b bytes, part, cs, n, hrest ▸ hpart, hprefix, hne, h, rfl⟩, ?_⟩
  rw [ReadsCut, readValue_numeral hb]
  rcases hread with ⟨behind, hread⟩ | ⟨n', hread⟩
  · rw [hread]
    exact .inl ⟨behind, rfl⟩
  · rw [hread]
    refine .inr ⟨n', _, rfl, .finishValue hcontainers ?_ hending⟩
    exact rest_advance_length reader.rest (List.append_nil _).symm

/-- **A value that is cut is not read**, unless it is a numeral.  What is there of a word or
a string is found too short; what is there of a numeral is read as a number or malformed as
one.  A bracket is a single byte, so it is there in whole or not at all. -/
theorem readValue_cut (hcontainers : reader.containers = containers)
    (hending : reader.ending = .closed) (hrest : reader.rest = b :: bytes) {more : List UInt8}
    (h : Element (.value containers) (b :: bytes ++ (more ++ rest)) token position' rest)
    (hmore : more ≠ []) :
    (reader.readValue b).1 = .error .unexpectedEnd ∨
      (∃ n, token = .scalar (.number n)) ∧ position' = .behind containers ∧
        CutsNumeral (b :: bytes) (b :: bytes ++ (more ++ rest)) rest ∧
        reader.ReadsCut containers (reader.readValue b) := by
  generalize hall : b :: bytes ++ (more ++ rest) = all at h
  rw [← List.append_assoc, ← hrest] at hall
  cases h with
  | scalar h =>
    cases h with
    -- The first letter of a word is there, and the reader goes by it.
    | null =>
      have hcut := List.append_cancel_right hall
      obtain rfl : b = 0x6E := (List.cons.inj (hrest ▸ hcut)).1
      exact .inl (scalarToken_cut .null (by simp) hcut.symm hmore hending)
    | true =>
      have hcut := List.append_cancel_right hall
      obtain rfl : b = 0x74 := (List.cons.inj (hrest ▸ hcut)).1
      exact .inl (scalarToken_cut (.bool true) (by simp) hcut.symm hmore hending)
    | false =>
      have hcut := List.append_cancel_right hall
      obtain rfl : b = 0x66 := (List.cons.inj (hrest ▸ hcut)).1
      exact .inl (scalarToken_cut (.bool false) (by simp) hcut.symm hmore hending)
    | @number cs n _ h =>
      have hcut := List.append_cancel_right hall
      exact .inr ⟨⟨n, rfl⟩, rfl,
        readValue_cut_number hcontainers h hcut.symm hrest hmore hending⟩
    | @string _ _ s h =>
      obtain ⟨literal, rfl, hframe⟩ := h.frame
      have hcut := List.append_cancel_right hall
      exact .inl (readValue_cut_string hframe hcut.symm hrest hmore hending)
  | @enter container =>
    have hbracket : reader.rest ++ more = [container.opening] := List.append_cancel_right hall
    rw [hrest] at hbracket
    exact absurd (List.append_eq_nil_iff.1 (List.cons.inj hbracket).2).2 hmore

/-- A name that is cut, or its colon, is found missing. -/
theorem readName_cut (hending : reader.ending = .closed) (hrest : reader.rest = b :: bytes)
    {more : List UInt8}
    (h : Element (.name outer) (b :: bytes ++ (more ++ rest)) token position' rest)
    (hmore : more ≠ []) : b = 0x22 ∧ reader.readName.1 = .error .unexpectedEnd := by
  generalize hall : b :: bytes ++ (more ++ rest) = all at h
  cases h with
  | @name _ _ behind _ name hname hcolon =>
    have hquote : b = 0x22 := by
      obtain ⟨⟩ := hall ▸ hname
      rfl
    refine ⟨hquote, ?_⟩
    obtain ⟨literal, rfl, hframe⟩ := hname.frame
    -- Either the end of the name is missing, or the colon behind it.
    suffices hcut : (∃ missing, literal = reader.rest ++ missing ∧ missing ≠ []) ∨
        ∃ between, reader.rest = literal ++ between ∧ Spaces between [] by
      rcases hcut with ⟨missing, hliteral, hmissing⟩ | ⟨between, hliteral, hspaces⟩
      · have hread := readString_cut hframe hliteral (hrest ▸ List.cons_ne_nil b bytes) hmissing
          hending
        unfold readName
        generalize reader.readString = result at hread
        obtain ⟨_ | _, _⟩ := result <;> cases hread
        rfl
      · obtain ⟨count, hread, hbehind⟩ := readString_of_literalText (hliteral ▸ hframe between)
        have hnil : (reader.advance count).skipSpaces.rest = [] := by
          rw [rest_skipSpaces, hbehind, hspaces.dropWhile_eq]
          rfl
        rw [readName, hread]
        dsimp only
        rw [peekByte_of_nil hnil hending]
    rw [hrest]
    rcases List.append_eq_append_iff.1 hall with ⟨missing, hliteral, hbehind⟩ |
      ⟨between, hliteral, hbehind⟩
    · by_cases hnil : missing = []
      · subst hnil
        exact .inr ⟨[], by simpa using hliteral.symm, .refl []⟩
      · exact .inl ⟨missing, hliteral, hnil⟩
    · exact .inr ⟨between, hliteral, spaces_cut_before (hbehind ▸ hcolon) rfl hmore⟩

/-- Where a reader may find an element: where one may stand, or where a container that has no parts
yet could also end. -/
inductive Awaits : Position → Position → Prop where
  | element (position : Position) : Awaits position position
  | part (container : Container) (outer : List Container) :
      Awaits (.first container outer) (.part container outer)

/-- **An element that is cut is not read**, unless it is a numeral.  What the reader makes
of it depends on its first byte, and that one is there. -/
theorem readElement_cut {element : Position} (hat : reader.At position (b :: bytes) .closed)
    (hawaits : Awaits position element) {more : List UInt8}
    (h : Element element (b :: bytes ++ (more ++ rest)) token position' rest) (hmore : more ≠ []) :
    (reader.readElement b).1 = .error .unexpectedEnd ∨
      ∃ containers, element = .value containers ∧ (∃ n, token = .scalar (.number n)) ∧
        position' = .behind containers ∧
        CutsNumeral (b :: bytes) (b :: bytes ++ (more ++ rest)) rest ∧
        reader.ReadsCut containers (reader.readElement b) := by
  obtain ⟨hplace, hcontainers, hrest, hending⟩ := hat
  -- An item or a whole document is a value; a member begins with its name.
  have hvalue {containers : List Container} (hcontainers : reader.containers = containers)
      (h : Element (.value containers) (b :: bytes ++ (more ++ rest)) token position' rest)
      (hread : reader.readElement b = reader.readValue b) :
      (reader.readElement b).1 = .error .unexpectedEnd ∨
        ∃ containers', Position.value containers = .value containers' ∧
          (∃ n, token = .scalar (.number n)) ∧ position' = .behind containers' ∧
          CutsNumeral (b :: bytes) (b :: bytes ++ (more ++ rest)) rest ∧
          reader.ReadsCut containers' (reader.readElement b) := by
    rw [hread]
    exact (readValue_cut hcontainers hending hrest h hmore).imp_right fun hcut =>
      ⟨containers, rfl, hcut⟩
  have hname {outer : List Container}
      (h : Element (.name outer) (b :: bytes ++ (more ++ rest)) token position' rest)
      (hread : b = 0x22 → reader.readElement b = reader.readName) :
      (reader.readElement b).1 = .error .unexpectedEnd := by
    obtain ⟨hb, hend⟩ := readName_cut hending hrest h hmore
    rw [hread hb, hend]
  cases hawaits with
  | element =>
    match position with
    | .value containers => exact hvalue hcontainers h (readElement_value hplace)
    | .name outer =>
      refine .inl (hname h ?_)
      rintro rfl
      exact (readElement_name hplace).trans (if_pos rfl)
  | part container outer =>
    cases container with
    | array =>
      -- An item does not begin with the bracket that would end the array.
      obtain ⟨_, _, hcons, -, hne, -⟩ := head_element h
      obtain ⟨rfl, -⟩ := List.cons.inj hcons
      refine hvalue hcontainers h ?_
      rw [readElement_firstItem hplace]
      exact if_neg fun hb => hne (eq_toUInt8_of_ofUInt8_eq hb)
    | object =>
      refine .inl (hname h ?_)
      rintro rfl
      rw [readElement_firstName hplace]
      exact (if_neg (by decide)).trans (if_pos rfl)

end JsonReader

end FieldMask
