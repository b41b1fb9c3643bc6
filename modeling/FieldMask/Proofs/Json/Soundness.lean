import FieldMask.Proofs.Json.Reader

namespace FieldMask.JsonReader

open JsonText

/-!
# What is read is a token

* `readToken_eq_ok` — a token that is read is the next one by the grammar, and the reader then
  stands where it leads.
* `readToken_eq_none` — there is no token only where the document is complete or missing;
  `readToken_again` — and then there is none if asked again.
* `finish_eq_ok_iff` — the text is complete where a document ends and only spaces follow.
-/

variable {reader reader' : JsonReader} {position position' : Position} {container : Container}
  {containers outer : List Container} {bytes rest : List UInt8} {ending : Ending} {b : UInt8}
  {token : Token}

/-- A word that is handed on has been read, and the reader has finished a value. -/
theorem scalarToken_eq_ok {value : Scalar} {result : Except StreamError Unit × JsonReader}
    (h : scalarToken value result = (.ok token, reader')) :
    ∃ reader, result = (.ok (), reader) ∧ token = .scalar value ∧ reader' = reader.finishValue := by
  unfold scalarToken at h
  split at h
  · cases h
  · cases h
    exact ⟨_, rfl, rfl, rfl⟩

/-- A word that is read is the scalar that it stands for.  The three words are read alike. -/
theorem element_of_scalarToken {word : List Char} {value : Scalar}
    (hcontainers : reader.containers = containers) (hascii : ∀ c ∈ word, c.toNat < 0x80)
    (htext : ∀ rest, ScalarText (utf8Bytes word ++ rest) value rest)
    (h : scalarToken value (readWord word reader) = (.ok token, reader')) :
    ∃ position rest, Element (.value containers) reader.rest token position rest ∧
      reader'.At position rest reader.ending := by
  obtain ⟨behind, hread, rfl, rfl⟩ := scalarToken_eq_ok h
  obtain ⟨⟨count, rfl⟩, heq⟩ := readWord_eq_ok hascii hread
  refine ⟨_, _, .scalar ?_, .finishValue hcontainers rfl rfl⟩
  rw [heq]
  exact htext _

/-- What is read as the first token of a value is one.  The cases are those of the byte that
it begins with. -/
theorem readValue_eq_ok (hcontainers : reader.containers = containers)
    (hrest : reader.rest = b :: bytes) (h : reader.readValue b = (.ok token, reader')) :
    ∃ position rest, Element (.value containers) (b :: bytes) token position rest ∧
      reader'.At position rest reader.ending := by
  have hfinish (count : Nat) : (reader.advance count).finishValue.At (.behind containers)
      (reader.advance count).rest reader.ending := .finishValue hcontainers rfl rfl
  unfold readValue at h
  split at h
  next hb =>
    obtain rfl := eq_toUInt8_of_ofUInt8_eq hb
    cases h
    -- A bracket leads into its container, where the first part may stand.
    exact ⟨_, bytes, .enter .object, rfl, congrArg _ hcontainers,
      rest_advance_length [0x7B] hrest, rfl⟩
  next hb =>
    obtain rfl := eq_toUInt8_of_ofUInt8_eq hb
    cases h
    exact ⟨_, bytes, .enter .array, rfl, congrArg _ hcontainers,
      rest_advance_length [0x5B] hrest, rfl⟩
  next hb =>
    obtain rfl := eq_toUInt8_of_ofUInt8_eq hb
    split at h
    · cases h
    next hread =>
      cases h
      obtain ⟨⟨count, rfl⟩, hliteral⟩ := readString_eq_ok hrest hread
      exact ⟨_, _, .scalar (.string (hrest ▸ hliteral)), hfinish count⟩
  · exact hrest ▸ element_of_scalarToken hcontainers (by simp) (fun _ => .true) h
  · exact hrest ▸ element_of_scalarToken hcontainers (by simp) (fun _ => .false) h
  · exact hrest ▸ element_of_scalarToken hcontainers (by simp) (fun _ => .null) h
  · split at h
    · split at h
      · cases h
      next hread =>
        cases h
        -- A minus or a digit begins a number; any other byte begins no value.
        obtain ⟨⟨count, rfl⟩, cs, hnumber, heq⟩ := readNumber_eq_ok hread
        refine ⟨_, _, .scalar ?_, hfinish count⟩
        rw [← hrest, heq]
        exact .number hnumber
    · cases h

/-- What is read as a member's name is one, with the colon behind it. -/
theorem readName_eq_ok (hcontainers : reader.containers = .object :: outer)
    (hrest : reader.rest = 0x22 :: bytes) (h : reader.readName = (.ok token, reader')) :
    ∃ position rest, Element (.name outer) (0x22 :: bytes) token position rest ∧
      reader'.At position rest reader.ending := by
  unfold readName at h
  split at h
  · cases h
  next name behind hread =>
    -- The literal is sound already; what is left are the spaces and the colon behind it.
    obtain ⟨⟨count, rfl⟩, hliteral⟩ := readString_eq_ok hrest hread
    dsimp only at h
    split at h
    · cases h
    · cases h
    next c hpeek =>
      split at h
      next hcolon =>
        cases h
        obtain ⟨more, hmore⟩ := rest_of_peekByte hpeek
        have hspaces := spaces_skipSpaces (reader.advance count)
        rw [hmore, hcolon] at hspaces
        exact ⟨_, more, .name (hrest ▸ hliteral) hspaces, rfl, hcontainers,
          rest_advance_length [c] hmore, rfl⟩
      · cases h

/-- What is read as a closing bracket ends the innermost container.  A bracket of the other
kind is refused. -/
theorem readClose_eq_ok (hcontainers : reader.containers = container :: outer)
    (hrest : reader.rest = b :: bytes) {closed : Container}
    (h : reader.readClose closed = (.ok token, reader')) :
    container = closed ∧ token = closed.last ∧ reader'.At (.behind outer) bytes reader.ending := by
  unfold readClose at h
  rw [hcontainers] at h
  dsimp only at h
  split at h
  next heq =>
    obtain ⟨htoken, hreader⟩ := Prod.mk.inj h
    refine ⟨heq, ?_, ?_⟩
    · cases closed <;> cases htoken <;> rfl
    · rw [← hreader]
      exact .finishValue rfl (rest_advance_length [b] hrest) rfl
  · cases h

/-- What is read where a part of a container is due is its first token: that of an item, or
the name of a member. -/
theorem readElement_part_eq_ok (hat : reader.At (.part container outer) (b :: bytes) ending)
    (h : reader.readElement b = (.ok token, reader')) :
    ∃ position rest, Element (.part container outer) (b :: bytes) token position rest ∧
      reader'.At position rest ending := by
  obtain ⟨hplace, hcontainers, hrest, rfl⟩ := hat
  cases container with
  | array =>
    rw [readElement_value hplace] at h
    exact readValue_eq_ok hcontainers hrest h
  | object =>
    rw [readElement_name hplace] at h
    split at h
    next hb =>
      obtain rfl := eq_toUInt8_of_ofUInt8_eq hb
      exact readName_eq_ok hcontainers hrest h
    · cases h

/-- Where no comma may stand, an element is read, or the end of a container that is still
empty. -/
theorem readElement_eq_ok (hat : reader.At position (b :: bytes) ending)
    (hplace : position.place ≠ .comma ∧ position.place ≠ .done)
    (h : reader.readElement b = (.ok token, reader')) :
    ∃ position' rest, Step position (b :: bytes) token position' rest ∧
      reader'.At position' rest ending := by
  obtain ⟨hat, hcontainers, hrest, rfl⟩ := hat
  match position with
  | .value containers =>
    rw [readElement_value hat] at h
    obtain ⟨position', rest, helement, hat'⟩ := readValue_eq_ok hcontainers hrest h
    exact ⟨position', rest, .element (.refl _) helement, hat'⟩
  | .name outer =>
    have hpart : reader.At (.part .object outer) (b :: bytes) reader.ending :=
      ⟨hat, hcontainers, hrest, rfl⟩
    obtain ⟨position', rest, helement, hat'⟩ := readElement_part_eq_ok hpart h
    exact ⟨position', rest, .element (.refl _) helement, hat'⟩
  -- In a container that is still empty the byte may be its closing bracket.
  | .first .array outer =>
    rw [readElement_firstItem hat] at h
    split at h
    next hb =>
      obtain rfl := eq_toUInt8_of_ofUInt8_eq hb
      obtain ⟨-, rfl, hat'⟩ := readClose_eq_ok hcontainers hrest h
      exact ⟨_, bytes, @Step.empty .array _ _ _ (.refl _), hat'⟩
    · obtain ⟨position', rest, helement, hat'⟩ := readValue_eq_ok hcontainers hrest h
      exact ⟨position', rest, @Step.part .array _ _ _ _ _ _ (.refl _) helement, hat'⟩
  | .first .object outer =>
    rw [readElement_firstName hat] at h
    split at h
    next hb =>
      obtain rfl := eq_toUInt8_of_ofUInt8_eq hb
      obtain ⟨-, rfl, hat'⟩ := readClose_eq_ok hcontainers hrest h
      exact ⟨_, bytes, @Step.empty .object _ _ _ (.refl _), hat'⟩
    · split at h
      next hb =>
        obtain rfl := eq_toUInt8_of_ofUInt8_eq hb
        obtain ⟨position', rest, helement, hat'⟩ := readName_eq_ok hcontainers hrest h
        exact ⟨position', rest, @Step.part .object _ _ _ _ _ _ (.refl _) helement, hat'⟩
      · cases h
  | .behind [] => exact absurd rfl hplace.2
  | .behind (_ :: _) => exact absurd rfl hplace.1

/-- Behind a part of a container the end of it is read, or what follows a comma. -/
theorem readBehind_eq_ok (hat : reader.At (.behind (container :: outer)) (b :: bytes) ending)
    (h : reader.readBehind b = (.ok (some token), reader')) :
    ∃ position rest, Step (.behind (container :: outer)) (b :: bytes) token position rest ∧
      reader'.At position rest ending := by
  unfold readBehind at h
  split at h
  next hb =>
    obtain rfl := eq_toUInt8_of_ofUInt8_eq hb
    obtain ⟨hresult, hreader⟩ := Prod.mk.inj h
    obtain ⟨rfl, rfl, hat'⟩ :=
      readClose_eq_ok hat.containers hat.rest (Prod.ext (map_some_eq hresult) hreader)
    exact ⟨_, bytes, .close (.refl _), hat.ending ▸ hat'⟩
  next hb =>
    obtain rfl := eq_toUInt8_of_ofUInt8_eq hb
    obtain ⟨hresult, hreader⟩ := Prod.mk.inj h
    obtain ⟨rfl, rfl, hat'⟩ :=
      readClose_eq_ok hat.containers hat.rest (Prod.ext (map_some_eq hresult) hreader)
    exact ⟨_, bytes, .close (.refl _), hat.ending ▸ hat'⟩
  next hb =>
    obtain rfl := eq_toUInt8_of_ofUInt8_eq hb
    dsimp only at h
    split at h
    · cases h
    · cases h
    next c hnext =>
      obtain ⟨rest, hrest⟩ := rest_of_nextByte hnext
      -- The comma and the spaces behind it belong to the step of the token that follows.
      obtain ⟨hspaced, hspaces⟩ := hat.passComma.skipSpaces hrest
      obtain ⟨hresult, hreader⟩ := Prod.mk.inj h
      obtain ⟨position, rest', helement, hat'⟩ :=
        readElement_part_eq_ok hspaced (Prod.ext (map_some_eq hresult) hreader)
      exact ⟨position, rest', .more (.refl _) hspaces helement, hat'⟩
  · cases h

/-- **What is read is the next token.**  A token that is read is the next one by the grammar, and
the reader then stands where it leads. -/
theorem readToken_eq_ok (hat : reader.At position bytes ending)
    (h : reader.readToken = (.ok (some token), reader')) :
    ∃ position' rest, Step position bytes token position' rest ∧
      reader'.At position' rest ending := by
  rw [readToken_eq] at h
  split at h
  · cases h
  next hdone =>
    split at h
    · cases h
    · cases h
    next b hnext =>
      obtain ⟨rest, hrest⟩ := rest_of_nextByte hnext
      obtain ⟨hspaced, hspaces⟩ := hat.skipSpaces hrest
      -- The position is not behind the document, so it is behind a part or in front of an element.
      rw [hat.place] at hdone
      split at h
      next hcomma =>
        rw [hat.place] at hcomma
        obtain ⟨container, outer, rfl⟩ := Position.eq_behind_of_place hcomma
        obtain ⟨position', rest', hstep, hat'⟩ := readBehind_eq_ok hspaced h
        exact ⟨position', rest', hstep.of_spaces hspaces, hat'⟩
      next hcomma =>
        rw [hat.place] at hcomma
        obtain ⟨hresult, hreader⟩ := Prod.mk.inj h
        obtain ⟨position', rest', hstep, hat'⟩ := readElement_eq_ok hspaced ⟨hcomma, hdone⟩
          (Prod.ext (map_some_eq hresult) hreader)
        exact ⟨position', rest', hstep.of_spaces hspaces, hat'⟩

/-! ### Where there is no token -/

/-- There is no token where the document is complete, or where it is missing. -/
theorem readToken_eq_none_cases (h : reader.readToken = (.ok none, reader')) :
    (reader.place = .done ∧ reader' = reader) ∨ reader'.nextByte = .ok none := by
  -- A token that has been read or refused is never taken for none.
  have hsome (result : Except StreamError Token × JsonReader) :
      (result.1.map some, result.2) ≠ (.ok none, reader') := by
    obtain ⟨result, behind⟩ := result
    intro heq
    cases result with
    | error => cases heq
    | ok => cases heq
  rw [readToken_eq] at h
  split at h
  next hdone =>
    cases h
    exact .inl ⟨hdone, rfl⟩
  next hdone =>
    refine .inr ?_
    split at h
    · cases h
    next hnone =>
      cases h
      exact hnone
    · split at h
      · unfold readBehind at h
        split at h
        · exact absurd h (hsome _)
        · exact absurd h (hsome _)
        · dsimp only at h
          split at h
          · cases h
          next hnone =>
            cases h
            exact hnone
          · exact absurd h (hsome _)
        · cases h
      · exact absurd h (hsome _)

/-- A document may be missing only where a value is to come, and where the text is over. -/
theorem nextByte_eq_none (h : reader.nextByte = .ok none) :
    reader.place = .value ∧ reader.rest = [] := by
  unfold nextByte at h
  split at h
  · cases h
  · cases h
  next hpeek =>
    split at h
    next hmissing => exact ⟨hmissing.1, (peekByte_eq_none hpeek).1⟩
    · cases h

/-- Where there is no token the document is complete, or the reader does not stand at its
end. -/
theorem readToken_eq_none (h : reader.readToken = (.ok none, reader')) :
    (reader.place = .done ∧ reader' = reader) ∨ reader'.place ≠ .done := by
  refine (readToken_eq_none_cases h).imp_right ?_
  intro hnone hdone
  cases hdone.symm.trans (nextByte_eq_none hnone).1

/-- Where there is no token the reader stays, so asking again gives the same answer. -/
theorem readToken_again (h : reader.readToken = (.ok none, reader')) :
    reader'.readToken = (.ok none, reader') := by
  rcases readToken_eq_none_cases h with ⟨-, rfl⟩ | hnone
  · exact h
  · obtain ⟨hplace, hrest⟩ := nextByte_eq_none hnone
    -- There are no bytes left, and so no spaces to pass over.
    have hspaces : reader'.skipSpaces = reader' := by
      rw [skipSpaces, advance, hrest]
      exact congrArg (JsonReader.mk · _ _ _ _) hrest.symm
    have hdone : reader'.place ≠ .done := by
      intro hdone
      cases hdone.symm.trans hplace
    rw [readToken_eq, if_neg hdone, hspaces, hnone]

/-- A reader finishes only at the end of a document. -/
theorem place_of_finish (h : reader.finish.1 = .ok ()) : reader.place = .done := by
  by_contra hplace
  rw [finish, if_neg hplace] at h
  cases h

/-- A text is complete where a document ends and only spaces follow it. -/
theorem finish_eq_ok_iff (hat : reader.At position bytes .closed) :
    reader.finish.1 = .ok () ↔ position = .behind [] ∧ Spaces bytes [] := by
  have hspaces := spaces_skipSpaces reader
  rw [hat.rest] at hspaces
  unfold finish
  -- From left to right the two checks are taken apart, from right to left they are passed.
  constructor
  · intro h
    split at h
    next hdone =>
      dsimp only at h
      split at h
      · cases h
      next hpeek =>
        rw [(peekByte_eq_none hpeek).1] at hspaces
        rw [hat.place] at hdone
        exact ⟨Position.eq_behind_nil_of_place hdone, hspaces⟩
      · cases h
    · cases h
  · rintro ⟨rfl, hrest⟩
    have hnil : reader.skipSpaces.rest = [] := by
      rw [rest_skipSpaces, hat.rest, hrest.dropWhile_eq]
      rfl
    have hdone : reader.place = .done := hat.place
    rw [if_pos hdone]
    dsimp only
    rw [peekByte_of_nil hnil hat.ending]

end FieldMask.JsonReader
