import FieldMask.Proofs.Json.Reader

namespace FieldMask

open JsonText

/-!
# Where a failure leaves the reader

A reader that finds no token may have read on all the same, up to the byte that was wrong.  It goes
on from there; what may stand next is as before, unless a comma has been passed.

* `JsonReader.Passes` — a reader is some bytes further on, and nothing else has changed.
* `JsonReader.readValue_passes`, `JsonReader.readName_passes`, … — failures of the reader's parts
  change nothing else.
* `JsonText.Position.ResumesAt` — the position where a reader goes on.
* `JsonReader.readToken_resumes` — without a token the reader stands there.
-/

namespace JsonText

/-- Where a reader that has found no token goes on: at its position, or behind a comma that it has
passed. -/
inductive Position.ResumesAt : Position → Position → Prop where
  | same (position : Position) : ResumesAt position position
  | comma (container : Container) (outer : List Container) :
      ResumesAt (.behind (container :: outer)) (.part container outer)

end JsonText

namespace JsonReader

variable {reader reader' : JsonReader} {position : Position} {container : Container}
  {outer : List Container} {bytes : List UInt8} {ending : Ending} {b : UInt8} {e : StreamError}

/-! ### Passing over bytes -/

/-- A reader is some bytes further on. -/
def Passes (reader reader' : JsonReader) : Prop := ∃ count, reader' = reader.advance count

namespace Passes

/-- No byte has to be passed. -/
theorem refl (reader : JsonReader) : reader.Passes reader := ⟨0, rfl⟩

/-- Passing over some bytes is just that. -/
theorem advance (reader : JsonReader) (count : Nat) : reader.Passes (reader.advance count) :=
  ⟨count, rfl⟩

/-- Bytes are passed one part after the other. -/
theorem trans {reader'' : JsonReader} (h : reader.Passes reader') (h' : reader'.Passes reader'') :
    reader.Passes reader'' := by
  obtain ⟨count, rfl⟩ := h
  obtain ⟨count', rfl⟩ := h'
  refine ⟨count + count', ?_⟩
  simp only [JsonReader.advance, List.drop_drop, Nat.add_assoc]

/-- Spaces are bytes that are passed. -/
theorem skipSpaces (reader : JsonReader) : reader.Passes reader.skipSpaces := .advance _ _

end Passes

/-- Bytes that have been passed change nothing but those that are left. -/
theorem At.passes (hat : reader.At position bytes ending) (h : reader.Passes reader') :
    reader'.At position reader'.rest ending := by
  obtain ⟨count, rfl⟩ := h
  exact hat.advance count

/-- A word that is wrong has been read up to the wrong letter. -/
theorem readWord_passes (word : List Char) (reader : JsonReader) :
    reader.Passes (readWord word reader).2 := by
  fun_induction readWord word reader with
  | case1 => exact .refl _
  | case2 => exact .refl _
  | case3 => exact .refl _
  | case4 _ _ _ _ ih => exact (Passes.advance _ 1).trans ih
  | case5 => exact .refl _

/-- A string that is wrong has been read through its closing quote, or to the end where
there is none. -/
theorem readString_passes (reader : JsonReader) : reader.Passes reader.readString.2 := by
  have hbody := Passes.advance reader 1
  unfold readString
  dsimp only
  split
  · split
    · exact hbody.trans (.advance _ _)
    · exact hbody.trans (.advance _ _)
  · split
    · exact hbody.trans (.advance _ _)
    · exact hbody.trans (.advance _ _)

/-- A number that is wrong has been read to its last byte. -/
theorem readNumber_passes (reader : JsonReader) : reader.Passes reader.readNumber.2 := by
  unfold readNumber
  dsimp only
  split
  · exact .advance _ _
  · split
    · exact .advance _ _
    · exact .advance _ _

/-! ### Failures -/

/-- A word that cannot be handed on leaves the reader where reading it did. -/
theorem scalarToken_eq_error {value : Scalar} {result : Except StreamError Unit × JsonReader}
    (h : scalarToken value result = (.error e, reader')) : reader' = result.2 := by
  unfold scalarToken at h
  split at h
  · cases h
    rfl
  · cases h

/-- Where no value can be read, bytes have been passed: those of the scalar that is wrong,
or none. -/
theorem readValue_passes (h : reader.readValue b = (.error e, reader')) :
    reader.Passes reader' := by
  -- A word that turns out to be wrong has been read up to the wrong letter.
  have hword {value : Scalar} {word : List Char}
      (h : scalarToken value (readWord word reader) = (.error e, reader')) :
      reader.Passes reader' := by
    rw [scalarToken_eq_error h]
    exact readWord_passes word reader
  unfold readValue at h
  split at h
  · cases h
  · cases h
  · split at h
    next hread =>
      cases h
      simpa only [hread] using readString_passes reader
    · cases h
  · exact hword h
  · exact hword h
  · exact hword h
  · split at h
    · split at h
      next hread =>
        cases h
        simpa only [hread] using readNumber_passes reader
      · cases h
    · cases h
      exact .refl reader

/-- Where no name can be read, bytes have been passed: its own, and the spaces before the
missing colon. -/
theorem readName_passes (h : reader.readName = (.error e, reader')) : reader.Passes reader' := by
  have hstring := readString_passes reader
  unfold readName at h
  split at h
  next hread =>
    cases h
    simpa only [hread] using hstring
  next hread =>
    rw [hread] at hstring
    have hspaces := hstring.trans (.skipSpaces _)
    dsimp only at h
    split at h
    · cases h
      exact hspaces
    · cases h
      exact hspaces
    · split at h
      · cases h
      · cases h
        exact hspaces

/-- A bracket that does not fit is not passed. -/
theorem readClose_passes (h : reader.readClose container = (.error e, reader')) :
    reader.Passes reader' := by
  unfold readClose at h
  split at h
  · cases h
    exact .refl reader
  · split at h
    · cases h
    · cases h
      exact .refl reader

/-- Where no element can be read, bytes have been passed, whichever kind of token should
have stood there. -/
theorem readElement_passes (h : reader.readElement b = (.error e, reader')) :
    reader.Passes reader' := by
  unfold readElement at h
  split at h
  · exact readClose_passes h
  · exact readValue_passes h
  · exact readClose_passes h
  · exact readName_passes h
  · exact readName_passes h
  · cases h
    exact .refl reader
  · cases h
    exact .refl reader
  · exact readValue_passes h

/-! ### No token -/

/-- Where there is no token there has been a failure. -/
theorem exists_error_of_map_some {result : Except StreamError Token}
    (h : ∀ token, result.map some ≠ .ok (some token)) : ∃ e, result = .error e := by
  cases result with
  | error e => exact ⟨e, rfl⟩
  | ok token => exact absurd rfl (h token)

/-- Behind a part of a container a comma may have been passed.  The reader does not go back
to it: a further part is due then, and no bracket would end the container any more. -/
theorem readBehind_resumes (hat : reader.At (.behind (container :: outer)) (b :: bytes) ending)
    (h : ∀ token, (reader.readBehind b).1 ≠ .ok (some token)) :
    ∃ position, Position.ResumesAt (.behind (container :: outer)) position ∧
      (reader.readBehind b).2.At position (reader.readBehind b).2.rest ending := by
  -- A bracket that does not fit leaves the reader behind the part.
  have hclose {closed : Container}
      (h : ∀ token, (reader.readClose closed).1.map some ≠ .ok (some token)) :
      ∃ position, Position.ResumesAt (.behind (container :: outer)) position ∧
        (reader.readClose closed).2.At position (reader.readClose closed).2.rest ending := by
    obtain ⟨e, herror⟩ := exists_error_of_map_some h
    exact ⟨_, .same _, hat.passes (readClose_passes (Prod.ext herror rfl))⟩
  revert h
  unfold readBehind
  split
  · exact hclose
  · exact hclose
  · -- Behind the comma every failure leaves the reader where a part of the container is due.
    have hspaces := hat.passComma.passes (.skipSpaces _)
    dsimp only
    split
    · exact fun _ => ⟨_, .comma container outer, hspaces⟩
    · exact fun _ => ⟨_, .comma container outer, hspaces⟩
    · intro h
      obtain ⟨e, herror⟩ := exists_error_of_map_some h
      exact ⟨_, .comma container outer,
        hspaces.passes (readElement_passes (Prod.ext herror rfl))⟩
  · exact fun _ => ⟨_, .same _, hat.passes (.refl reader)⟩

/-- **Without a token the reader goes on where it was, or behind a comma.**  So it can be
asked again after any failure, and it still stands at a position of the grammar. -/
theorem readToken_resumes (hat : reader.At position bytes ending)
    (h : ∀ token, reader.readToken.1 ≠ .ok (some token)) :
    ∃ position', position.ResumesAt position' ∧
      reader.readToken.2.At position' reader.readToken.2.rest ending := by
  have hspaces := hat.passes (.skipSpaces reader)
  revert h
  rw [readToken_eq]
  split
  · exact fun _ => ⟨position, .same position, hat.passes (.refl reader)⟩
  · split
    · exact fun _ => ⟨position, .same position, hspaces⟩
    · exact fun _ => ⟨position, .same position, hspaces⟩
    next b hnext =>
      obtain ⟨rest, hrest⟩ := rest_of_nextByte hnext
      split
      next hcomma =>
        rw [hat.place] at hcomma
        obtain ⟨container, outer, rfl⟩ := Position.eq_behind_of_place hcomma
        exact readBehind_resumes (hat.skipSpaces hrest).1
      · intro h
        obtain ⟨e, herror⟩ := exists_error_of_map_some h
        exact ⟨position, .same position, hspaces.passes (readElement_passes (Prod.ext herror rfl))⟩

/-- To ask whether the document is complete passes over spaces, and over nothing else. -/
theorem finish_passes (reader : JsonReader) : reader.Passes reader.finish.2 := by
  unfold finish
  split
  · dsimp only
    split
    · exact .skipSpaces reader
    · exact .skipSpaces reader
    · exact .skipSpaces reader
  · exact .refl reader

end JsonReader

end FieldMask
