import FieldMask.Proofs.Json.Reader

namespace FieldMask.JsonReader

/-!
# The offset of a reader

The offset that a reader reports counts the bytes that it has read.

* `JsonReader.total` — the bytes that have been read and those that are left, in number.
* `total_readWord`, `total_readString`, …, `total_readToken` — no part of the reader changes it.
* `offset_of_total` — so the offset tells how many bytes stand in front of those that are left.
-/

variable {reader reader' : JsonReader} {bytes : List UInt8} {b : UInt8}

/-- The bytes that have been read and those that are left, in number. -/
def total (reader : JsonReader) : Nat := reader.offset + reader.rest.length

/-- Bytes that are passed are counted, if they are there. -/
theorem total_advance {count : Nat} (h : count ≤ reader.rest.length) :
    (reader.advance count).total = reader.total := by
  rw [total, total, length_advance]
  show reader.offset + count + _ = _
  omega

/-- Spaces are counted. -/
theorem total_skipSpaces (reader : JsonReader) : reader.skipSpaces.total = reader.total :=
  total_advance (List.takeWhile_prefix _).length_le

/-- A byte that has been seen is counted when it is passed. -/
theorem total_advance_one (h : reader.rest = b :: bytes) :
    (reader.advance 1).total = reader.total :=
  total_advance (by rw [h, List.length_cons]; omega)

/-- What stands in front of the bytes that are left has been read. -/
theorem offset_of_total {front : List UInt8} (h : reader'.total = reader.total)
    (hrest : reader.rest = front ++ reader'.rest) :
    reader'.offset = reader.offset + front.length := by
  rw [total, total, hrest, List.length_append] at h
  omega

/-- The letters of a word are counted, up to the one that is wrong. -/
theorem total_readWord (word : List Char) (reader : JsonReader) :
    (readWord word reader).2.total = reader.total := by
  fun_induction readWord word reader with
  | case1 => rfl
  | case2 => rfl
  | case3 => rfl
  | case4 _ _ _ hpeek ih =>
    obtain ⟨bytes, hrest⟩ := rest_of_peekByte hpeek
    exact ih.trans (total_advance_one hrest)
  | case5 => rfl

/-- A closing quote is one of the bytes that are there. -/
theorem literalLength?_le {escaped : Bool} {bytes : List UInt8} {count : Nat}
    (h : literalLength? escaped bytes = some count) : count ≤ bytes.length := by
  induction bytes generalizing escaped count with
  | nil => cases h
  | cons b bytes ih =>
    rw [literalLength?] at h
    split at h
    · cases h
      exact Nat.succ_le_succ (Nat.zero_le _)
    · obtain ⟨count, hcount, rfl⟩ := Option.map_eq_some_iff.1 h
      exact Nat.succ_le_succ (ih hcount)

/-- The bytes of a string are counted, whether or not it can be decoded.  The bytes up to
its closing quote, or all that is left, are passed either way. -/
theorem total_readString (hrest : reader.rest = b :: bytes) :
    reader.readString.2.total = reader.total := by
  have hbody := total_advance_one hrest
  unfold readString
  dsimp only
  split
  · split
    · exact (total_advance (Nat.le_refl _)).trans hbody
    · exact (total_advance (Nat.le_refl _)).trans hbody
  next hcount =>
    split
    · exact (total_advance (literalLength?_le hcount)).trans hbody
    · exact (total_advance (literalLength?_le hcount)).trans hbody

/-- The bytes of a number are counted. -/
theorem total_readNumber (reader : JsonReader) : reader.readNumber.2.total = reader.total := by
  have hrun : (reader.advance (reader.rest.takeWhile JsonByte.inNumeral).length).total =
      reader.total := total_advance (List.takeWhile_prefix _).length_le
  unfold readNumber
  dsimp only
  split
  · exact hrun
  · split
    · exact hrun
    · exact hrun

/-- Handing on a word counts nothing. -/
theorem total_scalarToken (value : Scalar) (result : Except StreamError Unit × JsonReader) :
    (scalarToken value result).2.total = result.2.total := by
  unfold scalarToken
  split <;> rfl

/-- The bytes of a value's first token are counted. -/
theorem total_readValue (hrest : reader.rest = b :: bytes) :
    (reader.readValue b).2.total = reader.total := by
  have hstring := total_readString hrest
  have hnumber := total_readNumber reader
  -- Each branch hands on what one of its readers has counted.
  unfold readValue
  split
  · exact total_advance_one hrest
  · exact total_advance_one hrest
  · generalize reader.readString = result at hstring
    obtain ⟨_ | _, _⟩ := result
    · exact hstring
    · exact hstring
  · exact (total_scalarToken _ _).trans (total_readWord _ _)
  · exact (total_scalarToken _ _).trans (total_readWord _ _)
  · exact (total_scalarToken _ _).trans (total_readWord _ _)
  · split
    · generalize reader.readNumber = result at hnumber
      obtain ⟨_ | _, _⟩ := result
      · exact hnumber
      · exact hnumber
    · rfl

/-- The bytes of a name are counted, and those up to its colon.  If the colon is missing the
spaces in front of its place are counted. -/
theorem total_readName (hrest : reader.rest = b :: bytes) :
    reader.readName.2.total = reader.total := by
  have hstring := total_readString hrest
  unfold readName
  generalize reader.readString = result at hstring
  obtain ⟨_ | _, behind⟩ := result
  · exact hstring
  · have hspaces := (total_skipSpaces behind).trans hstring
    dsimp only
    split
    · exact hspaces
    · exact hspaces
    next hpeek =>
      obtain ⟨more, hmore⟩ := rest_of_peekByte hpeek
      split
      · exact (total_advance_one hmore).trans hspaces
      · exact hspaces

/-- A bracket is counted if it fits, and not passed if it does not. -/
theorem total_readClose (hrest : reader.rest = b :: bytes) (container : Container) :
    (reader.readClose container).2.total = reader.total := by
  unfold readClose
  split
  · rfl
  · split
    · exact total_advance_one hrest
    · rfl

/-- Where no comma may stand, the bytes of a token are counted.  Each of the readers counts
its own. -/
theorem total_readElement (hrest : reader.rest = b :: bytes) :
    (reader.readElement b).2.total = reader.total := by
  unfold readElement
  split
  · exact total_readClose hrest _
  · exact total_readValue hrest
  · exact total_readClose hrest _
  · exact total_readName hrest
  · exact total_readName hrest
  · rfl
  · rfl
  · exact total_readValue hrest

/-- Behind a part of a container they are counted, too, and so is the comma.  An end of a
container is one byte. -/
theorem total_readBehind (hrest : reader.rest = b :: bytes) :
    (reader.readBehind b).2.total = reader.total := by
  unfold readBehind
  split
  · exact total_readClose hrest _
  · exact total_readClose hrest _
  · have hspaces := (total_skipSpaces reader.passComma).trans (total_advance_one hrest)
    dsimp only
    split
    · exact hspaces
    · exact hspaces
    next hnext =>
      obtain ⟨more, hmore⟩ := rest_of_nextByte hnext
      exact (total_readElement hmore).trans hspaces
  · rfl

/-- **Every byte is counted when it is read**, be there a token or a failure.  The number of
bytes read and the number of those left always make the length of the text. -/
theorem total_readToken (reader : JsonReader) : reader.readToken.2.total = reader.total := by
  have hspaces := total_skipSpaces reader
  rw [readToken_eq]
  split
  · rfl
  · split
    · exact hspaces
    · exact hspaces
    next hnext =>
      obtain ⟨more, hmore⟩ := rest_of_nextByte hnext
      split
      · exact (total_readBehind hmore).trans hspaces
      · exact (total_readElement hmore).trans hspaces

end FieldMask.JsonReader
