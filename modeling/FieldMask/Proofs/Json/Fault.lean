import FieldMask.Json.Reader

namespace FieldMask

/-!
# How a text fails

A reader of a text that is over at its last byte can fail only by what the text holds: it breaks
off, or there is a mistake in it.  Nothing else that can go wrong with a stream comes from there.

* `StreamError.OfText` — the failures of a text.
* `JsonReader.ofText_of_readToken`, `JsonReader.ofText_of_finish` — a reader has no others.
-/

/-- A failure that is a text's own: it breaks off, or it holds a mistake.  A device that
fails and tokens out of place are other failures. -/
def StreamError.OfText : StreamError → Prop
  | unexpectedEnd => True
  | invalidText .. => True
  | io _ => False
  | encoding _ => False
  | unexpectedToken .. => False

namespace JsonReader

variable {reader reader' : JsonReader} {e : StreamError}

/-- A text that is over does not fail where the next byte is looked for. -/
theorem peekByte_ne_error (hending : reader.ending = .closed) : reader.peekByte ≠ .error e := by
  rw [peekByte, hending]
  cases reader.rest <;> nofun

/-- Where a byte must follow and none does, the text breaks off. -/
theorem ofText_of_nextByte (hending : reader.ending = .closed) (h : reader.nextByte = .error e) :
    e.OfText := by
  unfold nextByte at h
  split at h
  next hpeek => exact absurd hpeek (peekByte_ne_error hending)
  · cases h
  · split at h <;> cases h
    trivial

/-- A word fails by a letter that is missing or wrong. -/
theorem ofText_of_readWord {word : List Char} (hending : reader.ending = .closed)
    (h : readWord word reader = (.error e, reader')) : e.OfText := by
  fun_induction readWord word reader with
  | case1 => cases h
  -- The input itself does not fail; the letter is missing, or it is another one.
  | case2 _ _ _ _ hpeek => exact absurd hpeek (peekByte_ne_error hending)
  | case3 => cases h; trivial
  | case4 _ _ _ _ ih => exact ih hending h
  | case5 => cases h; trivial

/-- A string fails by a quote that is missing or by what stands before it. -/
theorem ofText_of_readString (hending : reader.ending = .closed)
    (h : reader.readString = (.error e, reader')) : e.OfText := by
  unfold readString at h
  dsimp only at h
  split at h
  · split at h
    next hpeek => exact absurd hpeek (peekByte_ne_error hending)
    · cases h; trivial
  · split at h <;> cases h
    trivial

/-- A number fails by its own text. -/
theorem ofText_of_readNumber (hending : reader.ending = .closed)
    (h : reader.readNumber = (.error e, reader')) : e.OfText := by
  unfold readNumber at h
  dsimp only at h
  split at h
  next hpeek => exact absurd hpeek (peekByte_ne_error hending)
  · split at h <;> cases h
    trivial

/-- Handing on a word adds no failure to those of reading it. -/
theorem ofText_of_scalarToken {value : Scalar} {result : Except StreamError Unit × JsonReader}
    (hresult : ∀ behind, result = (.error e, behind) → e.OfText)
    (h : scalarToken value result = (.error e, reader')) : e.OfText := by
  unfold scalarToken at h
  split at h
  · cases h
    exact hresult _ rfl
  · cases h

/-- A value fails as its kind does, or no value begins with the byte that stands there. -/
theorem ofText_of_readValue {b : UInt8} (hending : reader.ending = .closed)
    (h : reader.readValue b = (.error e, reader')) : e.OfText := by
  unfold readValue at h
  split at h
  · cases h
  · cases h
  · split at h
    next hread =>
      cases h
      exact ofText_of_readString hending hread
    · cases h
  · -- The three words fail alike.
    exact ofText_of_scalarToken (fun _ => ofText_of_readWord hending) h
  · exact ofText_of_scalarToken (fun _ => ofText_of_readWord hending) h
  · exact ofText_of_scalarToken (fun _ => ofText_of_readWord hending) h
  · split at h
    · split at h
      next hread =>
        cases h
        exact ofText_of_readNumber hending hread
      · cases h
    · cases h
      trivial

/-- Reading a string changes nothing about what happens behind the last byte. -/
theorem ending_readString (reader : JsonReader) : reader.readString.2.ending = reader.ending := by
  unfold readString
  dsimp only
  split
  · split <;> rfl
  · split <;> rfl

/-- A name fails as a string does, or by the colon behind it.  The spaces between the two
cannot fail. -/
theorem ofText_of_readName (hending : reader.ending = .closed)
    (h : reader.readName = (.error e, reader')) : e.OfText := by
  have hbehind := (ending_readString reader).trans hending
  unfold readName at h
  split at h
  next hread =>
    cases h
    exact ofText_of_readString hending hread
  next hread =>
    rw [hread] at hbehind
    dsimp only at h
    split at h
    next hpeek => exact absurd hpeek (peekByte_ne_error hbehind)
    · cases h; trivial
    · split at h <;> cases h
      trivial

/-- A bracket fails by being the wrong one. -/
theorem ofText_of_readClose {container : Container}
    (h : reader.readClose container = (.error e, reader')) : e.OfText := by
  unfold readClose at h
  split at h
  · cases h; trivial
  · split at h <;> cases h
    trivial

/-- Where no comma may stand, a token fails as a bracket, a name or a value does.  Anything
else that stands there is a mistake of the text. -/
theorem ofText_of_readElement {b : UInt8} (hending : reader.ending = .closed)
    (h : reader.readElement b = (.error e, reader')) : e.OfText := by
  unfold readElement at h
  split at h
  · exact ofText_of_readClose h
  · exact ofText_of_readValue hending h
  · exact ofText_of_readClose h
  · exact ofText_of_readName hending h
  · exact ofText_of_readName hending h
  · cases h; trivial
  · cases h; trivial
  · exact ofText_of_readValue hending h

/-- Wrapping a result leaves a failure what it is. -/
theorem map_some_eq_error {α : Type} {result : Except StreamError α}
    (h : result.map some = .error e) : result = .error e := by
  cases result with
  | error => cases h; rfl
  | ok => cases h

/-- A text fails as a text where it is read: at a byte that is missing, at a bracket, at
what a comma is followed by, or at the token itself. -/
theorem ofText_of_readToken (hending : reader.ending = .closed)
    (h : reader.readToken = (.error e, reader')) : e.OfText := by
  -- A closing bracket and any other token stand there in two forms, which differ only in the place
  -- they are read from.
  have hclose {spaced : JsonReader} {container : Container}
      (h : ((spaced.readClose container).1.map some, (spaced.readClose container).2) =
        (.error e, reader')) : e.OfText := by
    obtain ⟨hresult, hreader⟩ := Prod.mk.inj h
    exact ofText_of_readClose (Prod.ext (map_some_eq_error hresult) hreader)
  have helement {spaced : JsonReader} {b : UInt8} (hending : spaced.ending = .closed)
      (h : ((spaced.readElement b).1.map some, (spaced.readElement b).2) =
        (.error e, reader')) : e.OfText := by
    obtain ⟨hresult, hreader⟩ := Prod.mk.inj h
    exact ofText_of_readElement hending (Prod.ext (map_some_eq_error hresult) hreader)
  have hspaced : reader.skipSpaces.ending = .closed := hending
  have hpassed : reader.skipSpaces.passComma.skipSpaces.ending = .closed := hending
  unfold readToken at h
  split at h
  · cases h
  · dsimp only at h
    split at h
    next hnext =>
      cases h
      exact ofText_of_nextByte hspaced hnext
    · cases h
    · split at h
      · split at h
        · exact hclose h
        · exact hclose h
        · split at h
          next hnext =>
            cases h
            exact ofText_of_nextByte hpassed hnext
          · cases h
          · exact helement hpassed h
        · cases h; trivial
      · exact helement hspaced h

/-- A text fails as a text where it should be over: it is not complete, or something else
follows. -/
theorem ofText_of_finish (hending : reader.ending = .closed)
    (h : reader.finish = (.error e, reader')) : e.OfText := by
  unfold finish at h
  split at h
  · dsimp only at h
    split at h
    next hpeek => exact absurd hpeek (peekByte_ne_error hending)
    · cases h
    · cases h; trivial
  · cases h; trivial

end JsonReader

end FieldMask
