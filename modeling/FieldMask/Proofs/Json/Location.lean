import FieldMask.Proofs.Json.Mistake
import FieldMask.Proofs.Json.Projection
import FieldMask.Proofs.Stream.Blame

namespace FieldMask

open JsonText

/-!
# Where a projection finds a mistake

Whatever the mask and wherever the result is written to, a mistake in a text is reported by its
reader, and so its offset is that of a byte in front of which nothing is wrong.

* `JsonWriter.beginValue_fails`, `JsonWriter.putName_fails`, … — how each part of a write fails;
  `JsonWriter.admits` — so a writer reports no mistakes in texts.
* `JsonReader.Located` — the place of a mistake in a whole text; `JsonReader.Reached.located` — what
  a reader of the text reports has one.
* `projectBytes_mistake` — projection.
-/

namespace JsonWriter

variable {fault : StreamError → Prop} {writer : JsonWriter}

/-! ### The failures of a writer -/

/-- What a writer may report: that its device fails, in one of two ways, or that a token
cannot stand where it does.  A property that covers these holds of every failure of a
writer. -/
structure Covers (fault : StreamError → Prop) : Prop where
  io : ∀ reason, fault (.io reason)
  encoding : ∀ reason, fault (.encoding reason)
  unexpectedToken : ∀ expected found, fault (.unexpectedToken expected found)

/-- Something holds of the failure of a step, if it fails. -/
def FailsBy (fault : StreamError → Prop) (result : Except StreamError Unit × JsonWriter) : Prop :=
  ∀ e, result.1 = .error e → fault e

/-- A step that succeeds has no failure. -/
theorem ok_fails : FailsBy fault (.ok (), writer) := nofun

/-- A token that cannot stand where it does is reported as such. -/
theorem refused_fails (h : Covers fault) (expected : Expected) (found : TokenKind) :
    FailsBy fault (.error (.unexpectedToken expected found), writer) := by
  rintro _ ⟨⟩
  exact h.unexpectedToken expected found

/-- Some characters fail as their device does; `wrap` says which failure that is. -/
theorem put_fails {wrap : String → StreamError} (h : ∀ reason, fault (wrap reason))
    (cs : List Char) (writer : JsonWriter) : FailsBy fault (put cs wrap writer) := by
  intro e he
  unfold put at he
  generalize writer.device.write (utf8Bytes cs) = result at he
  obtain ⟨_ | _, _⟩ := result <;> cases he
  exact h _

/-- Two steps fail as the first of them does, or else as the second one does. -/
theorem andThen_fails {done : Except StreamError Unit × JsonWriter}
    {more : JsonWriter → Except StreamError Unit × JsonWriter} (h : FailsBy fault done)
    (hmore : ∀ writer, FailsBy fault (more writer)) : FailsBy fault (andThen done more) := by
  intro e he
  obtain ⟨_ | _, writer⟩ := done
  · cases he
    exact h _ rfl
  · exact hmore writer e he

/-- A value that may stand where it does fails at most with the comma in front of it. -/
theorem beginValue_fails (h : Covers fault) (kind : TokenKind) (writer : JsonWriter) :
    FailsBy fault (beginValue kind writer) := by
  unfold beginValue
  split
  · split
    · exact refused_fails h _ _
    · exact ok_fails
  · exact ok_fails
  · exact put_fails h.io _ _
  · exact ok_fails
  · exact refused_fails h _ _

/-- Entering a container cannot fail. -/
theorem enter_fails (container : Begun) (writer : JsonWriter) :
    FailsBy fault (enter container writer) := ok_fails

/-- Neither can ending a value. -/
theorem endValue_fails (writer : JsonWriter) : FailsBy fault (endValue writer) := ok_fails

/-- A name fails as what is to be encoded, its colon as what is to be written. -/
theorem putName_fails (h : Covers fault) (name : String) (writer : JsonWriter) :
    FailsBy fault (putName name writer) :=
  andThen_fails (put_fails h.encoding _ _) (put_fails h.io _)

/-- A string fails as what is to be encoded, any other scalar as what is to be written. -/
theorem fault_scalarFailure (h : Covers fault) (value : Scalar) (reason : String) :
    fault (scalarFailure value reason) := by
  cases value with
  | string => exact h.encoding reason
  | null | bool | number => exact h.io reason

/-- No token makes a writer fail in another way.  Each is made of the parts above, one
behind the other. -/
theorem write_fails (h : Covers fault) (token : Token) (writer : JsonWriter) :
    FailsBy fault (write token writer) := by
  cases token with
  | beginObject =>
    exact andThen_fails (andThen_fails (beginValue_fails h _ _) (put_fails h.io _)) (enter_fails _)
  | beginArray =>
    exact andThen_fails (andThen_fails (beginValue_fails h _ _) (put_fails h.io _)) (enter_fails _)
  | key name =>
    unfold write
    dsimp only
    split
    · exact putName_fails h _ _
    · exact andThen_fails (put_fails h.io _ _) fun writer => putName_fails h _ _
    · exact refused_fails h _ _
  | endObject =>
    unfold write
    dsimp only
    split
    · exact andThen_fails (put_fails h.io _ _) endValue_fails
    · exact refused_fails h _ _
  | endArray =>
    unfold write
    dsimp only
    split
    · exact andThen_fails (put_fails h.io _ _) endValue_fails
    · exact refused_fails h _ _
  | scalar value =>
    exact andThen_fails
      (andThen_fails (beginValue_fails h _ _) (put_fails (fault_scalarFailure h value) _))
      endValue_fails

/-- A writer fails because of its device or because of a token, and reports no mistake in a
text. -/
theorem admits (h : Covers fault) : Admits JsonWriter fault := by
  intro token writer writer' e hwrite
  exact write_fails h token writer e (congrArg Prod.fst hwrite)

end JsonWriter

namespace JsonReader

variable {reader reader' : JsonReader} {bytes : List UInt8} {ending : Ending} {e : StreamError}

/-- The bytes read and those left are as many as before, after any run of tokens. -/
theorem total_of_produces {tokens : List Token} (h : Produces reader tokens reader') :
    reader'.total = reader.total := by
  induction h with
  | nil => rfl
  | @cons reader between _ _ _ hproduce _ ih =>
    have hread : reader.readToken.2 = between := congrArg Prod.snd hproduce
    rw [ih, ← hread, total_readToken]

/-- A mistake in a text is located at one of its bytes, and the bytes before it are the first ones
of some whole text. -/
def Located (bytes : List UInt8) (e : StreamError) : Prop :=
  ∀ what offset, e = .invalidText what offset →
    offset < bytes.length ∧ ∃ more doc, Denotes (bytes.take offset ++ more) doc

/-- A failure that is no mistake in a text has no place to be located at. -/
theorem located_of_ne (h : ∀ what offset, e ≠ .invalidText what offset) : Located bytes e :=
  fun what offset he => absurd he (h what offset)

/-- A reader has read some tokens of a text. -/
def Reached (bytes : List UInt8) (ending : Ending) (reader : JsonReader) : Prop :=
  ∃ tokens, Produces (ofBytes bytes ending) tokens reader

/-- What is located by a reader that has read some tokens of a text is located in the text.
In front of the mistake stand the bytes of these tokens, and they can be completed by what
is due. -/
theorem Reached.located (h : Reached bytes ending reader)
    (he : ∀ position, reader.At position reader.rest ending → reader.Locates position e) :
    Located bytes e := by
  rintro what offset rfl
  obtain ⟨tokens, h⟩ := h
  obtain ⟨position, piece, rest, hat, hbytes, hdue⟩ := due_of_produces (at_ofBytes bytes ending) h
  obtain rfl := hat.rest
  obtain ⟨front, b, behind, hrest, rfl, more, last, hmore⟩ := he position hat what offset rfl
  have hoffset : reader.offset = piece.length := by
    rw [offset_of_total (total_of_produces h) hbytes]
    exact Nat.zero_add _
  -- In front of the mistake stand the bytes of the tokens, and then those that could be completed.
  have hall : bytes = (piece ++ front) ++ b :: behind := by
    rw [hbytes, hrest, List.append_assoc]
  have hlength : reader.offset + front.length = (piece ++ front).length := by
    rw [hoffset, List.length_append]
  obtain ⟨doc, hdenotes, -⟩ := due_start_iff.1 (hdue hmore)
  rw [hlength, hall, List.take_left]
  refine ⟨by simp, more, doc, ?_⟩
  rwa [List.append_assoc]

/-- The reader is asked for one token after the other, as long as it delivers; so it has
always read some tokens of the text, and locates its mistakes in it. -/
theorem Reached.vouches (bytes : List UInt8) (ending : Ending) :
    Vouches (fun source : Lookahead JsonReader => Reached bytes ending source.producer)
      (Located bytes) := by
  refine Lookahead.vouches (Reached bytes ending) ?_ ?_ (located_of_ne nofun)
    fun _ _ => located_of_ne nofun
  · rintro reader reader' token ⟨tokens, hproduces⟩ hread
    exact ⟨tokens ++ [token], hproduces.concat hread⟩
  · intro reader reader' e h hread
    exact h.located fun position hat => readToken_locates hat hread

end JsonReader

open JsonReader

/-- A projection fails as its reader locates the failure, or it leaves a reader to which the
text is complete.  This holds of every mask, every ending and every device. -/
theorem projectBytes_located_or_reached (mask : Option Mask) (bytes : List UInt8) (ending : Ending)
    (device : Device) :
    (∃ e, (projectBytes mask bytes ending device).1 = .error e ∧ Located bytes e) ∨
      (projectBytes mask bytes ending device).1 = .ok () ∧
        ∃ reader, Reached bytes ending reader ∧ reader.finish.1 = .ok () := by
  -- None of the failures of a writer is a mistake in a text.
  have hsink : Admits JsonWriter (Located bytes) := JsonWriter.admits
    ⟨fun _ => located_of_ne nofun, fun _ => located_of_ne nofun, fun _ _ => located_of_ne nofun⟩
  have hstart : Reached bytes ending (Lookahead.of (ofBytes bytes ending)).producer := ⟨[], .nil⟩
  have hproject :=
    project_fares (Reached.vouches bytes ending) hsink mask hstart (JsonWriter.ofDevice device)
  unfold projectBytes
  dsimp only
  split
  next e source writer hfailed =>
    rw [hfailed] at hproject
    exact .inl ⟨e, rfl, hproject⟩
  next source writer hdone =>
    -- The document is complete, and the reader is asked whether the text is.
    rw [hdone] at hproject
    have hreached : Reached bytes ending source.producer := hproject
    split
    next e hfinish =>
      exact .inl ⟨e, rfl, hreached.located fun position _ => finish_locates hfinish⟩
    next hfinish =>
      -- A document that is not complete is reported without a place.
      by_cases hcomplete : writer.complete = true
      · exact .inr ⟨if_pos hcomplete, source.producer, hreached, hfinish⟩
      · exact .inl ⟨.unexpectedEnd, if_neg hcomplete, located_of_ne nofun⟩

/-- **A mistake is located no later than it is made.**  Whatever the mask, however the bytes end and
wherever the result is written to: if projection fails with a mistake, its offset is that of a byte,
and the bytes in front of it are the first ones of a whole text. -/
theorem projectBytes_mistake (mask : Option Mask) (bytes : List UInt8) (ending : Ending)
    (device : Device) {what : Mistake} {offset : Nat}
    (h : (projectBytes mask bytes ending device).1 = .error (.invalidText what offset)) :
    offset < bytes.length ∧ ∃ more doc, Denotes (bytes.take offset ++ more) doc := by
  rcases projectBytes_located_or_reached mask bytes ending device with
    ⟨e, herror, hlocated⟩ | ⟨hok, -⟩
  · rw [h] at herror
    cases herror
    exact hlocated what offset rfl
  · rw [h] at hok
    cases hok

/-- In an array a word goes wrong at its fourth letter. -/
theorem projectBytes_mistake_word :
    (projectBytes none "[tru!".toUTF8.toList .closed (.empty .unlimited)).1 =
        .error (.invalidText .expectedValue 4) ∧
      4 < "[tru!".toUTF8.toList.length ∧
      ∃ more doc, Denotes ("[tru!".toUTF8.toList.take 4 ++ more) doc := by
  have hproject : (projectBytes none "[tru!".toUTF8.toList .closed (.empty .unlimited)).1 =
      .error (.invalidText .expectedValue 4) := by
    rw [projectBytes_fst, toList_toUTF8, readAll, drain_of_produces_error (.cons rfl .nil) rfl]
    rfl
  exact ⟨hproject, projectBytes_mistake none _ .closed (.empty .unlimited) hproject⟩

end FieldMask
