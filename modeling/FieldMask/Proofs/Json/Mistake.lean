import FieldMask.Proofs.Json.Fault
import FieldMask.Proofs.Json.Frame
import FieldMask.Proofs.Json.Offset

namespace FieldMask

open JsonText

/-!
# Where a mistake is

A mistake is reported no later than it is made: whatever stands before the offset could still have
become a whole text.  For most mistakes the offset is that of the byte which does not fit.  A string
or a number is looked at as a whole, so what is wrong with it is reported where it begins.

* `JsonText.Leads` — some bytes lead from one position to another.
* `JsonText.Viable` — some bytes can be completed at a position.
* `JsonReader.Locates` — a failure, if it is a mistake, has its place at a byte in front of which
  stands what can be completed.
* `JsonReader.readWord_eq_mistake`, `JsonReader.readValue_locates`, … — the reader's parts.
* `JsonReader.readToken_locates`, `JsonReader.finish_locates` — a token, and the end of a text.
-/

namespace JsonText

variable {position position' position'' : Position} {container : Container}
  {containers outer : List Container} {bytes first front spaces : List UInt8}
  {tokens tokens' : List Token}

/-- What is due may have spaces before it. -/
theorem Due.of_spaces (hspaces : Spaces bytes first) (h : Due position first tokens) :
    Due position bytes tokens := by
  rcases exists_step_of_due h with ⟨rfl, hfirst, rfl⟩ | ⟨_, _, _, _, hstep, hdue, rfl⟩
  · exact ⟨hspaces.trans hfirst, rfl⟩
  · exact (hstep.of_spaces hspaces).due_cons hdue

/-- Some bytes lead, by some tokens, from one position to another: whatever is due there is due
behind them. -/
def Leads (position : Position) (bytes : List UInt8) (tokens : List Token)
    (position' : Position) : Prop :=
  ∀ (rest : List UInt8) (more : List Token), Due position' rest more →
    Due position (bytes ++ rest) (tokens ++ more)

namespace Leads

/-- No bytes lead anywhere else. -/
theorem refl (position : Position) : Leads position [] [] position := fun _ _ => id

/-- Bytes that lead to a position, and others that lead on from there. -/
theorem trans (h : Leads position front tokens position')
    (h' : Leads position' bytes tokens' position'') :
    Leads position (front ++ bytes) (tokens ++ tokens') position'' := by
  intro rest more hdue
  rw [List.append_assoc, List.append_assoc]
  exact h _ _ (h' rest more hdue)

/-- Spaces lead nowhere else. -/
theorem of_spaces (hspaces : ∀ rest, Spaces (spaces ++ rest) rest) :
    Leads position spaces [] position :=
  fun _ _ hdue => hdue.of_spaces (hspaces _)

/-- Where a container may end, its first part is due as well. -/
theorem part : Leads (.first container outer) [] [] (.part container outer) :=
  fun _ _ => Due.of_part

/-- A comma behind a part leads to where another part is due. -/
theorem comma : Leads (.behind (container :: outer)) [0x2C] [] (.part container outer) :=
  fun _ _ => .of_more (.refl _)

end Leads

/-- Some bytes can be completed at a position. -/
def Viable (position : Position) (bytes : List UInt8) : Prop :=
  ∃ more tokens, Due position (bytes ++ more) tokens

namespace Viable

/-- Every position can be completed without any byte before. -/
theorem nil (position : Position) : Viable position [] := exists_due position

/-- What leads to where some bytes can be completed can be completed with them. -/
theorem of_leads (hleads : Leads position front tokens position') (h : Viable position' bytes) :
    Viable position (front ++ bytes) := by
  obtain ⟨more, tokens', hdue⟩ := h
  refine ⟨more, tokens ++ tokens', ?_⟩
  rw [List.append_assoc]
  exact hleads _ _ hdue

/-- The first letters of a word can be completed by the others. -/
theorem of_word {front back : List Char} {value : Scalar}
    (h : ∀ rest, ScalarText (utf8Bytes (front ++ back) ++ rest) value rest) :
    Viable (.value containers) (utf8Bytes front) := by
  obtain ⟨more, tokens, hdue⟩ := exists_due_behind containers
  refine ⟨utf8Bytes back ++ more, .scalar value :: tokens, ?_⟩
  rw [← List.append_assoc, ← utf8Bytes_append]
  exact (Step.element (.refl _) (.scalar (h more))).due_cons hdue

/-- A member's name can be completed by a colon and a value. -/
theorem of_name {literal : List UInt8} {name : String}
    (hname : ∀ rest, LiteralText (literal ++ rest) name rest)
    (hspaces : ∀ rest, Spaces (spaces ++ rest) rest) :
    Viable (.name outer) (literal ++ spaces) := by
  obtain ⟨more, tokens, hdue⟩ := exists_due (.value (.object :: outer))
  refine ⟨0x3A :: more, .key name :: tokens, ?_⟩
  rw [List.append_assoc]
  exact (Step.element (.refl _) (.name (hname _) (hspaces _))).due_cons hdue

end Viable

end JsonText

namespace JsonReader

variable {reader reader' : JsonReader} {position position' : Position} {container : Container}
  {containers outer : List Container} {bytes rest front : List UInt8} {ending : Ending} {b : UInt8}
  {token : Token} {e : StreamError} {what : Mistake}

/-! ### Mistakes that a reader reports -/

/-- A failure, if it is a mistake, has its place at a byte that is left; what stands in front of it
can be completed at a position. -/
def Locates (reader : JsonReader) (position : Position) (e : StreamError) : Prop :=
  ∀ what offset, e = .invalidText what offset →
    ∃ front b behind, reader.rest = front ++ b :: behind ∧
      offset = reader.offset + front.length ∧ Viable position front

namespace Locates

/-- A text that is too short is no mistake at a place. -/
theorem unexpectedEnd : reader.Locates position .unexpectedEnd := by
  rintro what offset ⟨⟩

/-- Neither is an input that fails. -/
theorem io {reason : String} : reader.Locates position (.io reason) := by
  rintro what offset ⟨⟩

/-- The next byte is the mistake. -/
theorem here (hrest : reader.rest = b :: bytes) :
    reader.Locates position (reader.mistake what) := by
  rintro _ _ ⟨⟩
  exact ⟨[], b, bytes, hrest, rfl, .nil position⟩

/-- A mistake that is located from further on is located from here, if what stands between
leads there.  Offsets count from the start of the text, so nothing is to be added to it. -/
theorem of_passed (htotal : reader'.total = reader.total)
    (hrest : reader.rest = front ++ reader'.rest)
    (hleads : Leads position front [] position') (h : reader'.Locates position' e) :
    reader.Locates position e := by
  rintro what offset rfl
  obtain ⟨front', b, behind, hrest', rfl, hfront⟩ := h what offset rfl
  refine ⟨front ++ front', b, behind, ?_, ?_, hfront.of_leads hleads⟩
  · rw [hrest, hrest', List.append_assoc]
  · rw [offset_of_total htotal hrest, List.length_append, Nat.add_assoc]

/-- A mistake behind spaces is located in front of them. -/
theorem of_skipSpaces (h : reader.skipSpaces.Locates position e) : reader.Locates position e := by
  obtain ⟨spaces, hrest, hspaces⟩ := (spaces_skipSpaces reader).frame
  exact h.of_passed (total_skipSpaces reader) hrest (Leads.of_spaces hspaces)

end Locates

/-- The next byte is missed for no reason but the input's own. -/
theorem peekByte_eq_error (h : reader.peekByte = .error e) : ∃ reason, e = .io reason := by
  unfold peekByte at h
  split at h <;> cases h
  exact ⟨_, rfl⟩

/-- A failing input is no mistake at a place. -/
theorem peekByte_locates (h : reader.peekByte = .error e) : reader'.Locates position e := by
  obtain ⟨reason, rfl⟩ := peekByte_eq_error h
  exact .io

/-- Where a byte must follow and none does, there is no mistake at a place. -/
theorem nextByte_locates (h : reader.nextByte = .error e) : reader'.Locates position e := by
  unfold nextByte at h
  split at h
  next hpeek =>
    cases h
    exact peekByte_locates hpeek
  · cases h
  · split at h <;> cases h
    exact .unexpectedEnd

/-- In a word the mistake is the first letter that is not the word's.  The letters in front
of it are the word's own, so they could have been completed. -/
theorem readWord_eq_mistake {word : List Char} (hascii : ∀ c ∈ word, c.toNat < 0x80) {offset : Nat}
    (h : readWord word reader = (.error (.invalidText what offset), reader')) :
    ∃ front back b behind, word = front ++ back ∧ reader.rest = utf8Bytes front ++ b :: behind ∧
      offset = reader.offset + (utf8Bytes front).length := by
  induction word generalizing reader with
  | nil => cases h
  | cons letter word ih =>
    rw [readWord] at h
    split at h
    next hpeek =>
      cases h
      obtain ⟨_, ⟨⟩⟩ := peekByte_eq_error hpeek
    · cases h
    next b hpeek =>
      obtain ⟨bytes, hrest⟩ := rest_of_peekByte hpeek
      split at h
      -- The letter fits; the mistake is further on.
      next hb =>
        obtain ⟨front, back, c, behind, rfl, hbehind, rfl⟩ :=
          ih (fun c hc => hascii c (List.mem_cons_of_mem _ hc)) h
        have hletter : String.utf8EncodeChar letter = [b] := by
          subst hb
          exact utf8EncodeChar_ofUInt8 (hascii _ List.mem_cons_self)
        have hnext : (reader.advance 1).rest = bytes := rest_advance_length [b] hrest
        refine ⟨letter :: front, back, c, behind, rfl, ?_, ?_⟩
        · rw [hrest, ← hnext, hbehind, utf8Bytes_cons, hletter]
          rfl
        · rw [utf8Bytes_cons, hletter]
          show reader.offset + 1 + _ = reader.offset + _
          rw [List.singleton_append, List.length_cons]
          omega
      · cases h
        exact ⟨[], letter :: word, b, bytes, rfl, hrest, rfl⟩

/-- A string is wrong as a whole, and its mistake has the place of its first byte.  That it
has no end is no mistake, but a text that breaks off. -/
theorem readString_locates (hrest : reader.rest = b :: bytes)
    (h : reader.readString = (.error e, reader')) : reader.Locates position e := by
  unfold readString at h
  dsimp only at h
  split at h
  · split at h
    next hpeek =>
      cases h
      exact peekByte_locates hpeek
    · cases h
      exact .unexpectedEnd
  · split at h <;> cases h
    exact .here hrest

/-- So is a number. -/
theorem readNumber_locates (hrest : reader.rest = b :: bytes)
    (h : reader.readNumber = (.error e, reader')) : reader.Locates position e := by
  unfold readNumber at h
  dsimp only at h
  split at h
  next hpeek =>
    cases h
    exact peekByte_locates hpeek
  · split at h <;> cases h
    exact .here hrest

/-- The mistake of a value is that of its kind, or its first byte begins no value. -/
theorem readValue_locates (hrest : reader.rest = b :: bytes)
    (h : reader.readValue b = (.error e, reader')) : reader.Locates (.value containers) e := by
  -- The three words are located alike.
  have hword {word : List Char} {value : Scalar} (hascii : ∀ c ∈ word, c.toNat < 0x80)
      (htext : ∀ rest, ScalarText (utf8Bytes word ++ rest) value rest)
      (h : scalarToken value (readWord word reader) = (.error e, reader')) :
      reader.Locates (.value containers) e := by
    rintro what offset rfl
    have hread : readWord word reader = (.error (.invalidText what offset), reader') := by
      unfold scalarToken at h
      split at h <;> cases h
      assumption
    obtain ⟨front, back, c, behind, rfl, hfront, hoffset⟩ := readWord_eq_mistake hascii hread
    exact ⟨_, c, behind, hfront, hoffset, .of_word htext⟩
  unfold readValue at h
  split at h
  · cases h
  · cases h
  · split at h
    next hread =>
      cases h
      exact readString_locates hrest hread
    · cases h
  · exact hword (by simp) (fun _ => .true) h
  · exact hword (by simp) (fun _ => .false) h
  · exact hword (by simp) (fun _ => .null) h
  · split at h
    · split at h
      next hread =>
        cases h
        exact readNumber_locates hrest hread
      · cases h
    · cases h
      exact .here hrest

/-- The mistake of a name is its first byte, or the byte that should have been a colon: then
a whole name stands in front of it, and spaces. -/
theorem readName_locates (hrest : reader.rest = 0x22 :: bytes)
    (h : reader.readName = (.error e, reader')) : reader.Locates (.name outer) e := by
  unfold readName at h
  split at h
  next hread =>
    cases h
    exact readString_locates hrest hread
  next name behind hread =>
    obtain ⟨-, hliteral⟩ := readString_eq_ok hrest hread
    obtain ⟨literal, hliteral, hname⟩ := hliteral.frame
    obtain ⟨spaces, hbehind, hspaces⟩ := (spaces_skipSpaces behind).frame
    have htotal := (total_skipSpaces behind).trans (hread ▸ total_readString hrest)
    dsimp only at h
    split at h
    next hpeek =>
      cases h
      exact peekByte_locates hpeek
    · cases h
      exact .unexpectedEnd
    next c hpeek =>
      obtain ⟨more, hmore⟩ := rest_of_peekByte hpeek
      split at h <;> cases h
      -- The byte that is no colon stands behind the name and the spaces.
      have hall : reader.rest = (literal ++ spaces) ++ behind.skipSpaces.rest := by
        rw [hliteral, hbehind, List.append_assoc]
      rintro _ _ ⟨⟩
      refine ⟨literal ++ spaces, c, more, hmore ▸ hall, offset_of_total htotal hall, ?_⟩
      exact .of_name hname hspaces

/-- A bracket that does not fit is the mistake itself. -/
theorem readClose_locates (hrest : reader.rest = b :: bytes)
    (h : reader.readClose container = (.error e, reader')) : reader.Locates position e := by
  unfold readClose at h
  split at h
  · cases h
    exact .here hrest
  · split at h <;> cases h
    exact .here hrest

/-- Where a part of a container is due, the mistake is one of an item or of a member.  The
two kinds of containers differ in what a part begins with. -/
theorem readElement_part_locates (hat : reader.At (.part container outer) (b :: bytes) ending)
    (h : reader.readElement b = (.error e, reader')) :
    reader.Locates (.part container outer) e := by
  obtain ⟨hplace, -, hrest, -⟩ := hat
  cases container with
  | array =>
    rw [readElement_value hplace] at h
    exact readValue_locates hrest h
  | object =>
    rw [readElement_name hplace] at h
    split at h
    next hb =>
      obtain rfl := eq_toUInt8_of_ofUInt8_eq hb
      exact readName_locates hrest h
    · cases h
      exact .here hrest

/-- Where no comma may stand, the mistake is the first byte, or it is one of the element
that begins with it. -/
theorem readElement_locates (hat : reader.At position (b :: bytes) ending)
    (hplace : position.place ≠ .comma ∧ position.place ≠ .done)
    (h : reader.readElement b = (.error e, reader')) : reader.Locates position e := by
  obtain ⟨hat, hcontainers, hrest, rfl⟩ := hat
  match position with
  | .value containers =>
    rw [readElement_value hat] at h
    exact readValue_locates hrest h
  | .name outer =>
    have hpart : reader.At (.part .object outer) (b :: bytes) reader.ending :=
      ⟨hat, hcontainers, hrest, rfl⟩
    exact readElement_part_locates hpart h
  | .first .array outer =>
    rw [readElement_firstItem hat] at h
    split at h
    · exact readClose_locates hrest h
    · have hpart : reader.Locates (.part .array outer) e := readValue_locates hrest h
      -- What is viable where a part is due is viable where the container may end, too.
      exact hpart.of_passed rfl rfl Leads.part
  | .first .object outer =>
    rw [readElement_firstName hat] at h
    split at h
    · exact readClose_locates hrest h
    · split at h
      next hb =>
        obtain rfl := eq_toUInt8_of_ofUInt8_eq hb
        have hpart : reader.Locates (.part .object outer) e := readName_locates hrest h
        exact hpart.of_passed rfl rfl Leads.part
      · cases h
        exact .here hrest
  | .behind [] => exact absurd rfl hplace.2
  | .behind (_ :: _) => exact absurd rfl hplace.1

/-- Behind a part of a container the mistake is the first byte, or it stands behind a
comma. -/
theorem readBehind_locates (hat : reader.At (.behind (container :: outer)) (b :: bytes) ending)
    (h : reader.readBehind b = (.error e, reader')) :
    reader.Locates (.behind (container :: outer)) e := by
  -- Both brackets fail alike.
  have hclose {closed : Container} (h : ((reader.readClose closed).1.map some,
      (reader.readClose closed).2) = (.error e, reader')) :
      reader.Locates (.behind (container :: outer)) e := by
    obtain ⟨hresult, hreader⟩ := Prod.mk.inj h
    exact readClose_locates hat.rest (Prod.ext (map_some_eq_error hresult) hreader)
  unfold readBehind at h
  split at h
  · exact hclose h
  · exact hclose h
  next hb =>
    obtain rfl := eq_toUInt8_of_ofUInt8_eq hb
    -- Behind the comma a part of the container is due, maybe with spaces before it.
    have hpassed := hat.passComma
    have htotal : reader.passComma.total = reader.total := total_advance_one hat.rest
    have hrest : reader.rest = [0x2C] ++ reader.passComma.rest := by
      rw [hat.rest, hpassed.rest]
      rfl
    suffices hpart : reader.passComma.skipSpaces.Locates (.part container outer) e from
      hpart.of_skipSpaces.of_passed htotal hrest Leads.comma
    dsimp only at h
    split at h
    next hnext =>
      cases h
      exact nextByte_locates hnext
    · cases h
    next c hnext =>
      obtain ⟨rest, hrest⟩ := rest_of_nextByte hnext
      obtain ⟨hresult, hreader⟩ := Prod.mk.inj h
      exact readElement_part_locates (hpassed.skipSpaces hrest).1
        (Prod.ext (map_some_eq_error hresult) hreader)
  · cases h
    exact .here hat.rest

/-- **In front of a mistake stands what could be completed.**  So a mistake is never
reported later than it is made, except inside of a string or a number. -/
theorem readToken_locates (hat : reader.At position bytes ending)
    (h : reader.readToken = (.error e, reader')) : reader.Locates position e := by
  refine Locates.of_skipSpaces ?_
  rw [readToken_eq] at h
  -- Behind the document, where no byte can be had, and where one stands: only the last two can
  -- fail.
  split at h
  · cases h
  next hdone =>
    split at h
    next hnext =>
      cases h
      exact nextByte_locates hnext
    · cases h
    next b hnext =>
      obtain ⟨rest, hrest⟩ := rest_of_nextByte hnext
      have hspaced := (hat.skipSpaces hrest).1
      rw [hat.place] at hdone
      split at h
      next hcomma =>
        rw [hat.place] at hcomma
        obtain ⟨container, outer, rfl⟩ := Position.eq_behind_of_place hcomma
        exact readBehind_locates hspaced h
      next hcomma =>
        rw [hat.place] at hcomma
        obtain ⟨hresult, hreader⟩ := Prod.mk.inj h
        exact readElement_locates hspaced ⟨hcomma, hdone⟩
          (Prod.ext (map_some_eq_error hresult) hreader)

/-- Behind a document the mistake is the first byte that is no space.  The spaces up to it
are part of the text that can still be completed. -/
theorem finish_locates (h : reader.finish.1 = .error e) : reader.Locates position e := by
  refine Locates.of_skipSpaces ?_
  unfold finish at h
  split at h
  · dsimp only at h
    split at h
    next hpeek =>
      cases h
      exact peekByte_locates hpeek
    · cases h
    next b hpeek =>
      cases h
      obtain ⟨bytes, hrest⟩ := rest_of_peekByte hpeek
      exact .here hrest
  · cases h
    exact .unexpectedEnd

end JsonReader

end FieldMask
