import FieldMask.Proofs.Json.Cut
import FieldMask.Proofs.Json.Location

namespace FieldMask

open JsonText

/-!
# Texts that are cut

A text that ends before the bracket which would end its document is rejected, whatever the mask and
wherever it is written to.  It is rejected for being too short, unless it ends inside a number: the
digits that are there are then taken for all of them, and if they are no number by themselves, this
is what is reported.

* `JsonText.EndsInNumber` — a text that is cut inside a number.
* `JsonReader.StopsShort`, `JsonReader.readToken_cut` — what a reader makes of a token that is cut.
* `JsonReader.RunsShort`, `JsonReader.runsShort_of_due` — what it makes of what is due and cut.
* `projectBytes_truncated` — projection.
-/

namespace JsonText

variable {position position' : Position} {bytes text front rest : List UInt8} {token : Token}
  {tokens : List Token} {offset : Nat}

/-- No token leads to the start of a text. -/
theorem Step.ne_start (h : Step position bytes token position' rest) : position' ≠ .value [] := by
  have helement {position : Position} {first : List UInt8}
      (h : Element position first token position' rest) : position' ≠ .value [] := by
    cases h <;> nofun
  cases h with
  | element _ h => exact helement h
  | part _ h => exact helement h
  | empty => nofun
  | more _ _ h => exact helement h
  | close => nofun

/-- Some bytes end inside a number of a text: up to an offset they lead to a place for a value, and
from there on they are the first ones of a numeral that the text has in whole. -/
def EndsInNumber (position : Position) (bytes text : List UInt8) (offset : Nat) : Prop :=
  ∃ before left behind rest tokens more containers, bytes = before ++ left ∧
    text = before ++ behind ∧ offset = before.length ∧
    Leads position before tokens (.value containers) ∧ CutsNumeral left behind rest ∧
    Due (.behind containers) rest more

/-- A text that ends inside a number does so, too, with more bytes in front that lead
there. -/
theorem EndsInNumber.of_leads (hleads : Leads position front tokens position')
    (h : EndsInNumber position' bytes text offset) :
    EndsInNumber position (front ++ bytes) (front ++ text) (front.length + offset) := by
  obtain ⟨before, left, behind, rest, tokens', more, containers, rfl, rfl, rfl, hbefore, hcut,
    hdue⟩ := h
  exact ⟨front ++ before, left, behind, rest, tokens ++ tokens', more, containers,
    (List.append_assoc ..).symm, (List.append_assoc ..).symm, List.length_append.symm,
    hleads.trans hbefore, hcut, hdue⟩

end JsonText

namespace JsonReader

/-- An element is due where a reader may find it. -/
theorem Awaits.leads {position element : Position} (h : Awaits position element) :
    Leads position [] [] element := by
  cases h with
  | element => exact Leads.refl position
  | part => exact Leads.part

variable {reader reader' : JsonReader} {position position' element : Position}
  {container : Container} {containers outer : List Container}
  {bytes text front rest missing : List UInt8} {b : UInt8} {token : Token} {tokens : List Token}

/-! ### One token -/

/-- A reader finds that the text is too short, or it finds no document at all, or it takes the first
digits of a number for all of them: then they are malformed, or the text is too short behind
them. -/
def StopsShort (reader : JsonReader) (position : Position) (bytes text : List UInt8)
    (result : Except StreamError (Option Token) × JsonReader) : Prop :=
  result.1 = .error .unexpectedEnd ∨
  (result.1 = .ok none ∧ result.2.place ≠ .done) ∨
  (∃ token, result.1 = .ok (some token) ∧ result.2.readToken.1 = .error .unexpectedEnd) ∨
  ∃ offset, EndsInNumber position bytes text offset ∧
    result.1 = .error (.invalidText .malformedNumber (reader.offset + offset))

/-- What a reader finds further on, it finds from here, if the bytes between lead there. -/
theorem StopsShort.of_passed {result : Except StreamError (Option Token) × JsonReader}
    (htotal : reader'.total = reader.total) (hrest : reader.rest = front ++ reader'.rest)
    (hleads : Leads position front [] position')
    (h : reader'.StopsShort position' bytes text result) :
    reader.StopsShort position (front ++ bytes) (front ++ text) result := by
  rcases h with h | h | h | ⟨offset, hends, herror⟩
  · exact .inl h
  · exact .inr (.inl h)
  · exact .inr (.inr (.inl h))
  · refine .inr (.inr (.inr ⟨front.length + offset, hends.of_leads hleads, ?_⟩))
    rw [herror, offset_of_total htotal hrest, Nat.add_assoc]

/-- Where only spaces are left, there is no byte behind them. -/
theorem nextByte_of_spaces (hat : reader.At position bytes .closed) (hspaces : Spaces bytes []) :
    reader.skipSpaces.nextByte =
      if reader.place = .value ∧ reader.containers = [] then .ok none
      else .error .unexpectedEnd := by
  have hnil : reader.skipSpaces.rest = [] := by
    rw [rest_skipSpaces, hat.rest, hspaces.dropWhile_eq]
    rfl
  rw [nextByte, peekByte_of_nil hnil hat.ending]
  rfl

/-- Where only spaces are left the text is too short, or there is no document at all.  The
second is only so at the very beginning. -/
theorem stopsShort_of_spaces (hat : reader.At position bytes .closed) (hspaces : Spaces bytes [])
    (hposition : position ≠ .behind []) :
    reader.StopsShort position bytes text reader.readToken := by
  have hdone : reader.place ≠ .done := by
    rw [hat.place]
    exact fun h => hposition (Position.eq_behind_nil_of_place h)
  rw [readToken_eq, if_neg hdone, nextByte_of_spaces hat hspaces]
  by_cases hstart : reader.place = .value ∧ reader.containers = []
  · rw [if_pos hstart]
    exact .inr (.inl ⟨rfl, hdone⟩)
  · rw [if_neg hstart]
    exact .inl rfl

/-- Inside of a container the text may not be over. -/
theorem readToken_at_end (hat : reader.At (.behind (container :: outer)) [] .closed) :
    reader.readToken.1 = .error .unexpectedEnd := by
  have hdone : reader.place ≠ .done := by
    rw [hat.place]
    nofun
  have hplace : ¬(reader.place = .value ∧ reader.containers = []) := by
    rw [hat.place]
    nofun
  rw [readToken_eq, if_neg hdone, nextByte_of_spaces hat (.refl []), if_neg hplace]

/-- An element that is cut is not read, unless it is a numeral; and then the text is over.
Only a document that is a scalar could be whole by then, and that is excluded. -/
theorem stopsShort_of_element (hat : reader.At position (b :: bytes) .closed)
    (hawaits : Awaits position element) {more : List UInt8}
    (h : Element element (b :: bytes ++ (more ++ rest)) token position' rest) (hmore : more ≠ [])
    (hdue : Due position' rest tokens)
    (hroot : element = .value [] → ∀ value, token ≠ .scalar value) :
    reader.StopsShort element (b :: bytes) (b :: bytes ++ (more ++ rest))
      ((reader.readElement b).1.map some, (reader.readElement b).2) := by
  rcases readElement_cut hat hawaits h hmore with hend |
    ⟨containers, rfl, ⟨n, rfl⟩, rfl, hcut, ⟨behind, hread⟩ | ⟨n', behind, hread, hbehind⟩⟩
  · rw [hend]
    exact .inl rfl
  · -- The number begins where the reader stands.
    rw [hread]
    exact .inr (.inr (.inr ⟨0, ⟨[], _, _, rest, [], tokens, containers, rfl, rfl, rfl,
      Leads.refl _, hcut, hdue⟩, rfl⟩))
  · -- Outside of all containers the digits that are there would be a whole text.
    rw [hread]
    cases containers with
    | nil => exact absurd rfl (hroot rfl _)
    | cons container outer => exact .inr (.inr (.inl ⟨_, rfl, readToken_at_end hbehind⟩))

/-- A part of a container, or a document, that is cut.  Before its first byte there may be
spaces, and the cut may be among them. -/
theorem readToken_cut_element (hat : reader.At position bytes .closed)
    (hplace : position.place ≠ .comma ∧ position.place ≠ .done) (hawaits : Awaits position element)
    {first more : List UInt8} (hspaces : Spaces (bytes ++ (more ++ rest)) first)
    (h : Element element first token position' rest) (hmore : more ≠ [])
    (hdue : Due position' rest tokens)
    (hroot : element = .value [] → ∀ value, token ≠ .scalar value) :
    reader.StopsShort position bytes (bytes ++ (more ++ rest)) reader.readToken := by
  have hposition : position ≠ .behind [] := by
    rintro rfl
    exact hplace.2 rfl
  rcases spaces_cut hspaces with hall | ⟨b, behind, rfl, hgap⟩
  · exact stopsShort_of_spaces hat hall hposition
  · obtain ⟨_, _, hcons, hb, -⟩ := head_element h
    obtain ⟨rfl, -⟩ := List.cons.inj hcons
    have hrest := rest_skipSpaces_of_spaces (hat.rest ▸ hgap) hb
    have hshort := stopsShort_of_element (hat.skipSpaces hrest).1 hawaits h hmore hdue hroot
    -- The spaces lead to where the element is due, so what is found behind them is found from here.
    obtain ⟨spaces, rfl, hframe⟩ := hgap.frame
    have hleads : Leads position spaces [] element := by
      simpa using (Leads.of_spaces hframe).trans hawaits.leads
    rw [readToken_eq, if_neg (hat.place ▸ hplace.2), nextByte_of_rest hrest]
    dsimp only
    rw [if_neg (hat.place ▸ hplace.1), List.append_assoc]
    exact hshort.of_passed (total_skipSpaces reader) (hrest ▸ hat.rest) hleads

/-- **A token that is cut** shows that the text is too short, unless it is a numeral.
The cases are the rules by which a token follows another; a bracket is cut only in front
of it. -/
theorem readToken_cut (hat : reader.At position bytes .closed) {more : List UInt8}
    (h : Step position (bytes ++ (more ++ rest)) token position' rest) (hmore : more ≠ [])
    (hdue : Due position' rest tokens)
    (hroot : position = .value [] → ∀ value, token ≠ .scalar value) :
    reader.StopsShort position bytes (bytes ++ (more ++ rest)) reader.readToken := by
  cases h with
  | element hspaces h =>
    have hplace := Position.place_of_element h
    exact readToken_cut_element hat hplace (.element position) hspaces h hmore hdue hroot
  | @part container outer _ _ _ _ _ hspaces h =>
    have hplace := Position.place_first container outer
    refine readToken_cut_element hat hplace (.part container outer) hspaces h hmore hdue ?_
    cases container <;> nofun
  | empty hspaces => exact stopsShort_of_spaces hat (spaces_cut_before hspaces rfl hmore) nofun
  | @more container outer _ _ _ _ _ _ hcomma hspaces h =>
    rcases spaces_cut hcomma with hall | ⟨b, behind, hcons, hgap⟩
    · exact stopsShort_of_spaces hat hall nofun
    · -- The comma is there; what is cut is the part behind it.
      obtain ⟨rfl, rfl⟩ := List.cons.inj hcons
      obtain ⟨hpassed, hread⟩ := readToken_of_comma hat hgap
      have hbyte := (hat.skipSpaces_of_spaces hgap rfl).rest
      have htotal : reader.skipSpaces.passComma.total = reader.total :=
        (total_advance_one hbyte).trans (total_skipSpaces reader)
      have hplace := Position.place_part container outer
      have hshort := readToken_cut_element hpassed hplace (.element _) hspaces h hmore hdue
        (by cases container <;> nofun)
      obtain ⟨spaces, rfl, hframe⟩ := hgap.frame
      have hleads : Leads (.behind (container :: outer)) (spaces ++ [0x2C]) []
          (.part container outer) := (Leads.of_spaces hframe).trans Leads.comma
      have hrest : reader.rest = (spaces ++ [0x2C]) ++ reader.skipSpaces.passComma.rest := by
        rw [hat.rest, hpassed.rest]
        simp
      rw [hread]
      simpa using hshort.of_passed htotal hrest hleads
  | close hspaces => exact stopsShort_of_spaces hat (spaces_cut_before hspaces rfl hmore) nofun

/-! ### All tokens -/

/-- A reader takes some tokens and then finds that the text is too short, or it finds no document at
all, or the digits at the end to be malformed. -/
def RunsShort (reader : JsonReader) (position : Position) (bytes text : List UInt8) : Prop :=
  ∃ tokens final, Produces reader tokens final ∧
    (final.readToken.1 = .error .unexpectedEnd ∨
      (final.readToken.1 = .ok none ∧ final.readToken.2.place ≠ .done) ∨
      ∃ offset, EndsInNumber position bytes text offset ∧
        final.readToken.1 = .error (.invalidText .malformedNumber (reader.offset + offset)))

/-- A reader that finds so at its next token has taken no token before, or one that is the
number. -/
theorem StopsShort.runsShort (h : reader.StopsShort position bytes text reader.readToken) :
    reader.RunsShort position bytes text := by
  rcases h with h | h | ⟨token, htoken, h⟩ | h
  · exact ⟨[], reader, .nil, .inl h⟩
  · exact ⟨[], reader, .nil, .inr (.inl h)⟩
  · exact ⟨[token], reader.readToken.2, .cons (Prod.ext htoken rfl) .nil, .inl h⟩
  · exact ⟨[], reader, .nil, .inr (.inr h)⟩

/-- What comes after a token is cut.  Its bytes and the token itself stand in front of
whatever the cut text comes to. -/
theorem RunsShort.of_token (hread : reader.readToken = (.ok (some token), reader'))
    (hrest : reader.rest = front ++ reader'.rest) (hleads : Leads position front [token] position')
    (h : reader'.RunsShort position' bytes text) :
    reader.RunsShort position (front ++ bytes) (front ++ text) := by
  obtain ⟨tokens, final, hproduces, h⟩ := h
  refine ⟨token :: tokens, final, .cons hread hproduces, ?_⟩
  rcases h with h | h | ⟨offset, hends, h⟩
  · exact .inl h
  · exact .inr (.inl h)
  · refine .inr (.inr ⟨front.length + offset, hends.of_leads hleads, ?_⟩)
    have htotal : reader'.total = reader.total := by
      rw [← total_readToken reader, hread]
    rw [h, offset_of_total htotal hrest, Nat.add_assoc]

/-- **What is due and cut is not read to its end.**  By induction on the tokens that are
due: those in front of the cut are read as they are in the whole text, and the one that is
cut is not. -/
theorem runsShort_of_due (hat : reader.At position bytes .closed)
    (hdue : Due position (bytes ++ missing) tokens) (hmissing : ¬Spaces missing [])
    (hroot : position = .value [] → ∀ value more, tokens ≠ .scalar value :: more) :
    reader.RunsShort position bytes (bytes ++ missing) := by
  induction tokens generalizing reader position bytes with
  | nil =>
    exact absurd (spaces_append_iff.1 hdue.of_nil.2).2 hmissing
  | cons token tokens ih =>
    obtain ⟨position', rest, hstep, hbehind⟩ := hdue.exists_step
    obtain ⟨piece, hbytes, -, hframe⟩ := hstep.frame
    -- The token is cut, or it is there in whole and something behind it is cut.
    suffices hcut : (∃ between, missing = between ++ rest ∧ between ≠ []) ∨
        ∃ left, bytes = piece ++ left ∧ rest = left ++ missing by
      rcases hcut with ⟨between, rfl, hbetween⟩ | ⟨left, rfl, rfl⟩
      · exact (readToken_cut hat hstep hbetween hbehind fun h value htoken =>
          hroot h value tokens (htoken ▸ rfl)).runsShort
      · -- Where the text is over behind the token, it is over for a numeral, too.
        have hends (n : Number) (htoken : token = .scalar (.number n)) : EndsNumeral left := by
          cases left with
          | nil => nofun
          | cons b left => exact fun c hc => endsNumeral_of_step hstep hbehind n htoken c hc
        obtain ⟨reader', hread, hat'⟩ := readToken_of_step hat (hframe left) hends
        have hleads : Leads position piece [token] position' :=
          fun rest' more hdue => (hframe rest').due_cons hdue
        have hrest : reader.rest = piece ++ reader'.rest := by rw [hat.rest, hat'.rest]
        rw [List.append_assoc]
        exact (ih hat' hbehind fun h => absurd h hstep.ne_start).of_token hread hrest hleads
    rcases List.append_eq_append_iff.1 hbytes with ⟨between, hpiece, hmissing⟩ | ⟨left, hcut⟩
    · cases between with
      | nil => exact .inr ⟨[], by simpa using hpiece.symm, by simpa using hmissing.symm⟩
      | cons b between => exact .inl ⟨b :: between, hmissing, List.cons_ne_nil b between⟩
    · exact .inr ⟨left, hcut⟩

/-- The end of a document that is cut is asked for in vain. -/
theorem readAll_of_runsShort (h : (ofBytes bytes .closed).RunsShort (.value []) bytes text) :
    readAll bytes = .error .unexpectedEnd ∨
      ∃ offset, EndsInNumber (.value []) bytes text offset ∧
        readAll bytes = .error (.invalidText .malformedNumber offset) := by
  -- A run that ends with a failure makes reading fail with it.
  have hfailed {final : JsonReader} {e : StreamError} {tokens : List Token}
      (hproduces : Produces (ofBytes bytes .closed) tokens final)
      (h : final.readToken.1 = .error e) : readAll bytes = .error e := by
    have hread : final.readToken = (.error e, final.readToken.2) := Prod.ext h rfl
    rw [readAll, drain_of_produces_error hproduces hread]
  obtain ⟨tokens, final, hproduces, h | ⟨hnone, hplace⟩ | ⟨offset, hends, h⟩⟩ := h
  · exact .inl (hfailed hproduces h)
  · have hread : final.readToken = (.ok none, final.readToken.2) := Prod.ext hnone rfl
    left
    rw [readAll, drain_of_produces_none hproduces hread]
    show final.readToken.2.finish.1.map _ = _
    rw [finish, if_neg hplace]
    rfl
  · have hoffset : (ofBytes bytes .closed).offset + offset = offset := Nat.zero_add offset
    exact .inr ⟨offset, hends, hoffset ▸ hfailed hproduces h⟩

end JsonReader

open JsonReader

/-! ### Projection -/

/-- Wherever it is written to, what is projected is a text of the grammar.  Whether a device
fails is not known beforehand, but if none does the reader has come to the end. -/
theorem exists_denotes_of_projectBytes {mask : Option Mask} {bytes : List UInt8} {device : Device}
    (h : (projectBytes mask bytes .closed device).1 = .ok ()) : ∃ doc, Denotes bytes doc := by
  rcases projectBytes_located_or_reached mask bytes .closed device with ⟨e, herror, -⟩ |
    ⟨-, final, ⟨tokens, hproduces⟩, hfinish⟩
  · rw [h] at herror
    cases herror
  · obtain ⟨position, piece, rest, hat, rfl, hdue⟩ :=
      due_of_produces (at_ofBytes bytes .closed) hproduces
    obtain ⟨rfl, hspaces⟩ := (finish_eq_ok_iff hat).1 hfinish
    obtain ⟨doc, hdenotes, -⟩ := due_start_iff.1 (@hdue rest [] ⟨hspaces, rfl⟩)
    exact ⟨doc, hdenotes⟩

/-- **A text that is cut is never accepted.**  Cut the text of an object or an array before the
bracket that ends it: what is missing then is not all spaces.  Whatever the mask and wherever the
result is written to, projection of what is left fails.  Where nothing else fails, it fails because
the text is too short, or else the text ends inside of a number, the digits of which that are there
make none, and its place is reported. -/
theorem projectBytes_truncated (mask : Option Mask) {bytes missing : List UInt8} {doc : Doc}
    (hdenotes : Denotes (bytes ++ missing) doc) (hroot : ∀ value, doc ≠ .scalar value)
    (hmissing : ¬Spaces missing []) :
    (∀ device, ∃ e, (projectBytes mask bytes .closed device).1 = .error e) ∧
      ((projectBytes mask bytes .closed (.empty .unlimited)).1 = .error .unexpectedEnd ∨
        ∃ offset, EndsInNumber (.value []) bytes (bytes ++ missing) offset ∧
          (projectBytes mask bytes .closed (.empty .unlimited)).1 =
            .error (.invalidText .malformedNumber offset)) := by
  have hfirst : ∀ value more, doc.flatten ≠ .scalar value :: more := by
    match doc with
    | .scalar value => exact absurd rfl (hroot value)
    | .array _ => nofun
    | .object _ => nofun
  have hread := readAll_of_runsShort (runsShort_of_due (at_ofBytes bytes .closed)
    (due_start_iff.2 ⟨doc, hdenotes, rfl⟩) hmissing fun _ => hfirst)
  constructor
  · -- A device may fail before the reader does, but none makes a whole text of this one.
    intro device
    cases hproject : (projectBytes mask bytes .closed device).1 with
    | error e => exact ⟨e, rfl⟩
    | ok =>
      obtain ⟨doc', hdenotes'⟩ := exists_denotes_of_projectBytes hproject
      rw [readAll_of_denotes hdenotes'] at hread
      rcases hread with h | ⟨_, -, h⟩ <;> cases h
  · rw [projectBytes_fst]
    rcases hread with h | ⟨offset, hends, h⟩
    · exact .inl (by rw [h]; rfl)
    · exact .inr ⟨offset, hends, by rw [h]; rfl⟩

/-- A minus sign alone is no number. -/
theorem projectBytes_truncated_minus :
    (∀ device, ∃ e, (projectBytes none "[-".toUTF8.toList .closed device).1 = .error e) ∧
      EndsInNumber (.value []) "[-".toUTF8.toList ("[-".toUTF8.toList ++ "1]".toUTF8.toList) 1 ∧
      (projectBytes none "[-".toUTF8.toList .closed (.empty .unlimited)).1 =
        .error (.invalidText .malformedNumber 1) := by
  have hdenotes : Denotes ("[-".toUTF8.toList ++ "1]".toUTF8.toList)
      (.array [.scalar (.number ⟨"-1", rfl, by decide⟩)]) := by
    rw [toList_toUTF8, toList_toUTF8]
    exact denotes_chars (.array [.scalar (.number ⟨"-1", rfl, by decide⟩)])
  -- What is cut off holds a digit, so it is more than spaces.
  have hmissing : ¬Spaces "1]".toUTF8.toList [] := by
    rw [toList_toUTF8, spaces_nil_iff]
    intro h
    exact absurd (h 0x31 (.head _)) (by simp)
  have hproject : (projectBytes none "[-".toUTF8.toList .closed (.empty .unlimited)).1 =
      .error (.invalidText .malformedNumber 1) := by
    rw [projectBytes_fst, toList_toUTF8, readAll, drain_of_produces_error (.cons rfl .nil) rfl]
    rfl
  obtain ⟨hfails, hend | ⟨offset, hends, hnumber⟩⟩ :=
    projectBytes_truncated none hdenotes (by simp) hmissing
  · rw [hproject] at hend
    cases hend
  · rw [hproject] at hnumber
    cases hnumber
    exact ⟨hfails, hends, hproject⟩

end FieldMask
