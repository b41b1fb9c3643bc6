import FieldMask.Proofs.Expression.Location
import Mathlib.Data.List.Infix
import Mathlib.Logic.Relation

namespace FieldMask.Expression

/-!
# Reading is safe and comes to an end

A cursor counts bytes, and a text can be looked at only where a character begins or where it ends.
Over blanks and names a cursor moves by the length of each character.  Over a sign, a separator or a
parenthesis it moves by one byte, and over a comma it does so because an earlier step has seen it.

* `Cursor.IsIn` — a cursor at which a text can be looked at; `Cursor.isIn_iff` — the same, by what
  stands before it.
* `Cursor.through`, `Reading.places` — where a text is looked at in a run of characters and in a
  step; `Follows.places_isIn` — all of these places are in the text.
* `Reading.Safe` — what a step does not do wrong; `Follows.safe` — no step of a reading does.
* `Reading.runFor_of_measure_lt` — the number of steps that a run takes.
* `reading_safe` — all readings of all texts, with any limit on nesting.
-/

/-! ### Places in a text -/

/-- A cursor that is in a text: its offset is on a boundary between characters and not beyond the
end, and the characters still to be read are those behind it. -/
structure Cursor.IsIn (text : String) (cursor : Cursor) : Prop where
  offset_le : cursor.offset ≤ text.utf8ByteSize
  boundary : String.Pos.Raw.IsValid text ⟨cursor.offset⟩
  rest_eq : (text.sliceFrom ⟨⟨cursor.offset⟩, boundary⟩).copy = String.ofList cursor.rest

namespace Cursor

variable {text : String} {cursor place : Cursor} {passed : List Char} {p : Char → Bool}

/-- A cursor is in a text if some first part of it has as many bytes as the offset says. -/
theorem isIn_iff : cursor.IsIn text ↔
    ∃ before : String, text = before ++ String.ofList cursor.rest ∧
      cursor.offset = before.utf8ByteSize := by
  -- A valid position of a string splits it in two, and every split has its position.
  constructor
  · rintro ⟨-, hboundary, hrest⟩
    have hsplits := String.Pos.splits (⟨⟨cursor.offset⟩, hboundary⟩ : text.Pos)
    rw [hrest] at hsplits
    exact ⟨_, hsplits.eq_append, congrArg String.Pos.Raw.byteIdx hsplits.offset_eq_rawEndPos⟩
  · rintro ⟨before, htext, hoffset⟩
    have hend : (⟨cursor.offset⟩ : String.Pos.Raw) = before.rawEndPos :=
      congrArg String.Pos.Raw.mk hoffset
    have hboundary : String.Pos.Raw.IsValid text ⟨cursor.offset⟩ :=
      String.Pos.Raw.isValid_iff_exists_append.2 ⟨_, _, htext, hend⟩
    have hsplits : String.Pos.Splits (⟨⟨cursor.offset⟩, hboundary⟩ : text.Pos) before
        (String.ofList cursor.rest) := ⟨htext, hend⟩
    exact ⟨hboundary.le_rawEndPos, hboundary, (String.Pos.splits _).eq_right hsplits⟩

namespace IsIn

/-- A cursor that has moved over some characters, by as many bytes as they take, is still in the
text. -/
theorem of_passed (h : cursor.IsIn text) (hrest : cursor.rest = passed ++ place.rest)
    (hoffset : place.offset = cursor.offset + byteLength passed) : place.IsIn text := by
  obtain ⟨before, htext, hbefore⟩ := isIn_iff.1 h
  refine isIn_iff.2 ⟨before ++ String.ofList passed, ?_, ?_⟩
  · rw [htext, hrest, String.ofList_append, String.append_assoc]
  · rw [hoffset, hbefore, String.utf8ByteSize_append, ← byteLength_toList (String.ofList passed),
      String.toList_ofList]

/-- A run moves from one boundary to another. -/
theorem span (h : cursor.IsIn text) (p : Char → Bool) : (cursor.span p).2.IsIn text :=
  h.of_passed (cursor.span_append p).symm rfl

/-- So do blanks. -/
theorem skipBlanks (h : cursor.IsIn text) : cursor.skipBlanks.IsIn text := h.span isBlank

/-- A cursor at a character of one byte may move by one byte. -/
theorem next {c : Char} (h : cursor.IsIn text) (hpeek : cursor.peek? = some c)
    (hsize : c.utf8Size = 1) : cursor.next.IsIn text := by
  have hrest : cursor.rest = [c] ++ cursor.next.rest := rest_of_peek? hpeek
  refine h.of_passed hrest ?_
  rw [byteLength, hsize]
  rfl

/-- And so does a sign, which takes one byte if there is one. -/
theorem readSign (h : cursor.IsIn text) : (Reading.readSign cursor).2.IsIn text := by
  rw [Reading.readSign]
  split
  next hpeek => exact (h.skipBlanks.next hpeek rfl).skipBlanks
  next => exact h.skipBlanks

end IsIn

/-- The places at which a run of characters of a class is passed: before each of them, and behind
the last. -/
def through (cursor : Cursor) (p : Char → Bool) : List Cursor :=
  (cursor.span p).1.inits.map fun passed =>
    ⟨cursor.offset + byteLength passed, cursor.rest.drop passed.length⟩

/-- Each place in a run is on a boundary. -/
theorem IsIn.through (h : cursor.IsIn text) : ∀ place ∈ cursor.through p, place.IsIn text := by
  intro place hplace
  obtain ⟨passed, hpassed, rfl⟩ := List.mem_map.1 hplace
  -- What has been passed of the run is the beginning of all that is to be read.
  obtain ⟨more, hmore⟩ := (List.mem_inits _ _).1 hpassed
  have hrest : cursor.rest = passed ++ cursor.rest.drop passed.length := by
    rw [← cursor.span_append p, ← hmore, List.append_assoc, List.drop_left]
  exact h.of_passed hrest rfl

/-- The place behind a run is one of them. -/
theorem span_mem_through (cursor : Cursor) (p : Char → Bool) :
    (cursor.span p).2 ∈ cursor.through p := by
  refine List.mem_map.2 ⟨(cursor.span p).1, (List.mem_inits _ _).2 (List.prefix_refl _), ?_⟩
  have hrest : cursor.rest.drop (cursor.span p).1.length = (cursor.span p).2.rest := by
    conv => lhs; rw [← cursor.span_append p]
    exact List.drop_left
  exact congrArg (Cursor.mk _) hrest

/-- Where blanks are skipped, the place behind them is one of those looked at. -/
theorem skipBlanks_mem_through (cursor : Cursor) : cursor.skipBlanks ∈ cursor.through isBlank :=
  cursor.span_mem_through isBlank

end Cursor

/-! ### Places of a reading -/

namespace Reading

/-- The places at which a sign is looked for, and behind it the name. -/
def signPlaces (cursor : Cursor) : List Cursor :=
  cursor.through isBlank ++
    if cursor.skipBlanks.peek? = some '-' then cursor.skipBlanks.next.through isBlank else []

/-- The places at which a cursor stands in the course of a step, up to the last look at the text. -/
def places (reading : Reading) : List Cursor :=
  match reading.phase with
  | .entry => signPlaces reading.cursor ++ (readSign reading.cursor).2.through isNameChar
  | .comma => reading.cursor :: reading.cursor.next.through isBlank
  | _ => reading.cursor.through isBlank

/-- Behind an entry's name the cursor stands at the end of its run. -/
theorem cursor_readEntry {reading reading' : Reading} (hstep : reading.readEntry = .next reading') :
    reading'.cursor = ((readSign reading.cursor).2.span isNameChar).2 := by
  rw [readEntry] at hstep
  dsimp only at hstep
  split at hstep
  · cases hstep
  · split at hstep
    · cases hstep
    · cases hstep
      rfl

/-- A step ends at a place where it has looked at the text, or one byte behind such a place. -/
theorem exists_place_of_step {limit : Option Nat} {reading reading' : Reading}
    (hstep : reading.step limit = .next reading') :
    ∃ place ∈ reading.places, reading'.cursor = place ∨ reading'.cursor = place.next := by
  rw [step] at hstep
  rw [places]
  -- Over a colon and a parenthesis the cursor moves by one byte, elsewhere it stays where it has
  -- looked.
  cases hphase : reading.phase with
  | entry =>
    rw [hphase] at hstep
    exact ⟨_, List.mem_append_right _ (Cursor.span_mem_through _ _), .inl (cursor_readEntry hstep)⟩
  | afterName name polarity =>
    rw [hphase] at hstep
    rcases readAfterName_eq_next hstep with ⟨-, rfl⟩ | ⟨-, rfl⟩ | ⟨-, rfl⟩
    · exact ⟨_, Cursor.skipBlanks_mem_through _, .inr rfl⟩
    · exact ⟨_, Cursor.skipBlanks_mem_through _, .inl rfl⟩
    · exact ⟨_, Cursor.skipBlanks_mem_through _, .inl rfl⟩
  | opening name polarity =>
    rw [hphase] at hstep
    obtain ⟨-, -, _, rfl⟩ := readOpening_eq_next hstep
    exact ⟨_, Cursor.skipBlanks_mem_through _, .inr rfl⟩
  | closing =>
    rw [hphase] at hstep
    rcases readClosing_eq_next hstep with ⟨-, rfl⟩ | ⟨-, _, _, _, -, rfl⟩
    · exact ⟨_, Cursor.skipBlanks_mem_through _, .inl rfl⟩
    · exact ⟨_, Cursor.skipBlanks_mem_through _, .inr rfl⟩
  | comma =>
    rw [hphase] at hstep
    obtain ⟨-, rfl⟩ := readComma_eq_next hstep
    exact ⟨_, List.mem_cons_of_mem _ (Cursor.skipBlanks_mem_through _), .inl rfl⟩

/-- What holds of a reading that does nothing wrong in its next step: the cursor stands and moves
only where the text can be looked at, a comma is passed only if there is one, and no field is
replaced. -/
structure Safe (limit : Option Nat) (text : String) (reading : Reading) : Prop where
  cursor_isIn : reading.cursor.IsIn text
  places_isIn : ∀ place ∈ reading.places, place.IsIn text
  ends : ∀ reading', reading.step limit = .next reading' → reading'.cursor.IsIn text ∧
    ∃ place ∈ reading.places, reading'.cursor = place ∨ reading'.cursor = place.next
  at_comma : reading.phase = .comma → reading.cursor.peek? = some ','
  builds : ∀ reading', reading.step limit = .next reading' → reading.Builds limit reading'

end Reading

namespace Follows

variable {limit : Option Nat} {text : String} {reading : Reading}

/-- A reading that follows its text stands in it. -/
theorem cursor_isIn (h : Follows limit text.toList reading) : reading.cursor.IsIn text := by
  obtain @⟨outer, part, htext, -, -⟩ := h.reads
  rw [← List.append_assoc] at htext
  refine Cursor.isIn_iff.2 ⟨String.ofList (outer ++ part), ?_, ?_⟩
  · rw [← String.ofList_append, ← htext, String.ofList_toList]
  · rw [← byteLength_toList, String.toList_ofList]
    exact Cursor.offset_eq_of_append h.endOffset_eq htext

/-- A comma has been seen when its phase begins. -/
theorem at_comma (h : Follows limit text.toList reading) (hphase : reading.phase = .comma) :
    reading.cursor.peek? = some ',' := by
  obtain ⟨-, -, hpassed⟩ := h.reads
  rw [hphase] at hpassed
  exact hpassed.2

/-- Wherever a step looks, there is a boundary. -/
theorem places_isIn (h : Follows limit text.toList reading) :
    ∀ place ∈ reading.places, place.IsIn text := by
  have hcursor := h.cursor_isIn
  rw [Reading.places]
  -- Behind the sign of an entry, behind the comma, and anywhere else behind blanks.
  split
  next =>
    rw [Reading.signPlaces]
    intro place hplace
    rcases List.mem_append.1 hplace with hplace | hplace
    · rcases List.mem_append.1 hplace with hplace | hplace
      · exact hcursor.through place hplace
      · split at hplace
        next hpeek => exact (hcursor.skipBlanks.next hpeek rfl).through place hplace
        next => cases hplace
    · exact hcursor.readSign.through place hplace
  next hphase =>
    -- The comma is one byte, although it is not looked at again.
    have hbehind := hcursor.next (h.at_comma hphase) rfl
    intro place hplace
    rcases List.mem_cons.1 hplace with rfl | hplace
    · exact hcursor
    · exact hbehind.through place hplace
  next => exact hcursor.through

/-- So no step does anything wrong. -/
theorem safe (h : Follows limit text.toList reading) : reading.Safe limit text where
  cursor_isIn := h.cursor_isIn
  places_isIn := h.places_isIn
  ends _ hstep := ⟨(h.step hstep).cursor_isIn, Reading.exists_place_of_step hstep⟩
  at_comma := h.at_comma
  builds _ hstep := h.reads.builds hstep

end Follows

/-! ### Runs -/

/-- What steps lead to. -/
def Reading.Reaches (limit : Option Nat) : Reading → Reading → Prop :=
  Relation.ReflTransGen fun reading reading' => reading.step limit = .next reading'

/-- Whatever steps lead to from the beginning follows the text. -/
theorem Follows.of_reaches {limit : Option Nat} {text : String} {reading : Reading}
    (h : (Reading.start text).Reaches limit reading) : Follows limit text.toList reading := by
  induction h with
  | refl => exact .start limit text
  | tail _ hstep ih => exact ih.step hstep

/-- A run takes at most one step more than the quantity that each step decreases.  The
induction is on the number of steps. -/
theorem Reading.runFor_of_measure_lt {limit : Option Nat} {steps : Nat} {reading : Reading}
    (h : reading.measure < steps) : reading.runFor limit steps = some (reading.run limit) := by
  induction steps generalizing reading with
  | zero => exact absurd h (Nat.not_lt_zero _)
  | succ steps ih =>
    rw [runFor]
    cases hstep : reading.step limit with
    | next reading' =>
      have hmeasure := measure_lt_of_step hstep
      rw [run_of_step_eq_next hstep]
      exact ih (by omega)
    | accept mask => rw [run_of_step_eq_accept hstep]
    | reject error => rw [run_of_step_eq_reject hstep]

/-- Every character takes at least one byte. -/
theorem length_le_byteLength (cs : List Char) : cs.length ≤ byteLength cs := by
  induction cs with
  | nil => exact Nat.zero_le 0
  | cons c cs ih =>
    have hsize := c.utf8Size_pos
    rw [List.length_cons, byteLength]
    omega

/-- **Reading is safe and comes to an end.**  Whatever the text and the limit on nesting, every
reading that is reached looks at the text only on boundaries between characters and not beyond its
end, passes a comma only where there is one, and puts a finished entry only into a level that has no
field of its name.  And the run ends within four steps for each byte and four more; each subtree
that is closed counts as a step. -/
theorem reading_safe (limit : Option Nat) (text : String) :
    (∀ reading, (Reading.start text).Reaches limit reading → reading.Safe limit text) ∧
      (Reading.start text).runFor limit (4 * (text.utf8ByteSize + 1)) =
        some ((Reading.start text).run limit) := by
  refine ⟨fun reading hreaches => (Follows.of_reaches hreaches).safe, ?_⟩
  apply Reading.runFor_of_measure_lt
  have hlength := length_le_byteLength text.toList
  rw [byteLength_toList] at hlength
  have hmeasure : (Reading.start text).measure = 3 * text.toList.length := rfl
  omega

/-- Behind a name of two bytes a subtree is read to its end, in front of the parenthesis that is
about to close it. -/
theorem reading_safe_closing :
    ∃ reading, (Reading.start "é:(- b),c").Reaches none reading ∧ reading.phase = .closing ∧
      reading.cursor.offset = 7 ∧ reading.enclosing ≠ [] ∧ reading.Safe none "é:(- b),c" := by
  have hreaches : (Reading.start "é:(- b),c").Reaches none _ :=
    .tail (.tail (.tail (.tail (.tail .refl rfl) rfl) rfl) rfl) rfl
  exact ⟨_, hreaches, rfl, rfl, List.cons_ne_nil _ _, (reading_safe none _).1 _ hreaches⟩

end FieldMask.Expression
