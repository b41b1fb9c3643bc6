import FieldMask.Json.Lines
import FieldMask.Proofs.Text.Utf8
import Mathlib.Data.List.Forall2

namespace FieldMask

/-!
# Lines as characters and as bytes

Lines are cut out of bytes before anybody asks for characters.  A newline is one byte and no part of
any other character, so this comes to the same as to cut the characters; only a carriage return at
the very end of a text, which no newline follows, stays in its line.

* `textLines` — the lines of a text, as characters.
* `splitLines_utf8Bytes` — bytes and characters are cut at the same places.
* `ReadsAs`, `linesOf_readsAs` — what is read for each line.
* `printed` — lines with a newline behind each; `textLines_printed` — they are those of what is
  printed.
* `textLines_append` — where a text ends with a newline, the lines of what follows are its own.
-/

/-! ### Characters -/

/-- Some characters without a carriage return at their end. -/
def withoutReturn (cs : List Char) : List Char :=
  if cs.getLast? = some '\r' then cs.dropLast else cs

/-- What stands before each newline, and what stands behind the last one if there is anything. -/
def linePieces (cs : List Char) : List (List Char) :=
  let pieces := cs.splitOn '\n'
  if pieces.getLast? = some [] then pieces.dropLast else pieces

/-- The lines of a text. -/
def textLines (text : String) : List String :=
  (linePieces text.toList).map fun piece => String.ofList (withoutReturn piece)

/-- The last of the pieces between newlines counts as a line unless it is empty. -/
theorem linePieces_of_splitOn {cs last : List Char} {pieces : List (List Char)}
    (h : cs.splitOn '\n' = pieces ++ [last]) :
    linePieces cs = pieces ++ if last = [] then [] else [last] := by
  rw [linePieces, h]
  simp only [List.getLast?_concat, List.dropLast_concat, Option.some.injEq]
  split <;> simp

/-- There is always a last piece. -/
theorem exists_splitOn_eq_concat (cs : List Char) :
    ∃ pieces last, cs.splitOn '\n' = pieces ++ [last] := by
  rcases List.eq_nil_or_concat (cs.splitOn '\n') with hnil | ⟨pieces, last, h⟩
  · exact absurd hnil (List.splitOn_ne_nil '\n' cs)
  · exact ⟨pieces, last, by rw [h, List.concat_eq_append]⟩

/-- A newline parts the lines before it from the lines behind it.  The pieces before it are
all lines, the last of them too, even if it is empty. -/
theorem linePieces_append_newline (before behind : List Char) :
    linePieces (before ++ '\n' :: behind) = before.splitOn '\n' ++ linePieces behind := by
  obtain ⟨pieces, last, hbehind⟩ := exists_splitOn_eq_concat behind
  have hall : (before ++ '\n' :: behind).splitOn '\n' =
      (before.splitOn '\n' ++ pieces) ++ [last] := by
    rw [List.splitOn_append_cons_self, hbehind, List.append_assoc]
  rw [linePieces_of_splitOn hall, linePieces_of_splitOn hbehind, List.append_assoc]

/-- Where a text ends with a newline, the lines of what follows are its own. -/
theorem textLines_append {text : String} (htext : text.toList.getLast? = some '\n')
    (text' : String) : textLines (text ++ text') = textLines text ++ textLines text' := by
  -- The text is some characters and its last newline, at which the two texts part.
  obtain ⟨front, hfront⟩ := List.getLast?_eq_some_iff.1 htext
  simp only [textLines, String.toList_append, hfront, List.append_assoc, List.singleton_append,
    linePieces_append_newline, List.map_append]
  simp [linePieces]

/-! ### Bytes -/

/-- No byte below 128 is a part of another character. -/
theorem eq_ofUInt8_of_mem {b : UInt8} {c : Char} (hb : b.toNat < 0x80)
    (hmem : b ∈ String.utf8EncodeChar c) : c = Char.ofUInt8 b := by
  by_cases hascii : c.toNat < 0x80
  · rw [utf8EncodeChar_of_ascii hascii, List.mem_singleton] at hmem
    rw [hmem, ofUInt8_toUInt8 hascii]
  · exact absurd hb (Nat.not_lt.2 (le_of_mem_utf8EncodeChar (Nat.le_of_not_lt hascii) hmem))

/-- Bytes that are no newlines belong to the first piece.  A piece in the middle of which
nothing is cut grows by them at its front. -/
theorem splitLines_append {tail : List UInt8} (h : newline ∉ tail) (behind : List UInt8) :
    splitLines (tail ++ behind) = (splitLines behind).modifyHead (tail ++ ·) := by
  induction tail with
  | nil =>
    rw [List.nil_append]
    cases splitLines behind <;> rfl
  | cons b tail ih =>
    have hb : b ≠ newline := fun heq => h (heq ▸ List.mem_cons_self)
    rw [List.cons_append, splitLines_cons, if_neg hb,
      ih fun hmem => h (List.mem_cons_of_mem b hmem)]
    cases hbehind : splitLines behind with
    | nil => exact absurd hbehind (splitLines_ne_nil behind)
    | cons => rfl

/-- Bytes and characters are cut at the same places.  This is where it counts that the
newline's byte is part of no other character. -/
theorem splitLines_utf8Bytes (cs : List Char) :
    splitLines (utf8Bytes cs) = (cs.splitOn '\n').map utf8Bytes := by
  induction cs with
  | nil => rfl
  | cons c cs ih =>
    rw [utf8Bytes_cons, List.splitOn_cons_eq_if_modifyHead]
    by_cases hc : c = '\n'
    · subst hc
      rw [utf8EncodeChar_of_ascii (by decide), List.singleton_append, splitLines_cons, ih]
      rfl
    · -- Another character has no newline among its bytes, so all of them join the first piece.
      have hmem : newline ∉ String.utf8EncodeChar c := fun hmem =>
        hc (eq_ofUInt8_of_mem (by decide) hmem)
      rw [splitLines_append hmem, ih, if_neg (by simpa using hc)]
      cases cs.splitOn '\n' <;> rfl

/-- The carriage return before a newline can be dropped as a byte or as a character. -/
theorem dropReturn_utf8Bytes (cs : List Char) :
    dropReturn (utf8Bytes cs) = utf8Bytes (withoutReturn cs) := by
  rcases List.eq_nil_or_concat cs with rfl | ⟨front, c, rfl⟩
  · rfl
  rw [List.concat_eq_append, utf8Bytes_append, dropReturn, withoutReturn, List.getLast?_concat,
    List.dropLast_concat, utf8Bytes_cons, utf8Bytes_nil, List.append_nil]
  by_cases hc : c = '\r'
  · subst hc
    rw [utf8EncodeChar_of_ascii (by decide), List.getLast?_concat, List.dropLast_concat]
    rfl
  · -- The last byte is one of a character that is no carriage return.
    have hlast : (utf8Bytes front ++ String.utf8EncodeChar c).getLast? ≠ some 0x0D := by
      rw [List.getLast?_append_of_ne_nil _ String.utf8EncodeChar_ne_nil]
      intro hlast
      exact hc (eq_ofUInt8_of_mem (by decide) (List.mem_of_getLast? hlast))
    rw [if_neg hlast, if_neg (by simpa using hc), utf8Bytes_append, utf8Bytes_cons, utf8Bytes_nil,
      List.append_nil]

/-- Bytes that are read for a line: its own, and maybe those of a carriage return. -/
def ReadsAs (bytes : List UInt8) (line : String) : Prop :=
  bytes = utf8Bytes line.toList ∨ bytes = utf8Bytes (line.toList ++ ['\r'])

/-- The last line keeps a carriage return, which was dropped from its characters. -/
theorem ReadsAs.of_withoutReturn (cs : List Char) :
    ReadsAs (utf8Bytes cs) (String.ofList (withoutReturn cs)) := by
  rw [ReadsAs, String.toList_ofList, withoutReturn]
  split
  next hlast =>
    obtain ⟨front, rfl⟩ := List.getLast?_eq_some_iff.1 hlast
    exact .inr (by rw [List.dropLast_concat])
  · exact .inl rfl

/-- The lines of bytes that are over, told by their pieces: all but the last have lost their
carriage return. -/
theorem linesOf_of_splitLines {bytes last : List UInt8} {pieces : List (List UInt8)}
    (h : splitLines bytes = pieces ++ [last]) :
    linesOf bytes .closed = pieces.map dropReturn ++ if last = [] then [] else [last] := by
  unfold linesOf
  dsimp only
  rw [h, List.getLast?_concat, List.dropLast_concat]
  cases last <;> simp

/-- What is read are the lines, one after the other: the bytes of each are its own, and in
the last one maybe those of a carriage return as well. -/
theorem linesOf_readsAs (text : String) :
    (linesOf text.toUTF8.toList .closed).Forall₂ ReadsAs (textLines text) := by
  obtain ⟨pieces, last, h⟩ := exists_splitOn_eq_concat text.toList
  have hbytes : splitLines text.toUTF8.toList = pieces.map utf8Bytes ++ [utf8Bytes last] := by
    rw [toList_toUTF8, splitLines_utf8Bytes, h, List.map_append, List.map_singleton]
  rw [textLines, linesOf_of_splitLines hbytes, linePieces_of_splitOn h, List.map_append,
    List.map_map]
  -- The pieces that a newline ends, and then what stands behind the last newline.
  refine List.rel_append ?_ ?_
  · rw [List.forall₂_map_left_iff, List.forall₂_map_right_iff, List.forall₂_same]
    intro piece _
    exact .inl (by rw [Function.comp_apply, dropReturn_utf8Bytes, String.toList_ofList])
  · have hnil : utf8Bytes last = [] ↔ last = [] := by
      cases last <;> simp [String.utf8EncodeChar_ne_nil]
    by_cases hlast : last = []
    · rw [if_pos hlast, if_pos (hnil.2 hlast)]
      exact .nil
    · rw [if_neg hlast, if_neg (hnil.not.2 hlast)]
      exact .cons (.of_withoutReturn last) .nil

/-! ### Printed lines -/

/-- Some lines with a newline behind each. -/
def printed (lines : List String) : String := String.join (lines.map (· ++ "\n"))

/-- What is printed has the lines that were printed, if none of them holds a newline or ends
with a carriage return. -/
theorem textLines_printed {lines : List String}
    (h : ∀ line ∈ lines, '\n' ∉ line.toList ∧ line.toList.getLast? ≠ some '\r') :
    textLines (printed lines) = lines := by
  induction lines with
  | nil => rfl
  | cons line lines ih =>
    obtain ⟨hnewline, hreturn⟩ := h line List.mem_cons_self
    have hrest := ih fun line hline => h line (List.mem_cons_of_mem _ hline)
    -- A line without newlines is one piece.
    have hsingle : line.toList.splitOn '\n' = [line.toList] := by
      have hsplit := List.splitOn_intercalate '\n' (List.forall_mem_singleton.2 hnewline) (by simp)
      rwa [List.intercalate_singleton] at hsplit
    have hcons : textLines (printed (line :: lines)) =
        String.ofList (withoutReturn line.toList) :: textLines (printed lines) := by
      rw [textLines, printed, List.map_cons, String.join_cons, String.toList_append,
        String.toList_append, List.append_assoc]
      refine (congrArg _ (linePieces_append_newline _ _)).trans ?_
      rw [hsingle]
      rfl
    rw [hcons, hrest, withoutReturn, if_neg hreturn, String.ofList_toList]

end FieldMask
