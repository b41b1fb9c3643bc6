import FieldMask.Expression.Parser
import FieldMask.Proofs.Expression.Grammar
import Mathlib.Data.List.Basic

namespace FieldMask.Expression

/-!
# Moving over blanks, signs and names

What the moves of a cursor mean for the characters it passes, in both directions: a move splits the
text in front of it (`span_fst_all`, `skipBlanks_split`, `readSign_split`), and a text that is split
so makes the move stop there (`span_of_append`, `skipBlanks_rest_of_append`, `readSign_of_append`).
No move changes where the text ends, as the offset of the cursor has it (`endOffset_span`,
`endOffset_next`, `endOffset_readSign`); the move by one byte only if it passes a character of one.
-/

/-- A character of a name is neither blank nor one of the three that separate. -/
theorem isNameChar_iff {c : Char} :
    isNameChar c = true ↔ isBlank c = false ∧ c ∉ [':', ',', ')'] := by
  simp [isNameChar, and_assoc]

/-- A name is a run of such characters, and not an empty one.  The grammar asks this
character by character, and the reader of a whole run. -/
theorem isName_iff {name : String} :
    IsName name ↔ name.toList ≠ [] ∧ ∀ c ∈ name.toList, isNameChar c = true := by
  constructor
  · intro h
    refine ⟨h.ne_nil, ?_⟩
    intro c hc
    exact isNameChar_iff.2 ⟨h.not_blank c hc, h.not_special c hc⟩
  · rintro ⟨hne, hall⟩
    refine ⟨hne, ?_, ?_⟩
    · intro c hc
      exact (isNameChar_iff.1 (hall c hc)).1
    · intro c hc
      exact (isNameChar_iff.1 (hall c hc)).2

/-- What holds of its first character holds of whatever a text starts with. -/
theorem forall_head?_cons {p : Char → Prop} {c : Char} {cs : List Char} (h : p c) :
    ∀ c', (c :: cs).head? = some c' → p c' := by
  rintro _ ⟨⟩
  exact h

namespace Cursor

/-! ### Runs of characters -/

/-- A run has only characters of its class. -/
theorem span_fst_all (cursor : Cursor) (p : Char → Bool) : ∀ c ∈ (cursor.span p).1, p c = true :=
  List.all_eq_true.1 List.all_takeWhile

/-- Behind a run stands no character of its class. -/
theorem span_snd_head? (cursor : Cursor) (p : Char → Bool) :
    ∀ c, (cursor.span p).2.rest.head? = some c → p c = false := by
  intro c hc
  have hhead := List.head?_dropWhile_not p cursor.rest
  have hc : (cursor.rest.dropWhile p).head? = some c := hc
  rw [hc] at hhead
  exact hhead

/-- Where the run is empty the cursor stays where it is. -/
theorem span_snd_of_nil {cursor : Cursor} {p : Char → Bool} (h : (cursor.span p).1 = []) :
    (cursor.span p).2 = cursor := by
  have hrest := cursor.span_append p
  rw [h, List.nil_append] at hrest
  show Cursor.mk (cursor.offset + byteLength (cursor.span p).1) (cursor.span p).2.rest = cursor
  rw [h, hrest]
  rfl

/-- No run goes on past a character outside its class. -/
theorem span_of_append {cursor : Cursor} {p : Char → Bool} {run after : List Char}
    (h : cursor.rest = run ++ after) (hrun : ∀ c ∈ run, p c = true)
    (hafter : ∀ c, after.head? = some c → p c = false) :
    (cursor.span p).1 = run ∧ (cursor.span p).2.rest = after := by
  show cursor.rest.takeWhile p = run ∧ cursor.rest.dropWhile p = after
  rw [h, List.takeWhile_append_of_pos hrun, List.dropWhile_append_of_pos hrun]
  -- The run ends with the text, or at a character outside its class.
  cases after with
  | nil => exact ⟨List.append_nil run, rfl⟩
  | cons c after =>
    have hc : ¬p c = true := by
      rw [hafter c rfl]
      exact Bool.false_ne_true
    rw [List.takeWhile_cons_of_neg hc, List.dropWhile_cons_of_neg hc, List.append_nil]
    exact ⟨rfl, rfl⟩

/-! ### Blanks -/

/-- Blanks that are skipped stand in front of what is left. -/
theorem skipBlanks_split (cursor : Cursor) :
    ∃ blanks, Blanks blanks ∧ cursor.rest = blanks ++ cursor.skipBlanks.rest :=
  ⟨(cursor.span isBlank).1, cursor.span_fst_all isBlank, (cursor.span_append isBlank).symm⟩

/-- Behind the blanks stands none. -/
theorem isBlank_of_peek?_skipBlanks {cursor : Cursor} {c : Char}
    (h : cursor.skipBlanks.peek? = some c) : isBlank c = false :=
  cursor.span_snd_head? isBlank c h

/-- Blanks are skipped as far as they go. -/
theorem skipBlanks_rest_of_append {cursor : Cursor} {blanks after : List Char}
    (h : cursor.rest = blanks ++ after) (hblanks : Blanks blanks)
    (hafter : ∀ c, after.head? = some c → isBlank c = false) : cursor.skipBlanks.rest = after :=
  (span_of_append h hblanks hafter).2

/-- Where no blank stands, no blank is skipped. -/
theorem skipBlanks_eq_self {cursor : Cursor}
    (h : ∀ c, cursor.peek? = some c → isBlank c = false) : cursor.skipBlanks = cursor :=
  span_snd_of_nil (span_of_append (List.nil_append cursor.rest).symm Blanks.nil h).1

/-- A second time there are no blanks to skip. -/
@[simp] theorem skipBlanks_skipBlanks (cursor : Cursor) :
    cursor.skipBlanks.skipBlanks = cursor.skipBlanks :=
  skipBlanks_eq_self fun _ => isBlank_of_peek?_skipBlanks

/-! ### Characters -/

/-- What is left begins with the character that is looked at. -/
theorem rest_of_peek? {cursor : Cursor} {c : Char} (h : cursor.peek? = some c) :
    cursor.rest = c :: cursor.next.rest := by
  rw [next_rest, List.drop_one]
  exact List.eq_cons_of_mem_head? h

/-- Where there is no character to look at nothing is left. -/
theorem rest_of_peek?_none {cursor : Cursor} (h : cursor.peek? = none) : cursor.rest = [] :=
  List.head?_eq_none_iff.1 h

/-- The first character that is left is looked at, and the others are behind the next
place. -/
theorem peek?_of_rest {cursor : Cursor} {c : Char} {after : List Char}
    (h : cursor.rest = c :: after) : cursor.peek? = some c ∧ cursor.next.rest = after := by
  rw [peek?, next_rest, h]
  exact ⟨rfl, rfl⟩

/-- A character that is not blank is not skipped. -/
theorem peek?_skipBlanks_ne_none {cursor : Cursor} (h : ∃ c ∈ cursor.rest, isBlank c = false) :
    cursor.skipBlanks.peek? ≠ none := by
  intro hpeek
  obtain ⟨blanks, hblanks, hrest⟩ := cursor.skipBlanks_split
  rw [rest_of_peek?_none hpeek, List.append_nil] at hrest
  obtain ⟨c, hc, hblank⟩ := h
  rw [hrest] at hc
  exact Bool.false_ne_true (hblank.symm.trans (hblanks c hc))

end Cursor

/-! ### Offsets -/

/-- The bytes of two parts add up. -/
theorem byteLength_append (cs cs' : List Char) :
    byteLength (cs ++ cs') = byteLength cs + byteLength cs' := by
  induction cs with
  | nil => exact (Nat.zero_add _).symm
  | cons c cs ih => rw [List.cons_append, byteLength, byteLength, ih, Nat.add_assoc]

/-- The bytes that are counted are those of the text. -/
theorem byteLength_toList (s : String) : byteLength s.toList = s.utf8ByteSize := by
  have hofList (cs : List Char) : byteLength cs = (String.ofList cs).utf8ByteSize := by
    induction cs with
    | nil => rfl
    | cons c cs ih =>
      rw [byteLength, ih, String.ofList_cons, String.utf8ByteSize_append,
        String.utf8ByteSize_singleton]
  rw [hofList, String.ofList_toList]

namespace Cursor

/-- Where the text ends, as the offset of a cursor in it has it. -/
def endOffset (cursor : Cursor) : Nat := cursor.offset + byteLength cursor.rest

/-- A run moves the cursor by its bytes, so the end of the text stays where it is. -/
@[simp] theorem endOffset_span (cursor : Cursor) (p : Char → Bool) :
    (cursor.span p).2.endOffset = cursor.endOffset := by
  show cursor.offset + byteLength (cursor.span p).1 + byteLength (cursor.span p).2.rest =
    cursor.offset + byteLength cursor.rest
  rw [Nat.add_assoc, ← byteLength_append, span_append]

/-- So it does when blanks are skipped. -/
@[simp] theorem endOffset_skipBlanks (cursor : Cursor) :
    cursor.skipBlanks.endOffset = cursor.endOffset := cursor.endOffset_span isBlank

/-- One byte on is behind a character that takes a single byte. -/
theorem endOffset_next {cursor : Cursor} {c : Char} (h : cursor.peek? = some c)
    (hsize : c.utf8Size = 1) : cursor.next.endOffset = cursor.endOffset := by
  rw [endOffset, endOffset, rest_of_peek? h, byteLength, hsize]
  exact Nat.add_assoc ..

/-- A cursor that has moved on in its text has moved by the bytes that it has passed. -/
theorem offset_eq_of_passed {cursor stop : Cursor} {passed : List Char}
    (hend : stop.endOffset = cursor.endOffset) (h : cursor.rest = passed ++ stop.rest) :
    stop.offset = cursor.offset + byteLength passed := by
  rw [endOffset, endOffset, h, byteLength_append] at hend
  omega

/-- If the offset of a cursor has the end of its text right, it counts the bytes before it. -/
theorem offset_eq_of_append {cursor : Cursor} {cs before : List Char}
    (hend : cursor.endOffset = byteLength cs) (h : cs = before ++ cursor.rest) :
    cursor.offset = byteLength before := by
  rw [h, byteLength_append, endOffset] at hend
  omega

end Cursor

/-! ### Signs -/

/-- What stands before a name for its polarity. -/
inductive Sign : List Char → Polarity → Prop where
  | included : Sign [] .included
  | excluded {blanks : List Char} (hblanks : Blanks blanks) : Sign ('-' :: blanks) .excluded

namespace Reading

/-- Blanks before a sign make no difference. -/
theorem readSign_skipBlanks (cursor : Cursor) : readSign cursor.skipBlanks = readSign cursor := by
  rw [readSign, readSign, Cursor.skipBlanks_skipBlanks]

/-- A hyphen takes one byte, so the end of the text is right behind a sign, too. -/
@[simp] theorem endOffset_readSign (cursor : Cursor) :
    (readSign cursor).2.endOffset = cursor.endOffset := by
  rw [readSign]
  split
  next hpeek =>
    dsimp only
    rw [Cursor.endOffset_skipBlanks, Cursor.endOffset_next hpeek rfl, Cursor.endOffset_skipBlanks]
  next => exact cursor.endOffset_skipBlanks

/-- Where a name is to start no blank stands. -/
theorem isBlank_of_peek?_readSign {cursor : Cursor} {c : Char}
    (h : (readSign cursor).2.peek? = some c) : isBlank c = false := by
  rw [readSign] at h
  split at h <;> exact Cursor.isBlank_of_peek?_skipBlanks h

/-- The sign that is read makes any name behind it a signed name. -/
theorem readSign_split (cursor : Cursor) :
    ∃ blanks sign, Blanks blanks ∧ Sign sign (readSign cursor).1 ∧
      cursor.rest = blanks ++ (sign ++ (readSign cursor).2.rest) ∧
      ∀ name after, IsName name → (readSign cursor).2.rest = name.toList ++ after →
        SignedName (sign ++ name.toList) (readSign cursor).1 name := by
  obtain ⟨blanks, hblanks, hrest⟩ := cursor.skipBlanks_split
  rw [readSign]
  by_cases hpeek : cursor.skipBlanks.peek? = some '-'
  · rw [if_pos hpeek]
    obtain ⟨between, hbetween, hnext⟩ := cursor.skipBlanks.next.skipBlanks_split
    refine ⟨blanks, '-' :: between, hblanks, .excluded hbetween, ?_, ?_⟩
    · rw [hrest, Cursor.rest_of_peek? hpeek, hnext]
      rfl
    · intro name after hname _
      exact .excluded hbetween hname
  · -- No hyphen stands there, so a name that starts there does not start with one.
    rw [if_neg hpeek]
    refine ⟨blanks, [], hblanks, .included, hrest, ?_⟩
    intro name after hname hafter
    refine .included hname ?_
    intro hhead
    apply hpeek
    rw [Cursor.peek?, hafter, List.head?_append_of_ne_nil _ hname.ne_nil, hhead]

/-- A signed name is read as it was written: the sign gives the polarity, and the name comes
next. -/
theorem readSign_of_append {cursor : Cursor} {before signed after : List Char}
    {polarity : Polarity} {name : String} (h : cursor.rest = before ++ (signed ++ after))
    (hbefore : Blanks before) (hsigned : SignedName signed polarity name) :
    (readSign cursor).1 = polarity ∧ (readSign cursor).2.rest = name.toList ++ after := by
  -- No name begins with a blank, so none of it is skipped.
  have hfirst : ∀ {name : String}, IsName name → ∀ c, (name.toList ++ after).head? = some c →
      isBlank c = false := by
    intro name hname c hc
    rw [List.head?_append_of_ne_nil _ hname.ne_nil] at hc
    exact hname.not_blank c (List.mem_of_mem_head? hc)
  rw [readSign]
  cases hsigned with
  | included hname hhead =>
    have hrest := Cursor.skipBlanks_rest_of_append h hbefore (hfirst hname)
    have hpeek : cursor.skipBlanks.peek? ≠ some '-' := by
      rw [Cursor.peek?, hrest, List.head?_append_of_ne_nil _ hname.ne_nil]
      exact hhead
    rw [if_neg hpeek]
    exact ⟨rfl, hrest⟩
  -- Blanks may stand before the hyphen and behind it.
  | @excluded blanks _ hblanks hname =>
    have hrest : cursor.skipBlanks.rest = '-' :: (blanks ++ name.toList) ++ after :=
      Cursor.skipBlanks_rest_of_append h hbefore (forall_head?_cons rfl)
    obtain ⟨hpeek, hnext⟩ := Cursor.peek?_of_rest hrest
    rw [if_pos hpeek]
    refine ⟨rfl, Cursor.skipBlanks_rest_of_append ?_ hblanks (hfirst hname)⟩
    exact hnext.trans (List.append_assoc ..)

end Reading

end FieldMask.Expression
