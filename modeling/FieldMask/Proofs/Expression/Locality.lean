import FieldMask.Proofs.Expression.Step

namespace FieldMask.Expression

/-!
# What a step depends on

A step looks at the characters that it passes and at the first one behind them.  So in any other
text that has these the same step is made, whatever comes after.

* `Cursor.withRest`, `Reading.withRest` — the same place in a text that goes on differently.
* `Cursor.span_withRest`, `Cursor.skipBlanks_withRest`, `Reading.readSign_withRest` — the moves of a
  cursor.
* `Reading.Local` — a move that is made in every such text; `Reading.readEntry_local`,
  `Reading.readAfterName_local`, … — the moves of each phase; `Reading.step_local` — all steps.
-/

namespace Cursor

/-- The same place in a text that goes on differently behind it. -/
def withRest (cursor : Cursor) (rest : List Char) : Cursor := ⟨cursor.offset, rest⟩

@[simp] theorem peek?_withRest (cursor : Cursor) (rest : List Char) :
    (cursor.withRest rest).peek? = rest.head? := rfl

/-- One byte on is the same place, whatever follows the character that is passed. -/
theorem next_withRest {cursor : Cursor} {c : Char} (h : cursor.peek? = some c)
    (rest : List Char) : (cursor.withRest (c :: rest)).next = cursor.next.withRest rest := by
  obtain ⟨offset, chars⟩ := cursor
  obtain ⟨after, rfl⟩ := List.head?_eq_some_iff.1 h
  rfl

/-- A run of characters ends where it did if the character behind it is the same. -/
theorem span_withRest (cursor : Cursor) (p : Char → Bool) {rest : List Char}
    (h : rest.head? = (cursor.span p).2.rest.head?) :
    (cursor.withRest ((cursor.span p).1 ++ rest)).span p =
      ((cursor.span p).1, (cursor.span p).2.withRest rest) := by
  have hafter : ∀ c, rest.head? = some c → p c = false := h ▸ cursor.span_snd_head? p
  have hrest : (cursor.withRest ((cursor.span p).1 ++ rest)).rest = (cursor.span p).1 ++ rest := rfl
  obtain ⟨hrun, hstop⟩ := span_of_append hrest (cursor.span_fst_all p) hafter
  refine Prod.ext hrun ?_
  rw [withRest, Cursor.mk.injEq]
  exact ⟨congrArg (cursor.offset + byteLength ·) hrun, hstop⟩

/-- Blanks are skipped alike if the same character, or none, stands behind them. -/
theorem skipBlanks_withRest (cursor : Cursor) :
    ∃ passed, cursor.rest = passed ++ cursor.skipBlanks.rest ∧
      ∀ rest, rest.head? = cursor.skipBlanks.rest.head? →
        (cursor.withRest (passed ++ rest)).skipBlanks = cursor.skipBlanks.withRest rest := by
  refine ⟨(cursor.span isBlank).1, (cursor.span_append isBlank).symm, ?_⟩
  intro rest h
  exact congrArg Prod.snd (cursor.span_withRest isBlank h)

end Cursor

/-- What comes first in a text is decided by its parts. -/
theorem head?_append_congr {rest rest' : List Char} (passed : List Char)
    (h : rest.head? = rest'.head?) : (passed ++ rest).head? = (passed ++ rest').head? := by
  rw [List.head?_append, List.head?_append, h]

namespace Reading

variable {limit : Option Nat} {reading reading' : Reading} {name : String} {polarity : Polarity}

/-- A sign is read alike, too; what counts is the first character of the name behind it. -/
theorem readSign_withRest (cursor : Cursor) :
    ∃ passed, cursor.rest = passed ++ (readSign cursor).2.rest ∧
      ∀ rest, rest.head? = (readSign cursor).2.rest.head? →
        readSign (cursor.withRest (passed ++ rest)) =
          ((readSign cursor).1, (readSign cursor).2.withRest rest) := by
  obtain ⟨blanks, hrest, hskip⟩ := cursor.skipBlanks_withRest
  -- With a hyphen there are two runs of blanks, without one there is only the first.
  by_cases hpeek : cursor.skipBlanks.peek? = some '-'
  · obtain ⟨more, hnext, hskip'⟩ := cursor.skipBlanks.next.skipBlanks_withRest
    have hminus := Cursor.rest_of_peek? hpeek
    simp only [readSign, hpeek, if_true]
    refine ⟨blanks ++ '-' :: more, ?_, ?_⟩
    · rw [hrest, hminus, hnext, List.append_assoc, List.cons_append]
    · intro rest h
      have hblanks : (cursor.withRest (blanks ++ '-' :: (more ++ rest))).skipBlanks =
          cursor.skipBlanks.withRest ('-' :: (more ++ rest)) := hskip _ hpeek.symm
      rw [List.append_assoc, List.cons_append, hblanks, Cursor.peek?_withRest, List.head?_cons,
        if_pos rfl, Cursor.next_withRest hpeek, hskip' rest h]
  · simp only [readSign, hpeek, if_false]
    refine ⟨blanks, hrest, ?_⟩
    intro rest h
    have hother : (cursor.skipBlanks.withRest rest).peek? ≠ some '-' := by
      rw [Cursor.peek?_withRest, h]
      exact hpeek
    rw [hskip rest h, if_neg hother]

/-- A reading at the same place of a text that goes on differently behind it. -/
def withRest (reading : Reading) (rest : List Char) : Reading :=
  { reading with cursor := reading.cursor.withRest rest }

/-- A move passes some characters, and it is made in every text in which the same are passed and the
same character, or none, stands behind them. -/
def Local (move : Reading → Outcome) (reading reading' : Reading) : Prop :=
  ∃ passed, reading.cursor.rest = passed ++ reading'.cursor.rest ∧
    ∀ rest, rest.head? = reading'.cursor.rest.head? →
      move (reading.withRest (passed ++ rest)) = .next (reading'.withRest rest)

/-! ### Phases -/

/-- A name is read alike up to the character behind it. -/
theorem readEntry_local (h : reading.readEntry = .next reading') :
    reading.Local readEntry reading' := by
  obtain ⟨before, hbefore, hsign⟩ := readSign_withRest reading.cursor
  have hrun := (readSign reading.cursor).2.span_append isNameChar
  have hspan := @Cursor.span_withRest (readSign reading.cursor).2 isNameChar
  -- What is read of the sign and of the name is named, so that the outcome is all that is left.
  simp only [readEntry] at h
  generalize readSign reading.cursor = signRead at h hbefore hsign hrun hspan
  obtain ⟨polarity, start⟩ := signRead
  generalize start.span isNameChar = nameRead at h hrun hspan
  obtain ⟨run, stop⟩ := nameRead
  dsimp only at h hbefore hsign hrun hspan
  split at h
  · cases h
  next hname =>
    split at h
    · cases h
    next hnew =>
      cases h
      refine ⟨before ++ run, ?_, ?_⟩
      · rw [hbefore, ← hrun, List.append_assoc]
      · intro rest hhead
        have hstart : readSign (reading.cursor.withRest (before ++ (run ++ rest))) =
            (polarity, start.withRest (run ++ rest)) :=
          hsign _ (hrun ▸ head?_append_congr run hhead)
        simp only [readEntry, withRest, List.append_assoc, hstart, hspan hhead, hname, hnew]
        rfl

/-- What may stand behind a name is one character; a colon is passed, any other is only
looked at. -/
theorem readAfterName_local (h : reading.readAfterName name polarity = .next reading') :
    reading.Local (readAfterName · name polarity) reading' := by
  obtain ⟨blanks, hrest, hskip⟩ := reading.cursor.skipBlanks_withRest
  rcases readAfterName_eq_next h with ⟨hpeek, rfl⟩ | ⟨hpeek, rfl⟩ | ⟨hpeek, rfl⟩
  · refine ⟨blanks ++ [':'], ?_, ?_⟩
    · rw [hrest, Cursor.rest_of_peek? hpeek, List.append_assoc, List.singleton_append]
    · intro rest _
      have hcolon := hskip (':' :: rest) hpeek.symm
      simp only [readAfterName, withRest, List.append_assoc, List.singleton_append, hcolon,
        Cursor.peek?_withRest, List.head?_cons, Cursor.next_withRest hpeek]
  · refine ⟨blanks, hrest, ?_⟩
    intro rest hhead
    have hcomma : rest.head? = some ',' := hhead.trans hpeek
    simp only [readAfterName, withRest, hskip rest hhead, Cursor.peek?_withRest, hcomma, addLeaf]
  · refine ⟨blanks, hrest, ?_⟩
    intro rest hhead
    have hends : rest.head? = none ∨ rest.head? = some ')' := by
      rw [hhead]
      exact hpeek
    rcases hends with hend | hclose
    · simp only [readAfterName, withRest, hskip rest hhead, Cursor.peek?_withRest, hend, addLeaf]
    · simp only [readAfterName, withRest, hskip rest hhead, Cursor.peek?_withRest, hclose, addLeaf]

/-- A parenthesis is opened alike, as the limit looks only at how many are open. -/
theorem readOpening_local (h : reading.readOpening limit name polarity = .next reading') :
    reading.Local (readOpening limit · name polarity) reading' := by
  obtain ⟨blanks, hrest, hskip⟩ := reading.cursor.skipBlanks_withRest
  obtain ⟨hpeek, hroom, _, rfl⟩ := readOpening_eq_next h
  refine ⟨blanks ++ ['('], ?_, ?_⟩
  · rw [hrest, Cursor.rest_of_peek? hpeek, List.append_assoc, List.singleton_append]
  · intro rest _
    have hparen := hskip ('(' :: rest) hpeek.symm
    simp only [readOpening, withRest, List.append_assoc, List.singleton_append, hparen,
      Cursor.peek?_withRest, List.head?_cons, Cursor.next_withRest hpeek, hroom]
    rfl

/-- Behind a finished entry a comma is looked at and a parenthesis is passed.  What lies
behind that character plays no part in either. -/
theorem readClosing_local (h : reading.readClosing = .next reading') :
    reading.Local readClosing reading' := by
  obtain ⟨blanks, hrest, hskip⟩ := reading.cursor.skipBlanks_withRest
  rcases readClosing_eq_next h with
    ⟨hpeek, rfl⟩ | ⟨hpeek, subtree, enclosing, _, henclosing, rfl⟩
  · refine ⟨blanks, hrest, ?_⟩
    intro rest hhead
    have hcomma : rest.head? = some ',' := hhead.trans hpeek
    simp only [readClosing, withRest, hskip rest hhead, Cursor.peek?_withRest, hcomma]
  · refine ⟨blanks ++ [')'], ?_, ?_⟩
    · rw [hrest, Cursor.rest_of_peek? hpeek, List.append_assoc, List.singleton_append]
    · intro rest _
      have hparen := hskip (')' :: rest) hpeek.symm
      obtain ⟨phase, cursor, level, _, depth, hdepth⟩ := reading
      obtain rfl := henclosing
      simp only [readClosing, withRest, List.append_assoc, List.singleton_append, hparen,
        Cursor.peek?_withRest, List.head?_cons, Cursor.next_withRest hpeek]

/-- A comma is passed alike as long as something stands behind the blanks that follow. -/
theorem readComma_local (h : reading.readComma = .next reading') :
    reading.Local readComma reading' := by
  obtain ⟨blanks, hrest, hskip⟩ := reading.cursor.next.skipBlanks_withRest
  obtain ⟨hpeek, rfl⟩ := readComma_eq_next h
  obtain ⟨behind, hbehind⟩ := Option.ne_none_iff_exists'.1 hpeek
  -- Something stands behind, so there is a character to pass.
  obtain ⟨c, hc⟩ : ∃ c, reading.cursor.peek? = some c := by
    rw [← Option.ne_none_iff_exists']
    intro hnone
    rw [Cursor.next_rest, Cursor.rest_of_peek?_none hnone, Cursor.rest_of_peek? hbehind] at hrest
    simp at hrest
  refine ⟨c :: blanks, ?_, ?_⟩
  · rw [Cursor.rest_of_peek? hc, hrest, List.cons_append]
  · intro rest hhead
    have hsome : rest.head? = some behind := hhead.trans hbehind
    simp only [readComma, withRest, List.cons_append, Cursor.next_withRest hc, hskip rest hhead,
      Cursor.peek?_withRest, hsome]

/-- **A step depends on what it passes and on the character behind it alone.**  Each phase
is one of the moves above. -/
theorem step_local (h : reading.step limit = .next reading') :
    reading.Local (step limit) reading' := by
  -- In the other text the phase is the same, so the step is the same move.
  have hmove {move : Reading → Outcome} (hlocal : reading.Local move reading')
      (heq : ∀ rest, (reading.withRest rest).step limit = move (reading.withRest rest)) :
      reading.Local (step limit) reading' := by
    obtain ⟨passed, hrest, hsame⟩ := hlocal
    exact ⟨passed, hrest, fun rest hhead => (heq _).trans (hsame rest hhead)⟩
  rw [step] at h
  cases hphase : reading.phase with
  | entry =>
    rw [hphase] at h
    exact hmove (readEntry_local h) fun rest => by simp only [step, withRest, hphase]
  | afterName name polarity =>
    rw [hphase] at h
    exact hmove (readAfterName_local h) fun rest => by simp only [step, withRest, hphase]
  | opening name polarity =>
    rw [hphase] at h
    exact hmove (readOpening_local h) fun rest => by simp only [step, withRest, hphase]
  | closing =>
    rw [hphase] at h
    exact hmove (readClosing_local h) fun rest => by simp only [step, withRest, hphase]
  | comma =>
    rw [hphase] at h
    exact hmove (readComma_local h) fun rest => by simp only [step, withRest, hphase]

end Reading

end FieldMask.Expression
