import FieldMask.Proofs.Expression.Scan

namespace FieldMask.Expression

/-!
# What a step can lead to

For each phase, the readings that a step goes on to: `readEntry_eq_next`, `readAfterName_eq_next`,
`readOpening_eq_next`, `readClosing_eq_next`, `readComma_eq_next`.  Only a finished entry at the end
of the text is accepted (`step_eq_accept`).  Every phase has its own faults: `readEntry_eq_reject`,
`readAfterName_eq_reject`, `readOpening_eq_reject`, `readClosing_eq_reject`, `readComma_eq_reject`.
`run_of_step_eq_next`, `run_of_step_eq_accept` and `run_of_step_eq_reject` carry a step over to a
run; `runFor` takes a number of steps, so that a run on a given text can be evaluated
(`run_of_runFor`, `parse_of_runFor`).  An error of a text is one of its run (`parse_eq_error_iff`).
-/

namespace Reading

variable {limit : Option Nat} {reading reading' : Reading} {name : String} {polarity : Polarity}

/-- An entry starts with a signed name that its level has not yet, read as far as it goes. -/
theorem readEntry_eq_next (h : reading.readEntry = .next reading') :
    ∃ blanks signed name polarity cursor, Blanks blanks ∧ SignedName signed polarity name ∧
      reading.level.find? name = none ∧ reading.cursor.rest = blanks ++ (signed ++ cursor.rest) ∧
      (∀ c, cursor.rest.head? = some c → isNameChar c = false) ∧
      cursor.endOffset = reading.cursor.endOffset ∧
      reading' = { reading with phase := .afterName name polarity, cursor } := by
  obtain ⟨blanks, sign, hblanks, -, hrest, hsigned⟩ := readSign_split reading.cursor
  have hstart := endOffset_readSign reading.cursor
  -- The tests of the step are on the parts of two pairs, which are taken apart first.
  rw [readEntry] at h
  dsimp only at h
  generalize readSign reading.cursor = signRead at h hrest hsigned hstart
  obtain ⟨polarity, start⟩ := signRead
  have hsplit : (start.span isNameChar).1 ++ (start.span isNameChar).2.rest = start.rest :=
    start.span_append isNameChar
  have hall := start.span_fst_all isNameChar
  have hhead := start.span_snd_head? isNameChar
  have hstop := (start.endOffset_span isNameChar).trans hstart
  generalize start.span isNameChar = nameRead at h hsplit hall hhead hstop
  obtain ⟨run, stop⟩ := nameRead
  dsimp only at h hrest hsigned hsplit hall hhead hstop
  -- There is a name, and it is new to its level; otherwise the step is rejected.
  split at h
  · cases h
  next hrun =>
    split at h
    · cases h
    next hcontains =>
      have hname : IsName (String.ofList run) := by
        rw [isName_iff, String.toList_ofList]
        refine ⟨?_, hall⟩
        intro hnil
        rw [hnil] at hrun
        exact hrun rfl
      refine ⟨blanks, sign ++ run, String.ofList run, polarity, stop, hblanks, ?_, ?_, ?_, hhead,
        hstop, ?_⟩
      · have hstart : start.rest = (String.ofList run).toList ++ stop.rest := by
          rw [String.toList_ofList, hsplit]
        have hsign := hsigned _ _ hname hstart
        rwa [String.toList_ofList] at hsign
      · rwa [Mask.contains_eq_isSome_find?, Option.not_isSome_iff_eq_none] at hcontains
      · rw [hrest, ← hsplit, List.append_assoc]
      · exact (Outcome.next.inj h).symm

/-- Behind a name stands a colon, or the field is finished.  A comma and a closing
parenthesis are looked at only, and left to the next phase. -/
theorem readAfterName_eq_next (h : reading.readAfterName name polarity = .next reading') :
    (reading.cursor.skipBlanks.peek? = some ':' ∧
      reading' = { reading with
        phase := .opening name polarity, cursor := reading.cursor.skipBlanks.next }) ∨
    (reading.cursor.skipBlanks.peek? = some ',' ∧
      reading' = reading.addLeaf name polarity reading.cursor.skipBlanks .comma) ∨
    ((reading.cursor.skipBlanks.peek? = none ∨ reading.cursor.skipBlanks.peek? = some ')') ∧
      reading' = reading.addLeaf name polarity reading.cursor.skipBlanks .closing) := by
  rw [readAfterName] at h
  split at h
  next hpeek => exact Or.inl ⟨hpeek, (Outcome.next.inj h).symm⟩
  next hpeek => exact Or.inr (Or.inr ⟨Or.inl hpeek, (Outcome.next.inj h).symm⟩)
  next hpeek => exact Or.inr (Or.inr ⟨Or.inr hpeek, (Outcome.next.inj h).symm⟩)
  next hpeek => exact Or.inr (Or.inl ⟨hpeek, (Outcome.next.inj h).symm⟩)
  next => cases h

/-- A colon leads into a subtree through a parenthesis, if the limit leaves room for it.
The level around the subtree is kept with the name and the decision that it waits for. -/
theorem readOpening_eq_next (h : reading.readOpening limit name polarity = .next reading') :
    reading.cursor.skipBlanks.peek? = some '(' ∧ limit.filter (· ≤ reading.depth) = none ∧
      ∃ hdepth, reading' = ⟨.entry, reading.cursor.skipBlanks.next, .empty,
        ⟨name, polarity, reading.level⟩ :: reading.enclosing, reading.depth + 1, hdepth⟩ := by
  rw [readOpening] at h
  dsimp only at h
  split at h
  next hpeek =>
    split at h
    · cases h
    next hlimit => exact ⟨hpeek, hlimit, _, (Outcome.next.inj h).symm⟩
  next => cases h

/-- Behind a finished entry stands a comma, or a parenthesis that closes the innermost
subtree.  The subtree then becomes a field of the level around it. -/
theorem readClosing_eq_next (h : reading.readClosing = .next reading') :
    (reading.cursor.skipBlanks.peek? = some ',' ∧
      reading' = { reading with phase := .comma, cursor := reading.cursor.skipBlanks }) ∨
    (reading.cursor.skipBlanks.peek? = some ')' ∧
      ∃ subtree enclosing hdepth, reading.enclosing = subtree :: enclosing ∧
        reading' = ⟨.closing, reading.cursor.skipBlanks.next,
          subtree.outer.put subtree.name ⟨subtree.polarity, some reading.level⟩, enclosing,
          reading.depth - 1, hdepth⟩) := by
  rw [readClosing] at h
  split at h
  next => cases h
  next => cases h
  next hpeek => exact Or.inl ⟨hpeek, (Outcome.next.inj h).symm⟩
  next subtree enclosing hpeek henclosing =>
    exact Or.inr ⟨hpeek, subtree, enclosing, _, henclosing, (Outcome.next.inj h).symm⟩
  next => cases h
  next => cases h

/-- Behind a comma the next entry starts. -/
theorem readComma_eq_next (h : reading.readComma = .next reading') :
    reading.cursor.next.skipBlanks.peek? ≠ none ∧
      reading' = { reading with phase := .entry, cursor := reading.cursor.next.skipBlanks } := by
  rw [readComma] at h
  split at h
  next => cases h
  next hpeek =>
    rw [hpeek]
    exact ⟨Option.some_ne_none _, (Outcome.next.inj h).symm⟩

/-- A text is accepted at its end, behind an entry of the outermost level.  No other phase
accepts. -/
theorem step_eq_accept {mask : Mask} (h : reading.step limit = .accept mask) :
    reading.phase = .closing ∧ reading.cursor.skipBlanks.peek? = none ∧ reading.enclosing = [] ∧
      reading.level = mask := by
  rw [step] at h
  -- The five phases in their order; only the fourth has an outcome that accepts.
  split at h
  next =>
    rw [readEntry] at h
    dsimp only at h
    split at h
    · cases h
    · split at h <;> cases h
  next =>
    rw [readAfterName] at h
    split at h <;> cases h
  next =>
    rw [readOpening] at h
    dsimp only at h
    split at h
    · split at h <;> cases h
    · cases h
  next hphase =>
    rw [readClosing] at h
    split at h
    next hpeek henclosing =>
      cases h
      exact ⟨hphase, hpeek, henclosing, rfl⟩
    all_goals cases h
  next =>
    rw [readComma] at h
    split at h <;> cases h

/-! ### Faults -/

/-- Where a name is to start there is none, or one that its level has already. -/
theorem readEntry_eq_reject {error : ParseError} (h : reading.readEntry = .reject error) :
    ((∀ c, (readSign reading.cursor).2.peek? = some c → isNameChar c = false) ∧
      error = ⟨reading.missingName (readSign reading.cursor).1 (readSign reading.cursor).2.peek?,
        (readSign reading.cursor).2.offset⟩) ∨
    ∃ name rest, (readSign reading.cursor).2.rest = name.toList ++ rest ∧
      (∀ c, rest.head? = some c → isNameChar c = false) ∧ reading.level.contains name = true ∧
      error = ⟨.duplicateField name, (readSign reading.cursor).2.offset⟩ := by
  rw [readEntry] at h
  dsimp only at h
  generalize readSign reading.cursor = signRead at h ⊢
  obtain ⟨polarity, start⟩ := signRead
  dsimp only at h ⊢
  have hhead := start.span_snd_head? isNameChar
  -- The name is missing, or its level has it already.
  split at h
  next hrun =>
    -- An empty run leaves the cursor where it is.
    have hstart := Cursor.span_snd_of_nil (List.isEmpty_iff.1 hrun)
    rw [hstart] at h hhead
    exact Or.inl ⟨hhead, (Outcome.reject.inj h).symm⟩
  next =>
    split at h
    next hcontains =>
      refine Or.inr ⟨_, _, ?_, hhead, hcontains, (Outcome.reject.inj h).symm⟩
      rw [String.toList_ofList, Cursor.span_append]
    next => cases h

/-- Behind a name stands a character that cannot follow it.  The end of the text is none
such: it finishes the field. -/
theorem readAfterName_eq_reject {error : ParseError}
    (h : reading.readAfterName name polarity = .reject error) :
    ∃ c, reading.cursor.skipBlanks.peek? = some c ∧ c ∉ [':', ',', ')'] ∧
      error = ⟨.unexpectedChar c name, reading.cursor.skipBlanks.offset⟩ := by
  rw [readAfterName] at h
  split at h
  next => cases h
  next => cases h
  next => cases h
  next => cases h
  next c hcolon hclose hcomma hpeek =>
    refine ⟨c, hpeek, ?_, (Outcome.reject.inj h).symm⟩
    simp only [List.mem_cons, List.not_mem_nil, or_false, not_or]
    exact ⟨hcolon, hcomma, hclose⟩

/-- Behind a colon there is no parenthesis, or one more subtree than the limit leaves room
for.  The parenthesis is asked for first. -/
theorem readOpening_eq_reject {error : ParseError}
    (h : reading.readOpening limit name polarity = .reject error) :
    (reading.cursor.skipBlanks.peek? ≠ some '(' ∧
      error = ⟨.expectedOpenParen name, reading.cursor.skipBlanks.offset⟩) ∨
    ∃ n, reading.cursor.skipBlanks.peek? = some '(' ∧ limit = some n ∧ n ≤ reading.depth ∧
      error = ⟨.depthExceeded n, reading.cursor.skipBlanks.offset⟩ := by
  rw [readOpening] at h
  dsimp only at h
  split at h
  next hpeek =>
    split at h
    next n hlimit =>
      obtain ⟨hlimit, hfull⟩ := Option.filter_eq_some_iff.1 hlimit
      exact Or.inr ⟨n, hpeek, hlimit, of_decide_eq_true hfull, (Outcome.reject.inj h).symm⟩
    next => cases h
  next hpeek => exact Or.inl ⟨hpeek, (Outcome.reject.inj h).symm⟩

/-- Behind a finished entry the text ends too early, a parenthesis closes nothing, or a character
stands that cannot follow. -/
theorem readClosing_eq_reject {error : ParseError} (h : reading.readClosing = .reject error) :
    (reading.cursor.skipBlanks.peek? = none ∧ reading.enclosing ≠ [] ∧
      error = ⟨.unclosedSubtree, reading.cursor.skipBlanks.offset⟩) ∨
    (reading.cursor.skipBlanks.peek? = some ')' ∧ reading.enclosing = [] ∧
      error = ⟨.unmatchedClose, reading.cursor.skipBlanks.offset⟩) ∨
    ∃ c, reading.cursor.skipBlanks.peek? = some c ∧ c ∉ [',', ')'] ∧
      error = ⟨.expectedSeparator c, reading.cursor.skipBlanks.offset⟩ := by
  rw [readClosing] at h
  split at h
  next => cases h
  next hpeek henclosing =>
    refine Or.inl ⟨hpeek, ?_, (Outcome.reject.inj h).symm⟩
    rw [henclosing]
    exact List.cons_ne_nil _ _
  next => cases h
  next => cases h
  next hpeek henclosing => exact Or.inr (Or.inl ⟨hpeek, henclosing, (Outcome.reject.inj h).symm⟩)
  -- A parenthesis would have closed a subtree, or have been the fault of closing none.
  next c hcomma hpeek hsubtree hroot =>
    have hclose : c ≠ ')' := by
      cases henclosing : reading.enclosing with
      | nil => exact hroot henclosing
      | cons subtree enclosing => exact hsubtree subtree enclosing henclosing
    refine Or.inr (Or.inr ⟨c, hpeek, ?_, (Outcome.reject.inj h).symm⟩)
    simp only [List.mem_cons, List.not_mem_nil, or_false, not_or]
    exact ⟨hcomma, hclose⟩

/-- Behind a comma there are only blanks. -/
theorem readComma_eq_reject {error : ParseError} (h : reading.readComma = .reject error) :
    reading.cursor.next.skipBlanks.peek? = none ∧
      error = ⟨.trailingSeparator, reading.cursor.offset⟩ := by
  rw [readComma] at h
  split at h
  next hpeek => exact ⟨hpeek, (Outcome.reject.inj h).symm⟩
  next => cases h

/-! ### Runs -/

/-- A run goes on as from the next reading. -/
theorem run_of_step_eq_next (h : reading.step limit = .next reading') :
    reading.run limit = reading'.run limit := by
  conv => lhs; rw [run]
  split
  next hstep =>
    cases h.symm.trans hstep
    rfl
  next hstep => cases h.symm.trans hstep
  next hstep => cases h.symm.trans hstep

/-- A run ends with the mask that a step accepts. -/
theorem run_of_step_eq_accept {mask : Mask} (h : reading.step limit = .accept mask) :
    reading.run limit = .ok mask := by
  rw [run]
  split
  next hstep => cases h.symm.trans hstep
  next hstep =>
    cases h.symm.trans hstep
    rfl
  next hstep => cases h.symm.trans hstep

/-- Or with the error with which a step rejects. -/
theorem run_of_step_eq_reject {error : ParseError} (h : reading.step limit = .reject error) :
    reading.run limit = .error error := by
  rw [run]
  split
  next hstep => cases h.symm.trans hstep
  next hstep => cases h.symm.trans hstep
  next hstep =>
    cases h.symm.trans hstep
    rfl

/-- Readings that make the same step run alike. -/
theorem run_congr (h : reading.step limit = reading'.step limit) :
    reading.run limit = reading'.run limit := by
  cases hstep : reading'.step limit with
  | next reading'' =>
    rw [run_of_step_eq_next hstep, run_of_step_eq_next (h.trans hstep)]
  | accept mask => rw [run_of_step_eq_accept hstep, run_of_step_eq_accept (h.trans hstep)]
  | reject error => rw [run_of_step_eq_reject hstep, run_of_step_eq_reject (h.trans hstep)]

/-- The outcome of a run that ends within a number of steps.  The number lets a run on a
fixed text be evaluated. -/
def runFor (limit : Option Nat) : Nat → Reading → Option (Except ParseError Mask)
  | 0, _ => none
  | steps + 1, reading =>
    match reading.step limit with
    | .next reading' => reading'.runFor limit steps
    | .accept mask => some (.ok mask)
    | .reject error => some (.error error)

/-- A run that ends within a number of steps ends so without a number.  By induction on the
number: each step is one of the run. -/
theorem run_of_runFor {steps : Nat} {result : Except ParseError Mask}
    (h : reading.runFor limit steps = some result) : reading.run limit = result := by
  induction steps generalizing reading with
  | zero => cases h
  | succ steps ih =>
    rw [runFor] at h
    cases hstep : reading.step limit with
    | next reading' =>
      rw [hstep] at h
      rw [run_of_step_eq_next hstep]
      exact ih h
    | accept mask =>
      rw [hstep] at h
      cases h
      exact run_of_step_eq_accept hstep
    | reject error =>
      rw [hstep] at h
      cases h
      exact run_of_step_eq_reject hstep

end Reading

/-- So a text can be read by counting steps, which computes where the recursion on the
measure does not. -/
theorem parse_of_runFor {limit : Option Nat} {text : String} {result : Except ParseError Mask}
    (steps : Nat) (hblank : text.toList.all isBlank = false)
    (h : (Reading.start text).runFor limit steps = some result) : parse limit text = result := by
  rw [parse, hblank, if_neg Bool.false_ne_true]
  exact Reading.run_of_runFor h

/-- A blank text is never rejected, so the error of a text is that of a run. -/
theorem parse_eq_error_iff {limit : Option Nat} {text : String} {error : ParseError} :
    parse limit text = .error error ↔
      text.toList.all isBlank = false ∧ (Reading.start text).run limit = .error error := by
  rw [parse]
  cases text.toList.all isBlank <;> simp

end FieldMask.Expression
