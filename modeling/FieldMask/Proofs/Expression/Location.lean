import FieldMask.Proofs.Expression.Depth
import FieldMask.Proofs.Expression.Place

namespace FieldMask.Expression

/-!
# Every error points at its place

The offset of an error comes from one of three places: where the reading stands behind blanks, where
the name starts that is read, and where the comma was.  Whichever it is, it counts the bytes of the
text before it, and what stands there is what the error is about.

* `Phase.Ends` — what a phase knows of the characters around its place, beyond what was passed.
* `Follows` — a reading that has kept the bytes it has passed and the limit; `Follows.step`.
* `Follows.readEntry_pointsInto`, `Follows.readAfterName_pointsInto`, … — the errors of each phase.
* `Follows.run_pointsInto` — the error of a run; `parse_error_shows` — that of a text.
-/

/-- What a phase knows of the characters around its place: no name goes on where it was read to its
end, and a finished entry has ended with a parenthesis, or one stands there, or nothing does. -/
def Phase.Ends (cs rest : List Char) : Phase → Prop
  | .afterName .. => ∀ c, rest.head? = some c → isNameChar c = false
  | .closing => (∀ c, rest.head? = some c → c = ')') ∨ ∃ closed, cs = closed ++ ')' :: rest
  | _ => True

/-- A reading that has passed a part of a text, with an offset that has the end of the text right,
and has opened no more subtrees than the limit allows. -/
structure Follows (limit : Option Nat) (cs : List Char) (reading : Reading) : Prop where
  reads : Reads cs reading
  endOffset_eq : reading.cursor.endOffset = byteLength cs
  ends : reading.phase.Ends cs reading.cursor.rest
  depth_le : ∀ n, limit = some n → reading.depth ≤ n

/-! ### Steps -/

section Steps

variable {limit : Option Nat} {cs : List Char} {reading reading' : Reading} {name : String}
  {polarity : Polarity} {error : ParseError}

/-- No step changes where the text ends: the one byte that some of them move by is a character. -/
theorem Reads.endOffset_eq_of_step (h : Reads cs reading)
    (hstep : reading.step limit = .next reading') :
    reading'.cursor.endOffset = reading.cursor.endOffset := by
  rw [Reading.step] at hstep
  split at hstep
  next =>
    obtain ⟨_, _, _, _, _, -, -, -, -, -, hend, rfl⟩ := Reading.readEntry_eq_next hstep
    exact hend
  next =>
    rcases Reading.readAfterName_eq_next hstep with ⟨hpeek, rfl⟩ | ⟨-, rfl⟩ | ⟨-, rfl⟩
    · exact (Cursor.endOffset_next hpeek rfl).trans (Cursor.endOffset_skipBlanks _)
    · exact Cursor.endOffset_skipBlanks _
    · exact Cursor.endOffset_skipBlanks _
  next =>
    obtain ⟨hpeek, -, _, rfl⟩ := Reading.readOpening_eq_next hstep
    exact (Cursor.endOffset_next hpeek rfl).trans (Cursor.endOffset_skipBlanks _)
  next =>
    rcases Reading.readClosing_eq_next hstep with ⟨-, rfl⟩ | ⟨hpeek, _, _, _, -, rfl⟩
    · exact Cursor.endOffset_skipBlanks _
    · exact (Cursor.endOffset_next hpeek rfl).trans (Cursor.endOffset_skipBlanks _)
  next hphase =>
    -- Nothing is looked at before the move here, but a comma was seen when the phase began.
    obtain ⟨-, -, hpassed⟩ := h
    rw [hphase] at hpassed
    obtain ⟨-, rfl⟩ := Reading.readComma_eq_next hstep
    exact (Cursor.endOffset_skipBlanks _).trans (Cursor.endOffset_next hpassed.2 rfl)

/-- Every step leaves behind it what the next phase knows of its place. -/
theorem Reads.ends_of_step (h : Reads cs reading) (hstep : reading.step limit = .next reading') :
    reading'.phase.Ends cs reading'.cursor.rest := by
  rw [Reading.step] at hstep
  split at hstep
  next =>
    obtain ⟨_, _, _, _, _, -, -, -, -, hhead, -, rfl⟩ := Reading.readEntry_eq_next hstep
    exact hhead
  next =>
    rcases Reading.readAfterName_eq_next hstep with ⟨-, rfl⟩ | ⟨-, rfl⟩ | ⟨hpeek | hpeek, rfl⟩
    · trivial
    · trivial
    · -- The field is finished at the end of the text or in front of a parenthesis.
      refine Or.inl fun c hc => ?_
      cases hpeek.symm.trans hc
    · refine Or.inl fun c hc => ?_
      cases hpeek.symm.trans hc
      rfl
  next =>
    obtain ⟨-, -, _, rfl⟩ := Reading.readOpening_eq_next hstep
    trivial
  next =>
    rcases Reading.readClosing_eq_next hstep with ⟨-, rfl⟩ | ⟨hpeek, _, _, _, -, rfl⟩
    · trivial
    · -- The parenthesis that has been passed is the last character before the place.
      obtain @⟨outer, part, hcs, -, -⟩ := h
      obtain ⟨blanks, -, hrest⟩ := reading.cursor.skipBlanks_split
      refine Or.inr ⟨outer ++ (part ++ blanks), ?_⟩
      rw [hcs, hrest, Cursor.rest_of_peek? hpeek]
      simp only [List.append_assoc]
  next =>
    obtain ⟨-, rfl⟩ := Reading.readComma_eq_next hstep
    trivial

namespace Follows

/-- At the beginning no byte has been passed and no subtree is open. -/
theorem start (limit : Option Nat) (text : String) :
    Follows limit text.toList (.start text) where
  reads := .start text
  endOffset_eq := Nat.zero_add _
  ends := trivial
  depth_le n _ := Nat.zero_le n

/-- Every step keeps the offset right and the limit. -/
theorem step (h : Follows limit cs reading) (hstep : reading.step limit = .next reading') :
    Follows limit cs reading' where
  reads := h.reads.step hstep
  endOffset_eq := (h.reads.endOffset_eq_of_step hstep).trans h.endOffset_eq
  ends := h.reads.ends_of_step hstep
  depth_le := by
    rintro n rfl
    exact (h.reads.builds hstep).depth_le (h.depth_le n rfl)

/-! ### Errors -/

/-- At a cursor that has the end of the text right a fault that shows there has the right offset. -/
theorem pointsInto {cursor : Cursor} {before : List Char} {fault : Fault}
    (h : Follows limit cs reading) (hend : cursor.endOffset = reading.cursor.endOffset)
    (hcs : cs = before ++ cursor.rest) (hshows : fault.ShowsAt limit before cursor.rest) :
    ParseError.PointsInto limit cs ⟨fault, cursor.offset⟩ :=
  ⟨before, cursor.rest, hcs, Cursor.offset_eq_of_append (hend.trans h.endOffset_eq) hcs, hshows⟩

/-- What is missing where a name is due shows there. -/
theorem missingName_showsAt {outer part sign rest : List Char} {polarity : Polarity}
    (hopened : Opened outer reading.enclosing) (hbefore : BeforeEntry part reading.level)
    (hsign : Sign sign polarity) (hrest : ∀ c, rest.head? = some c → c ∈ [':', ',', ')']) :
    (reading.missingName polarity rest.head?).ShowsAt limit (outer ++ (part ++ sign)) rest := by
  obtain ⟨entries, -, hdue⟩ := NameDue.of_beforeEntry hopened hbefore hsign
  have hempty : Fault.emptyField.ShowsAt limit (outer ++ (part ++ sign)) rest :=
    .emptyField hdue hrest
  -- Inside of a subtree the text may end here or the subtree be closed at once; anything else is an
  -- empty field.
  unfold Reading.missingName
  split
  next subtree enclosing hhead henclosing =>
    rw [henclosing] at hdue
    rw [List.head?_eq_none_iff.1 hhead]
    exact .unclosedSubtree (Or.inl ⟨entries, hdue⟩)
  next subtree enclosing hhead henclosing =>
    split
    next hfirst =>
      -- Without an entry and without a sign only blanks are behind the parenthesis.
      obtain ⟨hlevel, hpolarity⟩ := Bool.and_eq_true_iff.1 hfirst
      obtain rfl : polarity = .included := eq_of_beq hpolarity
      cases hsign
      rw [henclosing] at hopened
      obtain ⟨before, rfl, hannounced⟩ := Announced.of_opened hopened
      obtain ⟨after, rfl⟩ := List.head?_eq_some_iff.1 hhead
      rw [List.append_nil, List.append_assoc, List.singleton_append]
      exact .emptySubtree hannounced (hbefore.blanks_of_isEmpty hlevel)
    next => exact hempty
  next => exact hempty

/-- The errors of an entry are where its name is due, behind the sign. -/
theorem readEntry_pointsInto (h : Follows limit cs reading) (hphase : reading.phase = .entry)
    (hreject : reading.readEntry = .reject error) : error.PointsInto limit cs := by
  obtain @⟨outer, part, hcs, hopened, hpassed⟩ := h.reads
  rw [hphase] at hpassed
  obtain ⟨blanks, sign, hblanks, hsign, hrest, -⟩ := Reading.readSign_split reading.cursor
  have hbefore : BeforeEntry (part ++ blanks) reading.level := BeforeEntry.append hpassed hblanks
  have hsplit : cs = outer ++ (part ++ blanks ++ sign) ++
      (Reading.readSign reading.cursor).2.rest := by
    rw [hcs, hrest]
    simp only [List.append_assoc]
  -- A name is missing there, or one that the level has stands there.
  rcases Reading.readEntry_eq_reject hreject with
    ⟨hhead, rfl⟩ | ⟨name, rest, hname, hhead, hcontains, rfl⟩
  · refine h.pointsInto (Reading.endOffset_readSign _) hsplit ?_
    refine missingName_showsAt hopened hbefore hsign fun c hc => ?_
    have hblank := Reading.isBlank_of_peek?_readSign hc
    exact (endsName_iff.2 hhead c hc).resolve_left (Bool.eq_false_iff.1 hblank)
  · refine h.pointsInto (Reading.endOffset_readSign _) hsplit ?_
    obtain ⟨entries, hgathers, hdue⟩ := NameDue.of_beforeEntry hopened hbefore hsign
    rw [hname]
    exact .duplicateField hdue (hgathers.mem_of_contains hcontains) (endsName_iff.2 hhead)

/-- The error behind a name is at the first character that is not blank. -/
theorem readAfterName_pointsInto (h : Follows limit cs reading)
    (hphase : reading.phase = .afterName name polarity)
    (hreject : reading.readAfterName name polarity = .reject error) :
    error.PointsInto limit cs := by
  obtain @⟨outer, part, hcs, hopened, hpassed⟩ := h.reads
  have hends := h.ends
  rw [hphase] at hpassed hends
  obtain ⟨blanks, hblanks, hrest⟩ := reading.cursor.skipBlanks_split
  obtain ⟨c, hpeek, hspecial, rfl⟩ := Reading.readAfterName_eq_reject hreject
  have hblank := Cursor.isBlank_of_peek?_skipBlanks hpeek
  -- The name has been read as far as it goes, so the character is not right behind it.
  have hne : blanks ≠ [] := by
    rintro rfl
    rw [List.nil_append] at hrest
    have hnot : isNameChar c = false := hends c (hrest ▸ hpeek)
    rw [isNameChar_iff.2 ⟨hblank, hspecial⟩] at hnot
    cases hnot
  have hsplit : cs = outer ++ part ++ blanks ++ reading.cursor.skipBlanks.rest := by
    rw [hcs, hrest]
    simp only [List.append_assoc]
  refine h.pointsInto (Cursor.endOffset_skipBlanks _) hsplit ?_
  rw [Cursor.rest_of_peek? hpeek]
  exact .unexpectedChar (.mk hopened hpassed) hblanks hne hblank hspecial

/-- The errors behind a colon are where the parenthesis is due or stands. -/
theorem readOpening_pointsInto (h : Follows limit cs reading)
    (hphase : reading.phase = .opening name polarity)
    (hreject : reading.readOpening limit name polarity = .reject error) :
    error.PointsInto limit cs := by
  obtain @⟨outer, part, hcs, hopened, hpassed⟩ := h.reads
  rw [hphase] at hpassed
  obtain ⟨headed, colon, rfl, hheaded, hcolon⟩ := hpassed
  obtain ⟨paren, hparen, hrest⟩ := reading.cursor.skipBlanks_split
  have hannounced : Announced (outer ++ headed ++ (colon ++ ':' :: paren)) reading.enclosing name :=
    .mk (.mk hopened hheaded) hcolon hparen
  have hsplit : cs = outer ++ headed ++ (colon ++ ':' :: paren) ++
      reading.cursor.skipBlanks.rest := by
    rw [hcs, hrest]
    simp only [List.append_assoc, List.cons_append, List.nil_append]
  -- Either it is missing, or it is one too many; in this case as many are open as the limit allows.
  rcases Reading.readOpening_eq_reject hreject with ⟨hpeek, rfl⟩ | ⟨n, hpeek, hlimit, hfull, rfl⟩
  · exact h.pointsInto (Cursor.endOffset_skipBlanks _) hsplit (.expectedOpenParen hannounced hpeek)
  · refine h.pointsInto (Cursor.endOffset_skipBlanks _) hsplit ?_
    obtain rfl : n = reading.enclosing.length := by
      have hdepth := reading.depth_eq
      have hle := h.depth_le n hlimit
      omega
    rw [Cursor.rest_of_peek? hpeek]
    exact .depthExceeded hlimit hannounced

/-- Behind a finished entry a character that cannot follow comes after a parenthesis. -/
theorem exists_closed (h : Follows limit cs reading) (hphase : reading.phase = .closing) {c : Char}
    (hpeek : reading.cursor.skipBlanks.peek? = some c) (hspecial : c ∉ [',', ')']) :
    ∃ closed, cs = closed ++ ')' :: reading.cursor.rest := by
  have hends := h.ends
  rw [hphase] at hends
  rcases hends with hhead | hclosed
  · -- A parenthesis right here is not skipped.
    have hself : reading.cursor.skipBlanks = reading.cursor := by
      refine Cursor.skipBlanks_eq_self fun c hc => ?_
      obtain rfl := hhead c hc
      rfl
    rw [hself] at hpeek
    obtain rfl := hhead c hpeek
    exact absurd (List.mem_cons_of_mem _ List.mem_cons_self) hspecial
  · exact hclosed

/-- The errors behind a finished entry are behind the blanks that follow it. -/
theorem readClosing_pointsInto (h : Follows limit cs reading) (hphase : reading.phase = .closing)
    (hreject : reading.readClosing = .reject error) : error.PointsInto limit cs := by
  obtain @⟨outer, part, hcs, hopened, hpassed⟩ := h.reads
  rw [hphase] at hpassed
  obtain ⟨blanks, hblanks, hrest⟩ := reading.cursor.skipBlanks_split
  have hentry : BehindEntry (outer ++ (part ++ blanks)) reading.enclosing :=
    .mk hopened (ReadLevel.append hpassed hblanks)
  have hsplit : cs = outer ++ (part ++ blanks) ++ reading.cursor.skipBlanks.rest := by
    rw [hcs, hrest]
    simp only [List.append_assoc]
  have hend := Cursor.endOffset_skipBlanks reading.cursor
  -- The text ends inside of a subtree, a parenthesis closes none, or there is no separator.
  rcases Reading.readClosing_eq_reject hreject with
    ⟨hpeek, hopen, rfl⟩ | ⟨hpeek, hnone, rfl⟩ | ⟨c, hpeek, hspecial, rfl⟩
  · refine h.pointsInto hend hsplit ?_
    obtain ⟨subtree, enclosing, henclosing⟩ := List.exists_cons_of_ne_nil hopen
    rw [henclosing] at hentry
    rw [Cursor.rest_of_peek?_none hpeek]
    exact .unclosedSubtree (Or.inr hentry)
  · refine h.pointsInto hend hsplit ?_
    rw [hnone] at hentry
    rw [Cursor.rest_of_peek? hpeek]
    exact .unmatchedClose hentry
  · have hblank := Cursor.isBlank_of_peek?_skipBlanks hpeek
    obtain ⟨closed, hclosed⟩ := h.exists_closed hphase hpeek hspecial
    -- What was passed before the blanks ends with the parenthesis.
    have hpart : outer ++ part = closed ++ [')'] := by
      refine (List.append_left_inj reading.cursor.rest).1 ?_
      rw [List.append_assoc, ← hcs, hclosed, List.append_assoc, List.singleton_append]
    have hbefore : outer ++ (part ++ blanks) = closed ++ ')' :: blanks := by
      rw [← List.append_assoc, hpart, List.append_assoc, List.singleton_append]
    have hentry : BehindEntry (closed ++ [')']) reading.enclosing := by
      rw [← hpart]
      exact .mk hopened hpassed
    refine h.pointsInto hend hsplit ?_
    rw [hbefore, Cursor.rest_of_peek? hpeek]
    exact .expectedSeparator hentry hblanks hblank hspecial

/-- The error at a comma is before the comma, and only blanks follow. -/
theorem readComma_pointsInto (h : Follows limit cs reading) (hphase : reading.phase = .comma)
    (hreject : reading.readComma = .reject error) : error.PointsInto limit cs := by
  obtain @⟨outer, part, hcs, hopened, hpassed⟩ := h.reads
  rw [hphase] at hpassed
  obtain ⟨hread, hcomma⟩ := hpassed
  obtain ⟨blanks, hblanks, hrest⟩ := reading.cursor.next.skipBlanks_split
  obtain ⟨hpeek, rfl⟩ := Reading.readComma_eq_reject hreject
  rw [Cursor.rest_of_peek?_none hpeek, List.append_nil] at hrest
  refine h.pointsInto rfl (hcs.trans (List.append_assoc ..).symm) ?_
  rw [Cursor.rest_of_peek? hcomma, hrest]
  exact .trailingSeparator (.mk hopened hread) hblanks

/-- The error of a step points at its place, whatever the phase. -/
theorem step_pointsInto (h : Follows limit cs reading)
    (hreject : reading.step limit = .reject error) : error.PointsInto limit cs := by
  rw [Reading.step] at hreject
  -- One lemma for each phase has been shown above.
  cases hphase : reading.phase with
  | entry =>
    rw [hphase] at hreject
    exact h.readEntry_pointsInto hphase hreject
  | afterName name polarity =>
    rw [hphase] at hreject
    exact h.readAfterName_pointsInto hphase hreject
  | opening name polarity =>
    rw [hphase] at hreject
    exact h.readOpening_pointsInto hphase hreject
  | closing =>
    rw [hphase] at hreject
    exact h.readClosing_pointsInto hphase hreject
  | comma =>
    rw [hphase] at hreject
    exact h.readComma_pointsInto hphase hreject

/-- The error of a run is that of its last step, to which all before it have led.  The
induction is on the run, from its first step on. -/
theorem exists_reject (h : Follows limit cs reading) (hrun : reading.run limit = .error error) :
    ∃ reading', Follows limit cs reading' ∧ reading'.step limit = .reject error := by
  induction reading using Reading.run.induct limit with
  | case1 reading reading' hstep ih =>
    rw [Reading.run_of_step_eq_next hstep] at hrun
    exact ih (h.step hstep) hrun
  | case2 reading mask hstep =>
    rw [Reading.run_of_step_eq_accept hstep] at hrun
    cases hrun
  | case3 reading error' hstep =>
    rw [Reading.run_of_step_eq_reject hstep] at hrun
    cases hrun
    exact ⟨reading, h, hstep⟩

/-- So does the error of a run. -/
theorem run_pointsInto (h : Follows limit cs reading) (hrun : reading.run limit = .error error) :
    error.PointsInto limit cs := by
  obtain ⟨reading', hfollows, hreject⟩ := h.exists_reject hrun
  exact hfollows.step_pointsInto hreject

end Follows

end Steps

/-- **Every error points at its place in the text.**  Whatever the limit on nesting, the offset of
the error counts the bytes of a first part of the text, so it is the place of one of its characters
or its end; and between this part and the rest the fault shows. -/
theorem parse_error_shows {limit : Option Nat} {text : String} {error : ParseError}
    (h : parse limit text = .error error) :
    ∃ before after : String, text = before ++ after ∧ error.offset = before.utf8ByteSize ∧
      error.fault.ShowsAt limit before.toList after.toList := by
  have hrun : (Reading.start text).run limit = .error error := by
    rw [parse] at h
    split at h
    · cases h
    · exact h
  obtain ⟨before, after, htext, hoffset, hshows⟩ := (Follows.start limit text).run_pointsInto hrun
  refine ⟨String.ofList before, String.ofList after, ?_, ?_, ?_⟩
  · rw [← String.ofList_append, ← htext, String.ofList_toList]
  · rw [hoffset, ← byteLength_toList, String.toList_ofList]
  · rw [String.toList_ofList, String.toList_ofList]
    exact hshows

/-- A name of two bytes and a blank of three stand before a character that cannot follow. -/
theorem parse_error_shows_wide :
    parse none "é\u3000b" = .error ⟨.unexpectedChar 'b' "é", 5⟩ ∧
      ∃ before after : String, "é\u3000b" = before ++ after ∧ 5 = before.utf8ByteSize ∧
        Fault.ShowsAt none (.unexpectedChar 'b' "é") before.toList after.toList := by
  have hparse : parse none "é\u3000b" = .error ⟨.unexpectedChar 'b' "é", 5⟩ :=
    parse_of_runFor 2 rfl rfl
  exact ⟨hparse, parse_error_shows hparse⟩

end FieldMask.Expression
