import FieldMask.Proofs.Expression.Depth
import FieldMask.Proofs.Expression.Locality
import FieldMask.Proofs.Expression.Location

namespace FieldMask.Expression

/-!
# A limit on nesting only cuts

A limit makes the parser stop at a parenthesis for which it leaves no room.  Up to there a limited
reading is the unlimited one, and what comes behind has not been looked at.

* `Reading.run_some_eq_error` — an error under a limit is that of the limit, or the one without it.
* `Reading.run_eq_depthExceeded` — where the limit is the error, it is the error of every text that
  goes on differently behind the parenthesis.
* `parse_limit_cuts` — what a limit makes of a text.
-/

namespace Reading

variable {limit : Option Nat} {reading reading' : Reading} {n : Nat} {error : ParseError}

/-- An error under a limit is that of the limit, or the error without it.  The induction is
on the run with the limit, which the run without one follows up to there. -/
theorem run_some_eq_error (h : reading.run (some n) = .error error) :
    (∃ offset, error = ⟨.depthExceeded n, offset⟩) ∨ reading.run none = .error error := by
  induction reading using run.induct (some n) with
  | case1 reading reading' hstep ih =>
    -- A step that the limit changes is one that it rejects, and this one is made.
    rcases reading.step_some_eq_or n with hsame | ⟨-, ⟨_, hreject⟩, -⟩
    · rw [run_of_step_eq_next hstep] at h
      rw [run_of_step_eq_next (hsame.symm.trans hstep)]
      exact ih h
    · rw [hreject] at hstep
      cases hstep
  | case2 reading mask hstep =>
    rw [run_of_step_eq_accept hstep] at h
    cases h
  | case3 reading error' hstep =>
    rw [run_of_step_eq_reject hstep] at h
    cases h
    rcases reading.step_some_eq_or n with hsame | ⟨-, ⟨offset, hreject⟩, -⟩
    · exact .inr (run_of_step_eq_reject (hsame.symm.trans hstep))
    · rw [hreject] at hstep
      cases hstep
      exact .inl ⟨offset, rfl⟩

/-- A missing name is never a matter of the limit. -/
theorem missingName_ne_depthExceeded (reading : Reading) (polarity : Polarity)
    (found : Option Char) (n : Nat) : reading.missingName polarity found ≠ .depthExceeded n := by
  unfold missingName
  split
  · exact nofun
  · split <;> exact nofun
  · exact nofun

/-- The limit is the error of a single place in the machine: at a parenthesis, whatever is behind
it. -/
theorem step_eq_depthExceeded {offset : Nat}
    (h : reading.step limit = .reject ⟨.depthExceeded n, offset⟩) :
    limit = some n ∧ ∃ passed after, reading.cursor.rest = passed ++ '(' :: after ∧
      offset = reading.cursor.offset + byteLength passed ∧
      ∀ after', (reading.withRest (passed ++ '(' :: after')).step limit =
        .reject ⟨.depthExceeded n, offset⟩ := by
  rw [step] at h
  cases hphase : reading.phase with
  -- Only this phase asks for room.
  | opening name polarity =>
    rw [hphase] at h
    obtain ⟨blanks, hrest, hskip⟩ := reading.cursor.skipBlanks_withRest
    rcases readOpening_eq_reject h with ⟨-, herror⟩ | ⟨k, hpeek, rfl, hfull, herror⟩
    · cases herror
    · cases herror
      refine ⟨rfl, blanks, reading.cursor.skipBlanks.next.rest, ?_, ?_, ?_⟩
      · rw [← Cursor.rest_of_peek? hpeek, hrest]
      · exact Cursor.offset_eq_of_passed (Cursor.endOffset_skipBlanks _) hrest
      · intro after'
        have hlimit : (some n).filter (· ≤ reading.depth) = some n := by simp [hfull]
        simp only [step, withRest, hphase, readOpening, hskip ('(' :: after') hpeek.symm,
          Cursor.peek?_withRest, List.head?_cons, if_true, hlimit]
        rfl
  -- The other phases have faults of their own.
  | entry =>
    rw [hphase] at h
    rcases readEntry_eq_reject h with ⟨-, herror⟩ | ⟨_, _, -, -, -, herror⟩
    · exact absurd (ParseError.mk.inj herror).1.symm (reading.missingName_ne_depthExceeded _ _ n)
    · cases herror
  | afterName name polarity =>
    rw [hphase] at h
    obtain ⟨_, -, -, herror⟩ := readAfterName_eq_reject h
    cases herror
  | closing =>
    rw [hphase] at h
    rcases readClosing_eq_reject h with ⟨-, -, herror⟩ | ⟨-, -, herror⟩ | ⟨_, -, -, herror⟩ <;>
      cases herror
  | comma =>
    rw [hphase] at h
    obtain ⟨-, herror⟩ := readComma_eq_reject h
    cases herror

/-- **Where the limit is the error of a run**, it is the error on every text that is the
same up to the parenthesis and goes on differently behind it.  The induction is on the run;
each step depends only on what it passes and on one character more. -/
theorem run_eq_depthExceeded {cs : List Char} {offset : Nat} (hreads : Reads cs reading)
    (h : reading.run limit = .error ⟨.depthExceeded n, offset⟩) :
    limit = some n ∧ ∃ passed after, reading.cursor.rest = passed ++ '(' :: after ∧
      offset = reading.cursor.offset + byteLength passed ∧
      ∀ after', (reading.withRest (passed ++ '(' :: after')).run limit =
        .error ⟨.depthExceeded n, offset⟩ := by
  induction reading using run.induct limit with
  | case1 reading reading' hstep ih =>
    rw [run_of_step_eq_next hstep] at h
    obtain ⟨hlimit, passed, after, hrest, hoffset, hany⟩ := ih (hreads.step hstep) h
    obtain ⟨before, hbefore, hlocal⟩ := step_local hstep
    refine ⟨hlimit, before ++ passed, after, ?_, ?_, ?_⟩
    · rw [hbefore, hrest, List.append_assoc]
    · rw [hoffset, Cursor.offset_eq_of_passed (hreads.endOffset_eq_of_step hstep) hbefore,
        byteLength_append, Nat.add_assoc]
    · -- Up to the parenthesis the first character behind the step is the same on both texts.
      intro after'
      have hhead : (passed ++ '(' :: after').head? = reading'.cursor.rest.head? := by
        rw [hrest]
        exact head?_append_congr passed rfl
      rw [List.append_assoc, run_of_step_eq_next (hlocal _ hhead)]
      exact hany after'
  | case2 reading mask hstep =>
    rw [run_of_step_eq_accept hstep] at h
    cases h
  | case3 reading error' hstep =>
    rw [run_of_step_eq_reject hstep] at h
    cases h
    obtain ⟨hlimit, passed, after, hrest, hoffset, hany⟩ := step_eq_depthExceeded hstep
    exact ⟨hlimit, passed, after, hrest, hoffset, fun after' => run_of_step_eq_reject (hany after')⟩

end Reading

/-! ### Whole texts -/

variable {limit : Option Nat} {text : String} {n : Nat}

/-- Where the limit is the error of a text, it is that of every text that begins with the same
characters up to the parenthesis at the offset. -/
theorem parse_eq_depthExceeded {offset : Nat}
    (h : parse limit text = .error ⟨.depthExceeded n, offset⟩) :
    limit = some n ∧ ∃ before after : String, text = before ++ "(" ++ after ∧
      offset = before.utf8ByteSize ∧
      ∀ after', parse limit (before ++ "(" ++ after') = .error ⟨.depthExceeded n, offset⟩ := by
  obtain ⟨hlimit, before, after, htext, hoffset, hany⟩ :=
    Reading.run_eq_depthExceeded (.start text) (parse_eq_error_iff.1 h).2
  have hchars (after' : String) : (String.ofList before ++ "(" ++ after').toList =
      before ++ '(' :: after'.toList := by
    rw [String.toList_append, String.toList_append, String.toList_ofList, List.append_assoc]
    rfl
  refine ⟨hlimit, String.ofList before, String.ofList after, ?_, ?_, ?_⟩
  · apply String.toList_injective
    rw [hchars, String.toList_ofList]
    exact htext
  · rw [hoffset, ← byteLength_toList, String.toList_ofList]
    exact Nat.zero_add _
  · intro after'
    -- A text with a parenthesis is not blank, so it is read at all.
    have hsolid : ∃ c ∈ (String.ofList before ++ "(" ++ after').toList, isBlank c = false := by
      rw [hchars]
      exact ⟨'(', by simp, rfl⟩
    rw [parse_of_exists_not_blank hsolid, ← hany after'.toList, ← hchars]
    rfl

/-- **A limit on nesting cuts and changes nothing else.**  A text is accepted with a limit if it is
without one and its mask is nested no deeper, so it is accepted as the same mask with any larger
limit.  An error other than that of the limit is the error without a limit.  And where the limit is
the error, at a parenthesis, it is the error of every text that begins in the same way up to and
with this parenthesis. -/
theorem parse_limit_cuts (n : Nat) (text : String) :
    (∀ mask, parse (some n) text = .ok mask ↔
        parse none text = .ok mask ∧ mask.fields.nesting ≤ n) ∧
      (∀ error, parse (some n) text = .error error → (∀ k, error.fault ≠ .depthExceeded k) →
        parse none text = .error error) ∧
      (∀ k offset, parse (some n) text = .error ⟨.depthExceeded k, offset⟩ →
        k = n ∧ ∃ before after : String, text = before ++ "(" ++ after ∧
          offset = before.utf8ByteSize ∧ ∀ after',
            parse (some n) (before ++ "(" ++ after') = .error ⟨.depthExceeded n, offset⟩) ∧
      ∀ mask larger, parse (some n) text = .ok mask → n ≤ larger →
        parse (some larger) text = .ok mask := by
  have haccept (n : Nat) (mask : Mask) : parse (some n) text = .ok mask ↔
      parse none text = .ok mask ∧ mask.fields.nesting ≤ n := by
    simpa using parse_eq_ok_iff_nesting_le (some n) text mask
  -- Other errors, the error of the limit, and larger limits.
  refine ⟨haccept n, ?_, ?_, ?_⟩
  · intro error herror hother
    obtain ⟨hblank, hrun⟩ := parse_eq_error_iff.1 herror
    rcases Reading.run_some_eq_error hrun with ⟨offset, rfl⟩ | hsame
    · exact absurd rfl (hother n)
    · exact parse_eq_error_iff.2 ⟨hblank, hsame⟩
  · intro k offset herror
    obtain ⟨hlimit, hcut⟩ := parse_eq_depthExceeded herror
    cases hlimit
    exact ⟨rfl, hcut⟩
  · intro mask larger hmask hle
    obtain ⟨hparse, hnesting⟩ := (haccept n mask).1 hmask
    exact (haccept larger mask).2 ⟨hparse, Nat.le_trans hnesting hle⟩

/-- Subtrees beside each other keep a limit of one, and the end of the text inside of the second is
the error that it is without a limit.  One subtree inside of the second is cut off. -/
theorem parse_limit_cuts_siblings :
    (∃ mask, parse (some 1) "a:(b),c:(d)" = .ok mask ∧ parse none "a:(b),c:(d)" = .ok mask ∧
      mask.fields.nesting ≤ 1 ∧ 1 ≤ 4 ∧ parse (some 4) "a:(b),c:(d)" = .ok mask) ∧
    (parse (some 1) "a:(b),c:(d" = .error ⟨.unclosedSubtree, 10⟩ ∧
      (∀ k, Fault.unclosedSubtree ≠ .depthExceeded k) ∧
      parse none "a:(b),c:(d" = .error ⟨.unclosedSubtree, 10⟩) ∧
    parse (some 1) "a:(b),c:(-d:(e" = .error ⟨.depthExceeded 1, 12⟩ ∧
      ∃ before after : String, "a:(b),c:(-d:(e" = before ++ "(" ++ after ∧
        12 = before.utf8ByteSize ∧ ∀ after',
          parse (some 1) (before ++ "(" ++ after') = .error ⟨.depthExceeded 1, 12⟩ := by
  let below (name : String) : Node Mask := ⟨.included, some (Mask.empty.put name ⟨.included, none⟩)⟩
  let mask : Mask := (Mask.empty.put "a" (below "b")).put "c" (below "d")
  have hmask : parse (some 1) "a:(b),c:(d)" = .ok mask := parse_of_runFor 20 rfl rfl
  have hunclosed : parse (some 1) "a:(b),c:(d" = .error ⟨.unclosedSubtree, 10⟩ :=
    parse_of_runFor 20 rfl rfl
  have hdeep : parse (some 1) "a:(b),c:(-d:(e" = .error ⟨.depthExceeded 1, 12⟩ :=
    parse_of_runFor 20 rfl rfl
  obtain ⟨haccept, -, -, hlarger⟩ := parse_limit_cuts 1 "a:(b),c:(d)"
  obtain ⟨-, hsame, -, -⟩ := parse_limit_cuts 1 "a:(b),c:(d"
  obtain ⟨-, -, hcut, -⟩ := parse_limit_cuts 1 "a:(b),c:(-d:(e"
  obtain ⟨hnone, hnesting⟩ := (haccept mask).1 hmask
  refine ⟨⟨mask, hmask, hnone, hnesting, by decide, hlarger mask 4 hmask (by decide)⟩,
    ⟨hunclosed, nofun, hsame _ hunclosed nofun⟩, hdeep, ?_⟩
  exact (hcut 1 12 hdeep).2

end FieldMask.Expression
