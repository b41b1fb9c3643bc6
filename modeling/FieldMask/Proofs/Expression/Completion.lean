import FieldMask.Proofs.Expression.Location
import Mathlib.Algebra.Order.BigOperators.Group.List
import Mathlib.Algebra.Order.Group.Nat

namespace FieldMask.Expression

/-!
# A text can be completed up to its error

What stands before the place of an error is the beginning of a text that is accepted.  An entry is
finished there, with a new name if one is due and with a subtree if a colon has announced one, and
then every subtree that is open is closed.

* `Completable` — the beginnings of texts that denote a mask.
* `exists_newName` — no level has every name.
* `Opened.completable` — behind an entry the open subtrees can be closed; `Headed.completable`,
  `Headed.completable_announced`, `BeforeEntry.completable` — the other places in a level.
* `Follows.step_breaksOff` — the error of a step; `parse_error_completable` — that of a text.
-/

/-- The beginning of a text that denotes a mask. -/
def Completable (cs : List Char) : Prop := ∃ completion mask, Denotes (cs ++ completion) mask

/-- What a longer beginning goes on to, a shorter one goes on to as well. -/
theorem Completable.of_append {cs : List Char} (more : List Char)
    (h : Completable (cs ++ more)) : Completable cs := by
  obtain ⟨completion, mask, hdenotes⟩ := h
  rw [List.append_assoc] at hdenotes
  exact ⟨more ++ completion, mask, hdenotes⟩

/-! ### A new name -/

/-- A name that is longer than all those of a level together is not one of them. -/
theorem exists_newName (level : Mask) :
    ∃ name, IsName name ∧ name.toList.head? ≠ some '-' ∧ level.find? name = none := by
  -- Only its length matters, so one letter repeated will do.
  let size := (level.fields.names.map String.length).sum
  let name := String.ofList (List.replicate (size + 1) 'x')
  have hlist : name.toList = List.replicate (size + 1) 'x' := String.toList_ofList
  have hchar : ∀ c ∈ name.toList, c = 'x' := by
    rw [hlist]
    intro c hc
    exact List.eq_of_mem_replicate hc
  refine ⟨name, isName_iff.2 ⟨?_, ?_⟩, ?_, ?_⟩
  · rw [hlist]
    exact List.cons_ne_nil _ _
  · intro c hc
    obtain rfl := hchar c hc
    rfl
  · intro hhead
    have hsign := hchar '-' (List.mem_of_mem_head? hhead)
    exact absurd hsign (by decide)
  · have hmem : name ∉ level.fields.names := by
      intro hmem
      have hle : name.length ≤ size := List.le_sum_of_mem (List.mem_map_of_mem hmem)
      have hlength : name.length = size + 1 := by
        rw [← String.length_toList, hlist, List.length_replicate]
      omega
    have hnone := level.raw_find? name
    rw [Fields.find?_eq_none_iff.2 hmem] at hnone
    exact Option.map_eq_none_iff.1 hnone

/-- Behind a sign a name that could stand without one is a signed name. -/
theorem Sign.signedName {sign : List Char} {polarity : Polarity} {name : String}
    (h : Sign sign polarity) (hname : IsName name) (hhead : name.toList.head? ≠ some '-') :
    SignedName (sign ++ name.toList) polarity name := by
  cases h with
  | included => exact .included hname hhead
  | excluded hblanks => exact .excluded hblanks hname

/-! ### Places in a level -/

section Places

variable {outer part : List Char} {enclosing : List OpenSubtree} {level : Mask} {name : String}
  {polarity : Polarity}

/-- Behind an entry all that is open can be closed.  The induction is on the open subtrees,
from the innermost one outwards. -/
theorem Opened.completable (houter : Opened outer enclosing) (hread : ReadLevel part level) :
    Completable (outer ++ part) := by
  induction houter generalizing part level with
  | root =>
    obtain ⟨hlevel, hblanks⟩ := hread
    refine ⟨[], level, ?_⟩
    rw [List.nil_append, List.append_nil]
    exact .level hlevel hblanks
  | subtree houter hheaded hcolon hparen ih =>
    -- With one more parenthesis the level is a node of the level around it.
    have hclosed := ih (.mk (hheaded.nested hcolon hparen hread) .nil)
    refine Completable.of_append [')'] ?_
    simpa only [List.append_assoc, List.cons_append, List.nil_append, List.append_nil]
      using hclosed

/-- Behind a name, and blanks, the name is a finished entry. -/
theorem Headed.completable {blanks : List Char} (hheaded : Headed part level polarity name)
    (houter : Opened outer enclosing) (hblanks : Blanks blanks) :
    Completable (outer ++ (part ++ blanks)) :=
  houter.completable (.mk hheaded.plain hblanks)

/-- Where a name is due a new one can be given. -/
theorem BeforeEntry.completable {sign : List Char} (hbefore : BeforeEntry part level)
    (houter : Opened outer enclosing) (hsign : Sign sign polarity) :
    Completable (outer ++ (part ++ sign)) := by
  obtain ⟨name, hname, hhead, hnew⟩ := exists_newName level
  have hheaded : Headed (part ++ (sign ++ name.toList)) level polarity name :=
    .mk hbefore (hsign.signedName hname hhead) hnew
  refine Completable.of_append name.toList ?_
  simpa only [List.append_assoc, List.append_nil] using hheaded.completable houter .nil

/-- Behind a colon, and blanks, a subtree can be opened. -/
theorem Headed.completable_announced {colon paren : List Char}
    (hheaded : Headed part level polarity name) (houter : Opened outer enclosing)
    (hcolon : Blanks colon) (hparen : Blanks paren) :
    Completable (outer ++ (part ++ (colon ++ ':' :: paren))) := by
  have hopened : Opened (outer ++ (part ++ (colon ++ ':' :: (paren ++ ['(']))))
      (⟨name, polarity, level⟩ :: enclosing) := .subtree houter hheaded hcolon hparen
  have hfirst := (BeforeEntry.first .nil).completable hopened .included
  refine Completable.of_append ['('] ?_
  simpa only [List.append_assoc, List.cons_append, List.append_nil] using hfirst

end Places

/-! ### Errors -/

/-- The offset of an error counts the bytes of a first part of the text that can be completed. -/
def ParseError.BreaksOff (cs : List Char) (error : ParseError) : Prop :=
  ∃ before after, cs = before ++ after ∧ error.offset = byteLength before ∧ Completable before

namespace Follows

variable {limit : Option Nat} {cs : List Char} {reading : Reading} {name : String}
  {polarity : Polarity} {error : ParseError}

/-- A cursor that has the end of the text right gives the offset of what stands before
it. -/
theorem breaksOff {cursor : Cursor} {before : List Char} {fault : Fault}
    (h : Follows limit cs reading) (hend : cursor.endOffset = reading.cursor.endOffset)
    (hcs : cs = before ++ cursor.rest) (hcompletable : Completable before) :
    ParseError.BreaksOff cs ⟨fault, cursor.offset⟩ :=
  ⟨before, cursor.rest, hcs, Cursor.offset_eq_of_append (hend.trans h.endOffset_eq) hcs,
    hcompletable⟩

/-- The error at a name that is missing or is there already is where the name is due.  Up to
there the text goes on with a name that the level has not. -/
theorem readEntry_breaksOff (h : Follows limit cs reading) (hphase : reading.phase = .entry)
    (hreject : reading.readEntry = .reject error) : error.BreaksOff cs := by
  obtain @⟨outer, part, hcs, hopened, hpassed⟩ := h.reads
  rw [hphase] at hpassed
  obtain ⟨blanks, sign, hblanks, hsign, hrest, -⟩ := Reading.readSign_split reading.cursor
  have hdue : Completable (outer ++ (part ++ blanks ++ sign)) :=
    (BeforeEntry.append hpassed hblanks).completable hopened hsign
  have hsplit : cs = outer ++ (part ++ blanks ++ sign) ++
      (Reading.readSign reading.cursor).2.rest := by
    rw [hcs, hrest]
    simp only [List.append_assoc]
  -- A name that is there already is not passed: another one is completed in its stead.
  rcases Reading.readEntry_eq_reject hreject with ⟨-, rfl⟩ | ⟨name, rest, -, -, -, rfl⟩
  · exact h.breaksOff (Reading.endOffset_readSign _) hsplit hdue
  · exact h.breaksOff (Reading.endOffset_readSign _) hsplit hdue

/-- Any other error but that at a comma is behind the blanks that follow what was read. -/
theorem breaksOff_skipBlanks {part : List Char} {fault : Fault} (h : Follows limit cs reading)
    (hcs : cs = part ++ reading.cursor.rest)
    (hcompletable : ∀ blanks, Blanks blanks → Completable (part ++ blanks)) :
    ParseError.BreaksOff cs ⟨fault, reading.cursor.skipBlanks.offset⟩ := by
  obtain ⟨blanks, hblanks, hrest⟩ := reading.cursor.skipBlanks_split
  refine h.breaksOff (Cursor.endOffset_skipBlanks _) ?_ (hcompletable blanks hblanks)
  rw [hcs, hrest, List.append_assoc]

/-- Whatever the phase, the text before the error of a step can be completed. -/
theorem step_breaksOff (h : Follows limit cs reading)
    (hreject : reading.step limit = .reject error) : error.BreaksOff cs := by
  obtain @⟨outer, part, hcs, hopened, hpassed⟩ := h.reads
  rw [← List.append_assoc] at hcs
  rw [Reading.step] at hreject
  cases hphase : reading.phase with
  | entry =>
    rw [hphase] at hreject
    exact h.readEntry_breaksOff hphase hreject
  | afterName name polarity =>
    rw [hphase] at hreject hpassed
    obtain ⟨_, -, -, rfl⟩ := Reading.readAfterName_eq_reject hreject
    refine h.breaksOff_skipBlanks hcs fun blanks hblanks => ?_
    rw [List.append_assoc]
    exact Headed.completable hpassed hopened hblanks
  | opening name polarity =>
    rw [hphase] at hreject hpassed
    obtain ⟨headed, colon, rfl, hheaded, hcolon⟩ := hpassed
    have hannounced (paren : List Char) (hparen : Blanks paren) :
        Completable (outer ++ (headed ++ (colon ++ [':'])) ++ paren) := by
      simpa only [List.append_assoc, List.cons_append, List.nil_append]
        using hheaded.completable_announced hopened hcolon hparen
    rcases Reading.readOpening_eq_reject hreject with ⟨-, rfl⟩ | ⟨_, -, -, -, rfl⟩
    · exact h.breaksOff_skipBlanks hcs hannounced
    · exact h.breaksOff_skipBlanks hcs hannounced
  -- All three errors are behind a finished entry and some blanks, where closing is possible.
  | closing =>
    rw [hphase] at hreject hpassed
    have hentry (blanks : List Char) (hblanks : Blanks blanks) :
        Completable (outer ++ part ++ blanks) := by
      rw [List.append_assoc]
      exact hopened.completable (ReadLevel.append hpassed hblanks)
    rcases Reading.readClosing_eq_reject hreject with
      ⟨-, -, rfl⟩ | ⟨-, -, rfl⟩ | ⟨_, -, -, rfl⟩
    · exact h.breaksOff_skipBlanks hcs hentry
    · exact h.breaksOff_skipBlanks hcs hentry
    · exact h.breaksOff_skipBlanks hcs hentry
  | comma =>
    rw [hphase] at hreject hpassed
    obtain ⟨hread, -⟩ := hpassed
    -- The place of a trailing comma is before it.
    obtain ⟨-, rfl⟩ := Reading.readComma_eq_reject hreject
    exact h.breaksOff rfl hcs (hopened.completable hread)

end Follows

/-- **No error comes too late.**  Whatever the limit on nesting, the text before the offset of an
error goes on to some text that is accepted without a limit. -/
theorem parse_error_completable {limit : Option Nat} {text : String} {error : ParseError}
    (h : parse limit text = .error error) :
    ∃ before after : String, text = before ++ after ∧ error.offset = before.utf8ByteSize ∧
      ∃ (completion : String) (mask : Mask), parse none (before ++ completion) = .ok mask := by
  -- The error is that of the last step of the run.
  obtain ⟨reading, hfollows, hreject⟩ :=
    (Follows.start limit text).exists_reject (parse_eq_error_iff.1 h).2
  obtain ⟨before, after, htext, hoffset, completion, mask, hdenotes⟩ :=
    hfollows.step_breaksOff hreject
  refine ⟨String.ofList before, String.ofList after, ?_, ?_, String.ofList completion, mask, ?_⟩
  · rw [← String.ofList_append, ← htext, String.ofList_toList]
  · rw [hoffset, ← byteLength_toList, String.toList_ofList]
  · apply parse_of_denotes
    rwa [← String.ofList_append, String.toList_ofList]

/-- Inside of an open subtree, behind a name of two bytes and an excluded one, a second subtree is
one too many; without a limit it can be opened. -/
theorem parse_error_completable_limit :
    parse (some 1) "é:(-b:(c" = .error ⟨.depthExceeded 1, 7⟩ ∧
      ∃ before after : String, "é:(-b:(c" = before ++ after ∧ 7 = before.utf8ByteSize ∧
        ∃ (completion : String) (mask : Mask), parse none (before ++ completion) = .ok mask := by
  have hparse : parse (some 1) "é:(-b:(c" = .error ⟨.depthExceeded 1, 7⟩ :=
    parse_of_runFor 6 rfl rfl
  exact ⟨hparse, parse_error_completable hparse⟩

end FieldMask.Expression
