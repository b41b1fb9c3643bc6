import FieldMask.Proofs.Expression.Step

namespace FieldMask.Expression

/-!
# What is accepted is in the language

* `BeforeEntry`, `Headed`, `ReadLevel` — how far a level is read: up to an entry, up to the end of a
  name, up to the end of an entry.
* `Opened` — the text in front of the innermost level: the names of the open subtrees, each in a
  level that is itself read in part.
* `Reads` — a reading and the text it has passed; `Reads.step` keeps it, with any limit on nesting.
* `denotes_of_parse` — the mask of an accepted text is the one that the text denotes.
-/

/-! ### Levels read in part -/

/-- The text of a level up to an entry: nothing, or some entries and a comma; then blanks. -/
inductive BeforeEntry : List Char → Mask → Prop where
  | first {blanks : List Char} (hblanks : Blanks blanks) : BeforeEntry blanks .empty
  | further {cs blanks after : List Char} {level : Mask} (hlevel : LevelText cs level)
      (hblanks : Blanks blanks) (hafter : Blanks after) :
      BeforeEntry (cs ++ (blanks ++ ',' :: after)) level

/-- The text of a level up to the end of a name that the level has not yet. -/
inductive Headed : List Char → Mask → Polarity → String → Prop where
  | mk {before signed : List Char} {level : Mask} {polarity : Polarity} {name : String}
      (hbefore : BeforeEntry before level) (hsigned : SignedName signed polarity name)
      (hname : level.find? name = none) : Headed (before ++ signed) level polarity name

/-- The text of a level up to the end of an entry; then blanks. -/
inductive ReadLevel : List Char → Mask → Prop where
  | mk {cs blanks : List Char} {level : Mask} (hlevel : LevelText cs level)
      (hblanks : Blanks blanks) : ReadLevel (cs ++ blanks) level

/-- More blanks may follow an entry. -/
theorem ReadLevel.append {cs blanks : List Char} {level : Mask} (h : ReadLevel cs level)
    (hblanks : Blanks blanks) : ReadLevel (cs ++ blanks) level := by
  obtain ⟨hlevel, hbefore⟩ := h
  rw [List.append_assoc]
  exact .mk hlevel (hbefore.append hblanks)

/-- More blanks may stand before one. -/
theorem BeforeEntry.append {cs blanks : List Char} {level : Mask} (h : BeforeEntry cs level)
    (hblanks : Blanks blanks) : BeforeEntry (cs ++ blanks) level := by
  cases h with
  | first hcs => exact .first (hcs.append hblanks)
  | further hlevel hbefore hafter =>
    rw [List.append_assoc, List.append_assoc]
    exact .further hlevel hbefore (hafter.append hblanks)

/-- An entry with a new name makes a level of what was read before it. -/
theorem BeforeEntry.entry {before cs : List Char} {level : Mask} {name : String} {node : Node Mask}
    (h : BeforeEntry before level) (hentry : EntryText cs name node)
    (hname : level.find? name = none) : LevelText (before ++ cs) (level.put name node) := by
  cases h with
  | first hblanks =>
    exact ⟨[(name, node)], .one (hentry.blanks_append hblanks), Gathers.nil.put hname⟩
  | further hlevel hblanks hafter =>
    obtain ⟨entries, hentries, hgathers⟩ := hlevel
    rw [List.append_assoc, List.append_assoc]
    exact ⟨entries ++ [(name, node)], .more hentries hblanks (hentry.blanks_append hafter),
      hgathers.put hname⟩

/-- A name with nothing below it is an entry. -/
theorem Headed.plain {cs : List Char} {level : Mask} {polarity : Polarity} {name : String}
    (h : Headed cs level polarity name) : LevelText cs (level.put name ⟨polarity, none⟩) := by
  obtain ⟨hbefore, hsigned, hname⟩ := h
  exact hbefore.entry (.plain .nil hsigned) hname

/-- A name with a level in parentheses below it is an entry. -/
theorem Headed.nested {cs colon paren inner : List Char} {level child : Mask} {polarity : Polarity}
    {name : String} (h : Headed cs level polarity name) (hcolon : Blanks colon)
    (hparen : Blanks paren) (hinner : ReadLevel inner child) :
    LevelText (cs ++ (colon ++ ':' :: (paren ++ '(' :: (inner ++ [')']))))
      (level.put name ⟨polarity, some child⟩) := by
  obtain ⟨hbefore, hsigned, hname⟩ := h
  obtain ⟨⟨entries, hentries, hgathers⟩, hafter⟩ := hinner
  rw [List.append_assoc, List.append_assoc]
  exact hbefore.entry (.nested .nil hsigned hcolon hparen hentries hgathers hafter) hname

/-! ### What a reading has passed -/

/-- The text in front of the innermost level: for each open subtree the level it is in, up to its
name, and the parenthesis that opens it. -/
inductive Opened : List Char → List OpenSubtree → Prop where
  | root : Opened [] []
  | subtree {outer headed colon paren : List Char} {subtree : OpenSubtree}
      {enclosing : List OpenSubtree} (houter : Opened outer enclosing)
      (hheaded : Headed headed subtree.outer subtree.polarity subtree.name)
      (hcolon : Blanks colon) (hparen : Blanks paren) :
      Opened (outer ++ (headed ++ (colon ++ ':' :: (paren ++ ['('])))) (subtree :: enclosing)

/-- What was passed of the innermost level, and before a comma the comma itself.  This is
the invariant of the machine for one level; the levels around it have theirs. -/
def Phase.Passed (level : Mask) (part rest : List Char) : Phase → Prop
  | .entry => BeforeEntry part level
  | .afterName name polarity => Headed part level polarity name
  | .opening name polarity =>
    ∃ headed colon, part = headed ++ (colon ++ [':']) ∧ Headed headed level polarity name ∧
      Blanks colon
  | .closing => ReadLevel part level
  | .comma => ReadLevel part level ∧ rest.head? = some ','

/-- A reading and the text that it has passed in part. -/
inductive Reads (cs : List Char) (reading : Reading) : Prop where
  | mk {outer part : List Char} (hcs : cs = outer ++ (part ++ reading.cursor.rest))
      (hopened : Opened outer reading.enclosing)
      (hpassed : reading.phase.Passed reading.level part reading.cursor.rest)

namespace Reads

variable {limit : Option Nat} {cs : List Char} {reading reading' : Reading}

/-- At the beginning nothing has been passed. -/
theorem start (text : String) : Reads text.toList (.start text) :=
  ⟨rfl, .root, BeforeEntry.first .nil⟩

/-- Behind a name the level has been read up to the end of the name. -/
theorem readEntry (h : Reads cs reading) (hphase : reading.phase = .entry)
    (hstep : reading.readEntry = .next reading') : Reads cs reading' := by
  obtain ⟨hcs, hopened, hpassed⟩ := h
  rw [hphase] at hpassed
  obtain ⟨blanks, signed, name, polarity, cursor, hblanks, hsigned, hname, hrest, -, -, rfl⟩ :=
    Reading.readEntry_eq_next hstep
  refine ⟨?_, hopened, Headed.mk (BeforeEntry.append hpassed hblanks) hsigned hname⟩
  rw [hcs, hrest]
  simp only [List.append_assoc]

/-- Behind a colon the level has been read as before, and one colon further; anywhere else
the name is a finished entry. -/
theorem readAfterName {name : String} {polarity : Polarity} (h : Reads cs reading)
    (hphase : reading.phase = .afterName name polarity)
    (hstep : reading.readAfterName name polarity = .next reading') : Reads cs reading' := by
  obtain @⟨outer, part, hcs, hopened, hpassed⟩ := h
  rw [hphase] at hpassed
  obtain ⟨blanks, hblanks, hrest⟩ := reading.cursor.skipBlanks_split
  rcases Reading.readAfterName_eq_next hstep with ⟨hpeek, rfl⟩ | hleaf
  · refine ⟨?_, hopened, part, blanks, rfl, hpassed, hblanks⟩
    rw [hcs, hrest, Cursor.rest_of_peek? hpeek]
    simp only [List.append_assoc, List.singleton_append]
  · -- The field is finished, and the blanks behind it are passed as well.
    have hread : ReadLevel (part ++ blanks) (reading.level.put name ⟨polarity, none⟩) :=
      ⟨Headed.plain hpassed, hblanks⟩
    have hsplit : cs = outer ++ (part ++ blanks ++ reading.cursor.skipBlanks.rest) := by
      rw [hcs, hrest, List.append_assoc part]
    -- A comma is looked at again by the next phase, the end and a parenthesis by this one.
    rcases hleaf with ⟨hpeek, rfl⟩ | ⟨-, rfl⟩
    · exact ⟨hsplit, hopened, hread, hpeek⟩
    · exact ⟨hsplit, hopened, hread⟩

/-- Behind a parenthesis an empty level begins, and its name has been read in the level
around it. -/
theorem readOpening {name : String} {polarity : Polarity} (h : Reads cs reading)
    (hphase : reading.phase = .opening name polarity)
    (hstep : reading.readOpening limit name polarity = .next reading') : Reads cs reading' := by
  obtain ⟨hcs, hopened, hpassed⟩ := h
  rw [hphase] at hpassed
  obtain ⟨headed, colon, rfl, hheaded, hcolon⟩ := hpassed
  obtain ⟨hpeek, -, _, rfl⟩ := Reading.readOpening_eq_next hstep
  obtain ⟨paren, hparen, hrest⟩ := reading.cursor.skipBlanks_split
  refine ⟨?_, .subtree hopened hheaded hcolon hparen, BeforeEntry.first .nil⟩
  rw [hcs, hrest, Cursor.rest_of_peek? hpeek]
  simp only [List.append_assoc, List.cons_append, List.nil_append]

/-- Behind a finished entry another one may come in the same level, or the level ends with
its parenthesis. -/
theorem readClosing (h : Reads cs reading) (hphase : reading.phase = .closing)
    (hstep : reading.readClosing = .next reading') : Reads cs reading' := by
  obtain ⟨hcs, hopened, hpassed⟩ := h
  rw [hphase] at hpassed
  obtain ⟨hlevel, hblanks⟩ := hpassed
  obtain ⟨more, hmore, hrest⟩ := reading.cursor.skipBlanks_split
  have hread := ReadLevel.mk hlevel (hblanks.append hmore)
  rcases Reading.readClosing_eq_next hstep with
    ⟨hpeek, rfl⟩ | ⟨hpeek, subtree, enclosing, _, henclosing, rfl⟩
  · refine ⟨?_, hopened, hread, hpeek⟩
    rw [hcs, hrest]
    simp only [List.append_assoc]
  · -- The level inside the parentheses becomes a node of the level around it.
    rw [henclosing] at hopened
    obtain _ | ⟨houter, hheaded, hcolon, hparen⟩ := hopened
    refine ⟨?_, houter, ReadLevel.mk (hheaded.nested hcolon hparen hread) .nil⟩
    rw [hcs, hrest, Cursor.rest_of_peek? hpeek]
    simp only [List.append_assoc, List.cons_append, List.nil_append]

/-- Behind a comma another entry of the level is due. -/
theorem readComma (h : Reads cs reading) (hphase : reading.phase = .comma)
    (hstep : reading.readComma = .next reading') : Reads cs reading' := by
  obtain ⟨hcs, hopened, hpassed⟩ := h
  rw [hphase] at hpassed
  obtain ⟨⟨hlevel, hblanks⟩, hpeek⟩ := hpassed
  obtain ⟨-, rfl⟩ := Reading.readComma_eq_next hstep
  obtain ⟨after, hafter, hrest⟩ := reading.cursor.next.skipBlanks_split
  refine ⟨?_, hopened, BeforeEntry.further hlevel hblanks hafter⟩
  -- The comma, only looked at until now, is passed with the blanks behind it.
  rw [hcs, Cursor.rest_of_peek? hpeek, hrest]
  simp only [List.append_assoc, List.cons_append]

/-- Every step keeps a reading and the text it has passed together. -/
theorem step (h : Reads cs reading) (hstep : reading.step limit = .next reading') :
    Reads cs reading' := by
  rw [Reading.step] at hstep
  -- One lemma for each phase has been shown above.
  cases hphase : reading.phase with
  | entry =>
    rw [hphase] at hstep
    exact h.readEntry hphase hstep
  | afterName name polarity =>
    rw [hphase] at hstep
    exact h.readAfterName hphase hstep
  | opening name polarity =>
    rw [hphase] at hstep
    exact h.readOpening hphase hstep
  | closing =>
    rw [hphase] at hstep
    exact h.readClosing hphase hstep
  | comma =>
    rw [hphase] at hstep
    exact h.readComma hphase hstep

/-- At the end of the text, outside of every subtree, all of the text is a level. -/
theorem denotes_of_accept {mask : Mask} (h : Reads cs reading)
    (hstep : reading.step limit = .accept mask) : Denotes cs mask := by
  obtain ⟨hphase, hpeek, henclosing, rfl⟩ := Reading.step_eq_accept hstep
  obtain ⟨hcs, hopened, hpassed⟩ := h
  rw [hphase] at hpassed
  obtain ⟨hlevel, hblanks⟩ := hpassed
  obtain ⟨more, hmore, hrest⟩ := reading.cursor.skipBlanks_split
  -- Outside of every subtree nothing stands in front of the level.
  rw [henclosing] at hopened
  obtain _ | _ := hopened
  rw [hcs, hrest, Cursor.rest_of_peek?_none hpeek]
  simp only [List.append_assoc, List.nil_append, List.append_nil]
  exact .level hlevel (hblanks.append hmore)

/-- A run that started well ends with what the whole text denotes.  The induction is on the
run. -/
theorem denotes_of_run {mask : Mask} (h : Reads cs reading) (hrun : reading.run limit = .ok mask) :
    Denotes cs mask := by
  induction reading using Reading.run.induct limit with
  | case1 reading reading' hstep ih =>
    rw [Reading.run_of_step_eq_next hstep] at hrun
    exact ih (h.step hstep) hrun
  | case2 reading mask' hstep =>
    rw [Reading.run_of_step_eq_accept hstep] at hrun
    cases hrun
    exact h.denotes_of_accept hstep
  | case3 reading error hstep =>
    rw [Reading.run_of_step_eq_reject hstep] at hrun
    cases hrun

end Reads

/-- Whatever the limit on nesting, the mask of an accepted text is the one that it denotes. -/
theorem denotes_of_parse {limit : Option Nat} {text : String} {mask : Mask}
    (h : parse limit text = .ok mask) : Denotes text.toList mask := by
  rw [parse] at h
  split at h
  next hblank =>
    cases h
    exact .blank (List.all_eq_true.1 hblank)
  next => exact (Reads.start text).denotes_of_run h

end FieldMask.Expression
