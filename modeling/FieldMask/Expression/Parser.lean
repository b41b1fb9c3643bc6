import FieldMask.Expression.Cursor
import FieldMask.Expression.Error
import FieldMask.Mask.Basic

namespace FieldMask.Expression

/-!
# Reading a mask expression

```text
mask  = entry ("," entry)*
entry = ["-"] name [":" "(" mask ")"]
name  = run of characters other than blanks and ":,)"
```

Blanks may stand between any two of these.  A text is read step by step: what is known after each
step is a place in the text, the level being read and the subtrees left open around it, so nesting
costs no recursion.

* `Phase` — what comes next; `OpenSubtree` — a subtree opened and not yet closed.
* `Reading` — what is known; `Reading.step` — one step, which decreases `Reading.measure`
  (`measure_lt_of_step`); `Reading.run` — all of them.
* `parse` — the mask of a text, with a limit on nesting if one is given.
-/

/-- What comes next.  It is the state of the machine between two steps, with the name that
is waiting for its decision. -/
inductive Phase where
  /-- An optional sign and a name. -/
  | entry
  /-- What follows a name. -/
  | afterName (name : String) (polarity : Polarity)
  /-- The parenthesis that a colon announces. -/
  | opening (name : String) (polarity : Polarity)
  /-- What follows a finished entry: a closing parenthesis, a comma or the end. -/
  | closing
  /-- A comma. -/
  | comma
  deriving DecidableEq

/-- A subtree opened and not yet closed: its field, and the level that the field belongs to. -/
structure OpenSubtree where
  name : String
  polarity : Polarity
  outer : Mask

/-- A text read in part: the innermost open level and the subtrees around it, innermost
first.  The depth is counted along, so that the limit is checked without going through
them. -/
structure Reading where
  phase : Phase
  cursor : Cursor
  level : Mask
  enclosing : List OpenSubtree
  /-- How many subtrees are open. -/
  depth : Nat
  depth_eq : depth = enclosing.length

/-- What a step leads to. -/
inductive Outcome where
  | next (reading : Reading)
  | accept (mask : Mask)
  | reject (error : ParseError)

/-- The characters of a name. -/
def isNameChar (c : Char) : Bool :=
  !isBlank c && c != ':' && c != ',' && c != ')'

namespace Reading

/-- A text of which nothing has been read. -/
def start (text : String) : Reading := ⟨.entry, .start text, .empty, [], 0, rfl⟩

/-- Why there is no name at a place: the character there and the open level tell.  An empty
subtree is only called so where nothing at all stands between its parentheses, not even a
sign. -/
def missingName (reading : Reading) (polarity : Polarity) (found : Option Char) : Fault :=
  match found, reading.enclosing with
  | none, _ :: _ => .unclosedSubtree
  | some ')', subtree :: _ =>
    if reading.level.isEmpty && polarity == .included then .emptySubtree subtree.name
    else .emptyField
  | _, _ => .emptyField

/-- The sign of an entry and the place of its name. -/
def readSign (cursor : Cursor) : Polarity × Cursor :=
  let cursor := cursor.skipBlanks
  if cursor.peek? = some '-' then (.excluded, cursor.next.skipBlanks) else (.included, cursor)

/-- Reads an optional sign and a name that its level has not yet.  A name that is there
twice is reported at its beginning, a missing one where it should begin. -/
def readEntry (reading : Reading) : Outcome :=
  let (polarity, start) := readSign reading.cursor
  let (run, stop) := start.span isNameChar
  let name := String.ofList run
  -- Without a name, the character in its place says what is wrong.
  if run.isEmpty then
    .reject ⟨reading.missingName polarity stop.peek?, stop.offset⟩
  else if reading.level.contains name then
    .reject ⟨.duplicateField name, start.offset⟩
  else
    .next { reading with phase := .afterName name polarity, cursor := stop }

/-- Adds a plain field to the level and moves on. -/
def addLeaf (reading : Reading) (name : String) (polarity : Polarity) (cursor : Cursor)
    (phase : Phase) : Reading :=
  { reading with phase, cursor, level := reading.level.put name ⟨polarity, none⟩ }

/-- Looks at what follows a name: a colon opens a subtree, all else that may stand there ends the
field. -/
def readAfterName (reading : Reading) (name : String) (polarity : Polarity) : Outcome :=
  let cursor := reading.cursor.skipBlanks
  match cursor.peek? with
  | some ':' => .next { reading with phase := .opening name polarity, cursor := cursor.next }
  | none => .next (reading.addLeaf name polarity cursor .closing)
  | some ')' => .next (reading.addLeaf name polarity cursor .closing)
  | some ',' => .next (reading.addLeaf name polarity cursor .comma)
  | some found => .reject ⟨.unexpectedChar found name, cursor.offset⟩

/-- Opens a subtree, if the limit leaves room for one more.  The limit is asked before
anything inside of the parenthesis is read, and reported at the parenthesis. -/
def readOpening (limit : Option Nat) (reading : Reading) (name : String) (polarity : Polarity) :
    Outcome :=
  let cursor := reading.cursor.skipBlanks
  if cursor.peek? = some '(' then
    match limit.filter (· ≤ reading.depth) with
    | some limit => .reject ⟨.depthExceeded limit, cursor.offset⟩
    | none =>
      let subtree : OpenSubtree := ⟨name, polarity, reading.level⟩
      .next ⟨.entry, cursor.next, .empty, subtree :: reading.enclosing, reading.depth + 1,
        by rw [reading.depth_eq, List.length_cons]⟩
  else
    .reject ⟨.expectedOpenParen name, cursor.offset⟩

/-- Ends the text, goes on to a comma, or closes the innermost subtree.  Closing a subtree
puts its level below its name in the level around it, and the same phase goes on there. -/
def readClosing (reading : Reading) : Outcome :=
  let cursor := reading.cursor.skipBlanks
  match cursor.peek?, h : reading.enclosing with
  | none, [] => .accept reading.level
  | none, _ :: _ => .reject ⟨.unclosedSubtree, cursor.offset⟩
  | some ',', _ => .next { reading with phase := .comma, cursor }
  | some ')', subtree :: enclosing =>
    .next ⟨.closing, cursor.next,
      subtree.outer.put subtree.name ⟨subtree.polarity, some reading.level⟩, enclosing,
      reading.depth - 1, by rw [reading.depth_eq, h, List.length_cons, Nat.add_sub_cancel]⟩
  | some ')', [] => .reject ⟨.unmatchedClose, cursor.offset⟩
  | some found, _ => .reject ⟨.expectedSeparator found, cursor.offset⟩

/-- Passes a comma, behind which the text must go on. -/
def readComma (reading : Reading) : Outcome :=
  let cursor := reading.cursor.next.skipBlanks
  match cursor.peek? with
  | none => .reject ⟨.trailingSeparator, reading.cursor.offset⟩
  | some _ => .next { reading with phase := .entry, cursor }

/-- One step.  Every phase has its own reader, and a reader that goes on says which phase
comes next. -/
def step (limit : Option Nat) (reading : Reading) : Outcome :=
  match reading.phase with
  | .entry => reading.readEntry
  | .afterName name polarity => reading.readAfterName name polarity
  | .opening name polarity => reading.readOpening limit name polarity
  | .closing => reading.readClosing
  | .comma => reading.readComma

/-! ### Every step brings the end nearer -/

/-- How far a phase is from one that must read a character.  A name may be followed by
nothing, a finished entry by a comma that is read in the next step. -/
def rank : Phase → Nat
  | .entry => 0
  | .afterName .. => 2
  | .opening .. => 0
  | .closing => 1
  | .comma => 0

/-- The quantity that every step decreases.  A character counts three times, since reading
one may lead to a phase that is two steps from reading the next. -/
def measure (reading : Reading) : Nat := 3 * reading.cursor.rest.length + rank reading.phase

/-- A sign and the blanks around it leave no more to read than there was. -/
theorem readSign_rest_length_le (cursor : Cursor) :
    (readSign cursor).2.rest.length ≤ cursor.rest.length := by
  have h₁ := cursor.skipBlanks_rest_length_le
  have h₂ := cursor.skipBlanks.next_rest_length_le
  have h₃ := cursor.skipBlanks.next.skipBlanks_rest_length_le
  unfold readSign
  dsimp only
  split <;> dsimp only <;> omega

section Steps

variable {limit : Option Nat} {reading reading' : Reading} {name : String} {polarity : Polarity}

/-- A name has at least one character, so there is less to read behind it: less by three times that
length, which outweighs the rank of the phase that follows. -/
theorem measure_lt_of_readEntry (h : reading.readEntry = .next reading') :
    reading'.measure < 3 * reading.cursor.rest.length + rank .entry := by
  have hsign := readSign_rest_length_le reading.cursor
  have hsplit := (readSign reading.cursor).2.span_rest_length isNameChar
  unfold readEntry at h
  dsimp only at h
  split at h
  · cases h
  next hrun =>
    have hname : 0 < ((readSign reading.cursor).2.span isNameChar).1.length := by
      simpa [List.length_pos_iff] using hrun
    split at h
    · cases h
    · cases h
      simp only [measure, rank]
      omega

/-- Behind a name a colon is read, or nothing is and the phase that follows is of lower rank. -/
theorem measure_lt_of_readAfterName (h : reading.readAfterName name polarity = .next reading') :
    reading'.measure < 3 * reading.cursor.rest.length + rank (.afterName name polarity) := by
  have hblanks := reading.cursor.skipBlanks_rest_length_le
  unfold readAfterName at h
  dsimp only at h
  split at h
  next hpeek =>
    have hcolon := Cursor.next_rest_length_lt hpeek
    cases h
    simp only [measure, rank]
    omega
  -- The end of the text, a closing parenthesis and a comma are left where they are.
  · cases h
    simp only [measure, rank, addLeaf]
    omega
  · cases h
    simp only [measure, rank, addLeaf]
    omega
  · cases h
    simp only [measure, rank, addLeaf]
    omega
  · cases h

/-- A subtree is opened by a parenthesis that is read.  One character weighs more than the
phases differ by. -/
theorem measure_lt_of_readOpening (h : reading.readOpening limit name polarity = .next reading') :
    reading'.measure < 3 * reading.cursor.rest.length + rank (.opening name polarity) := by
  have hblanks := reading.cursor.skipBlanks_rest_length_le
  unfold readOpening at h
  dsimp only at h
  split at h
  next hpeek =>
    have hparenthesis := Cursor.next_rest_length_lt hpeek
    split at h
    · cases h
    · cases h
      simp only [measure, rank]
      omega
  · cases h

/-- A subtree is closed by a parenthesis that is read.  A comma is not read yet, but the phase that
reads it is of lower rank. -/
theorem measure_lt_of_readClosing (h : reading.readClosing = .next reading') :
    reading'.measure < 3 * reading.cursor.rest.length + rank .closing := by
  have hblanks := reading.cursor.skipBlanks_rest_length_le
  unfold readClosing at h
  dsimp only at h
  split at h
  · cases h
  · cases h
  · cases h
    simp only [measure, rank]
    omega
  -- A closing parenthesis; a comma, before it, is left where it is.
  next hpeek _ =>
    have hparenthesis := Cursor.next_rest_length_lt hpeek
    cases h
    simp only [measure, rank]
    omega
  · cases h
  · cases h

/-- Where something follows a comma, there was the comma to be read. -/
theorem measure_lt_of_readComma (h : reading.readComma = .next reading') :
    reading'.measure < 3 * reading.cursor.rest.length + rank .comma := by
  have hblanks := reading.cursor.next.skipBlanks_rest_length_le
  have hnext : reading.cursor.next.rest.length = reading.cursor.rest.length - 1 := by simp
  unfold readComma at h
  dsimp only at h
  split at h
  · cases h
  next hpeek =>
    -- The character behind the blanks is one of those behind the comma.
    have hfollows := Cursor.next_rest_length_lt hpeek
    cases h
    simp only [measure, rank]
    omega

/-- Every step decreases the measure: it reads a character, or it goes on to a phase of lower
rank at the same place. -/
theorem measure_lt_of_step (h : reading.step limit = .next reading') :
    reading'.measure < reading.measure := by
  rw [step] at h
  show reading'.measure < 3 * reading.cursor.rest.length + rank reading.phase
  cases hphase : reading.phase with
  | entry =>
    rw [hphase] at h
    exact measure_lt_of_readEntry h
  | afterName name polarity =>
    rw [hphase] at h
    exact measure_lt_of_readAfterName h
  | opening name polarity =>
    rw [hphase] at h
    exact measure_lt_of_readOpening h
  | closing =>
    rw [hphase] at h
    exact measure_lt_of_readClosing h
  | comma =>
    rw [hphase] at h
    exact measure_lt_of_readComma h

end Steps

/-- Takes steps to the end of the text or to the first fault.  Every step decreases the
measure, so one of the two is reached. -/
def run (limit : Option Nat) (reading : Reading) : Except ParseError Mask :=
  match _h : reading.step limit with
  | .next reading' => reading'.run limit
  | .accept mask => .ok mask
  | .reject error => .error error
termination_by reading.measure
decreasing_by exact measure_lt_of_step ‹_›

end Reading

/-- The mask that a text denotes.  A blank text denotes the empty mask; `limit`, if given, is how
many subtrees may be nested inside each other. -/
def parse (limit : Option Nat) (text : String) : Except ParseError Mask :=
  if text.toList.all isBlank then .ok .empty else (Reading.start text).run limit

end FieldMask.Expression
