import FieldMask.Datum.Basic
import FieldMask.Json.Byte
import FieldMask.Json.Quoted

namespace FieldMask

/-!
# Data from JSON text

A value in a text can be read in two ways.  Whoever wants its content visits it: containers are
entered, at most 127 of them inside each other, strings decoded and numbers told apart by size.
Whoever does not want it skips it: nesting is free and strings are only looked through.  A datum
holds what a visit sees; what follows a member is where skipping its value leads, so that a member
nobody visits hides what is wrong inside of it only if it can be skipped.

* `JsonText.skip` — what follows a value that is skipped.
* `JsonText.visit` — the datum of a value that is visited, and what follows the value; `Visited` —
  the two together.
-/

namespace JsonText

/-- What follows the spaces at the start of a text. -/
def dropSpaces (bytes : List UInt8) : List UInt8 := bytes.dropWhile JsonByte.isSpace

/-- Behind spaces there is no more left of a text. -/
theorem length_dropSpaces_le (bytes : List UInt8) : (dropSpaces bytes).length ≤ bytes.length :=
  (List.dropWhile_sublist _).length_le

/-- A byte that stands behind spaces is one of the text's, and what follows it is shorter by
one. -/
theorem length_le_of_dropSpaces {bytes rest : List UInt8} {b : UInt8}
    (h : dropSpaces bytes = b :: rest) : rest.length + 1 ≤ bytes.length := by
  have hle := length_dropSpaces_le bytes
  rwa [h] at hle

/-- What follows the letters of a word.  A text that ends inside of the word breaks off;
another byte in it is a mistake. -/
def dropWord (word : List Char) (bytes : List UInt8) : Except TextFault (List UInt8) :=
  match word, bytes with
  | [], bytes => .ok bytes
  | _ :: _, [] => .error .truncated
  | letter :: word, b :: bytes =>
    if Char.ofUInt8 b = letter then dropWord word bytes else .error .malformed

/-- Behind a word there is no more left of a text.  Each letter that is found there is one
byte less. -/
theorem length_of_dropWord {word : List Char} {bytes rest : List UInt8}
    (h : dropWord word bytes = .ok rest) : rest.length ≤ bytes.length := by
  induction word generalizing bytes with
  | nil => cases h; exact Nat.le_refl _
  | cons letter word ih =>
    cases bytes with
    | nil => cases h
    | cons b bytes =>
      unfold dropWord at h
      split at h
      · exact Nat.le_succ_of_le (ih h)
      · cases h

/-- The numeral at the start of a text, and what follows it.  `atEnd` is the fault of a text that
ends inside of the numeral. -/
def readNumeral (atEnd : TextFault) (bytes : List UInt8) :
    Except TextFault (List Char × List UInt8) :=
  let run := bytes.takeWhile JsonByte.inNumeral
  let after := bytes.dropWhile JsonByte.inNumeral
  match Numeral.drop (run.map Char.ofUInt8) with
  | .ok left =>
    let count := run.length - left.length
    .ok ((run.take count).map Char.ofUInt8, run.drop count ++ after)
  | .error gap => .error (if gap.rest = [] ∧ after = [] then atEnd else .malformed)

/-! ### Skipping -/

/-- What comes next of a value that is skipped.  It is the state of a small machine; the
containers that are open stand beside it. -/
inductive SkipPhase where
  /-- A value. -/
  | value
  /-- The first part of a container, or its end. -/
  | first (container : Container)
  /-- A member's name and its colon. -/
  | name
  /-- What follows a value. -/
  | after

/-- A value that is skipped, up to some place: what comes next, the containers left open and the
text there. -/
structure Skipping where
  phase : SkipPhase
  containers : List Container
  rest : List UInt8

/-- What a part of a container begins with. -/
def SkipPhase.part : Container → SkipPhase
  | .array => .value
  | .object => .name

/-- The bracket that ends a container. -/
def closing : Container → Char
  | .array => ']'
  | .object => '}'

/-- Skips a scalar that begins with a given byte.  A string literal is passed over without
being read; a number is read and dropped. -/
def skipScalar (b : UInt8) (rest : List UInt8) : Except TextFault (List UInt8) :=
  match Char.ofUInt8 b with
  | '"' => Quoted.skip rest
  | 't' => dropWord "rue".toList rest
  | 'f' => dropWord "alse".toList rest
  | 'n' => dropWord "ull".toList rest
  | c =>
    if c = '-' ∨ c.isDigit then (readNumeral .malformed (b :: rest)).map (·.2)
    else .error .malformed

/-- What a step of skipping leads to: a place further on, or what follows the whole value. -/
inductive SkipOutcome where
  | next (state : Skipping)
  | done (rest : List UInt8)

namespace Skipping

/-- Skips what a value begins with: the bracket of a container, or all of a scalar.  A
container is only opened here, so that no step goes into it. -/
def stepAtValue (containers : List Container) (b : UInt8) (rest : List UInt8) :
    Except TextFault Skipping :=
  match Char.ofUInt8 b with
  | '[' => .ok ⟨.first .array, .array :: containers, rest⟩
  | '{' => .ok ⟨.first .object, .object :: containers, rest⟩
  | _ => (skipScalar b rest).map fun rest => ⟨.after, containers, rest⟩

/-- Ends a container that is empty; else only says what its first part is, and skips nothing. -/
def stepAtFirst (container : Container) (containers : List Container) (b : UInt8)
    (rest : List UInt8) : Skipping :=
  if Char.ofUInt8 b = closing container then ⟨.after, containers.tail, rest⟩
  else ⟨.part container, containers, b :: rest⟩

/-- Skips a member's name and the colon behind it.  The value behind the colon is left to
the next step. -/
def stepAtName (containers : List Container) (b : UInt8) (rest : List UInt8) :
    Except TextFault Skipping :=
  if b = Quoted.quote then
    match Quoted.skip rest with
    | .error fault => .error fault
    | .ok rest =>
      match dropSpaces rest with
      | [] => .error .truncated
      | b :: rest => if b = 0x3A then .ok ⟨.value, containers, rest⟩ else .error .malformed
  else .error .malformed

/-- Skips the comma behind a part of a container, or the container's end. -/
def stepAfter (container : Container) (containers : List Container) (b : UInt8)
    (rest : List UInt8) : Except TextFault Skipping :=
  if b = 0x2C then .ok ⟨.part container, container :: containers, rest⟩
  else if Char.ofUInt8 b = closing container then .ok ⟨.after, containers, rest⟩
  else .error .malformed

/-- One step of skipping.  Behind the whole value the text may end or go on with
anything.  What comes next is told by the phase, and where nothing is left of the text
it breaks off. -/
def step (state : Skipping) : Except TextFault SkipOutcome :=
  match state.phase, state.containers, dropSpaces state.rest with
  | .after, [], _ => .ok (.done state.rest)
  | _, _, [] => .error .truncated
  | .value, containers, b :: rest => (stepAtValue containers b rest).map .next
  | .first container, containers, b :: rest => .ok (.next (stepAtFirst container containers b rest))
  | .name, containers, b :: rest => (stepAtName containers b rest).map .next
  | .after, container :: containers, b :: rest => (stepAfter container containers b rest).map .next

end Skipping

/-! ### Skipping comes to an end -/

/-- A numeral takes at least one byte.  What was taken as part of the run and is not part of
the numeral is put back in front of the rest. -/
theorem length_of_readNumeral {atEnd : TextFault} {bytes rest : List UInt8} {cs : List Char}
    (h : readNumeral atEnd bytes = .ok (cs, rest)) : rest.length < bytes.length := by
  unfold readNumeral at h
  dsimp only at h
  split at h
  next left hdrop =>
    have hlt := Numeral.length_of_drop hdrop
    -- The run and what follows it are the whole text, and the numeral is part of the run.
    have hsplit := congrArg List.length
      (List.takeWhile_append_dropWhile (p := JsonByte.inNumeral) (l := bytes))
    simp only [Except.ok.injEq, Prod.mk.injEq] at h
    rw [← h.2]
    simp only [List.length_map, List.length_append, List.length_drop] at hlt hsplit ⊢
    omega
  · cases h

/-- Behind a scalar there is no more left of a text.  The byte that it begins with has been
taken before. -/
theorem length_of_skipScalar {b : UInt8} {bytes rest : List UInt8}
    (h : skipScalar b bytes = .ok rest) : rest.length ≤ bytes.length := by
  unfold skipScalar at h
  split at h
  · exact Nat.le_of_lt (Quoted.length_of_skip h)
  · exact length_of_dropWord h
  · exact length_of_dropWord h
  · exact length_of_dropWord h
  · split at h
    · cases hread : readNumeral .malformed (b :: bytes) with
      | error => rw [hread] at h; cases h
      | ok pair =>
        rw [hread] at h
        cases h
        exact Nat.le_of_lt_succ (length_of_readNumeral hread)
    · cases h

namespace Skipping

/-- The quantity that every step decreases. -/
def measure (state : Skipping) : Nat :=
  2 * state.rest.length + match state.phase with
    | .first _ => 1
    | _ => 0

/-- The start of any part of a container has read nothing ahead. -/
theorem measure_part (container : Container) (containers : List Container) (rest : List UInt8) :
    (Skipping.mk (.part container) containers rest).measure = 2 * rest.length := by
  cases container <;> rfl

section Steps

variable {container : Container} {containers : List Container} {b : UInt8} {rest : List UInt8}
  {state state' : Skipping}

/-- A bracket or a scalar takes at least the byte that it begins with.  The measure counts
every byte twice, so that the phase behind a bracket may weigh one more. -/
theorem measure_lt_of_stepAtValue (h : stepAtValue containers b rest = .ok state') :
    state'.measure < 2 * (rest.length + 1) := by
  unfold stepAtValue at h
  split at h
  · cases h
    simp only [measure]
    omega
  · cases h
    simp only [measure]
    omega
  · cases hscalar : skipScalar b rest with
    | error fault =>
      rw [hscalar] at h
      cases h
    | ok behind =>
      have hbehind := length_of_skipScalar hscalar
      rw [hscalar] at h
      cases h
      simp only [measure]
      omega

/-- The end of an empty container takes a byte.  Nothing is read of its first part, but the phase
that reads it adds nothing to the measure. -/
theorem measure_stepAtFirst_le (container : Container) (containers : List Container) (b : UInt8)
    (rest : List UInt8) :
    (stepAtFirst container containers b rest).measure ≤ 2 * (rest.length + 1) := by
  unfold stepAtFirst
  split
  · simp only [measure]
    omega
  · rw [measure_part]
    exact Nat.le_refl _

/-- A name takes its quotation marks at least, and the colon comes on top.  Only one of the
four ways through the reader goes on. -/
theorem measure_lt_of_stepAtName (h : stepAtName containers b rest = .ok state') :
    state'.measure < 2 * (rest.length + 1) := by
  unfold stepAtName at h
  split at h
  · split at h
    · cases h
    next behind hname =>
      have hbehind := Quoted.length_of_skip hname
      split at h
      · cases h
      next hcolon =>
        have hvalue := length_le_of_dropSpaces hcolon
        split at h
        · cases h
          simp only [measure]
          omega
        · cases h
  · cases h

/-- A comma takes a byte, and so does the end of a container. -/
theorem measure_lt_of_stepAfter (h : stepAfter container containers b rest = .ok state') :
    state'.measure < 2 * (rest.length + 1) := by
  unfold stepAfter at h
  split at h
  · cases h
    rw [measure_part]
    omega
  · split at h
    · cases h
      simp only [measure]
      omega
    · cases h

/-- What the step of a phase leads to, if it leads to a place further on. -/
theorem eq_ok_of_map_next {result : Except TextFault Skipping}
    (h : result.map SkipOutcome.next = .ok (.next state')) : result = .ok state' := by
  cases result with
  | error => cases h
  | ok => exact congrArg Except.ok (SkipOutcome.next.inj (Except.ok.inj h))

/-- The step of a phase never leads to the end of the whole value. -/
theorem map_next_ne_done (result : Except TextFault Skipping) :
    result.map SkipOutcome.next ≠ .ok (.done rest) := by
  cases result <;> nofun

/-- Every step decreases the measure.  All but one take a byte; the one that only says what the first
part of a container is leaves the phase that the measure counts for itself. -/
theorem measure_lt_of_step (h : state.step = .ok (.next state')) :
    state'.measure < state.measure := by
  obtain ⟨phase, containers, bytes⟩ := state
  unfold step at h
  dsimp only at h
  split at h
  · cases h
  · cases h
  next hspaces =>
    have hbytes := length_le_of_dropSpaces hspaces
    have hvalue := measure_lt_of_stepAtValue (eq_ok_of_map_next h)
    simp only [measure] at hvalue ⊢
    omega
  next hspaces =>
    have hbytes := length_le_of_dropSpaces hspaces
    cases h
    refine Nat.lt_of_le_of_lt (measure_stepAtFirst_le ..) ?_
    show 2 * (_ + 1) < 2 * bytes.length + 1
    omega
  next hspaces =>
    have hbytes := length_le_of_dropSpaces hspaces
    have hname := measure_lt_of_stepAtName (eq_ok_of_map_next h)
    simp only [measure] at hname ⊢
    omega
  next hspaces =>
    have hbytes := length_le_of_dropSpaces hspaces
    have hafter := measure_lt_of_stepAfter (eq_ok_of_map_next h)
    simp only [measure] at hafter ⊢
    omega

end Steps

/-- Skips to the end of the value.  Every step takes some of the text or, at the same place,
leads from the beginning of a container to its first part, which the measure counts. -/
def run (state : Skipping) : Except TextFault (List UInt8) :=
  match _h : state.step with
  | .error fault => .error fault
  | .ok (.done rest) => .ok rest
  | .ok (.next state') => state'.run
termination_by state.measure
decreasing_by exact measure_lt_of_step ‹_›

/-- The whole value ends where one has ended inside of no container, and nothing is read
there.  In every other phase a step goes on or fails. -/
theorem of_step_eq_done {state : Skipping} {rest : List UInt8}
    (h : state.step = .ok (.done rest)) : state.phase = .after ∧ rest = state.rest := by
  unfold step at h
  split at h
  next hphase _ =>
    cases h
    exact ⟨hphase, rfl⟩
  · cases h
  · exact absurd h (map_next_ne_done _)
  · cases h
  · exact absurd h (map_next_ne_done _)
  · exact absurd h (map_next_ne_done _)

/-- What follows a skipped value is part of what there was before it, so the measure bounds it. -/
theorem length_of_run {state : Skipping} {rest : List UInt8} (h : state.run = .ok rest) :
    2 * rest.length ≤ state.measure := by
  fun_induction run state with
  | case1 => cases h
  | case2 state _ hstep =>
    cases h
    rw [(of_step_eq_done hstep).2]
    exact Nat.le_add_right ..
  | case3 state state' hstep ih =>
    exact Nat.le_of_lt (Nat.lt_of_le_of_lt (ih h) (measure_lt_of_step hstep))

end Skipping

/-- What follows a value that is skipped. -/
def skip (bytes : List UInt8) : Except TextFault (List UInt8) :=
  Skipping.run ⟨.value, [], bytes⟩

/-- What is skipped from a value or a member's name on takes at least one byte. -/
theorem Skipping.length_lt_of_run {phase : SkipPhase} {containers : List Container}
    {bytes rest : List UInt8} (hphase : phase = .value ∨ phase = .name)
    (h : Skipping.run ⟨phase, containers, bytes⟩ = .ok rest) : rest.length < bytes.length := by
  unfold Skipping.run at h
  split at h
  · cases h
  next hstep =>
    -- Neither a value nor a name is where the whole value has ended.
    have hafter : phase = .after := (Skipping.of_step_eq_done hstep).1
    rcases hphase with rfl | rfl <;> cases hafter
  next state' hstep =>
    have h₁ := Skipping.length_of_run h
    have h₂ := Skipping.measure_lt_of_step hstep
    have h₃ : (Skipping.mk phase containers bytes).measure = 2 * bytes.length := by
      rcases hphase with rfl | rfl <;> rfl
    omega

/-- What follows some bytes at the start of a text. -/
abbrev Remainder (bytes : List UInt8) := { rest : List UInt8 // rest.length < bytes.length }

/-- What follows a value that is skipped, as a remainder. -/
def skipValue (bytes : List UInt8) : Except TextFault (Remainder bytes) :=
  match h : skip bytes with
  | .error fault => .error fault
  | .ok rest => .ok ⟨rest, Skipping.length_lt_of_run (.inl rfl) h⟩

/-- What follows an object that is skipped from a member's name on. -/
def skipMembers (bytes : List UInt8) : Except TextFault (Remainder bytes) :=
  match h : Skipping.run ⟨.name, [.object], bytes⟩ with
  | .error fault => .error fault
  | .ok rest => .ok ⟨rest, Skipping.length_lt_of_run (.inr rfl) h⟩

/-! ### Visiting -/

/-- How many containers may be visited inside each other. -/
def maxDepth : Nat := 127

/-- The integer that a numeral without fraction and exponent denotes. -/
def integer? (cs : List Char) : Option Int :=
  match cs with
  | '-' :: digits => if digits.all Char.isDigit then some (-(digitsValue digits : Int)) else none
  | digits => if digits.all Char.isDigit then some (digitsValue digits) else none

/-- Whether an integer fits 64 bits, of which one is the sign if it is written with a minus. -/
def fitsWord (value : Int) (signed : Bool) : Bool :=
  if signed then -(Nat.pow 2 63 : Int) ≤ value else value < (Nat.pow 2 64 : Int)

/-- The datum of a numeral: a whole number if it fits 64 bits, else the text itself. -/
def ofNumeral (cs : List Char) : Datum :=
  match integer? cs with
  | some value =>
    if fitsWord value (cs.head? == some '-') then .integer value else .numeral (String.ofList cs)
  | none => .numeral (String.ofList cs)

/-- The datum that follows a word. -/
def ofWord (word : List Char) (rest : List UInt8) (datum : Datum) : Datum :=
  match dropWord word rest with
  | .ok _ => datum
  | .error fault => .broken fault

/-- The datum of a scalar that begins with a given byte.  Only a text that begins a scalar
can break off: any other byte is a mistake at once. -/
def visitScalar (b : UInt8) (rest : List UInt8) : Datum :=
  match Char.ofUInt8 b with
  | '"' =>
    match Quoted.readString rest with
    | .ok (value, _) => .text value
    | .error fault => .broken fault
  | 't' => ofWord "rue".toList rest (.bool true)
  | 'f' => ofWord "alse".toList rest (.bool false)
  | 'n' => ofWord "ull".toList rest .null
  | c =>
    if c = '-' ∨ c.isDigit then
      match readNumeral .truncated (b :: rest) with
      | .ok (cs, _) => ofNumeral cs
      | .error fault => .broken fault
    else .broken .malformed

/-- What a visit has seen, and what follows it: the place where skipping leads, so that no text is
looked through once more for every container around it. -/
structure Visited (α : Type) (bytes : List UInt8) where
  seen : α
  after : Except TextFault (Remainder bytes)

/-- A visit that ends where another one, further on in the text, ends. -/
def Visited.map {α β : Type} {bytes part : List UInt8} (h : part.length ≤ bytes.length)
    (f : α → β) (visited : Visited α part) : Visited β bytes :=
  ⟨f visited.seen, visited.after.map fun rest => ⟨rest.1, Nat.lt_of_lt_of_le rest.2 h⟩⟩

/-- A visit that has not come to an end. -/
def Visited.failed {α : Type} {bytes : List UInt8} (seen : α) (fault : TextFault) :
    Visited α bytes :=
  ⟨seen, .error fault⟩

mutual

/-- The datum of the value at the start of a text, if so many containers more may be
entered.  Where none may be, a container is not looked into but skipped. -/
def visit (depth : Nat) (bytes : List UInt8) : Visited Datum bytes :=
  match _h : dropSpaces bytes with
  | [] => .failed (.broken .truncated) .truncated
  | b :: rest =>
    have hrest : rest.length < bytes.length := length_le_of_dropSpaces ‹_›
    match Char.ofUInt8 b, depth with
    | '[', 0 => ⟨.tooDeep .array, skipValue bytes⟩
    | '{', 0 => ⟨.tooDeep .object, skipValue bytes⟩
    | '[', depth + 1 => (visitItems true depth rest).map (Nat.le_of_lt hrest) .sequence
    | '{', depth + 1 => (visitEntries true depth rest).map (Nat.le_of_lt hrest) .map
    | _, _ => ⟨visitScalar b rest, skipValue bytes⟩
termination_by 3 * bytes.length + 0

/-- The items at the start of a text: all of them if none came before, else those behind a
comma.  What is seen up to a fault is kept in front of it. -/
def visitItems (isFirst : Bool) (depth : Nat) (bytes : List UInt8) : Visited Items bytes :=
  match _h : dropSpaces bytes with
  | [] => .failed (.broken .truncated) .truncated
  | b :: rest =>
    have hrest : rest.length < bytes.length := length_le_of_dropSpaces ‹_›
    if Char.ofUInt8 b = ']' then ⟨.done, .ok ⟨rest, hrest⟩⟩
    else if isFirst then (visitItem depth (b :: rest)).map (by exact hrest) id
    else if b = 0x2C then
      match _h : dropSpaces rest with
      | [] => .failed (.broken .truncated) .truncated
      | c :: more =>
        have hmore : more.length < rest.length := length_le_of_dropSpaces ‹_›
        -- An array does not end behind a comma.
        if Char.ofUInt8 c = ']' then .failed (.broken .malformed) .malformed
        else (visitItem depth (c :: more)).map (Nat.le_of_lt (Nat.lt_of_le_of_lt hmore hrest)) id
    else .failed (.broken .malformed) .malformed
termination_by 3 * bytes.length + 2

/-- An item at the start of a text and those behind it.  If skipping the item fails, nothing
behind it can be seen, and the fault stands in its place. -/
def visitItem (depth : Nat) (bytes : List UInt8) : Visited Items bytes :=
  match visit depth bytes with
  | ⟨value, .error fault⟩ => .failed (.item value (.broken fault)) fault
  | ⟨value, .ok ⟨rest, hrest⟩⟩ =>
    (visitItems false depth rest).map (Nat.le_of_lt hrest) (.item value)
termination_by 3 * bytes.length + 1

/-- The entries at the start of a text: all of them if none came before, else those behind a
comma. -/
def visitEntries (isFirst : Bool) (depth : Nat) (bytes : List UInt8) : Visited Entries bytes :=
  match _h : dropSpaces bytes with
  | [] => .failed (.broken .truncated false) .truncated
  | b :: rest =>
    have hrest : rest.length < bytes.length := length_le_of_dropSpaces ‹_›
    if Char.ofUInt8 b = '}' then ⟨.done, .ok ⟨rest, hrest⟩⟩
    else if isFirst then (visitEntry false depth (b :: rest)).map (by exact hrest) id
    else if b = 0x2C then
      match _h : dropSpaces rest with
      | [] => .failed (.broken .truncated true) .truncated
      | c :: more =>
        have hmore : more.length < rest.length := length_le_of_dropSpaces ‹_›
        (visitEntry true depth (c :: more)).map (Nat.le_of_lt (Nat.lt_of_le_of_lt hmore hrest)) id
    else .failed (.broken .malformed false) .malformed
termination_by 3 * bytes.length + 2

/-- An entry at the start of a text and those behind it.  Whether a comma stands in front is
remembered, since behind the one entry of a number a comma is a mistake already, whatever
follows it. -/
def visitEntry (behindComma : Bool) (depth : Nat) (bytes : List UInt8) : Visited Entries bytes :=
  match bytes with
  | [] => .failed (.broken .truncated behindComma) .truncated
  | b :: rest =>
    if b = Quoted.quote then
      match _h : Quoted.readString rest with
      | .error fault => ⟨.broken fault behindComma, skipMembers (b :: rest)⟩
      | .ok (key, more) =>
        have hmore : more.length < rest.length := Quoted.length_of_readString ‹_›
        match _h : dropSpaces more with
        -- The key has been seen by now: a missing colon is a fault of its value.
        | [] => .failed (.entry key (.broken .truncated) (.broken .truncated false)) .truncated
        | c :: value =>
          have hvalue : value.length < more.length := length_le_of_dropSpaces ‹_›
          if c = 0x3A then
            match visit depth value with
            | ⟨datum, .error fault⟩ => .failed (.entry key datum (.broken fault false)) fault
            | ⟨datum, .ok ⟨after, hafter⟩⟩ =>
              have hle : after.length ≤ (b :: rest).length := by
                simp only [List.length_cons]
                omega
              (visitEntries false depth after).map hle (.entry key datum)
          else .failed (.entry key (.broken .malformed) (.broken .malformed false)) .malformed
    else .failed (.broken .malformed behindComma) .malformed
termination_by 3 * bytes.length + 1

end

end JsonText

end FieldMask
