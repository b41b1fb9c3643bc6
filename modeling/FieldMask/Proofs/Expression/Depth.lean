import FieldMask.Proofs.Expression.Building
import FieldMask.Proofs.Expression.Completeness
import FieldMask.Proofs.Mask.Nesting

namespace FieldMask.Expression

/-!
# The limit on nesting

With a limit the parser accepts the texts that it accepts without one, as far as their masks are
nested no deeper.

* `Reading.spread` — the nesting of all that has been read; `Reading.Builds.spread_eq` — how a step
  changes it.
* `Reading.step_some_eq_or` — where a limit makes a difference.
* `Reads.run_some_eq_ok_iff`, `parse_eq_ok_iff_nesting_le` — a run, and a whole text, with a limit.
-/

/-- The nesting of the levels around the open subtrees, counted from the root. -/
def enclosingSpread : List OpenSubtree → Nat
  | [] => 0
  | subtree :: enclosing =>
    max (subtree.outer.fields.nesting + enclosing.length) (enclosingSpread enclosing)

namespace Reading

/-- The nesting of all that has been read, counted from the root. -/
def spread (reading : Reading) : Nat :=
  max (reading.level.fields.nesting + reading.depth) (enclosingSpread reading.enclosing)

/-- The place where a reading stands is itself one of its levels. -/
theorem depth_le_spread (reading : Reading) : reading.depth ≤ reading.spread :=
  Nat.le_trans (Nat.le_add_left ..) (Nat.le_max_left ..)

variable {limit : Option Nat} {reading reading' : Reading} {n : Nat}

/-- A field that is inserted into a level adds its own nesting. -/
theorem nesting_of_insert? {level level' : Mask} {name : String} {node : Node Mask}
    (h : level.insert? name node = .ok level') :
    level'.fields.nesting = max node.raw.nesting level.fields.nesting := by
  obtain ⟨hname, rfl⟩ := Mask.insert?_eq_ok_iff.1 h
  have hfields : level.fields.find? name = none := by
    rw [← Mask.raw_find?, hname, Option.map_none]
  exact Fields.nesting_insert hfields

/-- Only a subtree adds to the nesting of what has been read: an empty level when it is opened, and
nothing any more when it is closed. -/
theorem Builds.spread_eq (h : reading.Builds limit reading') :
    reading'.spread = max reading.spread reading'.depth := by
  -- The depth that is counted is the number of open subtrees, on both sides of the step.
  have hdepth := reading.depth_eq
  have hdepth' := reading'.depth_eq
  -- A plain entry and a step within a level add nothing, opening a subtree adds the depth of the
  -- new level, and closing one moves what was counted into the level around it.
  cases h with
  | keeps hlevel henclosing =>
    rw [henclosing] at hdepth'
    rw [spread, spread, hlevel, henclosing]
    omega
  | @opens name polarity _ _ henclosing hlevel =>
    have hempty : reading'.level.fields.nesting = 0 := by
      rw [hlevel]
      rfl
    have houter : enclosingSpread (⟨name, polarity, reading.level⟩ :: reading.enclosing) =
        max (reading.level.fields.nesting + reading.enclosing.length)
          (enclosingSpread reading.enclosing) := rfl
    rw [henclosing, List.length_cons] at hdepth'
    rw [spread, spread, hempty, henclosing, houter]
    omega
  | plain _ henclosing hinsert =>
    have hleaf : reading'.level.fields.nesting = reading.level.fields.nesting :=
      (nesting_of_insert? hinsert).trans (Nat.zero_max _)
    rw [henclosing] at hdepth'
    rw [spread, spread, hleaf, henclosing]
    omega
  | @nested subtree _ henclosing hinsert =>
    have hnesting : reading'.level.fields.nesting =
        max (reading.level.fields.nesting + 1) subtree.outer.fields.nesting :=
      nesting_of_insert? hinsert
    rw [henclosing, List.length_cons] at hdepth
    rw [spread, spread, hnesting, henclosing, enclosingSpread]
    omega

/-- A step opens a subtree only if there is room for it. -/
theorem Builds.depth_le (h : reading.Builds (some n) reading') (hle : reading.depth ≤ n) :
    reading'.depth ≤ n := by
  have hdepth := reading.depth_eq
  have hdepth' := reading'.depth_eq
  -- Only opening a subtree adds a level, and there the limit was asked.
  cases h with
  | keeps _ henclosing =>
    rw [henclosing] at hdepth'
    omega
  | opens _ hroom henclosing _ =>
    have hlt : reading.depth < n := by simpa using hroom
    rw [henclosing, List.length_cons] at hdepth'
    omega
  | plain _ henclosing _ =>
    rw [henclosing] at hdepth'
    omega
  | nested _ henclosing _ =>
    rw [henclosing, List.length_cons] at hdepth
    omega

/-- A limit makes a difference only at a subtree for which it leaves no room. -/
theorem step_some_eq_or (reading : Reading) (n : Nat) :
    reading.step (some n) = reading.step none ∨
      n ≤ reading.depth ∧
        (∃ offset, reading.step (some n) = .reject ⟨.depthExceeded n, offset⟩) ∧
        ∃ reading', reading.step none = .next reading' ∧ reading'.depth = reading.depth + 1 := by
  -- Only the phase that opens a subtree asks for the limit.
  cases hphase : reading.phase with
  | opening name polarity =>
    simp only [step, hphase, readOpening]
    by_cases hpeek : reading.cursor.skipBlanks.peek? = some '('
    · rw [if_pos hpeek, if_pos hpeek]
      by_cases hfull : n ≤ reading.depth
      · have hlimit : (some n).filter (· ≤ reading.depth) = some n := by simp [hfull]
        rw [hlimit]
        exact Or.inr ⟨hfull, ⟨_, rfl⟩, _, rfl, rfl⟩
      · have hlimit : (some n).filter (· ≤ reading.depth) = none := by simpa using hfull
        rw [hlimit]
        exact Or.inl rfl
    · rw [if_neg hpeek, if_neg hpeek]
      exact Or.inl rfl
  | entry =>
    left
    simp only [step, hphase]
  | afterName name polarity =>
    left
    simp only [step, hphase]
  | closing =>
    left
    simp only [step, hphase]
  | comma =>
    left
    simp only [step, hphase]

end Reading

namespace Reads

variable {limit : Option Nat} {cs : List Char} {reading reading' : Reading} {n : Nat} {mask : Mask}

/-- What is accepted is all that has been read. -/
theorem spread_eq_of_accept (hstep : reading.step limit = .accept mask) :
    reading.spread = mask.fields.nesting := by
  obtain ⟨-, -, henclosing, rfl⟩ := Reading.step_eq_accept hstep
  have hdepth := reading.depth_eq
  rw [henclosing, List.length_nil] at hdepth
  rw [Reading.spread, henclosing, hdepth, enclosingSpread, Nat.max_zero, Nat.add_zero]

/-- What has been read is in the mask that a run ends with. -/
theorem spread_le_of_run (h : Reads cs reading) (hrun : reading.run limit = .ok mask) :
    reading.spread ≤ mask.fields.nesting := by
  -- The nesting of what has been read never falls along a run.
  induction reading using Reading.run.induct limit with
  | case1 reading reading' hstep ih =>
    rw [Reading.run_of_step_eq_next hstep] at hrun
    have hspread := (h.builds hstep).spread_eq
    have hle := ih (h.step hstep) hrun
    omega
  | case2 reading mask' hstep =>
    rw [Reading.run_of_step_eq_accept hstep] at hrun
    cases hrun
    exact Nat.le_of_eq (spread_eq_of_accept hstep)
  | case3 reading error hstep =>
    rw [Reading.run_of_step_eq_reject hstep] at hrun
    cases hrun

/-- A run with a limit is accepted if it is without one and its mask keeps the limit.  The
induction is on the run with the limit. -/
theorem run_some_eq_ok_iff (h : Reads cs reading) (hspread : reading.spread ≤ n) :
    reading.run (some n) = .ok mask ↔ reading.run none = .ok mask ∧ mask.fields.nesting ≤ n := by
  -- Along the run with the limit both runs make the same steps, and what has been read keeps the
  -- limit; they part only where the limit leaves no room.
  induction reading using Reading.run.induct (some n) with
  | case1 reading reading' hstep ih =>
    rcases reading.step_some_eq_or n with hsame | ⟨-, ⟨_, hreject⟩, -⟩
    · have hbuilds := h.builds hstep
      have hdepth := hbuilds.depth_le (Nat.le_trans reading.depth_le_spread hspread)
      have hspread' : reading'.spread ≤ n := by
        rw [hbuilds.spread_eq]
        exact Nat.max_le.2 ⟨hspread, hdepth⟩
      rw [Reading.run_of_step_eq_next hstep, Reading.run_of_step_eq_next (hsame.symm.trans hstep)]
      exact ih (h.step hstep) hspread'
    · rw [hreject] at hstep
      cases hstep
  | case2 reading mask' hstep =>
    rcases reading.step_some_eq_or n with hsame | ⟨-, ⟨_, hreject⟩, -⟩
    · rw [Reading.run_of_step_eq_accept hstep,
        Reading.run_of_step_eq_accept (hsame.symm.trans hstep)]
      constructor
      · intro hmask
        cases hmask
        exact ⟨rfl, spread_eq_of_accept hstep ▸ hspread⟩
      · exact And.left
    · rw [hreject] at hstep
      cases hstep
  | case3 reading error hstep =>
    rw [Reading.run_of_step_eq_reject hstep]
    refine iff_of_false (by rintro ⟨⟩) ?_
    rintro ⟨hrun, hnesting⟩
    rcases reading.step_some_eq_or n with hsame | ⟨hfull, -, reading', hnext, hdepth⟩
    · rw [Reading.run_of_step_eq_reject (hsame.symm.trans hstep)] at hrun
      cases hrun
    · -- The subtree for which there is no room would be in the mask.
      rw [Reading.run_of_step_eq_next hnext] at hrun
      have hle := (h.step hnext).spread_le_of_run hrun
      have hdepth' := reading'.depth_le_spread
      omega

end Reads

/-- **With a limit** a text is accepted if it is without one and its mask is nested no
deeper.  Both runs make the same steps up to the first subtree for which there is no room,
and that subtree would be in the mask. -/
theorem parse_eq_ok_iff_nesting_le (limit : Option Nat) (text : String) (mask : Mask) :
    parse limit text = .ok mask ↔
      parse none text = .ok mask ∧ ∀ n, limit = some n → mask.fields.nesting ≤ n := by
  match limit with
  | none => simp
  | some n =>
    have hlimit : (∀ m, some n = some m → mask.fields.nesting ≤ m) ↔ mask.fields.nesting ≤ n := by
      simp
    rw [hlimit, parse, parse]
    -- A blank text is accepted under every limit.
    by_cases hblank : text.toList.all isBlank = true
    · rw [if_pos hblank, if_pos hblank]
      constructor
      · intro hmask
        cases hmask
        exact ⟨rfl, Nat.zero_le n⟩
      · exact And.left
    · rw [if_neg hblank, if_neg hblank]
      exact (Reads.start text).run_some_eq_ok_iff (Nat.zero_le n)

end FieldMask.Expression
