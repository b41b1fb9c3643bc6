import FieldMask.CommandLine.FileTree

namespace FieldMask.CommandLine

/-!
# Where a path leads

A path is followed name by name, but where it leads can be said without following it.  Its names
resolve to a place, which is a list of real names from the root on: a dot stays, two dots go back,
any other name goes on.  What stands at that place is what the path leads to, provided that every
name of the path is looked up in a directory and none of them is too long.

* `FileTree.at?` — what stands at a place; `resolve` — the place that some names lead to.
* `FileTree.Passable` — names of which none is in the way; `FileTree.Blocks` — one that is, and why.
* `FileTree.step_cases` — one name; `FileTree.foldlM_step_cases` — some names.
* `FileTree.Leads`, `FileTree.Fails` — where a path leads, and why it leads nowhere;
  `FileTree.follow?_cases` — one of the two is what following it comes to.
* `Input.ofTree_delivers` — what is found where a path leads.
* `Invocation.run_of_content`, `Invocation.run_of_unopened` — what a command comes to that is to
  project an input, by what is found there; `Invocation.run_ofTree` — on a tree of files.
-/

namespace FileTree

/-! ### Places -/

/-- What a directory holds under a name. -/
def child? (name : String) : FileTree → Option FileTree
  | file _ => none
  | directory entries => entries.lookup name

/-- What stands at a place, which is given by the names that lead to it, the last one first. -/
def at? (root : FileTree) : List String → Option FileTree
  | [] => some root
  | name :: place => (root.at? place).bind (child? name)

/-- Whether a name is that of an entry: neither nothing nor one or two dots. -/
def IsPlain (name : String) : Prop := name ≠ "" ∧ name ≠ "." ∧ name ≠ ".."

/-- The place that a name leads to from another one.  The root is its own parent. -/
def resolveName (place : List String) (name : String) : List String :=
  if name = "" ∨ name = "." then place else if name = ".." then place.tail else name :: place

/-- The place that some names lead to. -/
def resolve (place : List String) (names : List String) : List String :=
  names.foldl resolveName place

/-- A walk has come to a place: it holds what stands there, and the directories around it are those
that it has come through. -/
inductive StandsAt (root : FileTree) : List String → FileTree × List FileTree → Prop where
  | root : StandsAt root [] (root, [])
  | inside {place : List String} {entries : List (String × FileTree)} {around : List FileTree}
      {name : String} {found : FileTree} (h : StandsAt root place (.directory entries, around))
      (hfound : entries.lookup name = some found) :
      StandsAt root (name :: place) (found, .directory entries :: around)

variable {root found : FileTree} {place names : List String} {name : String}
  {state state' : FileTree × List FileTree} {fault : PathFault}

/-- What a walk holds is what stands at its place. -/
theorem StandsAt.at?_eq (h : StandsAt root place state) : root.at? place = some state.1 := by
  induction h with
  | root => rfl
  | inside _ hfound ih =>
    rw [at?, ih]
    exact hfound

/-- Wherever something stands, a walk can have come there.  The directories around it are
those on the way from the root. -/
theorem exists_standsAt (h : root.at? place = some found) :
    ∃ around, StandsAt root place (found, around) := by
  induction place generalizing found with
  | nil =>
    cases h
    exact ⟨[], .root⟩
  | cons name place ih =>
    obtain ⟨parent, hparent, hchild⟩ := Option.bind_eq_some_iff.1 h
    obtain ⟨around, hstands⟩ := ih hparent
    cases parent with
    | file _ => cases hchild
    | directory entries => exact ⟨_, hstands.inside hchild⟩

/-- The place alone tells what a walk holds.  By induction on the walk: what a directory
holds under a name is one thing. -/
theorem StandsAt.unique (h : StandsAt root place state) (h' : StandsAt root place state') :
    state = state' := by
  induction h generalizing state' with
  | root =>
    cases h'
    rfl
  | inside _ hfound ih =>
    cases h' with
    | inside hstands hfound' =>
      cases ih hstands
      rw [hfound] at hfound'
      cases hfound'
      rfl

/-! ### One name -/

/-- Why a name leads nowhere from a place. -/
inductive Blocks (root : FileTree) (place : List String) (name : String) : PathFault → Prop where
  /-- A file stands there. -/
  | notADirectory {bytes : List UInt8} (h : root.at? place = some (.file bytes)) :
      Blocks root place name .notADirectory
  /-- The name of the entry is too long. -/
  | tooLong {entries : List (String × FileTree)} (h : root.at? place = some (.directory entries))
      (hplain : IsPlain name) (hlong : maxNameBytes < name.utf8ByteSize) :
      Blocks root place name .tooLong
  /-- The directory has no such entry. -/
  | missing {entries : List (String × FileTree)} (h : root.at? place = some (.directory entries))
      (hplain : IsPlain name) (hshort : name.utf8ByteSize ≤ maxNameBytes)
      (hmissing : entries.lookup name = none) : Blocks root place name .missing

/-- A name leads on from a place: a directory stands there and, unless the name stays or goes back,
has an entry of that name. -/
def Passes (root : FileTree) (place : List String) (name : String) : Prop :=
  ∃ entries, root.at? place = some (.directory entries) ∧
    (IsPlain name → name.utf8ByteSize ≤ maxNameBytes ∧ (entries.lookup name).isSome)

/-- **One name.**  From a place that a walk has come to, a name leads on to where it resolves to, or
it leads nowhere for a reason that the place tells. -/
theorem step_cases (h : StandsAt root place state) (name : String) :
    (∃ state', step state name = .ok state' ∧ root.Passes place name ∧
      StandsAt root (resolveName place name) state') ∨
    ∃ fault, step state name = .error fault ∧ root.Blocks place name fault := by
  obtain ⟨reached, around⟩ := state
  have hat : root.at? place = some reached := h.at?_eq
  cases reached with
  | file bytes => exact .inr ⟨_, rfl, .notADirectory hat⟩
  | directory entries =>
    rw [step.eq_def, resolveName]
    dsimp only
    -- Three kinds of names, in the order in which they are told: one that stays, one that goes
    -- back, and one of an entry, which may be too long or missing.
    by_cases hstays : name = "" ∨ name = "."
    · rw [if_pos hstays, if_pos hstays]
      refine .inl ⟨_, rfl, ⟨entries, hat, fun hplain => ?_⟩, h⟩
      exact absurd hstays (not_or.2 ⟨hplain.1, hplain.2.1⟩)
    · rw [if_neg hstays, if_neg hstays]
      by_cases hback : name = ".."
      · have hpasses : root.Passes place name := ⟨entries, hat, fun hplain => absurd hback hplain.2.2⟩
        rw [if_pos hback, if_pos hback]
        cases h with
        | root => exact .inl ⟨_, rfl, hpasses, .root⟩
        | inside hstands _ => exact .inl ⟨_, rfl, hpasses, hstands⟩
      · have hplain : IsPlain name := ⟨fun hname => hstays (.inl hname),
          fun hname => hstays (.inr hname), hback⟩
        rw [if_neg hback, if_neg hback]
        by_cases hlong : maxNameBytes < name.utf8ByteSize
        · rw [if_pos hlong]
          exact .inr ⟨_, rfl, .tooLong hat hplain hlong⟩
        · rw [if_neg hlong]
          cases hfound : entries.lookup name with
          | none => exact .inr ⟨_, rfl, .missing hat hplain (Nat.le_of_not_lt hlong) hfound⟩
          | some found =>
            refine .inl ⟨_, rfl, ⟨entries, hat, fun _ => ?_⟩, h.inside hfound⟩
            exact ⟨Nat.le_of_not_lt hlong, by rw [hfound]; rfl⟩

/-- A name that is in the way does not lead on.  Each of the three reasons contradicts one
of the conditions on a name that does. -/
theorem Blocks.not_passes (h : root.Blocks place name fault) : ¬root.Passes place name := by
  rintro ⟨entries, hat, hplain⟩
  cases h with
  | notADirectory h =>
    rw [h] at hat
    cases hat
  | tooLong _ hname hlong => exact Nat.not_lt.2 (hplain hname).1 hlong
  | missing h hname _ hmissing =>
    rw [h] at hat
    cases hat
    have hsome := (hplain hname).2
    rw [hmissing] at hsome
    cases hsome

/-! ### Paths -/

/-- None of some names is in the way. -/
def Passable (root : FileTree) (place : List String) : List String → Prop
  | [] => True
  | name :: names => root.Passes place name ∧ root.Passable (resolveName place name) names

/-- One of some names is in the way, and all names before it lead on. -/
def Stops (root : FileTree) (fault : PathFault) (place : List String) : List String → Prop
  | [] => False
  | name :: names => root.Blocks place name fault ∨
      root.Passes place name ∧ root.Stops fault (resolveName place name) names

/-- Names of which one is in the way do not all lead on. -/
theorem Stops.not_passable (h : root.Stops fault place names) : ¬root.Passable place names := by
  induction names generalizing place with
  | nil => exact h.elim
  | cons name names ih =>
    rintro ⟨hpasses, hpassable⟩
    rcases h with hblocks | ⟨-, hstops⟩
    · exact hblocks.not_passes hpasses
    · exact ih hstops hpassable

/-- **Some names.**  A walk gets through them to the place that they resolve to, or the
first of them that is in the way ends it.  The induction is on the names, for every place to
begin at. -/
theorem foldlM_step_cases (h : StandsAt root place state) (names : List String) :
    (∃ state', names.foldlM step state = .ok state' ∧ root.Passable place names ∧
      StandsAt root (resolve place names) state') ∨
    ∃ fault, names.foldlM step state = .error fault ∧ root.Stops fault place names := by
  induction names generalizing place state with
  | nil => exact .inl ⟨state, rfl, trivial, h⟩
  | cons name names ih =>
    rw [List.foldlM_cons]
    rcases step_cases h name with ⟨between, hstep, hpasses, hbetween⟩ | ⟨fault, hstep, hblocks⟩
    · rw [hstep]
      rcases ih hbetween with ⟨state', hrest, hpassable, hstands⟩ | ⟨fault, hrest, hstops⟩
      · exact .inl ⟨state', hrest, ⟨hpasses, hpassable⟩, hstands⟩
      · exact .inr ⟨fault, hrest, .inr ⟨hpasses, hstops⟩⟩
    · rw [hstep]
      exact .inr ⟨fault, rfl, .inl hblocks⟩

/-- A directory is entered and left again. -/
example :
    let root : FileTree := .directory [("d", .directory []), ("a", .file [0x31])]
    ["", "d", "..", "a"].foldlM step (root, []) = .ok (.file [0x31], [root]) ∧
      root.at? (resolve [] ["", "d", "..", "a"]) = some (.file [0x31]) :=
  ⟨rfl, rfl⟩

/-- The names of a path, with those of the working directory before them if it does not begin with a
slash. -/
def pathNames (workingDirectory path : String) : List String :=
  (if path.startsWith "/" then path else workingDirectory ++ "/" ++ path).splitOn "/"

/-- A path leads to what stands at the place that its names resolve to, if it can be followed at all
and none of them is in the way. -/
structure Leads (root : FileTree) (workingDirectory path : String) (found : FileTree) : Prop where
  noNul : path.contains '\x00' = false
  short : path.utf8ByteSize ≤ maxPathBytes
  nonempty : path ≠ ""
  passable : root.Passable [] (pathNames workingDirectory path)
  at?_eq : root.at? (resolve [] (pathNames workingDirectory path)) = some found

/-- Why a path leads nowhere: it cannot be followed, or one of its names is in the way. -/
inductive Fails (root : FileTree) (workingDirectory path : String) : PathFault → Prop where
  | unexpectedNul (h : path.contains '\x00' = true) :
      Fails root workingDirectory path .unexpectedNul
  | tooLong (h : maxPathBytes < path.utf8ByteSize) : Fails root workingDirectory path .tooLong
  | empty (h : path = "") : Fails root workingDirectory path .missing
  | stops {fault : PathFault} (h : root.Stops fault [] (pathNames workingDirectory path)) :
      Fails root workingDirectory path fault

variable {workingDirectory path : String}

/-- A path that leads nowhere does not lead anywhere else. -/
theorem Fails.not_leads (h : root.Fails workingDirectory path fault) (found : FileTree) :
    ¬root.Leads workingDirectory path found := by
  intro hleads
  cases h with
  | unexpectedNul h =>
    rw [hleads.noNul] at h
    cases h
  | tooLong h => exact Nat.not_lt.2 hleads.short h
  | empty h => exact hleads.nonempty h
  | stops h => exact h.not_passable hleads.passable

/-- **A path** is followed to where it leads, or it fails for the reason that it leads
nowhere.  The path itself is looked at first, and then its names are walked through from the
root. -/
theorem follow?_cases (root : FileTree) (workingDirectory path : String) :
    (∃ found, root.follow? workingDirectory path = .ok found ∧
      root.Leads workingDirectory path found) ∨
    ∃ fault, root.follow? workingDirectory path = .error fault ∧
      root.Fails workingDirectory path fault := by
  rw [follow?]
  -- The three faults of the path itself, in the order in which they are looked for.
  by_cases hnul : path.contains '\x00' = true
  · rw [if_pos hnul]
    exact .inr ⟨_, rfl, .unexpectedNul hnul⟩
  · rw [if_neg hnul]
    by_cases hlong : maxPathBytes < path.utf8ByteSize
    · rw [if_pos hlong]
      exact .inr ⟨_, rfl, .tooLong hlong⟩
    · rw [if_neg hlong]
      by_cases hempty : path = ""
      · rw [if_pos hempty]
        exact .inr ⟨_, rfl, .empty hempty⟩
      · rw [if_neg hempty]
        show (∃ found, ((pathNames workingDirectory path).foldlM step (root, [])).map Prod.fst =
            .ok found ∧ _) ∨
          ∃ fault, ((pathNames workingDirectory path).foldlM step (root, [])).map Prod.fst =
            .error fault ∧ _
        rcases foldlM_step_cases .root (pathNames workingDirectory path) with
          ⟨state', hwalk, hpassable, hstands⟩ | ⟨fault, hwalk, hstops⟩
        · rw [hwalk]
          refine .inl ⟨state'.1, rfl, ?_⟩
          exact ⟨Bool.eq_false_iff.2 hnul, Nat.le_of_not_lt hlong, hempty, hpassable,
            hstands.at?_eq⟩
        · rw [hwalk]
          exact .inr ⟨fault, rfl, .stops hstops⟩

/-- Following a path comes to where it leads. -/
theorem follow?_of_leads (h : root.Leads workingDirectory path found) :
    root.follow? workingDirectory path = .ok found := by
  rcases follow?_cases root workingDirectory path with ⟨found', hfollow, hleads⟩ | ⟨_, -, hfails⟩
  · -- One thing only stands at a place.
    have hsame : some found' = some found := hleads.at?_eq.symm.trans h.at?_eq
    rw [hfollow, Option.some.inj hsame]
  · exact absurd h (hfails.not_leads found)

end FileTree

/-- **What is found where a path leads**: the bytes of a file, to their end; of a directory nothing
but the failure to read it; and where the path leads nowhere, the reason for that. -/
theorem Input.ofTree_delivers (root : FileTree) (workingDirectory path : String) :
    (∀ bytes, root.Leads workingDirectory path (.file bytes) →
      Input.ofTree root workingDirectory path = .content bytes .closed) ∧
    (∀ entries, root.Leads workingDirectory path (.directory entries) →
      Input.ofTree root workingDirectory path = .content [] (.failing directoryReason)) ∧
    ((∀ found, ¬root.Leads workingDirectory path found) →
      ∃ fault, root.Fails workingDirectory path fault ∧
        Input.ofTree root workingDirectory path = .unopened fault.message) := by
  refine ⟨fun bytes h => ?_, fun entries h => ?_, fun h => ?_⟩
  · rw [Input.ofTree, FileTree.follow?_of_leads h]
  · rw [Input.ofTree, FileTree.follow?_of_leads h]
  · rcases FileTree.follow?_cases root workingDirectory path with
      ⟨found, -, hleads⟩ | ⟨fault, hfollow, hfails⟩
    · exact absurd hleads (h found)
    · refine ⟨fault, hfails, ?_⟩
      rw [Input.ofTree, hfollow]

/-! ### Commands -/

/-- An input that cannot be read at all comes to nothing written and to that failure, whatever the
mask, and whether it is to be read as one document or line by line. -/
theorem projectInput_unreadable (mask : Option Mask) (byLine : Bool) (reason : String) :
    projectInput mask byLine [] (.failing reason) =
      ⟨#[], .error (if byLine then .lines (.unreadable reason) else .projection (.io reason))⟩ := by
  cases byLine with
  | true => rfl
  | false =>
    have hproject : project mask (Lookahead.of (JsonReader.ofBytes [] (.failing reason)))
          (JsonWriter.ofDevice (.empty .unlimited)) =
        (.error (.io reason), Lookahead.of (JsonReader.ofBytes [] (.failing reason)),
          JsonWriter.ofDevice (.empty .unlimited)) := by
      rw [project]
      cases View.ofMask? mask with
      | none =>
        dsimp only
        rw [copyValue, copyFrom]
        rfl
      | some view => rfl
    rw [projectInput, projectBytes, hproject]
    rfl

/-- A command whose task is to project comes to the projection of what is found to be read. -/
theorem Invocation.run_of_content {m : Type → Type} [Monad m] [LawfulMonad m]
    {read : Option String → m Input} {invocation : Invocation} {mask : Option Mask} {byLine : Bool}
    {file : Option String} {bytes : List UInt8} {ending : Ending}
    (htask : invocation.task = .ok (.project mask byLine file))
    (hread : read file = pure (.content bytes ending)) :
    invocation.run read = pure (projectInput mask byLine bytes ending) := by
  rw [run, htask]
  dsimp only
  rw [hread, pure_bind]

/-- Where nothing can be read, a command whose task is to project fails with nothing written. -/
theorem Invocation.run_of_unopened {m : Type → Type} [Monad m] [LawfulMonad m]
    {read : Option String → m Input} {invocation : Invocation} {mask : Option Mask} {byLine : Bool}
    {file : Option String} {reason : String}
    (htask : invocation.task = .ok (.project mask byLine file))
    (hread : read file = pure (.unopened reason)) :
    invocation.run read = pure ⟨#[], .error (.unopened (file.getD "") reason)⟩ := by
  rw [run, htask]
  dsimp only
  rw [hread, pure_bind]

/-- **A command on a tree of files**: a file is projected, and a directory or a path that leads
nowhere fails with nothing written. -/
theorem Invocation.run_ofTree (root : FileTree) (workingDirectory : String)
    {invocation : Invocation} {mask : Option Mask} {byLine : Bool} {path : String}
    (htask : invocation.task = .ok (.project mask byLine (some path))) :
    let outcome : Outcome := invocation.run fun file =>
      (pure (Input.ofTree root workingDirectory (file.getD "")) : Id Input)
    (∀ bytes, root.Leads workingDirectory path (.file bytes) →
      outcome = projectInput mask byLine bytes .closed) ∧
    (∀ entries, root.Leads workingDirectory path (.directory entries) →
      outcome = ⟨#[], .error (if byLine then .lines (.unreadable directoryReason)
        else .projection (.io directoryReason))⟩) ∧
    ((∀ found, ¬root.Leads workingDirectory path found) →
      ∃ fault, root.Fails workingDirectory path fault ∧
        outcome = ⟨#[], .error (.unopened path fault.message)⟩) := by
  intro outcome
  obtain ⟨hfile, hdirectory, hnowhere⟩ := Input.ofTree_delivers root workingDirectory path
  refine ⟨fun bytes h => ?_, fun entries h => ?_, fun h => ?_⟩
  · exact run_of_content htask (hfile bytes h)
  · rw [← projectInput_unreadable mask byLine directoryReason]
    exact run_of_content htask (hdirectory entries h)
  · obtain ⟨fault, hfails, hunopened⟩ := hnowhere h
    exact ⟨fault, hfails, run_of_unopened htask hunopened⟩

end FieldMask.CommandLine
