import FieldMask.Proofs.Mask.Survival
import FieldMask.Proofs.Stream.Underway

namespace FieldMask

/-!
# What lies above a level

A view says whether an excluded field lies above its level, and the rule of decision looks at that.
It need not: below an excluded field a level is seen with its mode replaced, so that its mode alone
already keeps only what is listed; and where an included field is entered, nothing of what lies
above counts any more.  This holds whatever modes a mask gives its levels.

* `View.consistent_of_descend`, `View.consistent_of_mem_ofMask?` — wherever a view comes from, its
  mode is consistent with what lies above.
* `View.Consistent.decide_unmarked` — such a view decides as if nothing lay above.
* `View.decideUnmarked` — the rule that neither asks nor says what lies above; `projectUnmarked`,
  `Datum.projectUnmarked` — projection under this rule.
* `overridden_never_decides` — what lies above a level decides on nothing.
-/

namespace View

variable {view below : View} {name : String}

/-! ### Views -/

/-- The view of the same level with nothing said of what lies above. -/
def unmarked (view : View) : View := ⟨view.level, false⟩

/-- With or without what lies above, the mode decides. -/
theorem Consistent.listsKept_unmarked (h : view.Consistent) :
    view.unmarked.listsKept = view.listsKept := by
  have hunmarked : view.unmarked.Consistent := consistent_of_level view.level
  rw [Bool.eq_iff_iff, listsKept_iff h, listsKept_iff hunmarked, unmarked]

/-- A consistent view decides as if nothing lay above. -/
theorem Consistent.decide_unmarked (h : view.Consistent) : view.unmarked.decide = view.decide := by
  funext name
  rw [decide, decide, h.listsKept_unmarked, unmarked]

/-- Whatever a member is entered with is consistent: the level below an excluded field has its mode
replaced, below an included one nothing lies above. -/
theorem consistent_of_descend (h : view.decide name = .descend below) : below.Consistent := by
  -- Only a field with a level below it is entered, by its polarity in one of two ways.
  unfold decide at h
  split at h
  · split at h <;> cases h
  · split at h
    · cases h
    · cases h
      exact consistent_of_level _
    · cases h
    · cases h
      exact fun _ => rfl

/-- Nothing lies above a root. -/
theorem consistent_of_mem_ofMask? {mask : Option Mask} (h : view ∈ ofMask? mask) :
    view.Consistent := by
  obtain ⟨root, -, rfl⟩ := Option.map_eq_some_iff.1 h
  exact consistent_of_level root.toLevel

end View

/-! ### The rule that does not ask -/

/-- The action that goes on with another view. -/
def Action.map {ν ν' : Type} (change : ν → ν') : Action ν → Action ν'
  | .skip => .skip
  | .copy => .copy
  | .descend view => .descend (change view)

/-- What becomes of a member if nobody ever asks or says what lies above. -/
def View.decideUnmarked (view : View) (name : String) : Action View :=
  (view.unmarked.decide name).map unmarked

/-- It makes no difference whether a rule that does not ask is told what lies above. -/
theorem View.decideAlike_unmarked :
    DecideAlike (fun view view' => view' = view.unmarked) (fun view : View => view.unmarked.decide)
      decideUnmarked := by
  rintro view _ name rfl
  -- A second time there is nothing to take away.
  show (view.unmarked.decide name).Rel _ ((view.unmarked.decide name).map unmarked)
  cases view.unmarked.decide name with
  | skip => exact .skip
  | copy => exact .copy
  | descend below => exact .descend rfl

section Projections

variable {σ κ : Type} [TokenSource σ] [TokenSink κ]

/-- Projects one value from a source to a sink, and nobody ever asks what lies above a level. -/
def projectUnmarked (mask : Option Mask) (source : σ) (sink : κ) :
    Except StreamError Unit × σ × κ :=
  match View.ofMask? mask with
  | none => copyValue source sink
  | some view => projectBy View.decideUnmarked view.unmarked source sink

/-- Projects a datum to a sink, and nobody ever asks what lies above a level. -/
def Datum.projectUnmarked (origin : Origin) (mask : Option Mask) (datum : Datum) (sink : κ) :
    Except ReadError Unit × κ :=
  datum.projectBy View.decideUnmarked origin ((View.ofMask? mask).map View.unmarked) sink

/-- Every level that a stream is projected at is seen through a consistent view. -/
theorem Underway.consistent {mask : Option Mask} {view : View} {source source' : σ}
    {sink sink' : κ} {scopes : List (Scope View)} (hview : view ∈ View.ofMask? mask)
    (h : Underway View.decide view source sink scopes source' sink') :
    ∀ scope ∈ scopes, scope.view.Consistent :=
  h.forall_scope (View.consistent_of_mem_ofMask? hview)
    fun _ _ _ _ hdescend => View.consistent_of_descend hdescend

/-- Every level that a datum is projected at is seen through a consistent view. -/
theorem Datum.scopes_consistent (mask : Option Mask) (datum : Datum) :
    ∀ scope ∈ datum.scopes View.decide (View.ofMask? mask), scope.view.Consistent :=
  datum.forall_scopes (fun _ _ _ _ hdescend => View.consistent_of_descend hdescend)
    fun _ hview => View.consistent_of_mem_ofMask? hview

/-- Streams are projected as if nobody ever asked.  The rule that does not ask is replaced
by one that asks about the view without its mark, and this agrees with the real one wherever
it is reached. -/
theorem projectUnmarked_eq (mask : Option Mask) (source : σ) (sink : κ) :
    projectUnmarked mask source sink = project mask source sink := by
  rw [projectUnmarked, project]
  cases hview : View.ofMask? mask with
  | none => rfl
  | some view =>
    calc projectBy View.decideUnmarked view.unmarked source sink
        = projectBy (fun view => view.unmarked.decide) view source sink :=
          (projectBy_of_alike View.decideAlike_unmarked rfl source sink).symm
      _ = projectBy View.decide view source sink :=
          (projectBy_congr fun scopes source' sink' h scope hscope =>
            (h.consistent hview scope hscope).decide_unmarked.symm).symm

/-- Data are projected as if nobody ever asked, by the same two steps.  First the views are
replaced by related ones, and then the rule by the one that they agree on. -/
theorem Datum.projectUnmarked_eq (origin : Origin) (mask : Option Mask) (datum : Datum)
    (sink : κ) : datum.projectUnmarked origin mask sink = datum.project origin mask sink := by
  have hview : Option.Rel (fun view view' => view' = View.unmarked view) (View.ofMask? mask)
      ((View.ofMask? mask).map View.unmarked) := by
    cases View.ofMask? mask with
    | none => exact .none
    | some view => exact .some rfl
  calc datum.projectBy View.decideUnmarked origin ((View.ofMask? mask).map View.unmarked) sink
      = datum.projectBy (fun view => view.unmarked.decide) origin (View.ofMask? mask) sink :=
        (Datum.projectBy_of_alike View.decideAlike_unmarked hview sink datum).symm
    _ = datum.projectBy View.decide origin (View.ofMask? mask) sink :=
        (Datum.projectBy_congr sink datum fun scope hscope =>
          (datum.scopes_consistent mask scope hscope).decide_unmarked.symm).symm

end Projections

/-- **What lies above a level decides on nothing.**  Under any mask, whatever the modes of its
levels, and for any stream or datum: wherever an excluded field lies above an object or an array
that is reached, the mode of the level is to keep only what is listed, and the same is decided on
every name as if nothing lay above.  So streams and data are projected as if nobody ever asked, with
the same failures and with the same left in the source. -/
theorem overridden_never_decides (mask : Option Mask) :
    (∀ {σ κ : Type} [TokenSource σ] [TokenSink κ] (source : σ) (sink : κ),
      (∀ view ∈ View.ofMask? mask, ∀ scopes (source' : σ) (sink' : κ),
        Underway View.decide view source sink scopes source' sink' → ∀ scope ∈ scopes,
          (scope.view.overridden = true → scope.view.level.mode = .included) ∧
          ∀ name, scope.view.unmarked.decide name = scope.view.decide name) ∧
      projectUnmarked mask source sink = project mask source sink) ∧
    ∀ datum : Datum,
      (∀ scope ∈ datum.scopes View.decide (View.ofMask? mask),
        (scope.view.overridden = true → scope.view.level.mode = .included) ∧
        ∀ name, scope.view.unmarked.decide name = scope.view.decide name) ∧
      ∀ {κ : Type} [TokenSink κ] (origin : Origin) (sink : κ),
        datum.projectUnmarked origin mask sink = datum.project origin mask sink := by
  -- Streams and data alike: the levels that are reached, and then the projection as a whole.
  refine ⟨fun source sink => ⟨?_, projectUnmarked_eq mask source sink⟩, fun datum => ⟨?_, ?_⟩⟩
  · intro view hview scopes source' sink' hunderway scope hscope
    have hconsistent := hunderway.consistent hview scope hscope
    exact ⟨hconsistent, congrFun hconsistent.decide_unmarked⟩
  · intro scope hscope
    have hconsistent := datum.scopes_consistent mask scope hscope
    exact ⟨hconsistent, congrFun hconsistent.decide_unmarked⟩
  · intro κ _ origin sink
    exact datum.projectUnmarked_eq origin mask sink

/-- The field `z` is excluded, and so is `y` below it, so the level below `z` has a mode that keeps
what is not listed.  It is reached in the item of an array, where only what is listed is kept. -/
theorem overridden_never_decides_in_item :
    let mask : Mask :=
      ⟨⟨.included, .subtree "z" .excluded .excluded (.leaf "y" .excluded .nil) .nil⟩, by decide⟩
    let root : View := ⟨mask.toLevel, false⟩
    let source := Replay.ofTokens [.beginObject, .key "z", .beginArray, .beginObject, .key "x"]
    let datum : Datum :=
      .map (.entry "z" (.sequence (.item (.map (.entry "x" .null .done)) .done)) .done)
    root ∈ View.ofMask? (some mask) ∧
      (∃ scope outer source' sink',
        Underway View.decide root source Collected.empty (scope :: outer) source' sink' ∧
        scope.container = .object ∧ scope.view.overridden = true ∧
        scope.view.level.mode = .included) ∧
      ∃ scope ∈ datum.scopes View.decide (some root),
        scope.container = .object ∧ scope.view.overridden = true ∧
        scope.view.level.mode = .included := by
  intro mask root source datum
  have hroot : root ∈ View.ofMask? (some mask) := by decide
  -- The run enters the root, then `z`, and then the item of its array.
  have hunderway : Underway View.decide root source Collected.empty
      [⟨.object, ⟨⟨.included, .leaf "y" .excluded .nil⟩, true⟩⟩,
        ⟨.array, ⟨⟨.included, .leaf "y" .excluded .nil⟩, true⟩⟩, ⟨.object, root⟩]
      (Replay.ofTokens [.key "x"])
      ⟨#[.beginObject, .key "z", .beginArray, .beginObject]⟩ :=
    .advanced (.advanced (.begun rfl) rfl) rfl
  have hmem : (⟨.object, ⟨⟨.included, .leaf "y" .excluded .nil⟩, true⟩⟩ : Scope View) ∈
      datum.scopes View.decide (some root) := .tail _ (.tail _ (.head _))
  obtain ⟨hstreams, hdata⟩ := overridden_never_decides (some mask)
  have hscope := (hstreams source Collected.empty).1 root hroot _ _ _ hunderway _ List.mem_cons_self
  exact ⟨hroot, ⟨_, _, _, _, hunderway, rfl, rfl, hscope.1 rfl⟩,
    _, hmem, rfl, rfl, ((hdata datum).1 _ hmem).1 rfl⟩

end FieldMask
