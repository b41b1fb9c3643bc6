import FieldMask.Proofs.Mask.Overlay

namespace FieldMask

/-!
# Layers of masks

It makes no difference in which groups masks are laid over each other.  Where two of three levels
meet first, a mode is derived that the third level makes obsolete, and a level that is taken over
whole may be met later; in the end the same fields have come together under the same modes.

* `Fields.belowInduction` — induction on the levels below the fields that are found.
* `Node.overlay_assoc`, `Fields.overlay_assoc`, `Mask.overlay_assoc` — the grouping of three.
* `Mask.foldl_overlay` — layers below a mask may be laid over each other beforehand.
* `overlay_layers` — the grouping of any number of layers, and of layers that may be absent.
-/

/-- Joining what may be absent is associative where joining what is there is.  Where one of
the three is absent there is nothing to be shown. -/
theorem merge_assoc_of {α : Type} {join : α → α → α} {first second third : Option α}
    (h : ∀ x y z, first = some x → second = some y → third = some z →
      join (join x y) z = join x (join y z)) :
    (first.merge join second).merge join third = first.merge join (second.merge join third) := by
  cases first with
  | none => simp
  | some x =>
    cases second with
    | none => simp
    | some y =>
      cases third with
      | none => simp
      | some z => exact congrArg some (h x y z rfl rfl rfl)

/-- What holds of fields if it holds of every level below a field that they mention holds of
all fields.  A look-up finds only fields that are there, so this follows from the induction
on fields. -/
@[elab_as_elim]
theorem Fields.belowInduction {motive : Fields → Prop}
    (step : ∀ fields : Fields,
      (∀ name node level, fields.find? name = some node → node.children = some level →
        motive level.fields) → motive fields)
    (fields : Fields) : motive fields := by
  apply step
  induction fields using consInduction with
  | nil =>
    intro name node level hfind
    cases hfind
  | cons n nd rest hbelow hrest =>
    intro name node level hfind hchildren
    rw [find?_cons] at hfind
    by_cases hname : n = name
    · rw [if_pos hname] at hfind
      cases hfind
      exact step level.fields (hbelow level hchildren)
    · rw [if_neg hname] at hfind
      exact hrest name node level hfind hchildren

/-- Levels are grouped as their fields are; the modes are derived from what comes out. -/
theorem Level.overlay_assoc {first second third : Level}
    (h : (first.fields.overlay second.fields).overlay third.fields =
      first.fields.overlay (second.fields.overlay third.fields)) :
    (first.overlay second).overlay third = first.overlay (second.overlay third) :=
  congrArg (fun merged : Fields => (⟨merged.derivedMode, merged⟩ : Level)) h

/-- Nodes are grouped as the fields below the first of them are.  A third node without a
level adds nothing in either grouping. -/
theorem Node.overlay_assoc {first second third : Node Level} (hsecond : second.Ordered)
    (hthird : third.Ordered)
    (h : ∀ level, first.children = some level → ∀ {fields fields' : Fields}, fields.Ordered →
      fields'.Ordered → (level.fields.overlay fields).overlay fields' =
        level.fields.overlay (fields.overlay fields')) :
    (first.overlay second).overlay third = first.overlay (second.overlay third) := by
  cases hlower : third.subLevel? with
  | none => rw [overlay_of_subLevel?_none hlower, overlay_of_subLevel?_none hlower]
  | some lower =>
    have hlevels : (first.subLevel?.merge Level.overlay second.subLevel?).merge Level.overlay
        third.subLevel? =
        first.subLevel?.merge Level.overlay
          (second.subLevel?.merge Level.overlay third.subLevel?) := by
      apply merge_assoc_of
      intro upper middle lower' hupper hmiddle hlower'
      have hmiddleOrdered := Fields.ordered_of_subLevel? hsecond hmiddle
      have hlowerOrdered := Fields.ordered_of_subLevel? hthird hlower'
      have hchildren := (subLevel?_eq_some_iff.1 hupper).1
      exact Level.overlay_assoc (h upper hchildren hmiddleOrdered hlowerOrdered)
    -- What the third node adds to the second is some level, which the first node then takes in.
    have hjoined : ∃ level, (second.overlay third).subLevel? = some level := by
      rw [subLevel?_overlay second hthird, hlower]
      cases second.subLevel? with
      | none => exact ⟨lower, rfl⟩
      | some middle => exact ⟨middle.overlay lower, rfl⟩
    obtain ⟨level, hlevel⟩ := hjoined
    -- Both groupings now have the polarity of the first node and the join of three levels.
    rw [overlay_of_subLevel?_some hlower, overlay_of_subLevel?_some hlevel, polarity_overlay,
      subLevel?_overlay first hsecond, subLevel?_overlay second hthird, hlevels]

/-- **Fields may be grouped in any way** when they are laid over each other.  The induction
goes down the levels of the first fields, and at each level it compares both groupings name
by name. -/
theorem Fields.overlay_assoc {first second third : Fields} (hfirst : first.Ordered)
    (hsecond : second.Ordered) (hthird : third.Ordered) :
    (first.overlay second).overlay third = first.overlay (second.overlay third) := by
  induction first using belowInduction generalizing second third with
  | step first ih =>
    have hlower := ordered_overlay hsecond hthird
    apply eq_of_find? (ordered_overlay (ordered_overlay hfirst hsecond) hthird)
      (ordered_overlay hfirst hlower)
    intro name
    rw [find?_overlay _ hthird, find?_overlay _ hsecond, find?_overlay _ hlower,
      find?_overlay _ hthird]
    apply merge_assoc_of
    intro upper middle lower hupper hmiddle hlower
    apply Node.overlay_assoc (ordered_of_find? hsecond hmiddle) (ordered_of_find? hthird hlower)
    intro level hchildren fields fields' hfields hfields'
    have hlevel : level.fields.Ordered := ordered_of_find? hfirst hupper level hchildren
    exact ih name upper level hupper hchildren hlevel hfields hfields'

namespace Mask

/-! ### Any number of layers -/

/-- A mask's mode is the one that its fields derive. -/
def HasDerivedMode (mask : Mask) : Prop := mask.mode = mask.fields.derivedMode

/-- Masks with derived modes at their roots are the same if their fields are. -/
theorem eq_of_fields {mask other : Mask} (hmask : mask.HasDerivedMode)
    (hother : other.HasDerivedMode) (h : mask.fields = other.fields) : mask = other := by
  obtain ⟨⟨mode, fields⟩, ordered⟩ := mask
  obtain ⟨⟨mode', fields'⟩, ordered'⟩ := other
  obtain rfl : fields = fields' := h
  obtain rfl : mode = mode' := hmask.trans hother.symm
  rfl

/-- A layered mask derives its mode. -/
theorem hasDerivedMode_overlay (base other : Mask) : (base.overlay other).HasDerivedMode := rfl

/-- Masks are grouped as their fields are. -/
theorem overlay_assoc (first second third : Mask) :
    (first.overlay second).overlay third = first.overlay (second.overlay third) :=
  eq_of_fields rfl rfl (Fields.overlay_assoc first.ordered second.ordered third.ordered)

/-- The empty mask adds nothing, and below it a mask only loses a mode that was set for it. -/
theorem empty_overlay (mask : Mask) : empty.overlay mask = mask.overlay empty := by
  refine eq_of_fields rfl rfl ?_
  apply Fields.eq_of_find? (empty.overlay mask).ordered mask.ordered
  intro name
  have hfind := Fields.find?_overlay .nil mask.ordered name
  rwa [Fields.find?_nil, Option.merge_none_left] at hfind

/-- A mask with a derived mode stays as it is over the empty one. -/
theorem overlay_empty {mask : Mask} (h : mask.HasDerivedMode) : mask.overlay empty = mask :=
  eq_of_fields rfl h rfl

/-- Layers below a mask may be laid over each other beforehand.  The induction is on the
layers, from any mask that derives its mode. -/
theorem foldl_overlay {mask : Mask} (h : mask.HasDerivedMode) (layers : List Mask) :
    layers.foldl overlay mask = mask.overlay (overlayAll layers) := by
  induction layers generalizing mask with
  | nil => exact (overlay_empty h).symm
  | cons layer layers ih =>
    have hlayer : overlayAll (layer :: layers) = (empty.overlay layer).overlay (overlayAll layers) :=
      ih (hasDerivedMode_overlay empty layer)
    calc (layer :: layers).foldl overlay mask
        = (mask.overlay layer).overlay (overlayAll layers) := ih (hasDerivedMode_overlay mask layer)
      _ = ((mask.overlay empty).overlay layer).overlay (overlayAll layers) := by
        rw [overlay_empty h]
      _ = mask.overlay ((empty.overlay layer).overlay (overlayAll layers)) := by
        rw [overlay_assoc mask, overlay_assoc mask]
      _ = mask.overlay (overlayAll (layer :: layers)) := by rw [hlayer]

/-- Any number of layers make a mask that derives its mode. -/
theorem hasDerivedMode_overlayAll (layers : List Mask) : (overlayAll layers).HasDerivedMode := by
  have hempty : empty.HasDerivedMode := rfl
  rw [overlayAll, foldl_overlay hempty]
  exact hasDerivedMode_overlay empty (overlayAll layers)

/-- Layers in two parts: each part is laid over each other, and then the two. -/
theorem overlayAll_append (layers layers' : List Mask) :
    overlayAll (layers ++ layers') = (overlayAll layers).overlay (overlayAll layers') := by
  rw [overlayAll, List.foldl_append]
  exact foldl_overlay (hasDerivedMode_overlayAll layers) layers'

/-- Two layers that may be absent are the layers that there are. -/
theorem overlayPresent_eq_overlayAll (base other : Option Mask) :
    overlayPresent base other = overlayAll (base.toList ++ other.toList) := by
  -- A single layer is taken as a fold from the empty mask takes it, in that its mode is derived.
  cases base with
  | none =>
    cases other with
    | none => rfl
    | some other => exact (empty_overlay other).symm
  | some base =>
    cases other with
    | none => exact (empty_overlay base).symm
    | some other =>
      show base.overlay other = (empty.overlay base).overlay other
      exact eq_of_fields rfl rfl (by rw [empty_overlay]; rfl)

end Mask

/-- **The grouping of layers never matters.**  Of three masks the first two or the last two may be
laid over each other first; so layers may be split anywhere, and two layers that may be absent are
the layers that are present. -/
theorem overlay_layers (first second third : Mask) (layers layers' : List Mask)
    (base other : Option Mask) :
    (first.overlay second).overlay third = first.overlay (second.overlay third) ∧
      Mask.overlayAll (layers ++ layers') =
        (Mask.overlayAll layers).overlay (Mask.overlayAll layers') ∧
      Mask.overlayPresent base other = Mask.overlayAll (base.toList ++ other.toList) :=
  ⟨first.overlay_assoc second third, Mask.overlayAll_append layers layers',
    Mask.overlayPresent_eq_overlayAll base other⟩

end FieldMask
