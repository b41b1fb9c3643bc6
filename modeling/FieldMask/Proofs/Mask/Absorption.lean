import FieldMask.Proofs.Mask.Modes

namespace FieldMask

/-!
# Layers that are applied again

A mask whose modes are all derived adds nothing below layers that it is one of: the names it
mentions are mentioned there already, and where its levels meet their own traces the modes that are
derived anew are the ones that were there.

* `Level.HasDerivedMode` — the mode of a level is the one that its fields derive.
* `Node.overlay_absorb`, `Fields.overlay_absorb` — what has been joined once adds nothing again.
* `Mask.overlay_absorb`, `Mask.overlay_self` — the same of masks, below another one and alone.
* `overlay_absorbs` — a layer may be dropped wherever it is applied again.
-/

/-- A level's mode is the one that its fields derive. -/
def Level.HasDerivedMode (level : Level) : Prop := level.mode = level.fields.derivedMode

/-- What may be absent adds nothing again where what is there adds nothing again. -/
theorem merge_absorb_of {α : Type} {join : α → α → α} {first second : Option α}
    (hself : ∀ x, first = some x → join x x = x)
    (hjoin : ∀ x y, first = some x → second = some y → join (join x y) x = join x y) :
    (first.merge join second).merge join first = first.merge join second := by
  cases first with
  | none => simp
  | some x =>
    cases second with
    | none => exact congrArg some (hself x rfl)
    | some y => exact congrArg some (hjoin x y rfl rfl)

/-! ### Levels and nodes -/

/-- Levels add nothing again if their fields do not; the mode is derived from these. -/
theorem Level.overlay_absorb {upper lower : Level}
    (h : (upper.fields.overlay lower.fields).overlay upper.fields =
      upper.fields.overlay lower.fields) :
    (upper.overlay lower).overlay upper = upper.overlay lower :=
  congrArg (fun merged : Fields => (⟨merged.derivedMode, merged⟩ : Level)) h

/-- A level keeps its mode over itself only if that is the one that its fields derive. -/
theorem Level.overlay_self {level : Level} (hmode : level.HasDerivedMode)
    (h : level.fields.overlay level.fields = level.fields) : level.overlay level = level := by
  obtain ⟨mode, fields⟩ := level
  obtain rfl : mode = fields.derivedMode := hmode
  exact congrArg (fun merged : Fields => (⟨merged.derivedMode, merged⟩ : Level)) h

namespace Node

variable {base other : Node Level}

/-- A node with a level of its own takes in whatever level there is on the other side.  That
holds even if the other side has none, where it stays as it is. -/
theorem overlay_of_subLevel? {level : Level} (h : base.subLevel? = some level) :
    base.overlay other = ⟨base.polarity, base.subLevel?.merge Level.overlay other.subLevel?⟩ := by
  cases hother : other.subLevel? with
  | none =>
    obtain ⟨hchildren, -⟩ := subLevel?_eq_some_iff.1 h
    rw [overlay_of_subLevel?_none hother, Option.merge_none_right, h, ← hchildren]
  | some lower => rw [overlay_of_subLevel?_some hother, hother]

/-- Nodes add nothing again if the fields below them do not.  This is asked for all fields
on the other side, since the induction on levels provides it for all. -/
theorem overlay_absorb (hother : other.Ordered)
    (h : ∀ level, base.subLevel? = some level → level.HasDerivedMode ∧
      ∀ fields : Fields, fields.Ordered →
        (level.fields.overlay fields).overlay level.fields = level.fields.overlay fields) :
    (base.overlay other).overlay base = base.overlay other := by
  have hlevels : (base.subLevel?.merge Level.overlay other.subLevel?).merge Level.overlay
      base.subLevel? = base.subLevel?.merge Level.overlay other.subLevel? := by
    apply merge_absorb_of
    · intro level hlevel
      obtain ⟨hmode, habsorb⟩ := h level hlevel
      -- Over no fields at all, absorbing is what laying a level over itself comes down to.
      exact Level.overlay_self hmode (habsorb .nil trivial)
    · intro level lower hlevel hlower
      obtain ⟨-, habsorb⟩ := h level hlevel
      have hfields := Fields.ordered_of_subLevel? hother hlower
      exact Level.overlay_absorb (habsorb lower.fields hfields)
  cases hlevel : base.subLevel? with
  | none => exact overlay_of_subLevel?_none hlevel
  | some level =>
    calc (base.overlay other).overlay base
        = ⟨base.polarity, (base.subLevel?.merge Level.overlay other.subLevel?).merge Level.overlay
            base.subLevel?⟩ := by
          rw [overlay_of_subLevel?_some hlevel, polarity_overlay, subLevel?_overlay base hother]
      _ = ⟨base.polarity, base.subLevel?.merge Level.overlay other.subLevel?⟩ := by rw [hlevels]
      _ = base.overlay other := (overlay_of_subLevel? hlevel).symm

/-- A node is over itself what it is over a plain decision, which adds nothing. -/
theorem overlay_self
    (h : ∀ other : Node Level, other.Ordered →
      (base.overlay other).overlay base = base.overlay other) :
    base.overlay base = base := by
  have hplain : base.overlay ⟨base.polarity, none⟩ = base := overlay_of_subLevel?_none rfl
  have hbase := h ⟨base.polarity, none⟩ nofun
  rwa [hplain] at hbase

end Node

/-- **Fields add nothing again** below those that they have been laid over.  What they say
has been said by the first layer, and a level below a field is laid over a level that holds
it already. -/
theorem Fields.overlay_absorb {base other : Fields} (hbase : base.Ordered) (hother : other.Ordered)
    (hmodes : base.Throughout Level.HasDerivedMode) :
    (base.overlay other).overlay base = base.overlay other := by
  -- The levels of the upper side are what the induction goes down; the lower side is any level.
  induction base using belowInduction generalizing other with
  | step base ih =>
    have hbelow := (throughout_iff_find? hbase).1 hmodes
    have hjoined := ordered_overlay hbase hother
    have habsorb {name : String} {node : Node Level} (hfind : base.find? name = some node)
        (lower : Node Level) (hlower : lower.Ordered) :
        (node.overlay lower).overlay node = node.overlay lower := by
      apply Node.overlay_absorb hlower
      intro level hlevel
      obtain ⟨hmode, hlevels⟩ := (hbelow name node hfind).subLevel? hlevel
      obtain ⟨hchildren, -⟩ := Node.subLevel?_eq_some_iff.1 hlevel
      have hlevelOrdered := ordered_of_subLevel? (ordered_of_find? hbase hfind) hlevel
      refine ⟨hmode, ?_⟩
      intro fields hfields
      exact ih name node level hfind hchildren hlevelOrdered hfields hlevels
    -- Both sides are in order, so it is enough to compare what they say about each name.
    apply eq_of_find? (ordered_overlay hjoined hbase) hjoined
    intro name
    rw [find?_overlay _ hbase, find?_overlay _ hother]
    apply merge_absorb_of
    · intro node hfind
      exact Node.overlay_self (habsorb hfind)
    · intro node lower hfind hlower
      exact habsorb hfind lower (ordered_of_find? hother hlower)

namespace Mask

variable {mask : Mask}

/-- A mask adds nothing below one that it has been laid over. -/
theorem overlay_absorb (h : mask.toLevel.Throughout Level.HasDerivedMode) (other : Mask) :
    (mask.overlay other).overlay mask = mask.overlay other :=
  eq_of_fields rfl rfl (Fields.overlay_absorb mask.ordered other.ordered h.2)

/-- A mask laid over itself comes back, since over the empty mask it is itself. -/
theorem overlay_self (h : mask.toLevel.Throughout Level.HasDerivedMode) :
    mask.overlay mask = mask := by
  have hempty := overlay_absorb h empty
  rwa [overlay_empty h.1] at hempty

/-! ### Layers -/

/-- The first of some layers may be laid over all of the others. -/
theorem overlayAll_cons (h : mask.HasDerivedMode) (layers : List Mask) :
    overlayAll (mask :: layers) = mask.overlay (overlayAll layers) := by
  have htop : empty.overlay mask = mask := (empty_overlay mask).trans (overlay_empty h)
  show layers.foldl overlay (empty.overlay mask) = _
  rw [htop, foldl_overlay h]

/-- Layers that a mask is one of take it in again without a change.  Whatever lies above it
is set aside by regrouping. -/
theorem overlayAll_overlay_of_mem (h : mask.toLevel.Throughout Level.HasDerivedMode)
    {layers : List Mask} (hmem : mask ∈ layers) :
    (overlayAll layers).overlay mask = overlayAll layers := by
  obtain ⟨above, below, rfl⟩ := List.append_of_mem hmem
  rw [overlayAll_append, overlayAll_cons h.1, overlay_assoc, overlay_absorb h]

end Mask

/-- **A layer that is applied again changes nothing.**  A mask whose modes are derived, at its root
and at every level below, comes back from being laid over itself, and adds nothing below a mask that
it has been laid over, be the modes of that one as they may; so among any layers it counts once, at
its first place. -/
theorem overlay_absorbs (mask other : Mask)
    (hmodes : mask.toLevel.Throughout fun level => level.mode = level.fields.derivedMode) :
    mask.overlay mask = mask ∧
      (mask.overlay other).overlay mask = mask.overlay other ∧
      ∀ layers layers', mask ∈ layers →
        Mask.overlayAll (layers ++ mask :: layers') = Mask.overlayAll (layers ++ layers') := by
  refine ⟨Mask.overlay_self hmodes, Mask.overlay_absorb hmodes other, ?_⟩
  intro layers layers' hmem
  -- The second place of the mask is moved up to the layers above it, where it is already.
  calc Mask.overlayAll (layers ++ mask :: layers')
      = (Mask.overlayAll layers).overlay (mask.overlay (Mask.overlayAll layers')) := by
        rw [Mask.overlayAll_append, Mask.overlayAll_cons hmodes.1]
    _ = ((Mask.overlayAll layers).overlay mask).overlay (Mask.overlayAll layers') :=
        (Mask.overlay_assoc _ _ _).symm
    _ = (Mask.overlayAll layers).overlay (Mask.overlayAll layers') := by
        rw [Mask.overlayAll_overlay_of_mem hmodes hmem]
    _ = Mask.overlayAll (layers ++ layers') := (Mask.overlayAll_append layers layers').symm

/-- Two levels meet below `a`, where the lower one's mode was set for it; the level below `b` is
empty, and takes in the lower one's with the mode that was set for that. -/
theorem overlay_absorbs_forced :
    let mask : Mask := ⟨⟨.included, .subtree "a" .excluded .excluded (.leaf "x" .excluded .nil)
      (.subtree "b" .included .included .nil .nil)⟩, by decide⟩
    let other : Mask := ⟨⟨.excluded, .subtree "a" .included .excluded (.leaf "y" .included .nil)
      (.subtree "b" .excluded .excluded (.leaf "z" .included .nil) .nil)⟩, by decide⟩
    let joined : Mask := ⟨⟨.included, .subtree "a" .excluded .included
      (.leaf "x" .excluded (.leaf "y" .included .nil))
      (.subtree "b" .included .excluded (.leaf "z" .included .nil) .nil)⟩, by decide⟩
    mask.toLevel.Throughout (fun level => level.mode = level.fields.derivedMode) ∧
      mask.overlay mask = mask ∧
      mask.overlay other = joined ∧ joined.overlay mask = joined ∧
      Mask.overlayAll [other, mask, mask, other] = Mask.overlayAll [other, mask, other] := by
  intro mask other joined
  have hmodes : mask.toLevel.Throughout fun level => level.mode = level.fields.derivedMode :=
    ⟨rfl, ⟨rfl, trivial⟩, ⟨rfl, trivial⟩, trivial⟩
  have hjoined : mask.overlay other = joined := by decide
  obtain ⟨hself, habsorb, hlayers⟩ := overlay_absorbs mask other hmodes
  rw [hjoined] at habsorb
  exact ⟨hmodes, hself, hjoined, habsorb, hlayers [other, mask] [other] (by simp)⟩

end FieldMask
