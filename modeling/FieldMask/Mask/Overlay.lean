import FieldMask.Mask.Basic

namespace FieldMask

/-!
# Layering masks

One mask is laid over another: the names of both are kept, the upper mask's word on a name counts,
and the lower one only adds levels below a name where the upper has none, or more names to those
that it has.  Modes are derived again wherever two levels meet.

* `Fields.overlay` — the fields of two levels, laid over each other; order is kept
  (`ordered_overlay`).
* `Mask.overlay`, `Mask.overlayAll` — the same of masks; `Mask.overlayPresent` — of masks that
  may be absent.
-/

namespace Fields

/-- Lays `base` over another level: of a name that both mention, `base` keeps its polarity and takes
the other's level below it, if that mentions anything. -/
def overlay (base : Fields) : Fields → Fields
  | nil => base
  | leaf name polarity rest =>
    if base.contains name then base.overlay rest
    else (base.insert name ⟨polarity, none⟩).overlay rest
  | subtree name polarity mode children rest =>
    match base.find? name with
    | none => (base.insert name ⟨polarity, some ⟨mode, children⟩⟩).overlay rest
    | some node =>
      -- An empty level says no more than its absence, so there is nothing to add.
      if children.isEmpty then base.overlay rest
      else
        let below : Level :=
          match node.subLevel? with
          | none => ⟨mode, children⟩
          | some level =>
            let merged := level.fields.overlay children
            ⟨merged.derivedMode, merged⟩
        (base.insert name ⟨node.polarity, some below⟩).overlay rest

/-- The level below a node that is in order is in order itself. -/
theorem ordered_of_subLevel? {node : Node Level} {level : Level} (h : node.Ordered)
    (hlevel : node.subLevel? = some level) : level.fields.Ordered :=
  h level (Option.eq_some_of_filter_eq_some hlevel)

/-- Two levels in order, laid over each other, are in order again.  The induction is on the
lower level, whose fields are put into the upper one after the other, so what is shown holds
of any upper level. -/
theorem ordered_overlay {base other : Fields} (hbase : base.Ordered) (hother : other.Ordered) :
    (base.overlay other).Ordered := by
  induction other generalizing base with
  | nil => exact hbase
  | leaf name polarity rest ih =>
    unfold overlay
    -- A plain field of the lower level is already there, or it is put in.
    split
    · exact ih hbase hother.2
    · exact ih (ordered_insert (by simp [Node.Ordered]) hbase) hother.2
  | subtree name polarity mode children rest ihc ihr =>
    unfold overlay
    -- A subtree is put in whole where the name is new; else the two levels below the name meet.
    split
    · exact ihr (ordered_insert (by simpa [Node.Ordered] using hother.2.1) hbase) hother.2.2
    next node hfind =>
      split
      · exact ihr hbase hother.2.2
      · refine ihr (ordered_insert ?_ hbase) hother.2.2
        simp only [Node.Ordered, Option.some.injEq, forall_eq']
        split
        · exact hother.2.1
        next level hlevel =>
          exact ihc (ordered_of_subLevel? (ordered_of_find? hbase hfind) hlevel) hother.2.1

end Fields

/-- Lays `base` over `other`. -/
def Mask.overlay (base other : Mask) : Mask :=
  .ofFields (base.fields.overlay other.fields) (Fields.ordered_overlay base.ordered other.ordered)

/-- Lays masks over each other, the first on top. -/
def Mask.overlayAll (masks : List Mask) : Mask := masks.foldl Mask.overlay .empty

/-- Lays one mask over another, where an absent mask says nothing. -/
def Mask.overlayPresent : Option Mask → Option Mask → Mask
  | some base, some other => base.overlay other
  | some mask, none => mask.overlay .empty
  | none, some mask => mask.overlay .empty
  | none, none => .empty

end FieldMask
