import FieldMask.Mask.Basic

namespace FieldMask

/-!
# What a mask says about a member

A document is projected level by level.  A level is seen through a view: its fields, its mode, and
whether an excluded field lies above it.  The view decides on each member:

| node                   | names kept if listed  | names dropped if listed |
|------------------------|-----------------------|-------------------------|
| absent                 | skip                  | copy                    |
| included, nothing below| copy                  | copy                    |
| included, level below  | descend               | descend                 |
| excluded, nothing below| skip                  | skip                    |
| excluded, level below  | descend, keeping only what is listed | the same |

* `Action` — what becomes of a member; `View` — a level as seen during projection.
* `View.decide` — the table; `View.ofMask?` — where a projection starts.
-/

/-- What becomes of an object's member.  It is all that a projection asks about a member,
and all that it is told. -/
inductive Action (ν : Type) where
  /-- The member is dropped. -/
  | skip
  /-- The member is kept whole. -/
  | copy
  /-- The member is kept and its value projected. -/
  | descend (view : ν)

/-- A level as seen during projection; `overridden` if an excluded field lies above it. -/
structure View where
  level : Level
  overridden : Bool
  deriving DecidableEq

namespace View

/-- Whether the view keeps only what its level lists. -/
def listsKept (view : View) : Bool := view.level.mode == .included || view.overridden

/-- What becomes of the member of a given name.  A name that is not mentioned follows the
mode, or is dropped below an override.  Below an excluded field the level is one of kept
names, whatever its mode says. -/
def decide (view : View) (name : String) : Action View :=
  match view.level.fields.find? name with
  | none => if view.listsKept then .skip else .copy
  | some node =>
    match node.polarity, node.subLevel? with
    | .included, none => .copy
    | .included, some level => .descend ⟨level, false⟩
    | .excluded, none => .skip
    | .excluded, some level => .descend ⟨{ level with mode := .included }, true⟩

/-- The view of a mask's root.  A mask that says nothing is as good as none. -/
def ofMask? (mask : Option Mask) : Option View :=
  (mask.filter (!·.isEmpty)).map fun mask => ⟨mask.toLevel, false⟩

end View

end FieldMask
