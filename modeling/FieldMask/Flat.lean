import FieldMask.Document.Basic
import FieldMask.Mask.Basic

namespace FieldMask

/-!
# Flat projections

Some consumers know only a flat list of dotted paths, all of them included or all of them
excluded.  A mask is flattened to whichever of the two forms fits it.

* `FlatKind` — the forms; `FlatProjection` — a form and its paths, in order and each once.
* `Fields.needsInclusion` — whether a level asks for any field to be included.
* `Fields.includedPaths`, `Fields.excludedNames` — the paths of either form.
* `FlatProjection.ofMask` — the flat projection of a mask; `FlatProjection.toDoc` — its document.
-/

/-- The form of a flat projection.  Paths are listed in the last two forms only. -/
inductive FlatKind where
  /-- Nothing is projected away. -/
  | empty
  /-- The listed paths alone are kept. -/
  | inclusion
  /-- The listed paths are dropped and all else is kept. -/
  | exclusion
  deriving DecidableEq

/-- The weight that stands beside each path of a form. -/
def FlatKind.weight : FlatKind → Nat
  | empty => 0
  | inclusion => 1
  | exclusion => 0

/-! ### Sets of paths -/

/-- Puts a path at its place in ascending order, unless it is there already.  Of paths that
are the same one is kept. -/
def insertPath (path : String) : List String → List String
  | [] => [path]
  | p :: rest =>
    if path < p then path :: p :: rest
    else if path = p then p :: rest
    else p :: insertPath path rest

/-- A path that is put in is there, and so are all that were there. -/
theorem mem_insertPath {path p : String} {paths : List String} :
    p ∈ insertPath path paths ↔ p = path ∨ p ∈ paths := by
  induction paths with
  | nil => simp [insertPath]
  | cons q rest ih =>
    unfold insertPath
    split
    · simp
    · split
      · simp_all
      · simp [ih, or_left_comm]

/-- A path put at its place leaves the others in ascending order, each once. -/
theorem pairwise_insertPath {path : String} {paths : List String}
    (h : paths.Pairwise (· < ·)) : (insertPath path paths).Pairwise (· < ·) := by
  induction paths with
  | nil => simp [insertPath]
  | cons q rest ih =>
    obtain ⟨hq, hrest⟩ := List.pairwise_cons.1 h
    unfold insertPath
    split
    next hlt =>
      -- The path comes first.
      refine List.pairwise_cons.2 ⟨?_, h⟩
      simp only [List.mem_cons]
      rintro p (rfl | hp)
      · exact hlt
      · exact String.lt_trans hlt (hq p hp)
    next hge =>
      split
      · exact h
      next hne =>
        -- The path comes behind the first one, which is before it and before all the others.
        refine List.pairwise_cons.2 ⟨fun p hp => ?_, ih hrest⟩
        rcases mem_insertPath.1 hp with rfl | hp
        · exact Fields.lt_of_not_lt_of_ne hge hne
        · exact hq p hp

/-- Some paths in ascending order, each once. -/
def sortPaths (paths : List String) : List String := paths.foldr insertPath []

/-- Sorted paths are in ascending order, each once, so a list of them stands for a set. -/
theorem pairwise_sortPaths (paths : List String) : (sortPaths paths).Pairwise (· < ·) := by
  induction paths with
  | nil => exact List.Pairwise.nil
  | cons p rest ih => exact pairwise_insertPath ih

/-- A flat projection: its form, and its paths in ascending order without repetition. -/
structure FlatProjection where
  kind : FlatKind
  paths : List String
  ordered : paths.Pairwise (· < ·)
  deriving DecidableEq

namespace FlatProjection

/-- The paths with the weight of the form beside each. -/
def entries (flat : FlatProjection) : List (String × Nat) :=
  flat.paths.map fun path => (path, flat.kind.weight)

/-- Whether a path is listed. -/
def contains (flat : FlatProjection) (path : String) : Bool := flat.paths.contains path

/-- The number of listed paths. -/
def size (flat : FlatProjection) : Nat := flat.paths.length

/-- The projection as an object from path to weight. -/
def toDoc (flat : FlatProjection) : Doc :=
  .object <| flat.entries.map fun (path, weight) => (path, .scalar (.number (.ofInt weight)))

end FlatProjection

/-! ### From masks -/

namespace Fields

/-- Whether the level includes a name, or does so below an excluded one. -/
def needsInclusion : Fields → Bool
  | nil => false
  | leaf _ polarity rest => polarity == .included || rest.needsInclusion
  | subtree _ polarity _ children rest =>
    polarity == .included || children.needsInclusion || rest.needsInclusion

/-- A name below a path; the root's path is empty and leaves no dot. -/
def joinPath (path name : String) : String :=
  if path.isEmpty then name else path ++ "." ++ name

/-- The path that some names lead to, the innermost of them first. -/
def pathOf (inward : List String) : String := inward.reverse.foldl joinPath ""

/-- The path of a field with nothing below it, if it is included. -/
def includedPath (inward : List String) : Polarity → List String
  | .included => [pathOf inward]
  | .excluded => []

/-- The paths of all included fields with nothing below them, under levels of either polarity;
`outer` holds the names around the level, the innermost first. -/
def includedPaths (outer : List String) : Fields → List String
  | nil => []
  | leaf name polarity rest => includedPath (name :: outer) polarity ++ rest.includedPaths outer
  | subtree name polarity _ children rest =>
    let below :=
      if children.isEmpty then includedPath (name :: outer) polarity
      else children.includedPaths (name :: outer)
    below ++ rest.includedPaths outer

/-- The excluded names of the level that have nothing below them. -/
def excludedNames (fields : Fields) : List String :=
  fields.entries.filterMap fun (name, node) =>
    if node.polarity = .excluded ∧ node.subLevel?.isNone then some name else none

end Fields

/-- A flat projection of some paths, in whatever order they come. -/
def FlatProjection.ofPaths (kind : FlatKind) (paths : List String) : FlatProjection :=
  ⟨kind, sortPaths paths, pairwise_sortPaths paths⟩

/-- The flat projection of a mask: inclusion if any field is asked for, exclusion if none
is.  An absent mask and one that says nothing project nothing away. -/
def FlatProjection.ofMask (mask : Option Mask) : FlatProjection :=
  match mask.filter (!·.isEmpty) with
  | none => .ofPaths .empty []
  | some mask =>
    if mask.fields.needsInclusion then .ofPaths .inclusion (mask.fields.includedPaths [])
    else .ofPaths .exclusion mask.fields.excludedNames

end FieldMask
