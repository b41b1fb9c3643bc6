import FieldMask.Document.Basic
import FieldMask.Mask.View

namespace FieldMask

/-!
# Projecting a document tree

The tree has what the stream of its tokens only passes by, so on it projection is a plain
recursion: the items of an array are projected each under the view of the array, and the members
of an object are dropped, kept whole or projected under a view of their own.

* `Doc.project` — a tree under any rule of decision; `Doc.through` — a tree through a mask.
-/

namespace Doc

variable {ν : Type}

mutual

/-- A document with the members of its objects dropped, kept or projected as the rule decides. -/
def project (decide : ν → String → Action ν) (view : ν) : Doc → Doc
  | scalar value => scalar value
  | array items => array (projectItems decide view items)
  | object members => object (projectMembers decide view members)

/-- Some items, each projected under the view of their array. -/
def projectItems (decide : ν → String → Action ν) (view : ν) : List Doc → List Doc
  | [] => []
  | item :: rest => item.project decide view :: projectItems decide view rest

/-- Some members, as far as the view of their object keeps them.  Their order stays, and so
do repeated names. -/
def projectMembers (decide : ν → String → Action ν) (view : ν) :
    List (String × Doc) → List (String × Doc)
  | [] => []
  | (name, value) :: rest =>
    match decide view name with
    | .skip => projectMembers decide view rest
    | .copy => (name, value) :: projectMembers decide view rest
    | .descend inner => (name, value.project decide inner) :: projectMembers decide view rest

end

/-! ### Members by what becomes of them -/

section

variable {decide : ν → String → Action ν} {view inner : ν} {name : String}

/-- A member that is skipped is left out. -/
theorem projectMembers_of_skip (h : decide view name = .skip) (value : Doc)
    (rest : List (String × Doc)) :
    projectMembers decide view ((name, value) :: rest) = projectMembers decide view rest := by
  rw [projectMembers, h]

/-- A member that is copied stays as it is. -/
theorem projectMembers_of_copy (h : decide view name = .copy) (value : Doc)
    (rest : List (String × Doc)) :
    projectMembers decide view ((name, value) :: rest) =
      (name, value) :: projectMembers decide view rest := by
  rw [projectMembers, h]

/-- A member that is entered stays with its value projected. -/
theorem projectMembers_of_descend (h : decide view name = .descend inner) (value : Doc)
    (rest : List (String × Doc)) :
    projectMembers decide view ((name, value) :: rest) =
      (name, value.project decide inner) :: projectMembers decide view rest := by
  rw [projectMembers, h]

end

/-! ### Documents through a mask -/

/-- A document through a mask.  Without a mask, or with one that says nothing, it stays whole. -/
def through (mask : Option Mask) (doc : Doc) : Doc :=
  match View.ofMask? mask with
  | none => doc
  | some view => doc.project View.decide view

/-- A mask that says something projects from its root, above which nothing lies. -/
theorem through_of_some {mask : Mask} (h : mask.isEmpty = false) (doc : Doc) :
    doc.through (some mask) = doc.project View.decide ⟨mask.toLevel, false⟩ := by
  rw [through, View.ofMask?, Option.filter_some, h]
  rfl

end Doc

end FieldMask
