import FieldMask.Proofs.Document.Projection

namespace FieldMask.Doc

/-!
# The numbers of a document

* `Doc.numbers` — all numbers of a document, at any depth.
* `mem_membersNumbers` — those of some members.
* `Doc.mapNumbers` — a document with other numbers in their places.
* `mapNumbers_eq_self_iff` — it is the same document if each number is the same.
* `through_mapNumbers` — a mask does not look at numbers.
-/

mutual

/-- The numbers of a document, at any depth. -/
def numbers : Doc → List Number
  | scalar (.number n) => [n]
  | scalar _ => []
  | array items => itemsNumbers items
  | object members => membersNumbers members

/-- The numbers of some items. -/
def itemsNumbers : List Doc → List Number
  | [] => []
  | item :: rest => item.numbers ++ itemsNumbers rest

/-- The numbers of some members. -/
def membersNumbers : List (String × Doc) → List Number
  | [] => []
  | (_, value) :: rest => value.numbers ++ membersNumbers rest

end

/-- A number of some members is one of the value of some member. -/
theorem mem_membersNumbers {n : Number} {members : List (String × Doc)} :
    n ∈ membersNumbers members ↔ ∃ member ∈ members, n ∈ member.2.numbers := by
  induction members with
  | nil => simp [membersNumbers]
  | cons member rest ih => simp [membersNumbers, ih]

/-! ### Other numbers in their places -/

mutual

/-- A document with another number in the place of each. -/
def mapNumbers (f : Number → Number) : Doc → Doc
  | scalar (.number n) => scalar (.number (f n))
  | scalar value => scalar value
  | array items => array (mapItemsNumbers f items)
  | object members => object (mapMembersNumbers f members)

/-- Some items with another number in the place of each. -/
def mapItemsNumbers (f : Number → Number) : List Doc → List Doc
  | [] => []
  | item :: rest => item.mapNumbers f :: mapItemsNumbers f rest

/-- Some members with another number in the place of each. -/
def mapMembersNumbers (f : Number → Number) : List (String × Doc) → List (String × Doc)
  | [] => []
  | (name, value) :: rest => (name, value.mapNumbers f) :: mapMembersNumbers f rest

end

mutual

/-- A document stays the same exactly if each of its numbers does.  Equal documents have
equal parts, so this comes down to the scalars. -/
theorem mapNumbers_eq_self_iff {f : Number → Number} (doc : Doc) :
    doc.mapNumbers f = doc ↔ ∀ n ∈ doc.numbers, f n = n := by
  match doc with
  | .scalar .null | .scalar (.bool _) | .scalar (.string _) =>
    exact iff_of_true rfl nofun
  | .scalar (.number n) =>
    rw [mapNumbers, numbers, List.forall_mem_singleton, scalar.injEq, Scalar.number.injEq]
  | .array items =>
    rw [mapNumbers, numbers, array.injEq]
    exact mapItemsNumbers_eq_self_iff items
  | .object members =>
    rw [mapNumbers, numbers, object.injEq]
    exact mapMembersNumbers_eq_self_iff members

/-- So do items exactly if each of their numbers does. -/
theorem mapItemsNumbers_eq_self_iff {f : Number → Number} (items : List Doc) :
    mapItemsNumbers f items = items ↔ ∀ n ∈ itemsNumbers items, f n = n := by
  cases items with
  | nil => exact iff_of_true rfl nofun
  | cons item rest =>
    rw [mapItemsNumbers, itemsNumbers, List.forall_mem_append, List.cons.injEq,
      mapNumbers_eq_self_iff item, mapItemsNumbers_eq_self_iff rest]

/-- So do members, whose names stay in any case. -/
theorem mapMembersNumbers_eq_self_iff {f : Number → Number} (members : List (String × Doc)) :
    mapMembersNumbers f members = members ↔ ∀ n ∈ membersNumbers members, f n = n := by
  match members with
  | [] => exact iff_of_true rfl nofun
  | (name, value) :: rest =>
    rw [mapMembersNumbers, membersNumbers, List.forall_mem_append, List.cons.injEq,
      Prod.mk.injEq, eq_self_iff_true, true_and, mapNumbers_eq_self_iff value,
      mapMembersNumbers_eq_self_iff rest]

end

/-! ### Through a mask -/

section Project

variable {ν : Type} {decide : ν → String → Action ν}

mutual

/-- A rule that decides by names alone does not look at numbers. -/
theorem project_mapNumbers (f : Number → Number) (doc : Doc) (view : ν) :
    (doc.mapNumbers f).project decide view = (doc.project decide view).mapNumbers f := by
  match doc with
  | .scalar .null | .scalar (.bool _) | .scalar (.string _) | .scalar (.number _) => rfl
  | .array items =>
    rw [mapNumbers, project, project, mapNumbers, projectItems_mapNumbers f items view]
  | .object members =>
    rw [mapNumbers, project, project, mapNumbers, projectMembers_mapNumbers f members view]

/-- Nor does it for items. -/
theorem projectItems_mapNumbers (f : Number → Number) (items : List Doc) (view : ν) :
    projectItems decide view (mapItemsNumbers f items) =
      mapItemsNumbers f (projectItems decide view items) := by
  cases items with
  | nil => rfl
  | cons item rest =>
    rw [mapItemsNumbers, projectItems, projectItems, mapItemsNumbers,
      project_mapNumbers f item view, projectItems_mapNumbers f rest view]

/-- Nor for members, each of which is decided upon by its name.  The decision does not look
at the value, so it is the same before and after. -/
theorem projectMembers_mapNumbers (f : Number → Number) (members : List (String × Doc))
    (view : ν) :
    projectMembers decide view (mapMembersNumbers f members) =
      mapMembersNumbers f (projectMembers decide view members) := by
  match members with
  | [] => rfl
  | (name, value) :: rest =>
    rw [mapMembersNumbers, projectMembers, projectMembers, projectMembers_mapNumbers f rest view]
    cases decide view name with
    | skip => rfl
    | copy => rfl
    | descend inner =>
      dsimp only
      rw [project_mapNumbers f value inner, mapMembersNumbers]

end

end Project

/-- Through a mask numbers may be replaced before or after. -/
theorem through_mapNumbers (f : Number → Number) (mask : Option Mask) (doc : Doc) :
    (doc.mapNumbers f).through mask = (doc.through mask).mapNumbers f := by
  rw [through, through]
  cases View.ofMask? mask with
  | none => rfl
  | some view => exact project_mapNumbers f doc view

end FieldMask.Doc
