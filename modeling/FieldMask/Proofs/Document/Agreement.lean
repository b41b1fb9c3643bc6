import FieldMask.Proofs.Document.Projection

namespace FieldMask

/-!
# Documents that agree on what a view sees

A view sees the members of an object that it does not skip: those that it copies with all that they
hold, those that it descends into through a view of their own.  Of the members that it skips it sees
nothing at all, neither their names and values nor how many there are and where they stand.

* `Doc.seenMembers` — the members of an object that are not skipped.
* `Doc.Agree` — two documents agree on all that a view sees of them.
* `Doc.agree_iff_project_eq` — they do just when the same comes out of both.
-/

variable {ν : Type}

/-- Whether a member is not dropped. -/
def Action.keeps : Action ν → Bool
  | skip => false
  | copy => true
  | descend _ => true

namespace Doc

/-- The members of an object that a view does not skip. -/
def seenMembers (decide : ν → String → Action ν) (view : ν) (members : List (String × Doc)) :
    List (String × Doc) :=
  members.filter fun member => (decide view member.1).keeps

mutual

/-- Two documents agree on all that a view sees of them.  What is inside of a member that is
skipped may differ in any way, and so may the number and the places of such members. -/
inductive Agree (decide : ν → String → Action ν) : ν → Doc → Doc → Prop where
  | scalar {view : ν} (value : Scalar) : Agree decide view (.scalar value) (.scalar value)
  | array {view : ν} {items items' : List Doc} (h : AgreeItems decide view items items') :
    Agree decide view (.array items) (.array items')
  /-- Of two objects only the members count that are not skipped. -/
  | object {view : ν} {members members' : List (String × Doc)}
    (h : AgreeMembers decide view (seenMembers decide view members)
      (seenMembers decide view members')) :
    Agree decide view (.object members) (.object members')

/-- As many items on both sides, each seen through the view of the array. -/
inductive AgreeItems (decide : ν → String → Action ν) : ν → List Doc → List Doc → Prop where
  | nil {view : ν} : AgreeItems decide view [] []
  | cons {view : ν} {item item' : Doc} {rest rest' : List Doc}
    (hitem : Agree decide view item item') (hrest : AgreeItems decide view rest rest') :
    AgreeItems decide view (item :: rest) (item' :: rest')

/-- The same names in the same order, each with values that are seen alike.  A member that
is copied is seen whole, so there the values are the same. -/
inductive AgreeMembers (decide : ν → String → Action ν) :
    ν → List (String × Doc) → List (String × Doc) → Prop where
  | nil {view : ν} : AgreeMembers decide view [] []
  | copy {view : ν} {name : String} {value : Doc} {rest rest' : List (String × Doc)}
    (haction : decide view name = .copy) (hrest : AgreeMembers decide view rest rest') :
    AgreeMembers decide view ((name, value) :: rest) ((name, value) :: rest')
  | descend {view inner : ν} {name : String} {value value' : Doc}
    {rest rest' : List (String × Doc)} (haction : decide view name = .descend inner)
    (hvalue : Agree decide inner value value') (hrest : AgreeMembers decide view rest rest') :
    AgreeMembers decide view ((name, value) :: rest) ((name, value') :: rest')

end

variable {decide : ν → String → Action ν} {view inner : ν} {name : String}

/-! ### Members by what becomes of them -/

/-- A member that is skipped is not seen. -/
theorem seenMembers_of_skip (h : decide view name = .skip) (value : Doc)
    (rest : List (String × Doc)) :
    seenMembers decide view ((name, value) :: rest) = seenMembers decide view rest := by
  simp [seenMembers, h, Action.keeps]

/-- A member that is copied is seen. -/
theorem seenMembers_of_copy (h : decide view name = .copy) (value : Doc)
    (rest : List (String × Doc)) :
    seenMembers decide view ((name, value) :: rest) =
      (name, value) :: seenMembers decide view rest := by
  simp [seenMembers, h, Action.keeps]

/-- So is one that is entered. -/
theorem seenMembers_of_descend (h : decide view name = .descend inner) (value : Doc)
    (rest : List (String × Doc)) :
    seenMembers decide view ((name, value) :: rest) =
      (name, value) :: seenMembers decide view rest := by
  simp [seenMembers, h, Action.keeps]

/-! ### What is seen is what comes out -/

/-- The members that are skipped leave no trace.  The induction is on the members, by what
the rule decides about each. -/
theorem projectMembers_seenMembers (members : List (String × Doc)) :
    projectMembers decide view (seenMembers decide view members) =
      projectMembers decide view members := by
  induction members with
  | nil => rfl
  | cons member rest ih =>
    obtain ⟨name, value⟩ := member
    cases haction : decide view name with
    | skip => rw [seenMembers_of_skip haction, projectMembers_of_skip haction, ih]
    | copy =>
      rw [seenMembers_of_copy haction, projectMembers_of_copy haction,
        projectMembers_of_copy haction, ih]
    | descend inner =>
      rw [seenMembers_of_descend haction, projectMembers_of_descend haction,
        projectMembers_of_descend haction, ih]

mutual

/-- The same comes out of documents that agree.  The three lemmas go along with the three
parts of the agreement. -/
theorem Agree.project_eq {view : ν} {doc doc' : Doc} (h : Agree decide view doc doc') :
    doc.project decide view = doc'.project decide view := by
  match view, doc, doc', h with
  | _, _, _, .scalar value => rfl
  | _, _, _, .array hitems => rw [project, project, hitems.projectItems_eq]
  | _, .object members, .object members', .object hmembers =>
    have heq := hmembers.projectMembers_eq
    rw [projectMembers_seenMembers, projectMembers_seenMembers] at heq
    rw [project, project, heq]

/-- Items that agree one by one come out the same. -/
theorem AgreeItems.projectItems_eq {view : ν} {items items' : List Doc}
    (h : AgreeItems decide view items items') :
    projectItems decide view items = projectItems decide view items' := by
  match view, items, items', h with
  | _, _, _, .nil => rfl
  | _, _, _, .cons hitem hrest =>
    rw [projectItems, projectItems, hitem.project_eq, hrest.projectItems_eq]

/-- Members that agree come out the same: copied ones are equal, entered ones agree
inside. -/
theorem AgreeMembers.projectMembers_eq {view : ν} {members members' : List (String × Doc)}
    (h : AgreeMembers decide view members members') :
    projectMembers decide view members = projectMembers decide view members' := by
  match view, members, members', h with
  | _, _, _, .nil => rfl
  | _, _, _, .copy haction hrest =>
    rw [projectMembers_of_copy haction, projectMembers_of_copy haction, hrest.projectMembers_eq]
  | _, _, _, .descend haction hvalue hrest =>
    rw [projectMembers_of_descend haction, projectMembers_of_descend haction, hvalue.project_eq,
      hrest.projectMembers_eq]

end

/-! ### What comes out is all that is seen -/

/-- The first member that comes out is the first that is seen.  Members before it are
skipped, so the induction passes over them. -/
theorem exists_seenMembers_cons {members tail : List (String × Doc)} {shown : Doc}
    (h : projectMembers decide view members = (name, shown) :: tail) :
    ∃ value rest, seenMembers decide view members = (name, value) :: seenMembers decide view rest ∧
      projectMembers decide view [(name, value)] = [(name, shown)] ∧
      projectMembers decide view rest = tail := by
  induction members with
  | nil => cases h
  | cons member rest ih =>
    obtain ⟨n, value⟩ := member
    cases haction : decide view n with
    | skip =>
      rw [projectMembers_of_skip haction] at h
      rw [seenMembers_of_skip haction]
      exact ih h
    | copy =>
      rw [projectMembers_of_copy haction] at h
      cases h
      exact ⟨_, rest, seenMembers_of_copy haction _ rest, projectMembers_of_copy haction _ [], rfl⟩
    | descend inner =>
      rw [projectMembers_of_descend haction] at h
      cases h
      exact ⟨value, rest, seenMembers_of_descend haction value rest,
        projectMembers_of_descend haction value [], rfl⟩

/-- Where no member comes out none is seen.  A member that is seen comes out, so both lists
are empty together. -/
theorem seenMembers_eq_nil {members : List (String × Doc)}
    (h : projectMembers decide view members = []) : seenMembers decide view members = [] := by
  induction members with
  | nil => rfl
  | cons member rest ih =>
    obtain ⟨name, value⟩ := member
    cases haction : decide view name with
    | skip =>
      rw [projectMembers_of_skip haction] at h
      rw [seenMembers_of_skip haction]
      exact ih h
    | copy =>
      rw [projectMembers_of_copy haction] at h
      cases h
    | descend inner =>
      rw [projectMembers_of_descend haction] at h
      cases h

mutual

/-- Documents out of which the same comes agree: projection keeps what kind of document
there is. -/
theorem agree_of_project_eq {view : ν} {doc doc' : Doc}
    (h : doc.project decide view = doc'.project decide view) : Agree decide view doc doc' := by
  -- Both are scalars, both arrays or both objects; what comes out of different kinds is different.
  match doc, doc' with
  | .scalar value, .scalar value' =>
    cases h
    exact .scalar value
  | .array items, .array items' =>
    rw [project, project, array.injEq] at h
    exact .array (agreeItems_of_projectItems_eq h)
  | .object members, .object members' =>
    rw [project, project, object.injEq] at h
    exact .object (agreeMembers_of_projectMembers_eq h)
  | .scalar _, .array _ | .scalar _, .object _ | .array _, .scalar _ | .array _, .object _
  | .object _, .scalar _ | .object _, .array _ => cases h

/-- Of two arrays all items come out, in their order, so they agree one by one. -/
theorem agreeItems_of_projectItems_eq {view : ν} {items items' : List Doc}
    (h : projectItems decide view items = projectItems decide view items') :
    AgreeItems decide view items items' := by
  match items, items' with
  | [], [] => exact .nil
  | item :: rest, item' :: rest' =>
    rw [projectItems, projectItems, List.cons.injEq] at h
    exact .cons (agree_of_project_eq h.1) (agreeItems_of_projectItems_eq h.2)
  | [], _ :: _ | _ :: _, [] => cases h

/-- Of two objects the seen members come out.  The induction is on those of the first; the
member of the second that belongs to each is found further on. -/
theorem agreeMembers_of_projectMembers_eq {view : ν} {members members' : List (String × Doc)}
    (h : projectMembers decide view members = projectMembers decide view members') :
    AgreeMembers decide view (seenMembers decide view members)
      (seenMembers decide view members') := by
  match members with
  | [] =>
    rw [seenMembers_eq_nil h.symm]
    exact .nil
  | (name, value) :: rest =>
    cases haction : decide view name with
    | skip =>
      rw [projectMembers_of_skip haction] at h
      rw [seenMembers_of_skip haction]
      exact agreeMembers_of_projectMembers_eq h
    | copy =>
      rw [projectMembers_of_copy haction] at h
      -- The first member of the second object that is seen shows what this one shows, so it has its
      -- name.
      obtain ⟨value', rest', hseen, hshown, htail⟩ := exists_seenMembers_cons h.symm
      rw [projectMembers_of_copy haction] at hshown
      cases hshown
      rw [seenMembers_of_copy haction, hseen]
      exact .copy haction (agreeMembers_of_projectMembers_eq htail.symm)
    | descend inner =>
      rw [projectMembers_of_descend haction] at h
      obtain ⟨value', rest', hseen, hshown, htail⟩ := exists_seenMembers_cons h.symm
      rw [projectMembers_of_descend haction] at hshown
      have hvalue : value'.project decide inner = value.project decide inner := by
        simpa [projectMembers] using hshown
      rw [seenMembers_of_descend haction, hseen]
      exact .descend haction (agree_of_project_eq hvalue.symm)
        (agreeMembers_of_projectMembers_eq htail.symm)

end

/-- **What a view sees of a document is just what comes out of it.**  Both directions go by
induction on the documents, member by member of those that are seen. -/
theorem agree_iff_project_eq {doc doc' : Doc} :
    Agree decide view doc doc' ↔ doc.project decide view = doc'.project decide view :=
  ⟨Agree.project_eq, agree_of_project_eq⟩

end Doc

end FieldMask
