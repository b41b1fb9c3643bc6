import FieldMask.Proofs.Document.Projection

namespace FieldMask.Doc

/-!
# Depth and names of a document

* `Doc.depth` — how many containers of a document lie inside each other.
* `Doc.Avoids` — no member of a document has a given name.
* `depth_through_le`, `Avoids.through` — a mask makes no document deeper and gives no new names.
-/

mutual

/-- How many containers of a document lie inside each other. -/
def depth : Doc → Nat
  | scalar _ => 0
  | array items => itemsDepth items + 1
  | object members => membersDepth members + 1

/-- The depth of the deepest of some items. -/
def itemsDepth : List Doc → Nat
  | [] => 0
  | item :: rest => max item.depth (itemsDepth rest)

/-- The depth of the deepest of some members. -/
def membersDepth : List (String × Doc) → Nat
  | [] => 0
  | (_, value) :: rest => max value.depth (membersDepth rest)

end

mutual

/-- No member of a document has a given name. -/
def Avoids (name : String) : Doc → Prop
  | scalar _ => True
  | array items => ItemsAvoid name items
  | object members => MembersAvoid name members

/-- No member of some items has a given name. -/
def ItemsAvoid (name : String) : List Doc → Prop
  | [] => True
  | item :: rest => Avoids name item ∧ ItemsAvoid name rest

/-- Neither some members nor any member inside of them has a given name. -/
def MembersAvoid (name : String) : List (String × Doc) → Prop
  | [] => True
  | (key, value) :: rest => key ≠ name ∧ Avoids name value ∧ MembersAvoid name rest

end

section Project

variable {ν : Type} {decide : ν → String → Action ν} {name : String}

mutual

/-- Under any rule a document comes out no deeper than it was. -/
theorem depth_project_le (doc : Doc) (view : ν) : (doc.project decide view).depth ≤ doc.depth := by
  cases doc with
  | scalar value => exact Nat.le_refl _
  | array items => exact Nat.succ_le_succ (itemsDepth_project_le items view)
  | object members => exact Nat.succ_le_succ (membersDepth_project_le members view)

/-- So do items. -/
theorem itemsDepth_project_le (items : List Doc) (view : ν) :
    itemsDepth (projectItems decide view items) ≤ itemsDepth items := by
  cases items with
  | nil => exact Nat.le_refl _
  | cons item rest =>
    have hitem := depth_project_le item view
    have hrest := itemsDepth_project_le rest view
    simp only [projectItems, itemsDepth]
    omega

/-- So do members: what is dropped or entered only loses depth.  The three actions are the
three cases of the induction. -/
theorem membersDepth_project_le (members : List (String × Doc)) (view : ν) :
    membersDepth (projectMembers decide view members) ≤ membersDepth members := by
  match members with
  | [] => exact Nat.le_refl _
  | (key, value) :: rest =>
    have hrest := membersDepth_project_le rest view
    rw [projectMembers]
    cases decide view key with
    | skip => exact Nat.le_trans hrest (Nat.le_max_right ..)
    | copy =>
      simp only [membersDepth]
      omega
    | descend inner =>
      have hvalue := depth_project_le value inner
      simp only [membersDepth]
      omega

end

mutual

/-- Under any rule a document gets no new names. -/
theorem Avoids.project (doc : Doc) (view : ν) (h : doc.Avoids name) :
    (doc.project decide view).Avoids name := by
  cases doc with
  | scalar value => trivial
  | array items => exact ItemsAvoid.project items view h
  | object members => exact MembersAvoid.project members view h

/-- Nor do items. -/
theorem ItemsAvoid.project (items : List Doc) (view : ν) (h : ItemsAvoid name items) :
    ItemsAvoid name (projectItems decide view items) := by
  cases items with
  | nil => trivial
  | cons item rest => exact ⟨Avoids.project item view h.1, ItemsAvoid.project rest view h.2⟩

/-- Nor do members, each of which keeps its own name or is dropped.  The three actions are
the three cases of the induction. -/
theorem MembersAvoid.project (members : List (String × Doc)) (view : ν)
    (h : MembersAvoid name members) : MembersAvoid name (projectMembers decide view members) := by
  match members with
  | [] => trivial
  | (key, value) :: rest =>
    obtain ⟨hkey, hvalue, hrest⟩ := h
    have hrest' := MembersAvoid.project rest view hrest
    rw [projectMembers]
    cases decide view key with
    | skip => exact hrest'
    | copy => exact ⟨hkey, hvalue, hrest'⟩
    | descend inner => exact ⟨hkey, Avoids.project value inner hvalue, hrest'⟩

end

end Project

/-! ### Through a mask -/

/-- Through a mask, or without one, a document gets no deeper. -/
theorem depth_through_le (mask : Option Mask) (doc : Doc) :
    (doc.through mask).depth ≤ doc.depth := by
  rw [through]
  cases View.ofMask? mask with
  | none => exact Nat.le_refl _
  | some view => exact depth_project_le doc view

/-- And it gets no new names. -/
theorem Avoids.through {name : String} {doc : Doc} (mask : Option Mask) (h : doc.Avoids name) :
    (doc.through mask).Avoids name := by
  rw [Doc.through]
  cases View.ofMask? mask with
  | none => exact h
  | some view => exact Avoids.project doc view h

end FieldMask.Doc
