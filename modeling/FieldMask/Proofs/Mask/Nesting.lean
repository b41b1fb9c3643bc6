import FieldMask.Proofs.Mask.Layers

namespace FieldMask

/-!
# How deep a mask is nested

* `Fields.nesting`, `Node.nesting` — how many subtrees lie inside each other.
* `Fields.nesting_insert` — with a field of a new name, a level is as deep as the deeper of the two.
* `Fields.nesting_le_iff` — a level in order is as deep as what it says about each name allows.
* `Fields.nesting_overlay_le`, `Mask.nesting_overlayAll_le` — layers are no deeper than the deepest
  of them.
-/

/-- How many subtrees of some fields lie inside each other. -/
def Fields.nesting : Fields → Nat
  | nil => 0
  | leaf _ _ rest => rest.nesting
  | subtree _ _ _ children rest => max (children.nesting + 1) rest.nesting

/-- How many subtrees lie inside each other in a node, its own among them. -/
def Node.nesting (node : Node Level) : Nat :=
  match node.children with
  | none => 0
  | some level => level.fields.nesting + 1

namespace Fields

@[simp] theorem nesting_nil : nil.nesting = 0 := rfl

/-- Fields are as deep as the deeper of the first one and the others. -/
@[simp] theorem nesting_cons (name : String) (node : Node Level) (rest : Fields) :
    (cons name node rest).nesting = max node.nesting rest.nesting := by
  obtain ⟨polarity, _ | level⟩ := node
  · exact (Nat.zero_max _).symm
  · rfl

/-- A field of a new name changes the nesting by its own alone.  It replaces no other one,
so nothing that was deep is lost. -/
theorem nesting_insert {name : String} {node : Node Level} {fields : Fields}
    (h : fields.find? name = none) :
    (fields.insert name node).nesting = max node.nesting fields.nesting := by
  induction fields using consInduction with
  | nil => exact nesting_cons name node nil
  | cons n nd rest _ ih =>
    rw [find?_cons] at h
    have hne : n ≠ name := by
      rintro rfl
      rw [if_pos rfl] at h
      cases h
    rw [if_neg hne] at h
    rw [insert_cons]
    by_cases hlt : name < n
    · rw [if_pos hlt, nesting_cons]
    · rw [if_neg hlt, if_neg (Ne.symm hne), nesting_cons, nesting_cons, ih h]
      exact Nat.max_left_comm ..

/-- A level in order is no deeper than what it says about each of its names.  The bound is
asked of what is found, so the order must hide no field. -/
theorem nesting_le_iff {fields : Fields} (h : fields.Ordered) {n : Nat} :
    fields.nesting ≤ n ↔ ∀ name node, fields.find? name = some node → node.nesting ≤ n := by
  induction fields using consInduction with
  | nil => simp
  | cons name node rest _ ih =>
    obtain ⟨hlt, -, hrest⟩ := ordered_cons.1 h
    rw [nesting_cons, Nat.max_le, ih hrest]
    constructor
    · rintro ⟨hnode, hfound⟩ key nd hfind
      rw [find?_cons] at hfind
      by_cases hkey : name = key
      · rw [if_pos hkey] at hfind
        cases hfind
        exact hnode
      · rw [if_neg hkey] at hfind
        exact hfound key nd hfind
    · intro hfound
      refine ⟨hfound name node (by rw [find?_cons, if_pos rfl]), ?_⟩
      intro key nd hfind
      exact hfound key nd (find?_cons_of_find? hlt hfind)

end Fields

/-! ### Layers -/

/-- A node is one deeper than the level that counts below it. -/
theorem Node.nesting_eq_of_subLevel? {node : Node Level} {level : Level}
    (h : node.subLevel? = some level) : node.nesting = level.fields.nesting + 1 := by
  rw [nesting, (subLevel?_eq_some_iff.1 h).1]

/-- Layered fields are no deeper than both layers.  The induction goes down the levels of
the upper fields, and the bound goes down with them. -/
theorem Fields.nesting_overlay_le {base other : Fields} (hbase : base.Ordered)
    (hother : other.Ordered) {n : Nat} (hbaseLe : base.nesting ≤ n) (hotherLe : other.nesting ≤ n) :
    (base.overlay other).nesting ≤ n := by
  induction base using belowInduction generalizing other n with
  | step base ih =>
    rw [nesting_le_iff (ordered_overlay hbase hother)]
    rw [nesting_le_iff hbase] at hbaseLe
    rw [nesting_le_iff hother] at hotherLe
    intro name node hfind
    rcases find?_overlay_cases hother hfind with
      hupper | hlower | ⟨upper, lower, hupper, hlower, rfl⟩
    · exact hbaseLe name node hupper
    · exact hotherLe name node hlower
    · have hupperLe := hbaseLe name upper hupper
      have hlowerLe := hotherLe name lower hlower
      refine Node.overlay_cases (motive := fun node => node.nesting ≤ n) ?_ ?_ ?_
      · intro _
        exact hupperLe
      · -- The level of the lower node is taken over as it is.
        intro level _ hlevel
        rwa [Node.nesting_eq_of_subLevel? hlevel] at hlowerLe
      · intro level level' hlevel hlevel'
        -- The two levels have one subtree less around them than their nodes.
        rw [Node.nesting_eq_of_subLevel? hlevel] at hupperLe
        rw [Node.nesting_eq_of_subLevel? hlevel'] at hlowerLe
        have hlevelOrdered := ordered_of_subLevel? (ordered_of_find? hbase hupper) hlevel
        have hlevelOrdered' := ordered_of_subLevel? (ordered_of_find? hother hlower) hlevel'
        have hchildren := (Node.subLevel?_eq_some_iff.1 hlevel).1
        have hjoined := ih name upper level hupper hchildren hlevelOrdered hlevelOrdered'
          (Nat.le_sub_one_of_lt hupperLe) (Nat.le_sub_one_of_lt hlowerLe)
        show (level.fields.overlay level'.fields).nesting + 1 ≤ n
        omega

/-- Layers are no deeper than the deepest of them. -/
theorem Mask.nesting_overlayAll_le {masks : List Mask} {n : Nat}
    (h : ∀ mask ∈ masks, mask.fields.nesting ≤ n) : (overlayAll masks).fields.nesting ≤ n := by
  have hempty : empty.fields.nesting ≤ n := Nat.zero_le n
  refine List.foldlRecOn masks overlay (motive := fun mask => mask.fields.nesting ≤ n) hempty ?_
  intro base hbase mask hmask
  exact Fields.nesting_overlay_le base.ordered mask.ordered hbase (h mask hmask)

end FieldMask
