import FieldMask.Proofs.Expression.Soundness
import FieldMask.Proofs.Flat.Listing

namespace FieldMask

/-!
# The forms of a flat projection

Which form a mask is flattened to, and which paths it then lists, are found by two walks down its
levels.  The one stops below included fields, as they have decided already; the other goes on below
fields of either polarity.

* `FlatProjection.kind_eq_empty_iff`, `FlatProjection.kind_eq_inclusion_iff`,
  `FlatProjection.kind_eq_exclusion_iff` — the form, by what the mask mentions.
* `FlatProjection.mem_paths_iff_intercalate` — the paths of an inclusion, name by name.
* `Expression.contains_empty_of_parse` — no name in an expression is empty.
* `flat_projection_lists` — the form and the paths of every mask.
-/

/-- A name in an expression has some character. -/
theorem Expression.contains_empty_of_parse {limit : Option Nat} {text : String} {mask : Mask}
    (h : Expression.parse limit text = .ok mask) : mask.contains "" = false := by
  obtain ⟨-, hfields⟩ := (denotes_of_parse h).wellFormed
  rw [Mask.contains, Fields.contains, ← Bool.not_eq_true, Option.isSome_iff_exists]
  rintro ⟨node, hfind⟩
  exact (hfields.node hfind).plain.isName.ne_nil rfl

namespace FlatProjection

variable {mask : Mask}

/-! ### The form -/

/-- Which form a mask gets that mentions a name, by whether its root asks for an
inclusion. -/
theorem kind_ofMask_of_some (h : mask.isEmpty = false) :
    (ofMask (some mask)).kind =
      if mask.fields.needsInclusion then .inclusion else .exclusion := by
  rw [ofMask_of_some h]
  split <;> rfl

/-- No mask, and a mask that mentions no name, are flattened to the empty form. -/
theorem ofMask_of_isEmpty {mask : Option Mask} (h : ∀ present ∈ mask, present.isEmpty = true) :
    ofMask mask = .ofPaths .empty [] := by
  have hnone : mask.filter (!·.isEmpty) = none := by simpa [Option.filter_eq_none_iff] using h
  rw [ofMask, hnone]

/-- A mask that mentions no name counts as an absent one. -/
theorem kind_eq_empty_iff (mask : Option Mask) :
    (ofMask mask).kind = .empty ↔ ∀ present ∈ mask, present.isEmpty = true := by
  constructor
  · rintro hkind present rfl
    rw [← Bool.not_eq_false]
    intro hpresent
    rw [kind_ofMask_of_some hpresent] at hkind
    split at hkind <;> cases hkind
  · intro h
    rw [ofMask_of_isEmpty h]
    rfl

/-- A mask that mentions a name is an inclusion if it reaches an included field. -/
theorem kind_eq_inclusion_iff (h : mask.isEmpty = false) :
    (ofMask (some mask)).kind = .inclusion ↔ mask.fields.ReachesIncluded := by
  rw [kind_ofMask_of_some h, ← Fields.needsInclusion_iff mask.ordered]
  simp

/-- A mask that mentions a name is an exclusion if it reaches none. -/
theorem kind_eq_exclusion_iff (h : mask.isEmpty = false) :
    (ofMask (some mask)).kind = .exclusion ↔ ¬mask.fields.ReachesIncluded := by
  rw [kind_ofMask_of_some h, ← Fields.needsInclusion_iff mask.ordered]
  simp

/-! ### The paths -/

/-- **The names of a listed path stand behind each other with a dot between two of them.**  Only an
empty name at the root could be taken for no name yet. -/
theorem mem_paths_iff_intercalate (hmask : mask.isEmpty = false)
    (hkind : (ofMask (some mask)).kind = .inclusion) (hroot : mask.contains "" = false)
    {path : String} :
    path ∈ (ofMask (some mask)).paths ↔
      ∃ names node, mask.fields.nodeAt? names = some node ∧ node.Asked ∧
        path = ".".intercalate names := by
  have hpath {names : List String} {node : Node Level}
      (h : mask.fields.nodeAt? names = some node) :
      Fields.pathOf names.reverse = ".".intercalate names := by
    apply Fields.pathOf_eq_intercalate
    intro hfirst
    rw [Mask.contains, Fields.contains_of_nodeAt? h hfirst] at hroot
    cases hroot
  rw [mem_paths_inclusion hmask hkind]
  constructor
  · rintro ⟨names, node, hnode, hasked, rfl⟩
    exact ⟨names, node, hnode, hasked, hpath hnode⟩
  · rintro ⟨names, node, hnode, hasked, rfl⟩
    exact ⟨names, node, hnode, hasked, (hpath hnode).symm⟩

end FlatProjection

/-- **A flat projection lists just the right paths in the right form.**  The form is empty if there
is no mask or it mentions no name.  For any other mask it is an inclusion, if an included field can
be reached through excluded ones, and else an exclusion.  An inclusion lists the dotted paths that
lead to the included fields with nothing below them, through levels below fields of either polarity,
unless the root has a field with an empty name, as no parsed mask has; an exclusion lists the
excluded names of the root with nothing below them. -/
theorem flat_projection_lists (mask : Option Mask) :
    ((FlatProjection.ofMask mask).kind = .empty ↔ ∀ present ∈ mask, present.isEmpty = true) ∧
      (∀ present ∈ mask, present.isEmpty = false →
        ((FlatProjection.ofMask mask).kind = .inclusion ↔ present.fields.ReachesIncluded) ∧
          ((FlatProjection.ofMask mask).kind = .exclusion ↔ ¬present.fields.ReachesIncluded) ∧
          ((FlatProjection.ofMask mask).kind = .inclusion → present.contains "" = false →
            ∀ path, path ∈ (FlatProjection.ofMask mask).paths ↔
              ∃ names node, present.fields.nodeAt? names = some node ∧
                node.polarity = .included ∧ node.subLevel? = none ∧
                path = ".".intercalate names) ∧
          ((FlatProjection.ofMask mask).kind = .exclusion →
            ∀ path, path ∈ (FlatProjection.ofMask mask).paths ↔
              ∃ node, present.fields.find? path = some node ∧
                node.polarity = .excluded ∧ node.subLevel? = none)) ∧
      ∀ limit text parsed, Expression.parse limit text = .ok parsed →
        parsed.contains "" = false := by
  refine ⟨FlatProjection.kind_eq_empty_iff mask, ?_, ?_⟩
  · rintro present rfl hpresent
    refine ⟨FlatProjection.kind_eq_inclusion_iff hpresent,
      FlatProjection.kind_eq_exclusion_iff hpresent, ?_, ?_⟩
    · intro hkind hroot path
      simpa only [Node.Asked, and_assoc] using
        FlatProjection.mem_paths_iff_intercalate hpresent hkind hroot
    · intro hkind path
      exact FlatProjection.mem_paths_exclusion hpresent hkind
  · intro limit text parsed hparse
    exact Expression.contains_empty_of_parse hparse

/-- An excluded field above an included one whose name is empty, an included field above an excluded
one, and a field above an empty level; and a mask that includes nothing at any level. -/
theorem flat_projection_lists_forms :
    let mixed : Mask := ⟨⟨.included, .subtree "a" .excluded .excluded
      (.leaf "" .included (.leaf "b" .excluded .nil))
      (.subtree "c" .included .included (.subtree "d" .excluded .included
        (.leaf "e" .included .nil) .nil)
      (.subtree "f" .included .included .nil (.leaf "g" .excluded .nil)))⟩, by decide⟩
    let plain : Mask := ⟨⟨.excluded, .leaf "x" .excluded
      (.subtree "y" .excluded .excluded (.leaf "z" .excluded .nil)
      (.subtree "z" .excluded .included .nil .nil))⟩, by decide⟩
    (mixed.isEmpty = false ∧ mixed.contains "" = false ∧ mixed.fields.ReachesIncluded ∧
      (FlatProjection.ofMask (some mixed)).paths = ["a.", "c.d.e", "f"] ∧
      ∀ path, path ∈ ["a.", "c.d.e", "f"] ↔
        ∃ names node, mixed.fields.nodeAt? names = some node ∧
          node.polarity = .included ∧ node.subLevel? = none ∧ path = ".".intercalate names) ∧
    (plain.isEmpty = false ∧ ¬plain.fields.ReachesIncluded ∧
      (FlatProjection.ofMask (some plain)).paths = ["x", "z"] ∧
      ∀ path, path ∈ ["x", "z"] ↔
        ∃ node, plain.fields.find? path = some node ∧
          node.polarity = .excluded ∧ node.subLevel? = none) ∧
    ∃ parsed, Expression.parse none "-a:(b)" = .ok parsed ∧ parsed.contains "" = false := by
  intro mixed plain
  have hmixed : (FlatProjection.ofMask (some mixed)).paths = ["a.", "c.d.e", "f"] := by decide
  have hplain : (FlatProjection.ofMask (some plain)).paths = ["x", "z"] := by decide
  obtain ⟨-, hform, hparsed⟩ := flat_projection_lists (some mixed)
  obtain ⟨-, hform', -⟩ := flat_projection_lists (some plain)
  obtain ⟨hreaches, -, hinclusion, -⟩ := hform mixed rfl rfl
  obtain ⟨-, hreaches', -, hexclusion⟩ := hform' plain rfl rfl
  let parsed : Mask := Mask.empty.put "a"
    ⟨.excluded, some (Mask.empty.put "b" ⟨.included, none⟩)⟩
  have hparse : Expression.parse none "-a:(b)" = .ok parsed :=
    Expression.parse_of_runFor 20 rfl rfl
  refine ⟨⟨rfl, by decide, hreaches.1 (by decide), hmixed, ?_⟩,
    ⟨rfl, hreaches'.1 (by decide), hplain, ?_⟩, parsed, hparse, hparsed none _ parsed hparse⟩
  · rw [← hmixed]
    exact hinclusion (by decide) (by decide)
  · rw [← hplain]
    exact hexclusion (by decide)

/-- A root field with an empty name leaves no trace in the paths below it. -/
example :
    let mask : Mask := ⟨⟨.included, .subtree "" .included .included (.leaf "a" .included .nil)
      .nil⟩, by decide⟩
    (FlatProjection.ofMask (some mask)).paths = ["a"] := by
  decide

end FieldMask
