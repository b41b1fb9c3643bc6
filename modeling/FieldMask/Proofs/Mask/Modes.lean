import FieldMask.Proofs.Expression.WellFormed
import FieldMask.Proofs.Mask.Layers

namespace FieldMask

/-!
# The modes of a mask

* `Level.FollowsFields` — the rule for the mode of a level, said without deriving it.
* `Fields.Throughout`, `Level.Throughout`, `Node.Throughout` — a rule holds of every level.
* `Fields.throughout_iff_find?` — of a level in order it is enough to look up each name.
* `Mask.Derived` — the root's mode is the derived one, and a rule holds of every level below;
  `Mask.Derived.throughout` — then the rule holds of the root too, if it holds of derived modes.
* `Mask.Derived.put`, `Mask.derived_overlay`, `Mask.WellFormed.derived` — what the operations on
  masks keep of it.
-/

/-! ### The rule -/

/-- The rule for a level's mode: unmentioned names are kept if the level has fields and all of them
are excluded, and dropped otherwise. -/
def Level.FollowsFields (level : Level) : Prop :=
  level.mode = .excluded ↔
    level.fields.isEmpty = false ∧ ∀ entry ∈ level.fields.entries, entry.2.polarity = .excluded

namespace Fields

/-- The derived mode is `excluded` if there are fields and all of them are excluded.  It is
computed from which polarities occur among the fields. -/
theorem derivedMode_eq_excluded_iff (fields : Fields) :
    fields.derivedMode = .excluded ↔
      fields.isEmpty = false ∧ ∀ entry ∈ fields.entries, entry.2.polarity = .excluded := by
  have hpolarity (polarity : Polarity) : ¬polarity = .included ↔ polarity = .excluded := by
    cases polarity <;> simp
  -- What is computed: an exclusion occurs and no inclusion does.
  have hderived : fields.derivedMode = .excluded ↔
      .excluded ∈ fields.entries.map (·.2.polarity) ∧
        ∀ polarity ∈ fields.entries.map (·.2.polarity), ¬polarity = .included := by
    rw [List.forall_mem_ne', derivedMode]
    simp only [ite_eq_left_iff, reduceCtorEq, imp_false, not_not, Bool.and_eq_true,
      Bool.not_eq_true', List.contains_eq_mem, decide_eq_true_eq, decide_eq_false_iff_not]
  rw [hderived, List.forall_mem_map]
  simp only [hpolarity]
  refine and_congr_left ?_
  intro hall
  -- Where all are excluded, some field is if there is one.
  cases fields using consInduction with
  | nil => simp [isEmpty, entries]
  | cons name node rest =>
    have hmem : (name, node) ∈ (cons name node rest).entries := by
      rw [entries_cons]
      exact List.mem_cons_self
    refine iff_of_true ?_ (isEmpty_eq_false_iff.2 ⟨name, node, by rw [find?_cons, if_pos rfl]⟩)
    exact List.mem_map.2 ⟨_, hmem, hall _ hmem⟩

/-- A derived mode follows the fields. -/
theorem followsFields_derivedMode (fields : Fields) :
    Level.FollowsFields ⟨fields.derivedMode, fields⟩ :=
  fields.derivedMode_eq_excluded_iff

end Fields

/-! ### Every level -/

/-- A rule holds of every level below some fields, be it empty or not. -/
def Fields.Throughout (rule : Level → Prop) : Fields → Prop
  | nil => True
  | leaf _ _ rest => rest.Throughout rule
  | subtree _ _ mode children rest =>
    (rule ⟨mode, children⟩ ∧ children.Throughout rule) ∧ rest.Throughout rule

/-- A rule holds of a level and of every level below it. -/
def Level.Throughout (rule : Level → Prop) (level : Level) : Prop :=
  rule level ∧ level.fields.Throughout rule

/-- A rule holds of every level below a node. -/
def Node.Throughout (rule : Level → Prop) (node : Node Level) : Prop :=
  ∀ level, node.children = some level → level.Throughout rule

section Rule

variable {rule : Level → Prop}

namespace Node

/-- Nothing is below a plain decision. -/
theorem throughout_leaf (polarity : Polarity) : Node.Throughout rule ⟨polarity, none⟩ := by
  rintro level ⟨⟩

/-- Below a node with a level are that level and all levels below it. -/
theorem throughout_subtree {polarity : Polarity} {level : Level} :
    Node.Throughout rule ⟨polarity, some level⟩ ↔ level.Throughout rule := by
  constructor
  · intro h
    exact h level rfl
  · rintro h _ ⟨⟩
    exact h

/-- In particular the rule holds of the level that counts. -/
theorem Throughout.subLevel? {node : Node Level} (h : node.Throughout rule) {level : Level}
    (hsub : node.subLevel? = some level) : level.Throughout rule :=
  h level (subLevel?_eq_some_iff.1 hsub).1

end Node

namespace Fields

/-- Field by field: a rule holds below the first one and below the others. -/
theorem throughout_cons {name : String} {node : Node Level} {rest : Fields} :
    (cons name node rest).Throughout rule ↔ node.Throughout rule ∧ rest.Throughout rule := by
  obtain ⟨polarity, _ | level⟩ := node
  · rw [and_iff_right (Node.throughout_leaf polarity)]
    rfl
  · rw [Node.throughout_subtree]
    rfl

/-- What holds of every level holds of every level below some fields. -/
theorem throughout_true (fields : Fields) : fields.Throughout fun _ => True := by
  induction fields using consInduction with
  | nil => trivial
  | cons name node rest hbelow ih =>
    rw [throughout_cons]
    refine ⟨?_, ih⟩
    intro level hchildren
    exact ⟨trivial, hbelow level hchildren⟩

/-- A rule holds below a level in order if it does below each name.  Order is needed because
a look-up never gets to a second field of the same name. -/
theorem throughout_iff_find? {fields : Fields} (hordered : fields.Ordered) :
    fields.Throughout rule ↔
      ∀ name node, fields.find? name = some node → node.Throughout rule := by
  induction fields using consInduction with
  | nil => exact iff_of_true trivial nofun
  | cons name node rest _ ih =>
    obtain ⟨hlt, -, hrest⟩ := ordered_cons.1 hordered
    rw [throughout_cons, ih hrest]
    constructor
    · rintro ⟨hnode, hbehind⟩ key nd hfind
      rw [find?_cons] at hfind
      by_cases hkey : name = key
      · rw [if_pos hkey] at hfind
        cases hfind
        exact hnode
      · rw [if_neg hkey] at hfind
        exact hbehind key nd hfind
    · intro h
      constructor
      · exact h name node (by rw [find?_cons, if_pos rfl])
      · intro key nd hfind
        exact h key nd (find?_cons_of_find? hlt hfind)

/-- A field below which the rule holds may be inserted. -/
theorem throughout_insert {fields : Fields} (hordered : fields.Ordered)
    (h : fields.Throughout rule) {name : String} {node : Node Level} (hnodeOrdered : node.Ordered)
    (hnode : node.Throughout rule) : (fields.insert name node).Throughout rule := by
  rw [throughout_iff_find? (ordered_insert hnodeOrdered hordered)]
  intro key nd hfind
  rw [find?_insert] at hfind
  split at hfind
  · cases hfind
    exact hnode
  · exact (throughout_iff_find? hordered).1 h key nd hfind

/-- Well-formed fields keep a rule that holds of derived modes: every mode below is derived.
By induction on the fields and those below them. -/
theorem WellFormed.throughout (hrule : ∀ fields : Fields, rule ⟨fields.derivedMode, fields⟩)
    {fields : Fields} (h : fields.WellFormed) : fields.Throughout rule := by
  induction fields using consInduction with
  | nil => trivial
  | cons name node rest hbelow ih =>
    obtain ⟨hnode, hrest⟩ := wellFormed_cons.1 h
    rw [throughout_cons]
    refine ⟨?_, ih hrest⟩
    intro level hchildren
    obtain ⟨-, hmode, hfields⟩ := hnode.below level hchildren
    have hlevel : level = ⟨level.fields.derivedMode, level.fields⟩ :=
      congrArg (Level.mk · level.fields) hmode
    exact ⟨hlevel ▸ hrule level.fields, hbelow level hchildren hfields⟩

/-- **Layered fields keep a rule that holds of derived modes**: a level below them comes from one
side as it is, or is the join of two with a derived mode. -/
theorem throughout_overlay (hrule : ∀ fields : Fields, rule ⟨fields.derivedMode, fields⟩)
    {base other : Fields} (hbase : base.Ordered) (hother : other.Ordered)
    (h : base.Throughout rule) (h' : other.Throughout rule) :
    (base.overlay other).Throughout rule := by
  induction base using belowInduction generalizing other with
  | step base ih =>
    have hupper := (throughout_iff_find? hbase).1 h
    have hlower := (throughout_iff_find? hother).1 h'
    rw [throughout_iff_find? (ordered_overlay hbase hother)]
    -- What is found is the upper node, the lower one, or the join of both.
    intro name node hfind
    rcases find?_overlay_cases hother hfind with hfind | hfind | ⟨upper, lower, hu, hl, rfl⟩
    · exact hupper name node hfind
    · exact hlower name node hfind
    · -- And the join has the upper level, the lower one, or the join of both.
      refine Node.overlay_cases (motive := Node.Throughout rule) ?_ ?_ ?_
      · intro _
        exact hupper name upper hu
      · intro level _ hsub
        exact Node.throughout_subtree.2 ((hlower name lower hl).subLevel? hsub)
      · intro level level' hsub hsub'
        have hlevel := ordered_of_subLevel? (ordered_of_find? hbase hu) hsub
        have hlevel' := ordered_of_subLevel? (ordered_of_find? hother hl) hsub'
        have hchildren := (Node.subLevel?_eq_some_iff.1 hsub).1
        have hbelow := ((hupper name upper hu).subLevel? hsub).2
        have hbelow' := ((hlower name lower hl).subLevel? hsub').2
        exact Node.throughout_subtree.2
          ⟨hrule _, ih name upper level hu hchildren hlevel hlevel' hbelow hbelow'⟩

end Fields

/-! ### Masks -/

/-- The mode of the root is the derived one, and a rule holds of every level below. -/
structure Mask.Derived (rule : Level → Prop) (mask : Mask) : Prop where
  root : mask.HasDerivedMode
  below : mask.fields.Throughout rule

namespace Mask

variable {mask : Mask}

/-- A rule that holds of derived modes holds of a root with one. -/
theorem HasDerivedMode.obeys (hrule : ∀ fields : Fields, rule ⟨fields.derivedMode, fields⟩)
    (h : mask.HasDerivedMode) : rule mask.toLevel := by
  have hlevel : mask.toLevel = ⟨mask.fields.derivedMode, mask.fields⟩ :=
    congrArg (Level.mk · mask.fields) h
  rw [hlevel]
  exact hrule mask.fields

/-- So a rule of derived modes holds of the root, too, and of every level. -/
theorem Derived.throughout (hrule : ∀ fields : Fields, rule ⟨fields.derivedMode, fields⟩)
    (h : mask.Derived rule) : mask.toLevel.Throughout rule :=
  ⟨h.root.obeys hrule, h.below⟩

/-- There is nothing below the root of the empty mask. -/
theorem derived_empty : empty.Derived rule := ⟨rfl, trivial⟩

/-- Whatever mode a mask had, that of its root is derived anew when a field is put into
it. -/
theorem derived_put (h : mask.fields.Throughout rule) (name : String) {node : Node Mask}
    (hnode : node.raw.Throughout rule) : (mask.put name node).Derived rule :=
  ⟨rfl, Fields.throughout_insert mask.ordered h node.ordered_raw hnode⟩

/-- So it is when masks are laid over each other. -/
theorem derived_overlay (hrule : ∀ fields : Fields, rule ⟨fields.derivedMode, fields⟩)
    {base other : Mask} (h : base.fields.Throughout rule) (h' : other.fields.Throughout rule) :
    (base.overlay other).Derived rule :=
  ⟨rfl, Fields.throughout_overlay hrule base.ordered other.ordered h h'⟩

/-- A mask that some expression denotes has derived modes everywhere. -/
theorem WellFormed.derived (hrule : ∀ fields : Fields, rule ⟨fields.derivedMode, fields⟩)
    (h : mask.WellFormed) : mask.Derived rule :=
  ⟨h.1, h.2.throughout hrule⟩

end Mask

end Rule

end FieldMask
