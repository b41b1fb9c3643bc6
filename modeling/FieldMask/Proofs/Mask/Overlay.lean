import FieldMask.Mask.Overlay
import FieldMask.Proofs.Mask.Lookup
import FieldMask.Proofs.Mask.Path

namespace FieldMask

/-!
# What layered masks say

Laying one mask over another is a union of what both say, name by name and path by path: where only
one of them says something it counts as it is, and where both do their nodes are joined.

* `Level.overlay`, `Node.overlay` — the join of two levels and of two nodes.
* `Fields.find?_overlay` — what layered fields say about a name.
* `Node.subLevel?_overlay` — what lies below a joined node.
* `Fields.nodeAt?_overlay` — what layered fields say at the end of a path.
* `overlay_unites_paths` — the named paths of layered masks, their polarities and their levels.
-/

/-- A level over another one, with the mode that the fields of both derive. -/
def Level.overlay (base other : Level) : Level :=
  let merged := base.fields.overlay other.fields
  ⟨merged.derivedMode, merged⟩

/-- What is said where both sides say something: the upper node as it is, unless the lower one has a
level to add. -/
def Node.overlay (base other : Node Level) : Node Level :=
  match other.subLevel? with
  | none => base
  | some _ => ⟨base.polarity, base.subLevel?.merge Level.overlay other.subLevel?⟩

namespace Node

/-! ### Joined nodes -/

variable {base other : Node Level}

/-- The level that counts below a node is its own, if that mentions any name. -/
theorem subLevel?_eq_some_iff {node : Node Level} {level : Level} :
    node.subLevel? = some level ↔ node.children = some level ∧ level.fields.isEmpty = false := by
  simp [subLevel?, Option.filter_eq_some_iff]

/-- A joined node has the polarity of the upper one, whatever the lower one says. -/
@[simp] theorem polarity_overlay (base other : Node Level) :
    (base.overlay other).polarity = base.polarity := by
  rw [overlay]
  split <;> rfl

/-- A lower node without a level adds nothing. -/
theorem overlay_of_subLevel?_none (h : other.subLevel? = none) : base.overlay other = base := by
  rw [overlay, h]

/-- A lower node with a level is joined in. -/
theorem overlay_of_subLevel?_some {level : Level} (h : other.subLevel? = some level) :
    base.overlay other =
      ⟨base.polarity, base.subLevel?.merge Level.overlay other.subLevel?⟩ := by
  rw [overlay, h]

/-- A joined node is the upper one, the upper one with the level of the lower one, or the upper one
with the join of both levels. -/
theorem overlay_cases {motive : Node Level → Prop} (keep : other.subLevel? = none → motive base)
    (adopt : ∀ lower, base.subLevel? = none → other.subLevel? = some lower →
      motive ⟨base.polarity, some lower⟩)
    (join : ∀ upper lower, base.subLevel? = some upper → other.subLevel? = some lower →
      motive ⟨base.polarity, some (upper.overlay lower)⟩) :
    motive (base.overlay other) := by
  cases hlower : other.subLevel? with
  | none =>
    rw [overlay_of_subLevel?_none hlower]
    exact keep hlower
  | some lower =>
    rw [overlay_of_subLevel?_some hlower, hlower]
    cases hupper : base.subLevel? with
    | none => exact adopt lower hupper hlower
    | some upper => exact join upper lower hupper hlower

end Node

namespace Fields

/-! ### Names -/

/-- One field of the lower level is settled at a time, by what the upper level says so far. -/
theorem exists_overlay_cons (base : Fields) (name : String) (node : Node Level) (rest : Fields) :
    ∃ base' : Fields, base.overlay (cons name node rest) = base'.overlay rest ∧
      ∀ key, base'.find? key =
        (base.find? key).merge Node.overlay (if name = key then some node else none) := by
  -- The two ways in which a field can be settled: something is put under its name, or nothing is.
  have hput {joined : Node Level}
      (hjoined : (base.find? name).merge Node.overlay (some node) = some joined) (key : String) :
      (base.insert name joined).find? key =
        (base.find? key).merge Node.overlay (if name = key then some node else none) := by
    rw [find?_insert]
    by_cases hkey : name = key
    · subst hkey
      rw [if_pos rfl, if_pos rfl, hjoined]
    · rw [if_neg hkey, if_neg hkey, Option.merge_none_right]
  -- A node with nothing below it adds nothing where its name is mentioned already.
  have hkeep {upper : Node Level} (hupper : base.find? name = some upper)
      (hnode : node.subLevel? = none) (key : String) :
      base.find? key =
        (base.find? key).merge Node.overlay (if name = key then some node else none) := by
    by_cases hkey : name = key
    · subst hkey
      rw [if_pos rfl, hupper, Option.merge, Node.overlay_of_subLevel?_none hnode]
    · rw [if_neg hkey, Option.merge_none_right]
  obtain ⟨polarity, children⟩ := node
  cases children with
  | none =>
    show ∃ base', overlay base (leaf name polarity rest) = _ ∧ _
    rw [overlay, contains]
    cases hupper : base.find? name with
    | none => exact ⟨_, rfl, hput (by rw [hupper]; rfl)⟩
    | some upper => exact ⟨_, rfl, hkeep hupper rfl⟩
  | some level =>
    show ∃ base', overlay base (subtree name polarity level.mode level.fields rest) = _ ∧ _
    rw [overlay]
    cases hupper : base.find? name with
    | none => exact ⟨_, rfl, hput (by rw [hupper]; rfl)⟩
    | some upper =>
      by_cases hempty : level.fields.isEmpty = true
      · refine ⟨base, if_pos hempty, hkeep hupper ?_⟩
        simp [Node.subLevel?, hempty]
      · have hlevel : Node.subLevel? ⟨polarity, some level⟩ = some level :=
          Node.subLevel?_eq_some_iff.2 ⟨rfl, by simpa using hempty⟩
        refine ⟨_, if_neg hempty, hput ?_⟩
        rw [hupper, Option.merge, Node.overlay_of_subLevel?_some hlevel, hlevel]
        cases upper.subLevel? <;> rfl

/-- **Layered fields say what either side says**, and the join where both say something.
The induction is on the lower fields, which are settled one by one. -/
theorem find?_overlay (base : Fields) {other : Fields} (h : other.Ordered) (name : String) :
    (base.overlay other).find? name =
      (base.find? name).merge Node.overlay (other.find? name) := by
  induction other using consInduction generalizing base with
  | nil => exact Option.merge_none_right.symm
  | cons n node rest _ ih =>
    obtain ⟨hlt, -, hrest⟩ := ordered_cons.1 h
    obtain ⟨base', hoverlay, hfind⟩ := exists_overlay_cons base n node rest
    rw [hoverlay, ih base' hrest, hfind, find?_cons]
    by_cases hname : n = name
    · -- No field behind this one has its name.
      subst hname
      rw [if_pos rfl, if_pos rfl, find?_eq_none_of_forall_lt hlt, Option.merge_none_right]
    · rw [if_neg hname, if_neg hname, Option.merge_none_right]

/-- What layered fields say about a name is what one side says, or the join of what both say. -/
theorem find?_overlay_cases {base other : Fields} {name : String} {node : Node Level}
    (h : other.Ordered) (hfind : (base.overlay other).find? name = some node) :
    base.find? name = some node ∨ other.find? name = some node ∨
      ∃ upper lower, base.find? name = some upper ∧ other.find? name = some lower ∧
        upper.overlay lower = node := by
  rw [find?_overlay base h] at hfind
  -- By which side says something about the name; one of them does.
  cases hupper : base.find? name with
  | none =>
    rw [hupper, Option.merge_none_left] at hfind
    exact Or.inr (Or.inl hfind)
  | some upper =>
    cases hlower : other.find? name with
    | none =>
      rw [hupper, hlower, Option.merge_none_right] at hfind
      exact Or.inl hfind
    | some lower =>
      rw [hupper, hlower, Option.merge, Option.some.injEq] at hfind
      exact Or.inr (Or.inr ⟨upper, lower, rfl, rfl, hfind⟩)

/-- Nothing that the upper level names is lost. -/
theorem isEmpty_overlay {base other : Fields} (h : other.Ordered) (hbase : base.isEmpty = false) :
    (base.overlay other).isEmpty = false := by
  obtain ⟨name, node, hfind⟩ := isEmpty_eq_false_iff.1 hbase
  rw [isEmpty_eq_false_iff]
  refine ⟨name, ?_⟩
  rw [find?_overlay base h, hfind]
  cases other.find? name with
  | none => exact ⟨node, rfl⟩
  | some node' => exact ⟨node.overlay node', rfl⟩

end Fields

/-- Below a joined node the levels of both sides are joined.  What is joined still mentions
a name, so the join is a level that counts. -/
theorem Node.subLevel?_overlay (base : Node Level) {other : Node Level} (h : other.Ordered) :
    (base.overlay other).subLevel? = base.subLevel?.merge Level.overlay other.subLevel? := by
  cases hother : other.subLevel? with
  | none => rw [overlay_of_subLevel?_none hother, Option.merge_none_right]
  | some lower =>
    have hlower : lower.fields.Ordered := Fields.ordered_of_subLevel? h hother
    rw [overlay_of_subLevel?_some hother, hother]
    cases hbase : base.subLevel? with
    | none => exact subLevel?_eq_some_iff.2 ⟨rfl, (subLevel?_eq_some_iff.1 hother).2⟩
    | some upper =>
      have hupper : upper.fields.isEmpty = false := (subLevel?_eq_some_iff.1 hbase).2
      exact subLevel?_eq_some_iff.2 ⟨rfl, Fields.isEmpty_overlay hlower hupper⟩

/-! ### Paths -/

/-- The level below the node at the end of a path, if it mentions any name. -/
def Fields.levelAt? (fields : Fields) (path : List String) : Option Level :=
  (fields.nodeAt? path).bind Node.subLevel?

namespace Fields

/-- What is found at the end of a path is in order. -/
theorem ordered_of_nodeAt? {fields : Fields} (h : fields.Ordered) {path : List String}
    {node : Node Level} (hnode : fields.nodeAt? path = some node) : node.Ordered := by
  induction path generalizing fields with
  | nil => cases hnode
  | cons name rest ih =>
    rcases nodeAt?_cons_eq_some_iff.1 hnode with ⟨-, hfind⟩ | ⟨upper, below, hfind, hsub, hrest⟩
    · exact ordered_of_find? h hfind
    · exact ih (ordered_of_subLevel? (ordered_of_find? h hfind) hsub) hrest

/-- Below the nodes found on both sides lie levels that are joined in their turn. -/
theorem bind_subLevel?_merge {upper lower : Option (Node Level)}
    (hlower : ∀ node, lower = some node → node.Ordered) :
    (upper.merge Node.overlay lower).bind Node.subLevel? =
      (upper.bind Node.subLevel?).merge Level.overlay (lower.bind Node.subLevel?) := by
  cases upper with
  | none => simp
  | some node =>
    cases lower with
    | none => simp
    | some node' => exact Node.subLevel?_overlay node (hlower node' rfl)

/-- **Layered fields say at the end of a path what either side says there**, and the join
where both say something.  The induction is on the path, from level to level on both sides
at once. -/
theorem nodeAt?_overlay {base other : Fields} (hbase : base.Ordered) (hother : other.Ordered)
    (path : List String) :
    (base.overlay other).nodeAt? path =
      (base.nodeAt? path).merge Node.overlay (other.nodeAt? path) := by
  induction path generalizing base other with
  | nil => rfl
  | cons name rest ih =>
    by_cases hrest : rest = []
    · subst hrest
      simp only [nodeAt?_eq_find?, find?_overlay base hother]
    · have hnodes (node : Node Level) (hnode : other.find? name = some node) : node.Ordered :=
        ordered_of_find? hother hnode
      rw [nodeAt?_cons _ name hrest, nodeAt?_cons _ name hrest, nodeAt?_cons _ name hrest,
        find?_overlay base hother, bind_subLevel?_merge hnodes]
      -- Where one side has no level below, the other's is entered as it is.
      cases hupper : (base.find? name).bind Node.subLevel? with
      | none => simp
      | some upper =>
        cases hlower : (other.find? name).bind Node.subLevel? with
        | none => simp
        | some lower =>
          obtain ⟨node, hfind, hsub⟩ := Option.bind_eq_some_iff.1 hupper
          obtain ⟨node', hfind', hsub'⟩ := Option.bind_eq_some_iff.1 hlower
          have hupper' := ordered_of_subLevel? (ordered_of_find? hbase hfind) hsub
          have hlower' := ordered_of_subLevel? (ordered_of_find? hother hfind') hsub'
          exact ih hupper' hlower'

/-- So do the levels at the end of a path. -/
theorem levelAt?_overlay {base other : Fields} (hbase : base.Ordered) (hother : other.Ordered)
    (path : List String) :
    (base.overlay other).levelAt? path =
      (base.levelAt? path).merge Level.overlay (other.levelAt? path) := by
  rw [levelAt?, nodeAt?_overlay hbase hother]
  exact bind_subLevel?_merge fun node => ordered_of_nodeAt? hother

end Fields

namespace Mask

/-- The polarity of the node that a path names. -/
def polarityAt? (mask : Mask) (path : List String) : Option Polarity :=
  (mask.fields.nodeAt? path).map Node.polarity

/-- The level below the node that a path names, if it mentions any name. -/
def levelAt? (mask : Mask) (path : List String) : Option Level := mask.fields.levelAt? path

/-- The polarity at the end of a path is that of the upper mask, if it names the path at
all. -/
theorem polarityAt?_overlay (base other : Mask) (path : List String) :
    (base.overlay other).polarityAt? path =
      (base.polarityAt? path).or (other.polarityAt? path) := by
  have hnode := Fields.nodeAt?_overlay base.ordered other.ordered path
  show ((base.fields.overlay other.fields).nodeAt? path).map Node.polarity = _
  rw [hnode, polarityAt?, polarityAt?]
  cases base.fields.nodeAt? path with
  | none => simp
  | some upper => cases other.fields.nodeAt? path <;> simp [Option.merge]

/-- And of masks, whose fields are in order. -/
theorem levelAt?_overlay (base other : Mask) (path : List String) :
    (base.overlay other).levelAt? path =
      (base.levelAt? path).merge Level.overlay (other.levelAt? path) :=
  Fields.levelAt?_overlay base.ordered other.ordered path

end Mask

/-- **Laying masks over each other unites their named paths.**  A path is named if either mask names
it, with the polarity that the upper one gives it if it does.  The mode of the root, and of every
level that both masks have, is derived from the fields that have come together there; a level that
only one of them has is taken over whole, with the modes that are stored in it. -/
theorem overlay_unites_paths (base other : Mask) (path : List String) :
    (base.overlay other).polarityAt? path =
        (base.polarityAt? path).or (other.polarityAt? path) ∧
      (base.overlay other).mode = (base.overlay other).fields.derivedMode ∧
      (∀ upper lower, base.levelAt? path = some upper → other.levelAt? path = some lower →
        ∃ merged, (base.overlay other).levelAt? path = some merged ∧
          merged.fields = upper.fields.overlay lower.fields ∧
          merged.mode = merged.fields.derivedMode) ∧
      (∀ level, base.levelAt? path = some level → other.levelAt? path = none →
        (base.overlay other).levelAt? path = some level) ∧
      ∀ level, base.levelAt? path = none → other.levelAt? path = some level →
        (base.overlay other).levelAt? path = some level := by
  -- The three last parts are the three ways in which levels may meet at the end of the path.
  have hlevel := base.levelAt?_overlay other path
  refine ⟨base.polarityAt?_overlay other path, rfl, ?_, ?_, ?_⟩
  · intro upper lower hupper hlower
    refine ⟨upper.overlay lower, ?_, rfl, rfl⟩
    rw [hlevel, hupper, hlower, Option.merge]
  · intro level hupper hlower
    rw [hlevel, hupper, hlower, Option.merge_none_right]
  · intro level hupper hlower
    rw [hlevel, hupper, hlower, Option.merge_none_left]

/-- Two levels meet below `a`, where the modes that were set for them are lost; the one below `b`
keeps its own. -/
theorem overlay_unites_paths_forced :
    let base : Mask := ⟨⟨.included, .subtree "a" .included .excluded (.leaf "x" .included .nil)
      (.leaf "b" .excluded .nil)⟩, by decide⟩
    let other : Mask := ⟨⟨.included, .subtree "a" .excluded .excluded (.leaf "y" .excluded .nil)
      (.subtree "b" .included .excluded (.leaf "z" .included .nil) .nil)⟩, by decide⟩
    (base.levelAt? ["a"] = some ⟨.excluded, .leaf "x" .included .nil⟩ ∧
      other.levelAt? ["a"] = some ⟨.excluded, .leaf "y" .excluded .nil⟩ ∧
      ∃ merged, (base.overlay other).levelAt? ["a"] = some merged ∧
        merged.fields = .leaf "x" .included (.leaf "y" .excluded .nil) ∧
        merged.mode = .included) ∧
    base.levelAt? ["b"] = none ∧
      other.levelAt? ["b"] = some ⟨.excluded, .leaf "z" .included .nil⟩ ∧
      (base.overlay other).levelAt? ["b"] = some ⟨.excluded, .leaf "z" .included .nil⟩ ∧
      (base.overlay other).polarityAt? ["b"] = some .excluded := by
  intro base other
  have hupper : base.levelAt? ["a"] = some ⟨.excluded, .leaf "x" .included .nil⟩ := by decide
  have hlower : other.levelAt? ["a"] = some ⟨.excluded, .leaf "y" .excluded .nil⟩ := by decide
  have hnone : base.levelAt? ["b"] = none := by decide
  have hsome : other.levelAt? ["b"] = some ⟨.excluded, .leaf "z" .included .nil⟩ := by decide
  -- At `a` both masks have a level, at `b` only the second one has.
  obtain ⟨-, -, hmerged, -, -⟩ := overlay_unites_paths base other ["a"]
  obtain ⟨hpolarity, -, -, -, hadopted⟩ := overlay_unites_paths base other ["b"]
  obtain ⟨merged, hlevel, hfields, hmode⟩ := hmerged _ _ hupper hlower
  have hxy : merged.fields = .leaf "x" .included (.leaf "y" .excluded .nil) :=
    hfields.trans (by decide)
  refine ⟨⟨hupper, hlower, merged, hlevel, hxy, ?_⟩, hnone, hsome, hadopted _ hnone hsome,
    hpolarity⟩
  rw [hmode, hxy]
  rfl

end FieldMask
