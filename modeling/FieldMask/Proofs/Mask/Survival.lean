import FieldMask.Proofs.Document.Pruning
import FieldMask.Proofs.Mask.Path
import FieldMask.Proofs.Stream.Projection

namespace FieldMask

/-!
# Which members survive

Projection decides on each member by the view of its object, and a view depends on all the nodes
that lead to it.  In the end only one of them counts: the last one on the member's path that the
mask names.

* `View.keeps` — the decisions along a path, taken together.
* `Level.Keeps` — the rule: the longest named prefix of the path, and what stands there.
* `View.keeps_iff` — the decisions follow the rule.
* `Doc.project_eq_prune` — projection drops the members that the decisions do not keep and changes
  nothing else.
* `project_prunes` — both together, on the stream.
-/

/-- Whether the member at a path survives, by the longest prefix of the path that names a node:

* the node is that of the member itself, and it is included or has a level below;
* the node is above the member, included, and has no level below;
* the prefix leads to a level above the member, the root or that below a node not excluded, and
  the mode of this level is to keep what it does not mention. -/
def Level.Keeps (level : Level) (path : List String) : Prop :=
  let named := level.fields.longestNamed path
  let node? := level.fields.nodeAt? named
  (named = path ∧ ∃ node ∈ node?, node.polarity = .included ∨ node.subLevel?.isSome = true) ∨
  (named.length < path.length ∧ ∃ node ∈ node?,
    node.subLevel? = none ∧ node.polarity = .included) ∨
  (named.length < path.length ∧ ((named = [] ∧ level.mode = .excluded) ∨
    ∃ node ∈ node?, ∃ below ∈ node.subLevel?,
      node.polarity ≠ .excluded ∧ below.mode = .excluded))

instance (level : Level) : DecidablePred level.Keeps := fun _ =>
  inferInstanceAs (Decidable (_ ∨ _ ∨ _))

/-- Whether the member at a path survives, by the decisions on the names along the path.  It
survives whole behind a name that is copied, and a document itself always survives. -/
def View.keeps (view : View) : List String → Bool
  | [] => true
  | name :: rest =>
    match view.decide name with
    | .skip => false
    | .copy => true
    | .descend inner => inner.keeps rest

namespace Level

/-! ### The rule, one step down -/

variable {level below : Level} {name : String} {node : Node Level} {rest : List String}

/-- A name that is not mentioned survives by the mode of the level. -/
theorem keeps_of_find?_none (h : level.fields.find? name = none) :
    level.Keeps (name :: rest) ↔ level.mode = .excluded := by
  have hnamed : level.fields.longestNamed (name :: rest) = [] := by
    rw [Fields.longestNamed_cons, h]
  simp [Keeps, hnamed, Fields.nodeAt?]

/-- What a plain decision says counts for the member and everything in it.  There is no
level that could decide otherwise further down. -/
theorem keeps_of_subLevel?_none (h : level.fields.find? name = some node)
    (hbelow : node.subLevel? = none) :
    level.Keeps (name :: rest) ↔ node.polarity = .included := by
  have hnamed : level.fields.longestNamed (name :: rest) = [name] := by
    rw [Fields.longestNamed_cons, h]
    simp only [hbelow]
  have hnode := Fields.nodeAt?_singleton h
  by_cases hrest : rest = []
  · subst hrest
    simp [Keeps, hnamed, hnode, hbelow]
  · have hlength : 0 < rest.length := List.length_pos_iff.2 hrest
    simp [Keeps, hnamed, hnode, hbelow, hlength, Ne.symm hrest]

/-- A member with a level below it survives by itself. -/
theorem keeps_singleton (h : level.fields.find? name = some node)
    (hbelow : node.subLevel? = some below) : level.Keeps [name] := by
  have hnamed : level.fields.longestNamed [name] = [name] := by
    rw [Fields.longestNamed_cons, h]
    simp only [hbelow]
    rfl
  have hnode := Fields.nodeAt?_singleton h
  simp [Keeps, hnamed, hnode, hbelow]

/-- Below a node with a level the rule is that of this level, which under an excluded node
drops what it does not mention.  The longest named prefix of the path is found one level
further down. -/
theorem keeps_below (h : level.fields.find? name = some node)
    (hbelow : node.subLevel? = some below) (hrest : rest ≠ []) (mode : Polarity)
    (hmode : mode = .excluded ↔ node.polarity ≠ .excluded ∧ below.mode = .excluded) :
    level.Keeps (name :: rest) ↔ Level.Keeps ⟨mode, below.fields⟩ rest := by
  have hnamed : level.fields.longestNamed (name :: rest) =
      name :: below.fields.longestNamed rest := by
    rw [Fields.longestNamed_cons, h]
    simp only [hbelow]
  have hlength : 0 < rest.length := List.length_pos_iff.2 hrest
  by_cases hnone : below.fields.longestNamed rest = []
  · -- Nothing below is named, so the node itself decides, by its level's mode.
    have hnode := Fields.nodeAt?_singleton h
    simp [Keeps, hnamed, hnone, hnode, hbelow, Fields.nodeAt?, hlength, Ne.symm hrest, hmode]
  · have hnode := Fields.nodeAt?_of_subLevel?_some h hbelow hnone
    simp [Keeps, hnamed, hnone, hnode]

end Level

namespace View

/-! ### The decisions follow the rule -/

/-- Below an excluded node a level keeps only what it lists. -/
def Consistent (view : View) : Prop := view.overridden = true → view.level.mode = .included

/-- Without an excluded node above, nothing is asked of a level. -/
theorem consistent_of_level (level : Level) : Consistent ⟨level, false⟩ := by
  intro hoverridden
  cases hoverridden

/-- In a consistent view the mode says it all. -/
theorem listsKept_iff {view : View} (h : view.Consistent) :
    view.listsKept = true ↔ view.level.mode = .included := by
  rw [listsKept, Bool.or_eq_true, beq_iff_eq]
  exact ⟨fun hkept => hkept.elim id h, Or.inl⟩

/-- The decisions along a path follow the rule of the longest named prefix.  The induction
is on the path; each decision hands down a view that is consistent again. -/
theorem keeps_iff {view : View} (hview : view.Consistent) {path : List String} (hpath : path ≠ []) :
    view.keeps path = true ↔ view.level.Keeps path := by
  induction path generalizing view with
  | nil => exact absurd rfl hpath
  | cons name rest ih =>
    rw [keeps, decide]
    cases h : view.level.fields.find? name with
    | none =>
      rw [Level.keeps_of_find?_none h]
      have hkept := listsKept_iff hview
      cases hmode : view.level.mode <;> rw [hmode] at hkept <;> simp [hkept]
    | some node =>
      obtain ⟨polarity, children⟩ := node
      cases hbelow : Node.subLevel? ⟨polarity, children⟩ with
      | none =>
        rw [Level.keeps_of_subLevel?_none h hbelow]
        cases polarity <;> simp [hbelow]
      | some below =>
        by_cases hrest : rest = []
        · -- The member itself is kept, whatever becomes of what lies in it.
          subst hrest
          have hkeeps := Level.keeps_singleton h hbelow
          cases polarity <;> simp [hbelow, hkeeps, keeps]
        · cases polarity with
          | included =>
            rw [Level.keeps_below h hbelow hrest below.mode (by simp)]
            simp only [hbelow]
            exact ih (consistent_of_level below) hrest
          | excluded =>
            -- From here on only what is listed is kept, as the rule has it below an excluded node.
            have hinner : Consistent ⟨{ below with mode := .included }, true⟩ := fun _ => rfl
            rw [Level.keeps_below h hbelow hrest .included (by simp)]
            simp only [hbelow]
            exact ih hinner hrest

/-- A member survives only if those that it lies in do.  By induction on the path in front,
name by name. -/
theorem keeps_of_append {view : View} {first rest : List String}
    (h : view.keeps (first ++ rest) = true) : view.keeps first = true := by
  induction first generalizing view with
  | nil => rfl
  | cons name first ih =>
    rw [List.cons_append, keeps] at h
    rw [keeps]
    cases haction : view.decide name with
    | skip =>
      rw [haction] at h
      cases h
    | copy => rfl
    | descend inner =>
      rw [haction] at h
      exact ih h

end View

namespace Doc

/-! ### Projection is pruning -/

mutual

/-- Projection drops the members that the decisions along their paths do not keep.  An array
hands its view on, a member the view that was decided for it. -/
theorem project_eq_prune (view : View) (doc : Doc) :
    doc.project View.decide view = doc.prune view.keeps := by
  cases doc with
  | scalar value => rfl
  | array items => rw [project, prune, projectItems_eq_pruneItems view items]
  | object members => rw [project, prune, projectMembers_eq_pruneMembers view members]

/-- Items have no names, so paths go through them unchanged. -/
theorem projectItems_eq_pruneItems (view : View) (items : List Doc) :
    projectItems View.decide view items = pruneItems view.keeps items := by
  cases items with
  | nil => rfl
  | cons item rest =>
    rw [projectItems, pruneItems, project_eq_prune view item, projectItems_eq_pruneItems view rest]

/-- A member is dropped, kept whole, or pruned by what was decided below it. -/
theorem projectMembers_eq_pruneMembers (view : View) (members : List (String × Doc)) :
    projectMembers View.decide view members = pruneMembers view.keeps members := by
  match members with
  | [] => rfl
  | (name, value) :: rest =>
    rw [projectMembers, pruneMembers, projectMembers_eq_pruneMembers view rest]
    cases haction : view.decide name with
    | skip => simp [View.keeps, haction]
    | copy => simp [View.keeps, haction, prune_true]
    | descend inner => simp [View.keeps, haction, project_eq_prune inner value]

end

end Doc

namespace Level

/-- A member survives only if those that it lies in do, by the rule as by the decisions. -/
theorem inherited_keeps (level : Level) : Doc.Inherited fun path => level.Keeps path := by
  intro first rest hkeep hfirst
  have hview := View.consistent_of_level level
  have hall : first ++ rest ≠ [] := List.append_ne_nil_of_left_ne_nil hfirst rest
  have hkept := (View.keeps_iff hview hall).2 (of_decide_eq_true hkeep)
  exact decide_eq_true ((View.keeps_iff hview hfirst).1 (View.keeps_of_append hkept))

end Level

/-- A mask that says something prunes by the rule of the longest named prefix. -/
theorem Doc.through_eq_prune {mask : Mask} (hmask : mask.isEmpty = false) (doc : Doc) :
    doc.through (some mask) = doc.prune fun path => mask.Keeps path := by
  have hview := View.consistent_of_level mask.toLevel
  rw [through_of_some hmask, project_eq_prune]
  apply prune_congr
  intro path hpath
  rw [Bool.eq_iff_iff, decide_eq_true_iff]
  exact View.keeps_iff hview hpath

/-- **Survival is decided by the longest named prefix.**  Through a mask that says something, a
document loses the members that the rule does not keep, and nothing else: order, items and scalars
stay, and the members that come out are those of the document whose paths the rule keeps. -/
theorem project_prunes {σ : Type} [TokenSource σ] {pending : σ → List Token → Prop}
    (hfaithful : Faithful pending) (mask : Mask) (hmask : mask.isEmpty = false) (doc : Doc)
    (rest : List Token) (source : σ) (sink : Collected)
    (h : pending source (doc.flatten ++ rest)) :
    ∃ kept : Doc,
      (∃ source', project (some mask) source sink =
          (.ok (), source', ⟨sink.tokens ++ kept.flatten.toArray⟩) ∧ pending source' rest) ∧
      kept = doc.prune (fun path => mask.Keeps path) ∧
      kept.memberPaths = doc.memberPaths.filter fun path => mask.Keeps path := by
  -- The document that comes out, what the stream makes of it, and the members that are left.
  refine ⟨doc.through (some mask), ?_, Doc.through_eq_prune hmask doc, ?_⟩
  · exact project_of_writeAll hfaithful (some mask) doc h (writeAll_collected _ sink)
  · rw [Doc.through_eq_prune hmask]
    exact Doc.memberPaths_prune mask.toLevel.inherited_keeps doc

/-- A level that drops what it names lies below an included field, and that below an excluded one:
its other names are kept, those beside it are not. -/
theorem project_prunes_override :
    (⟨⟨.excluded, .subtree "z" .excluded .excluded
        (.subtree "x" .included .excluded (.leaf "p" .excluded .nil) .nil) .nil⟩,
      by decide⟩ : Mask).isEmpty = false ∧
    ∃ kept : Doc,
      (∃ source', project
          (some ⟨⟨.excluded, .subtree "z" .excluded .excluded
            (.subtree "x" .included .excluded (.leaf "p" .excluded .nil) .nil) .nil⟩, by decide⟩)
          (Replay.ofTokens [.beginObject, .key "b", .scalar .null, .key "z", .beginObject,
            .key "x", .beginObject, .key "p", .scalar .null, .key "q", .scalar .null, .endObject,
            .key "y", .scalar .null, .endObject, .endObject])
          Collected.empty = (.ok (), source', ⟨#[] ++ kept.flatten.toArray⟩) ∧
        source' = .ofTokens []) ∧
      kept = .object [("b", .scalar .null), ("z", .object [("x", .object [("q", .scalar .null)])])] ∧
      kept.memberPaths = [["b"], ["z"], ["z", "x"], ["z", "x", "q"]] :=
  ⟨rfl, project_prunes Replay.faithful _ rfl
    (.object [("b", .scalar .null), ("z", .object [("x", .object [("p", .scalar .null),
      ("q", .scalar .null)]), ("y", .scalar .null)])]) [] _ Collected.empty rfl⟩

end FieldMask
