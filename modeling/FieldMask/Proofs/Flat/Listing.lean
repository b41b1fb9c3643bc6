import FieldMask.Flat
import FieldMask.Proofs.Mask.Modes

namespace FieldMask

/-!
# What a flat projection lists

A listed path is a text.  Taken apart at its dots it is the path of a field again, as long as no
name is empty or has a dot in it.

* `FlatProjection.listed` — the listed paths, each as the names that it consists of.
* `Dotless`, `Level.Dotless` — names that can be told apart in a path.
* `pathNames_pathOf` — such names are those of the path that they are joined to.
* `Fields.mem_includedPaths`, `Fields.mem_excludedNames` — the fields that either form lists.
* `Fields.needsInclusion_iff` — when a level asks for a field to be included.
* `FlatProjection.mem_paths_inclusion`, `FlatProjection.mem_paths_exclusion` — the paths that a mask
  is flattened to; `mem_listed_inclusion`, `mem_listed_exclusion` — the same, taken apart.
-/

/-! ### Paths as texts -/

/-- The names that stand between the dots of a path. -/
def pathNames (path : String) : List String := (path.split '.').toList.map (·.copy)

/-- A name that is not empty and has no dot in it. -/
def Dotless (name : String) : Prop := name ≠ "" ∧ '.' ∉ name.toList

/-- A level of such names. -/
def Level.Dotless (level : Level) : Prop := ∀ name ∈ level.fields.names, FieldMask.Dotless name

namespace Fields

/-- An empty path takes no dot: the name is the whole path. -/
theorem joinPath_empty (name : String) : joinPath "" name = name := rfl

/-- Behind a path that is not empty a name stands behind a dot. -/
theorem joinPath_of_ne {path : String} (h : path ≠ "") (name : String) :
    joinPath path name = path ++ "." ++ name := by
  rw [joinPath, if_neg (by simpa using h)]

/-- Behind a path that is not empty every name stands behind a dot. -/
theorem foldl_joinPath {path : String} (h : path ≠ "") (names : List String) :
    names.foldl joinPath path = ".".intercalate (path :: names) := by
  induction names generalizing path with
  | nil => rw [List.foldl_nil, String.intercalate_singleton]
  | cons name rest ih =>
    have hne : path ++ "." ++ name ≠ "" := by simp [h]
    rw [List.foldl_cons, joinPath_of_ne h, ih hne, String.intercalate_cons_append,
      String.intercalate_cons_cons]

/-- An empty path says that there is no name yet, so that an empty first name would get lost. -/
theorem pathOf_eq_intercalate {names : List String} (h : names.head? ≠ some "") :
    pathOf names.reverse = ".".intercalate names := by
  rw [pathOf, List.reverse_reverse]
  cases names with
  | nil => rw [List.foldl_nil, String.intercalate_nil]
  | cons name rest =>
    have hname : name ≠ "" := by simpa using h
    rw [List.foldl_cons, joinPath_empty, foldl_joinPath hname]

/-- **A path is taken apart into the names that it was joined from.**  Without dots in the
names every dot of the path is one between two of them. -/
theorem pathNames_pathOf {names : List String} (hnames : names ≠ [])
    (h : ∀ name ∈ names, Dotless name) : pathNames (pathOf names.reverse) = names := by
  have hsplit := String.toList_split_intercalate fun name hname => (h name hname).2
  have hfirst : names.head? ≠ some "" := by
    intro hhead
    exact (h "" (List.mem_of_head? hhead)).1 rfl
  rw [if_neg hnames] at hsplit
  rw [pathOf_eq_intercalate hfirst]
  exact hsplit

/-! ### Names along a path -/

/-- The first name along a path is one of the level's own. -/
theorem contains_of_nodeAt? {fields : Fields} {name : String} {path : List String}
    {node : Node Level} (hpath : fields.nodeAt? path = some node)
    (hfirst : path.head? = some name) : fields.contains name = true := by
  obtain ⟨rest, rfl⟩ := List.head?_eq_some_iff.1 hfirst
  rcases nodeAt?_cons_eq_some_iff.1 hpath with ⟨-, hfind⟩ | ⟨upper, below, hfind, -, -⟩
  all_goals exact Option.isSome_iff_exists.2 ⟨_, hfind⟩

/-- The names along a path are those of levels on the way.  Each step of the path uses up
one name and goes one level down. -/
theorem forall_of_nodeAt? {good : String → Prop} {level : Level}
    (h : level.Throughout fun level => ∀ name ∈ level.fields.names, good name)
    (hordered : level.fields.Ordered) {path : List String} {node : Node Level}
    (hpath : level.fields.nodeAt? path = some node) : ∀ name ∈ path, good name := by
  induction path generalizing level with
  | nil => exact nofun
  | cons name rest ih =>
    rw [List.forall_mem_cons]
    rcases nodeAt?_cons_eq_some_iff.1 hpath with ⟨rfl, hfind⟩ | ⟨upper, below, hfind, hsub, hrest⟩
    · exact ⟨h.1 name (mem_names_iff.2 ⟨node, hfind⟩), nofun⟩
    · have hbelow := ((throughout_iff_find? hordered).1 h.2 name upper hfind).subLevel? hsub
      have hordered' := ordered_of_subLevel? (ordered_of_find? hordered hfind) hsub
      exact ⟨h.1 name (mem_names_iff.2 ⟨upper, hfind⟩), ih hbelow hordered' hrest⟩

end Fields

/-! ### Fields with nothing below them -/

namespace Node

/-- An included field with nothing below it. -/
def Asked (node : Node Level) : Prop := node.polarity = .included ∧ node.subLevel? = none

/-- An excluded field with nothing below it. -/
def Refused (node : Node Level) : Prop := node.polarity = .excluded ∧ node.subLevel? = none

/-- The paths of the included fields that a node is or has below it. -/
def includedPaths (inward : List String) (node : Node Level) : List String :=
  match node.subLevel? with
  | none => Fields.includedPath inward node.polarity
  | some level => level.fields.includedPaths inward

/-- A field with nothing below it is listed exactly if it is included, by its own path. -/
theorem mem_includedPath {inward : List String} {polarity : Polarity} {path : String} :
    path ∈ Fields.includedPath inward polarity ↔
      polarity = .included ∧ path = Fields.pathOf inward := by
  cases polarity <;> simp [Fields.includedPath]

end Node

namespace Fields

/-- The first field lists its own paths, and the fields behind it list theirs. -/
theorem includedPaths_cons (outer : List String) (name : String) (node : Node Level)
    (rest : Fields) :
    (cons name node rest).includedPaths outer =
      node.includedPaths (name :: outer) ++ rest.includedPaths outer := by
  obtain ⟨polarity, _ | ⟨mode, children⟩⟩ := node
  · rfl
  · rw [cons, includedPaths, Node.includedPaths, Node.subLevel?, Option.filter_some]
    cases children.isEmpty <;> rfl

/-- The listed paths are those of the fields, one field behind the other. -/
theorem includedPaths_eq_flatMap (outer : List String) (fields : Fields) :
    fields.includedPaths outer =
      fields.entries.flatMap fun (name, node) => node.includedPaths (name :: outer) := by
  induction fields using consInduction with
  | nil => rfl
  | cons name node rest _ ih => rw [includedPaths_cons, ih, entries_cons, List.flatMap_cons]

/-- **An inclusion lists the included fields with nothing below them**, wherever a path
leads to one.  The induction is on the levels, for any names around them, which every listed
path has in front. -/
theorem mem_includedPaths {fields : Fields} (hordered : fields.Ordered) {outer : List String}
    {path : String} :
    path ∈ fields.includedPaths outer ↔
      ∃ names node, fields.nodeAt? names = some node ∧ node.Asked ∧
        path = pathOf (names.reverse ++ outer) := by
  induction fields using belowInduction generalizing outer with
  | step fields ih =>
    -- The level below a field lists its own paths behind the name of the field.
    have hbelow {name : String} {node : Node Level} {level : Level}
        (hfind : fields.find? name = some node) (hsub : node.subLevel? = some level) :
        path ∈ level.fields.includedPaths (name :: outer) ↔
          ∃ names node, level.fields.nodeAt? names = some node ∧ node.Asked ∧
            path = pathOf (names.reverse ++ name :: outer) :=
      ih name node level hfind (Node.subLevel?_eq_some_iff.1 hsub).1
        (ordered_of_subLevel? (ordered_of_find? hordered hfind) hsub)
    -- From left to right a field of the level is told by whether there is a level below it, from
    -- right to left by whether the path ends with its name.
    rw [includedPaths_eq_flatMap, List.mem_flatMap]
    constructor
    · rintro ⟨⟨name, node⟩, hentry, hpath⟩
      have hfind := (find?_eq_some_iff hordered).2 hentry
      dsimp only [Node.includedPaths] at hpath
      cases hsub : node.subLevel? with
      | none =>
        rw [hsub, Node.mem_includedPath] at hpath
        exact ⟨[name], node, nodeAt?_singleton hfind, ⟨hpath.1, hsub⟩, hpath.2⟩
      | some level =>
        rw [hsub] at hpath
        obtain ⟨names, nd, hnames, hasked, rfl⟩ := (hbelow hfind hsub).1 hpath
        refine ⟨name :: names, nd, ?_, hasked, by simp⟩
        exact nodeAt?_cons_eq_some_iff.2 (.inr ⟨node, level, hfind, hsub, hnames⟩)
    · rintro ⟨_ | ⟨name, names⟩, nd, hnames, hasked, rfl⟩
      · cases hnames
      · rcases nodeAt?_cons_eq_some_iff.1 hnames with
          ⟨rfl, hfind⟩ | ⟨node, level, hfind, hsub, hrest⟩
        · refine ⟨(name, nd), (find?_eq_some_iff hordered).1 hfind, ?_⟩
          dsimp only [Node.includedPaths]
          rw [hasked.2, Node.mem_includedPath]
          exact ⟨hasked.1, rfl⟩
        · refine ⟨(name, node), (find?_eq_some_iff hordered).1 hfind, ?_⟩
          dsimp only [Node.includedPaths]
          rw [hsub]
          exact (hbelow hfind hsub).2 ⟨names, nd, hrest, hasked, by simp⟩

/-- An exclusion lists the excluded fields of the root with nothing below them. -/
theorem mem_excludedNames {fields : Fields} (hordered : fields.Ordered) {name : String} :
    name ∈ fields.excludedNames ↔ ∃ node, fields.find? name = some node ∧ node.Refused := by
  simp only [excludedNames, List.mem_filterMap, Prod.exists, Option.ite_none_right_eq_some,
    Option.some.injEq, Option.isNone_iff_eq_none, find?_eq_some_iff hordered, Node.Refused]
  grind

end Fields

/-! ### Fields that are asked for -/

namespace Fields

/-- A path through excluded fields alone leads to an included one. -/
def ReachesIncluded (fields : Fields) : Prop :=
  ∃ names node, fields.nodeAt? names = some node ∧ node.polarity = .included ∧
    ∀ front upper, front <+: names → front ≠ names → fields.nodeAt? front = some upper →
      upper.polarity = .excluded

/-- An included field of the level is reached at once, another one by way of an excluded
field.  The excluded fields before the included one are its front paths, so cutting the
first name off a path, or putting it in front, keeps the rest of the condition. -/
theorem reachesIncluded_iff {fields : Fields} :
    fields.ReachesIncluded ↔
      ∃ name node, fields.find? name = some node ∧
        (node.polarity = .included ∨
          node.polarity = .excluded ∧
            ∃ below, node.subLevel? = some below ∧ below.fields.ReachesIncluded) := by
  constructor
  · rintro ⟨_ | ⟨name, rest⟩, node, hnode, hincluded, hway⟩
    · cases hnode
    · rcases nodeAt?_cons_eq_some_iff.1 hnode with
        ⟨rfl, hfind⟩ | ⟨upper, below, hfind, hsub, hrest⟩
      · exact ⟨name, node, hfind, .inl hincluded⟩
      · -- The path goes on, so its first field stands before the included one and is excluded.
        have hne : rest ≠ [] := by
          rintro rfl
          cases hrest
        have hupper : upper.polarity = .excluded :=
          hway [name] upper ⟨rest, rfl⟩ (by simpa using hne.symm) (nodeAt?_singleton hfind)
        refine ⟨name, upper, hfind, .inr ⟨hupper, below, hsub, rest, node, hrest, hincluded, ?_⟩⟩
        intro front nd hfront hshort hnd
        refine hway (name :: front) nd ?_ ?_ ?_
        · exact List.cons_prefix_cons.2 ⟨rfl, hfront⟩
        · simpa using hshort
        · exact nodeAt?_cons_eq_some_iff.2 (.inr ⟨upper, below, hfind, hsub, hnd⟩)
  · rintro ⟨name, node, hfind, hincluded | ⟨hexcluded, below, hsub, hbelow⟩⟩
    · refine ⟨[name], node, nodeAt?_singleton hfind, hincluded, ?_⟩
      rintro (_ | ⟨first, front⟩) upper hfront hshort hupper
      · cases hupper
      · obtain ⟨rfl, hbehind⟩ := List.cons_prefix_cons.1 hfront
        exact absurd (congrArg _ (List.prefix_nil.1 hbehind)) hshort
    · obtain ⟨rest, nd, hrest, hincluded, hway⟩ := hbelow
      have hpath : fields.nodeAt? (name :: rest) = some nd :=
        nodeAt?_cons_eq_some_iff.2 (.inr ⟨node, below, hfind, hsub, hrest⟩)
      refine ⟨name :: rest, nd, hpath, hincluded, ?_⟩
      rintro (_ | ⟨first, front⟩) upper hfront hshort hupper
      · cases hupper
      · obtain ⟨rfl, hbehind⟩ := List.cons_prefix_cons.1 hfront
        by_cases hfirst : front = []
        · rw [hfirst, nodeAt?_singleton hfind, Option.some.injEq] at hupper
          exact hupper ▸ hexcluded
        · rw [nodeAt?_of_subLevel?_some hfind hsub hfirst] at hupper
          exact hway front upper hbehind (by simpa using hshort) hupper

/-- A level needs inclusion for its first field, for what is below that field, or for a
field behind it. -/
theorem needsInclusion_cons (name : String) (node : Node Level) (rest : Fields) :
    (cons name node rest).needsInclusion =
      (node.polarity == .included || node.subLevel?.any (·.fields.needsInclusion) ||
        rest.needsInclusion) := by
  obtain ⟨polarity, _ | ⟨mode, children⟩⟩ := node
  · rw [cons, needsInclusion, Node.subLevel?, Option.filter_none, Option.any_none, Bool.or_false]
  · rw [cons, needsInclusion, Node.subLevel?, Option.filter_some]
    cases children <;> rfl

/-- A level needs inclusion for some field, whichever it is. -/
theorem needsInclusion_eq_any (fields : Fields) :
    fields.needsInclusion =
      fields.entries.any fun (_, node) =>
        node.polarity == .included || node.subLevel?.any (·.fields.needsInclusion) := by
  induction fields using consInduction with
  | nil => rfl
  | cons name node rest _ ih => rw [needsInclusion_cons, ih, entries_cons, List.any_cons]

/-- A level needs inclusion for a field that it includes or for what is below a field. -/
theorem needsInclusion_iff_find? {fields : Fields} (hordered : fields.Ordered) :
    fields.needsInclusion = true ↔
      ∃ name node, fields.find? name = some node ∧
        (node.polarity = .included ∨
          ∃ below, node.subLevel? = some below ∧ below.fields.needsInclusion = true) := by
  rw [needsInclusion_eq_any, List.any_eq_true]
  simp only [Prod.exists, ← find?_eq_some_iff hordered, Bool.or_eq_true, beq_iff_eq,
    Option.any_eq_true]

/-- **A level needs inclusion just when it reaches an included field.**  What is below an
included field is looked at too, but then the field has decided already.  So the two
conditions can differ only below an included field, where both hold. -/
theorem needsInclusion_iff {fields : Fields} (hordered : fields.Ordered) :
    fields.needsInclusion = true ↔ fields.ReachesIncluded := by
  induction fields using belowInduction with
  | step fields ih =>
    have hbelow {name : String} {node : Node Level} {below : Level}
        (hfind : fields.find? name = some node) (hsub : node.subLevel? = some below) :
        below.fields.needsInclusion = true ↔ below.fields.ReachesIncluded :=
      ih name node below hfind (Node.subLevel?_eq_some_iff.1 hsub).1
        (ordered_of_subLevel? (ordered_of_find? hordered hfind) hsub)
    rw [needsInclusion_iff_find? hordered, reachesIncluded_iff]
    constructor
    · rintro ⟨name, node, hfind, hincluded | ⟨below, hsub, hneeds⟩⟩
      · exact ⟨name, node, hfind, .inl hincluded⟩
      · refine ⟨name, node, hfind, ?_⟩
        cases hpolarity : node.polarity with
        | included => exact .inl rfl
        | excluded => exact .inr ⟨rfl, below, hsub, (hbelow hfind hsub).1 hneeds⟩
    · rintro ⟨name, node, hfind, hincluded | ⟨-, below, hsub, hreaches⟩⟩
      · exact ⟨name, node, hfind, .inl hincluded⟩
      · exact ⟨name, node, hfind, .inr ⟨below, hsub, (hbelow hfind hsub).2 hreaches⟩⟩

end Fields

/-! ### Masks -/

/-- Sorting the paths neither adds one nor loses one. -/
theorem mem_sortPaths {path : String} {paths : List String} :
    path ∈ sortPaths paths ↔ path ∈ paths := by
  induction paths with
  | nil => rfl
  | cons first rest ih =>
    show path ∈ insertPath first (sortPaths rest) ↔ _
    rw [mem_insertPath, ih, List.mem_cons]

namespace FlatProjection

/-- The listed paths, each as the names that it consists of. -/
def listed (flat : FlatProjection) : List (List String) := flat.paths.map pathNames

variable {mask : Mask}

/-- A mask that mentions a name is flattened to an inclusion or to an exclusion. -/
theorem ofMask_of_some (h : mask.isEmpty = false) :
    ofMask (some mask) =
      if mask.fields.needsInclusion then .ofPaths .inclusion (mask.fields.includedPaths [])
      else .ofPaths .exclusion mask.fields.excludedNames := by
  rw [ofMask, Option.filter_some, h]
  rfl

/-- **What an inclusion lists**: the paths to the included fields with nothing below them.
The paths are sorted and listed once, which a membership does not show. -/
theorem mem_paths_inclusion (hmask : mask.isEmpty = false)
    (hkind : (ofMask (some mask)).kind = .inclusion) {path : String} :
    path ∈ (ofMask (some mask)).paths ↔
      ∃ names node, mask.fields.nodeAt? names = some node ∧ node.Asked ∧
        path = Fields.pathOf names.reverse := by
  rw [ofMask_of_some hmask] at hkind ⊢
  split at hkind
  next hneeds =>
    simp only [if_pos hneeds, ofPaths, mem_sortPaths, Fields.mem_includedPaths mask.ordered,
      List.append_nil]
  · cases hkind

/-- What an exclusion lists: the excluded fields of the root with nothing below them. -/
theorem mem_paths_exclusion (hmask : mask.isEmpty = false)
    (hkind : (ofMask (some mask)).kind = .exclusion) {name : String} :
    name ∈ (ofMask (some mask)).paths ↔
      ∃ node, mask.fields.find? name = some node ∧ node.Refused := by
  rw [ofMask_of_some hmask] at hkind ⊢
  split at hkind
  · cases hkind
  next hneeds =>
    simp only [if_neg hneeds, ofPaths, mem_sortPaths, Fields.mem_excludedNames mask.ordered]

/-- Where its names can be told apart, an inclusion lists the fields themselves.  No two of
them share a path there, as a path can be taken apart again. -/
theorem mem_listed_inclusion (hmask : mask.isEmpty = false)
    (hnames : mask.toLevel.Throughout Level.Dotless)
    (hkind : (ofMask (some mask)).kind = .inclusion) {path : List String} :
    path ∈ (ofMask (some mask)).listed ↔
      ∃ node, mask.fields.nodeAt? path = some node ∧ node.Asked := by
  have hsplit {names : List String} {node : Node Level}
      (h : mask.fields.nodeAt? names = some node) :
      pathNames (Fields.pathOf names.reverse) = names := by
    refine Fields.pathNames_pathOf ?_ (Fields.forall_of_nodeAt? hnames mask.ordered h)
    rintro rfl
    cases h
  simp only [listed, List.mem_map, mem_paths_inclusion hmask hkind]
  constructor
  · rintro ⟨_, ⟨names, node, hnode, hasked, rfl⟩, rfl⟩
    rw [hsplit hnode]
    exact ⟨node, hnode, hasked⟩
  · rintro ⟨node, hnode, hasked⟩
    exact ⟨_, ⟨path, node, hnode, hasked, rfl⟩, hsplit hnode⟩

/-- Where its names can be told apart, an exclusion lists the fields themselves.  These are
fields of the root alone, so each path is a single name. -/
theorem mem_listed_exclusion (hmask : mask.isEmpty = false)
    (hnames : mask.toLevel.Throughout Level.Dotless)
    (hkind : (ofMask (some mask)).kind = .exclusion) {path : List String} :
    path ∈ (ofMask (some mask)).listed ↔
      ∃ name node, path = [name] ∧ mask.fields.find? name = some node ∧ node.Refused := by
  have hsplit {name : String} {node : Node Level} (h : mask.fields.find? name = some node) :
      pathNames name = [name] := by
    have hname : Dotless name := hnames.1 name (Fields.mem_names_iff.2 ⟨node, h⟩)
    exact Fields.pathNames_pathOf (List.cons_ne_nil name []) (List.forall_mem_singleton.2 hname)
  simp only [listed, List.mem_map, mem_paths_exclusion hmask hkind]
  constructor
  · rintro ⟨name, ⟨node, hfind, hrefused⟩, rfl⟩
    exact ⟨name, node, hsplit hfind, hfind, hrefused⟩
  · rintro ⟨name, node, rfl, hfind, hrefused⟩
    exact ⟨name, ⟨node, hfind, hrefused⟩, hsplit hfind⟩

end FlatProjection

end FieldMask
