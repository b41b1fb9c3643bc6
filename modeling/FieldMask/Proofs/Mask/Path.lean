import FieldMask.Mask.Fields
import Mathlib.Data.List.Infix

namespace FieldMask

/-!
# Paths through a mask

* `Fields.nodeAt?` — what some fields say at the end of a path; the way goes down only through
  levels that mention a name; `nodeAt?_cons_eq_some_iff` — one step along the path.
* `Fields.named` — whether a path names anything: the empty one names the root.
* `Fields.longestNamed` — the longest part of a path, from its beginning, that names anything;
  `longestNamed_prefix`, `named_longestNamed`, `prefix_longestNamed` say that it is that.
* `longestNamed_cons` — the same found by going down level by level.
-/

namespace Fields

/-- What the fields say about the name at the end of a path.  No name leads to the level
itself, so the empty path has no node; and behind an empty level no path goes on. -/
def nodeAt? (fields : Fields) : List String → Option (Node Level)
  | [] => none
  | name :: rest =>
    match fields.find? name with
    | none => none
    | some node =>
      if rest.isEmpty then some node
      else
        match node.subLevel? with
        | none => none
        | some below => below.fields.nodeAt? rest

/-- Whether a path names a field, or the root. -/
def named (fields : Fields) (path : List String) : Bool :=
  path.isEmpty || (fields.nodeAt? path).isSome

/-- The longest prefix of a path that names a field, or the root. -/
def longestNamed (fields : Fields) (path : List String) : List String :=
  ((path.inits.filter fields.named).getLast?).getD []

/-! ### One step down -/

variable {fields : Fields} {name : String} {node : Node Level} {below : Level}

/-- A path leads nowhere if its first name is not mentioned. -/
theorem nodeAt?_of_find?_none (h : fields.find? name = none) (rest : List String) :
    fields.nodeAt? (name :: rest) = none := by
  rw [nodeAt?, h]

/-- A path of one name leads to the field of that name. -/
theorem nodeAt?_singleton (h : fields.find? name = some node) :
    fields.nodeAt? [name] = some node := by
  rw [nodeAt?, h]
  rfl

/-- A longer path leads nowhere if there is no level below its first name. -/
theorem nodeAt?_of_subLevel?_none (h : fields.find? name = some node)
    (hbelow : node.subLevel? = none) {rest : List String} (hrest : rest ≠ []) :
    fields.nodeAt? (name :: rest) = none := by
  have hempty : rest.isEmpty = false := by simpa using hrest
  rw [nodeAt?, h]
  simp only [hempty, hbelow]
  rfl

/-- Otherwise it leads where its rest leads in that level. -/
theorem nodeAt?_of_subLevel?_some (h : fields.find? name = some node)
    (hbelow : node.subLevel? = some below) {rest : List String} (hrest : rest ≠ []) :
    fields.nodeAt? (name :: rest) = below.fields.nodeAt? rest := by
  have hempty : rest.isEmpty = false := by simpa using hrest
  rw [nodeAt?, h]
  simp only [hempty, hbelow]
  rfl

/-- Both of these at once, as the composition of what may be absent. -/
theorem nodeAt?_cons (fields : Fields) (name : String) {rest : List String} (hrest : rest ≠ []) :
    fields.nodeAt? (name :: rest) =
      ((fields.find? name).bind Node.subLevel?).bind fun below => below.fields.nodeAt? rest := by
  cases hnode : fields.find? name with
  | none => exact nodeAt?_of_find?_none hnode rest
  | some node =>
    rw [Option.bind_some]
    cases hbelow : node.subLevel? with
    | none => exact nodeAt?_of_subLevel?_none hnode hbelow hrest
    | some below => exact nodeAt?_of_subLevel?_some hnode hbelow hrest

/-- The end of a path of one name is what is found under the name. -/
theorem nodeAt?_eq_find? (fields : Fields) (name : String) :
    fields.nodeAt? [name] = fields.find? name := by
  cases hnode : fields.find? name with
  | none => exact nodeAt?_of_find?_none hnode []
  | some node => exact nodeAt?_singleton hnode

/-- A path of one name leads to a field of the level, a longer one on into the level below it. -/
theorem nodeAt?_cons_eq_some_iff {rest : List String} :
    fields.nodeAt? (name :: rest) = some node ↔
      (rest = [] ∧ fields.find? name = some node) ∨
        ∃ upper below, fields.find? name = some upper ∧ upper.subLevel? = some below ∧
          below.fields.nodeAt? rest = some node := by
  by_cases hrest : rest = []
  · subst hrest
    have hnil (below : Level) : below.fields.nodeAt? [] = none := rfl
    simp [nodeAt?_eq_find?, hnil]
  · simp only [nodeAt?_cons fields name hrest, Option.bind_eq_some_iff, hrest, false_and, false_or]
    grind

/-! ### What a path with one more name in front names -/

/-- No path below a name that is not mentioned names anything. -/
theorem named_of_find?_none (h : fields.find? name = none) (rest : List String) :
    fields.named (name :: rest) = false := by
  rw [named, nodeAt?_of_find?_none h]
  rfl

/-- Below a plain decision only the path of the decision itself names anything. -/
theorem named_of_subLevel?_none (h : fields.find? name = some node)
    (hbelow : node.subLevel? = none) (rest : List String) :
    fields.named (name :: rest) = rest.isEmpty := by
  by_cases hrest : rest = []
  · rw [hrest, named, nodeAt?_singleton h]
    rfl
  · rw [named, nodeAt?_of_subLevel?_none h hbelow hrest]
    simpa using hrest

/-- Below a level a path names something if its rest does there; the rest may be empty, and
then it is the root of that level. -/
theorem named_of_subLevel?_some (h : fields.find? name = some node)
    (hbelow : node.subLevel? = some below) (rest : List String) :
    fields.named (name :: rest) = below.fields.named rest := by
  by_cases hrest : rest = []
  · rw [hrest, named, nodeAt?_singleton h]
    rfl
  · rw [named, nodeAt?_of_subLevel?_some h hbelow hrest]
    simp [named, hrest]

/-! ### The longest named prefix -/

/-- The empty path is always among them. -/
theorem filter_named_ne_nil (fields : Fields) (path : List String) :
    path.inits.filter fields.named ≠ [] := by
  have hmem : [] ∈ path.inits.filter fields.named :=
    List.mem_filter.2 ⟨(List.mem_inits _ _).2 List.nil_prefix, rfl⟩
  exact List.ne_nil_of_mem hmem

/-- The longest named prefix is one of the named prefixes. -/
theorem longestNamed_mem (fields : Fields) (path : List String) :
    fields.longestNamed path ∈ path.inits.filter fields.named := by
  rw [longestNamed, List.getLast?_eq_some_getLast (fields.filter_named_ne_nil path)]
  exact List.getLast_mem _

/-- So it is a prefix of the path. -/
theorem longestNamed_prefix (fields : Fields) (path : List String) :
    fields.longestNamed path <+: path :=
  (List.mem_inits _ _).1 (List.mem_filter.1 (fields.longestNamed_mem path)).1

/-- And it names something. -/
theorem named_longestNamed (fields : Fields) (path : List String) :
    fields.named (fields.longestNamed path) = true :=
  (List.mem_filter.1 (fields.longestNamed_mem path)).2

/-- The last of some paths that begins with the empty one. -/
theorem getLast?_nil_cons_map (name : String) (paths : List (List String)) :
    (([] :: paths.map (name :: ·)).getLast?).getD [] =
      (paths.getLast?.map (name :: ·)).getD [] := by
  rw [List.getLast?_cons, List.getLast?_map]
  cases paths.getLast? with
  | none => rfl
  | some path => rfl

/-- Exactly one prefix of a path is empty.  It is the first of its prefixes. -/
theorem filter_isEmpty_inits (path : List String) :
    path.inits.filter List.isEmpty = [[]] := by
  cases path with
  | nil => rfl
  | cons name rest =>
    rw [List.inits_cons, List.filter_cons_of_pos rfl, List.filter_map]
    have hnone : rest.inits.filter (List.isEmpty ∘ (name :: ·)) = [] := by
      rw [List.filter_eq_nil_iff]
      intro path _ hempty
      cases hempty
    rw [hnone]
    rfl

/-- Beside the empty prefix, which names the root, there are those that begin with the first
name. -/
theorem longestNamed_eq (fields : Fields) (name : String) (rest : List String) :
    fields.longestNamed (name :: rest) =
      ((rest.inits.filter (fields.named ∘ (name :: ·))).getLast?.map (name :: ·)).getD [] := by
  rw [longestNamed, List.inits_cons, List.filter_cons_of_pos rfl, List.filter_map,
    getLast?_nil_cons_map]

/-- Going down one level: the rest of the path counts as far as there is a level below. -/
theorem longestNamed_cons (fields : Fields) (name : String) (rest : List String) :
    fields.longestNamed (name :: rest) =
      match fields.find? name with
      -- Nothing beyond the root is named, so the empty prefix is the longest.
      | none => []
      | some node =>
        match node.subLevel? with
        | none => [name]
        | some below => name :: below.fields.longestNamed rest := by
  rw [longestNamed_eq]
  cases h : fields.find? name with
  | none =>
    have hnone : rest.inits.filter (fields.named ∘ (name :: ·)) = [] := by
      rw [List.filter_eq_nil_iff]
      intro path _ hnamed
      rw [Function.comp_apply, named_of_find?_none h] at hnamed
      cases hnamed
    rw [hnone]
    rfl
  | some node =>
    cases hbelow : node.subLevel? with
    | none =>
      have hnamed : fields.named ∘ (name :: ·) = List.isEmpty :=
        funext (named_of_subLevel?_none h hbelow)
      simp only [hnamed, filter_isEmpty_inits, hbelow]
      rfl
    | some below =>
      -- A longer prefix names something here just when its rest does one level down.
      have hnamed : fields.named ∘ (name :: ·) = below.fields.named :=
        funext (named_of_subLevel?_some h hbelow)
      have hlast := List.getLast?_eq_some_getLast (below.fields.filter_named_ne_nil rest)
      simp only [hnamed, hbelow, longestNamed, hlast, Option.map_some, Option.getD_some]

/-- No longer prefix names anything.  The induction is on the path, in step with the levels
that it goes down through. -/
theorem prefix_longestNamed {fields : Fields} {path part : List String} (hpart : part <+: path)
    (hnamed : fields.named part = true) : part <+: fields.longestNamed path := by
  induction path generalizing fields part with
  | nil =>
    rw [List.prefix_nil.1 hpart]
    exact List.nil_prefix
  | cons name rest ih =>
    cases part with
    | nil => exact List.nil_prefix
    | cons first part =>
      obtain ⟨rfl, hrest⟩ := List.cons_prefix_cons.1 hpart
      rw [longestNamed_cons]
      cases h : fields.find? first with
      | none =>
        rw [named_of_find?_none h] at hnamed
        cases hnamed
      | some node =>
        cases hbelow : node.subLevel? with
        | none =>
          rw [named_of_subLevel?_none h hbelow] at hnamed
          simp only [hbelow, List.isEmpty_iff.1 hnamed, List.prefix_refl]
        | some below =>
          rw [named_of_subLevel?_some h hbelow] at hnamed
          simp only [hbelow]
          exact List.cons_prefix_cons.2 ⟨rfl, ih hrest hnamed⟩

end Fields

end FieldMask
