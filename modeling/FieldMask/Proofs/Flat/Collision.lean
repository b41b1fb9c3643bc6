import FieldMask.Proofs.Flat.Forms
import Mathlib.Data.Set.Card

namespace FieldMask

/-!
# Fields that share a listed path

A flat projection knows a field by a text alone.  While the text is put together the empty one
stands for the root, so the empty names that a path begins with leave nothing in it; of all other
names without dots each leaves its own place.  Two fields share a text just when they differ in those
empty names and in nothing else.

* `Undotted`, `Level.Undotted` — names without dots, which may be empty.
* `Fields.shownNames` — the names of a path that a text still shows.
* `Fields.pathOf_eq_intercalate_shownNames`, `Fields.intercalate_shownNames_inj` — the text is that
  of the shown names, and no other names have it.
* `Fields.intercalate_shownNames`, `Fields.shownNames_injOn` — where no level lies below an empty
  name of the root, all names are shown.
* `flat_paths_collide` — what that makes of the listed paths and of their number.
-/

/-- A name without dots. -/
def Undotted (name : String) : Prop := '.' ∉ name.toList

/-- A level of such names. -/
def Level.Undotted (level : Level) : Prop := ∀ name ∈ level.fields.names, FieldMask.Undotted name

namespace Fields

variable {names names' : List String}

/-! ### What a text shows of a path -/

/-- The names of a path from the first one on that is not empty. -/
def shownNames (names : List String) : List String := names.dropWhile (·.isEmpty)

/-- Where the first name is not empty, all names are shown. -/
theorem shownNames_of_head? (h : names.head? ≠ some "") : shownNames names = names := by
  cases names with
  | nil => rfl
  | cons name rest =>
    have hname : ¬name.isEmpty = true := by simpa using h
    exact List.dropWhile_cons_of_neg hname

/-- The names that are shown do not begin with an empty one. -/
theorem head?_shownNames (names : List String) : (shownNames names).head? ≠ some "" := by
  intro h
  have hnot := List.head?_dropWhile_not (·.isEmpty) names
  rw [shownNames] at h
  rw [h] at hnot
  cases hnot

/-- The text of a path is that of the names that it shows. -/
theorem pathOf_eq_intercalate_shownNames (names : List String) :
    pathOf names.reverse = ".".intercalate (shownNames names) := by
  induction names with
  | nil => rfl
  | cons name rest ih =>
    by_cases hname : name = ""
    · -- An empty name is joined to the empty text and leaves it as it is.
      subst hname
      rw [pathOf, List.reverse_reverse] at ih ⊢
      exact ih
    · have hhead : (name :: rest).head? ≠ some "" := by simpa using hname
      rw [shownNames_of_head? hhead, pathOf_eq_intercalate hhead]

/-- A text is taken apart into the names that it was joined from, if there were any. -/
theorem pathNames_intercalate (h : ∀ name ∈ names, Undotted name) :
    pathNames (".".intercalate names) = if names = [] then [""] else names :=
  String.toList_split_intercalate h

/-- **Paths share a text just when they show the same names.**  A text is taken apart at its
dots, which gives the shown names back, and one empty name if there are none. -/
theorem intercalate_shownNames_inj (h : ∀ name ∈ names, Undotted name)
    (h' : ∀ name ∈ names', Undotted name) :
    ".".intercalate (shownNames names) = ".".intercalate (shownNames names') ↔
      shownNames names = shownNames names' := by
  have hshown {names : List String} (h : ∀ name ∈ names, Undotted name) :
      ∀ name ∈ shownNames names, Undotted name := fun name hname =>
    h name ((List.dropWhile_sublist _).subset hname)
  constructor
  · intro htext
    have hnames := congrArg pathNames htext
    rw [pathNames_intercalate (hshown h), pathNames_intercalate (hshown h')] at hnames
    -- The text of no names would be taken apart into an empty one, with which nothing begins.
    have hhead := head?_shownNames names
    have hhead' := head?_shownNames names'
    split at hnames <;> split at hnames
    next hnil hnil' => rw [hnil, hnil']
    next => rw [← hnames] at hhead'; exact absurd rfl hhead'
    next => rw [hnames] at hhead; exact absurd rfl hhead
    next => exact hnames
  · intro hnames
    rw [hnames]

/-! ### Where no level lies below an empty name of the root -/

section Root

variable {fields : Fields} (hroot : ∀ node, fields.find? "" = some node → node.subLevel? = none)

include hroot

/-- Only a path that is at its end there begins with an empty name. -/
theorem eq_singleton_of_head? {node : Node Level} (h : fields.nodeAt? names = some node)
    (hhead : names.head? = some "") : names = [""] := by
  obtain ⟨rest, rfl⟩ := List.head?_eq_some_iff.1 hhead
  rcases nodeAt?_cons_eq_some_iff.1 h with ⟨rfl, -⟩ | ⟨upper, below, hfind, hsub, -⟩
  · rfl
  · rw [hroot upper hfind] at hsub
    cases hsub

/-- The text of a field is that of all its names. -/
theorem intercalate_shownNames {node : Node Level} (h : fields.nodeAt? names = some node) :
    ".".intercalate (shownNames names) = ".".intercalate names := by
  by_cases hhead : names.head? = some ""
  · rw [eq_singleton_of_head? hroot h hhead]
    rfl
  · rw [shownNames_of_head? hhead]

/-- Different fields show different names. -/
theorem shownNames_injOn :
    Set.InjOn shownNames {names | ∃ node, fields.nodeAt? names = some node} := by
  have hnil {names : List String} {node : Node Level} (h : fields.nodeAt? names = some node)
      (hhead : names.head? ≠ some "") : shownNames names ≠ [] := by
    rw [shownNames_of_head? hhead]
    rintro rfl
    cases h
  have hempty : shownNames [""] = [] := rfl
  rintro names ⟨node, h⟩ names' ⟨node', h'⟩ heq
  -- Only the path of the empty name alone shows nothing, so two paths are both this one or neither
  -- is.
  by_cases hhead : names.head? = some "" <;> by_cases hhead' : names'.head? = some ""
  · rw [eq_singleton_of_head? hroot h hhead, eq_singleton_of_head? hroot h' hhead']
  · rw [eq_singleton_of_head? hroot h hhead] at heq
    exact absurd heq.symm (hnil h' hhead')
  · rw [eq_singleton_of_head? hroot h' hhead'] at heq
    exact absurd heq (hnil h hhead)
  · rwa [shownNames_of_head? hhead, shownNames_of_head? hhead'] at heq

end Root

end Fields

namespace FlatProjection

/-- Each path is listed once.  They are sorted strictly, so no path stands next to
itself. -/
theorem encard_paths (flat : FlatProjection) : {path | path ∈ flat.paths}.encard = flat.size := by
  have hnodup : flat.paths.Nodup := flat.ordered.imp fun {path path'} hlt => by
    rintro rfl
    exact String.lt_irrefl path hlt
  rw [← List.coe_toFinset, Set.encard_coe_eq_coe_finsetCard, List.toFinset_card_of_nodup hnodup]
  rfl

/-- An inclusion lists the texts of the included fields with nothing below them.  That it is
an inclusion says by itself that the mask mentions a name. -/
theorem setOf_paths_inclusion {mask : Mask} (hkind : (ofMask (some mask)).kind = .inclusion) :
    {path | path ∈ (ofMask (some mask)).paths} =
      (fun names => ".".intercalate (Fields.shownNames names)) ''
        {names | ∃ node, mask.fields.nodeAt? names = some node ∧ node.Asked} := by
  have hmask : mask.isEmpty = false := by
    rw [← Bool.not_eq_true]
    intro hempty
    rw [(kind_eq_empty_iff (some mask)).2 (by rintro _ ⟨⟩; exact hempty)] at hkind
    cases hkind
  ext path
  simp only [Set.mem_ofPred_eq, Set.mem_image, mem_paths_inclusion hmask hkind,
    Fields.pathOf_eq_intercalate_shownNames]
  constructor
  · rintro ⟨names, node, hnode, hasked, rfl⟩
    exact ⟨names, ⟨node, hnode, hasked⟩, rfl⟩
  · rintro ⟨names, ⟨node, hnode, hasked⟩, rfl⟩
    exact ⟨names, node, hnode, hasked, rfl⟩

end FlatProjection

/-- **Listed paths collide only in the empty names that they begin with.**  Let no name of a mask
have a dot in it.  An inclusion lists the included fields with nothing below them, each by the text
of the names that it shows, and two fields of the mask have one text just when they show the same
names; so there are as many listed paths as there are lists of names shown.

If the root has no level below an empty name, all names are shown: the text of a field is that of
its names, no other field of the mask has it, and there are as many listed paths as there are
included fields with nothing below them. -/
theorem flat_paths_collide (mask : Mask) (hnames : mask.toLevel.Throughout Level.Undotted)
    (hkind : (FlatProjection.ofMask (some mask)).kind = .inclusion) :
    let flat := FlatProjection.ofMask (some mask)
    let placed : Set (List String) := {names | ∃ node, mask.fields.nodeAt? names = some node}
    let asked : Set (List String) := {names | ∃ node, mask.fields.nodeAt? names = some node ∧
      node.polarity = .included ∧ node.subLevel? = none}
    let text := fun names => ".".intercalate (Fields.shownNames names)
    {path | path ∈ flat.paths} = text '' asked ∧
      (∀ names ∈ placed, ∀ names' ∈ placed, text names = text names' ↔
        Fields.shownNames names = Fields.shownNames names') ∧
      (Fields.shownNames '' asked).encard = flat.size ∧
      ((∀ node, mask.fields.find? "" = some node → node.subLevel? = none) →
        {path | path ∈ flat.paths} = ".".intercalate '' asked ∧
          Set.InjOn ".".intercalate placed ∧ asked.encard = flat.size) := by
  intro flat placed asked text
  have hpaths : {path | path ∈ flat.paths} = text '' asked :=
    FlatProjection.setOf_paths_inclusion hkind
  have hplaced : asked ⊆ placed := fun names ⟨node, hnode, _⟩ => ⟨node, hnode⟩
  -- Along any path of the mask there are only names of its levels.
  have hundotted {names : List String} (h : names ∈ placed) : ∀ name ∈ names, Undotted name := by
    obtain ⟨node, hnode⟩ := h
    exact Fields.forall_of_nodeAt? hnames mask.ordered hnode
  have htext : ∀ names ∈ placed, ∀ names' ∈ placed, text names = text names' ↔
      Fields.shownNames names = Fields.shownNames names' := fun names h names' h' =>
    Fields.intercalate_shownNames_inj (hundotted h) (hundotted h')
  -- On lists of shown names the text is one to one, so counting texts is counting those lists.
  have hshown : (Fields.shownNames '' asked).encard = flat.size := by
    have hinj : Set.InjOn ".".intercalate (Fields.shownNames '' asked) := by
      rintro _ ⟨names, h, rfl⟩ _ ⟨names', h', rfl⟩ heq
      exact (htext names (hplaced h) names' (hplaced h')).1 heq
    rw [← FlatProjection.encard_paths, hpaths, ← hinj.encard_image, Set.image_image]
  refine ⟨hpaths, htext, hshown, ?_⟩
  intro hroot
  have hall : Set.EqOn text ".".intercalate placed := by
    rintro names ⟨node, hnode⟩
    exact Fields.intercalate_shownNames hroot hnode
  have hinj := Fields.shownNames_injOn hroot
  refine ⟨hpaths.trans (hall.mono hplaced).image_eq, ?_, ?_⟩
  · intro names h names' h' heq
    rw [← hall h, ← hall h', htext names h names' h'] at heq
    exact hinj h h' heq
  · rw [← hshown, (hinj.mono hplaced).encard_image]

/-- Empty names at the root, without a level, and below another name: all of them are shown. -/
theorem flat_paths_collide_shown :
    let mask : Mask := ⟨⟨.included, .leaf "" .included (.subtree "a" .excluded .included
      (.leaf "" .included (.leaf "b" .included .nil)) .nil)⟩, by decide⟩
    mask.toLevel.Throughout Level.Undotted ∧
      (FlatProjection.ofMask (some mask)).kind = .inclusion ∧
      (∀ node, mask.fields.find? "" = some node → node.subLevel? = none) ∧
      (FlatProjection.ofMask (some mask)).paths = ["", "a.", "a.b"] ∧
      {names | ∃ node, mask.fields.nodeAt? names = some node ∧ node.polarity = .included ∧
        node.subLevel? = none}.encard = 3 := by
  intro mask
  have hnames : mask.toLevel.Throughout Level.Undotted := by
    simp [mask, Level.Throughout, Fields.Throughout, Level.Undotted, Fields.names, Undotted]
  have hkind : (FlatProjection.ofMask (some mask)).kind = .inclusion := by decide
  -- The field of the empty name at the root is a plain one.
  have hroot : ∀ node, mask.fields.find? "" = some node → node.subLevel? = none := by
    rintro _ ⟨⟩
    rfl
  obtain ⟨-, -, -, hshown⟩ := flat_paths_collide mask hnames hkind
  exact ⟨hnames, hkind, hroot, by decide, (hshown hroot).2.2⟩

/-- A field below an empty name of the root is listed under the path of another field, and one of
the two paths is lost. -/
theorem flat_paths_collide_hidden :
    let mask : Mask := ⟨⟨.included, .subtree "" .included .included (.leaf "a" .included .nil)
      (.leaf "a" .included .nil)⟩, by decide⟩
    let asked : Set (List String) := {names | ∃ node, mask.fields.nodeAt? names = some node ∧
      node.polarity = .included ∧ node.subLevel? = none}
    mask.toLevel.Throughout Level.Undotted ∧
      (FlatProjection.ofMask (some mask)).kind = .inclusion ∧
      ["", "a"] ∈ asked ∧ ["a"] ∈ asked ∧
      (FlatProjection.ofMask (some mask)).paths = ["a"] ∧
      asked.encard ≠ (FlatProjection.ofMask (some mask)).size := by
  intro mask asked
  have hinner : ["", "a"] ∈ asked := ⟨⟨.included, none⟩, by decide, rfl, rfl⟩
  have houter : ["a"] ∈ asked := ⟨⟨.included, none⟩, by decide, rfl, rfl⟩
  have htwo : 2 ≤ asked.encard := by
    rw [← Set.encard_pair (show ["", "a"] ≠ ["a"] by decide)]
    exact Set.encard_le_encard (Set.pair_subset hinner houter)
  have hsize : (FlatProjection.ofMask (some mask)).size = 1 := by decide
  refine ⟨?_, by decide, hinner, houter, by decide, ?_⟩
  · simp [mask, Level.Throughout, Fields.Throughout, Level.Undotted, Fields.names, Undotted]
  · intro heq
    rw [heq, hsize] at htwo
    exact absurd htwo (by decide)

end FieldMask
