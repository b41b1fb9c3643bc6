import FieldMask.Proofs.Flat.Listing
import FieldMask.Proofs.Mask.Erasure
import FieldMask.Proofs.Mask.Survival

namespace FieldMask

/-!
# What a flat projection says of the members that survive

A flat projection lists paths and knows neither modes nor levels.  Projection decides level by
level, and by the modes.  Where the modes are those that the form of the projection stands for, the
two agree.

* `Fields.Covers` — an included field with nothing below it is on a path, or the path leads to a
  level; `Fields.covers_cons` — the same, one name at a time.
* `View.keeps_iff_covers` — where what is not mentioned is dropped at every level, the members kept
  are those whose paths are covered.
* `FlatProjection.keeps_iff_inclusion`, `FlatProjection.keeps_iff_exclusion` — the members kept, by
  what is listed.
* `flat_projection_faithful` — both forms, on the stream.
-/

namespace Fields

/-- A path is that of an included field with nothing below it or goes on from one, or it leads to
a level. -/
def Covers (fields : Fields) (path : List String) : Prop :=
  (∃ first node, fields.nodeAt? first = some node ∧ node.Asked ∧ first <+: path) ∨
    ∃ node, fields.nodeAt? path = some node ∧ node.subLevel?.isSome = true

/-- A path is covered at its first name, or on in the level below it.  A path of one name is
also covered if there is a level below it, since the value itself is kept then. -/
theorem covers_cons {fields : Fields} {name : String} {rest : List String} :
    fields.Covers (name :: rest) ↔
      ∃ node, fields.find? name = some node ∧
        (node.Asked ∨
          ∃ below, node.subLevel? = some below ∧ (rest = [] ∨ below.fields.Covers rest)) := by
  constructor
  · -- A covered path has a listed field on the way or a level at its end; cutting off the first
    -- name leaves such a path, or shows that the name itself is one.
    rintro (⟨_ | ⟨key, first⟩, node, hnode, hasked, hall⟩ | ⟨node, hnode, hsome⟩)
    · cases hnode
    · obtain ⟨rfl, hprefix⟩ := List.cons_prefix_cons.1 hall
      rcases nodeAt?_cons_eq_some_iff.1 hnode with
        ⟨rfl, hfind⟩ | ⟨upper, below, hfind, hsub, hnode⟩
      · exact ⟨node, hfind, .inl hasked⟩
      · have hcovers : below.fields.Covers rest := .inl ⟨first, node, hnode, hasked, hprefix⟩
        exact ⟨upper, hfind, .inr ⟨below, hsub, .inr hcovers⟩⟩
    · rcases nodeAt?_cons_eq_some_iff.1 hnode with
        ⟨rfl, hfind⟩ | ⟨upper, below, hfind, hsub, hnode⟩
      · obtain ⟨below, hsub⟩ := Option.isSome_iff_exists.1 hsome
        exact ⟨node, hfind, .inr ⟨below, hsub, .inl rfl⟩⟩
      · exact ⟨upper, hfind, .inr ⟨below, hsub, .inr (.inr ⟨node, hnode, hsome⟩)⟩⟩
  · rintro ⟨upper, hfind, hasked | ⟨below, hsub, rfl | hcovers⟩⟩
    · exact .inl ⟨[name], upper, nodeAt?_singleton hfind, hasked, rest, rfl⟩
    · exact .inr ⟨upper, nodeAt?_singleton hfind, Option.isSome_iff_exists.2 ⟨below, hsub⟩⟩
    · have hlift {path : List String} {node : Node Level}
          (h : below.fields.nodeAt? path = some node) :
          fields.nodeAt? (name :: path) = some node :=
        nodeAt?_cons_eq_some_iff.2 (.inr ⟨upper, below, hfind, hsub, h⟩)
      rcases hcovers with ⟨first, node, hnode, hasked, hprefix⟩ | ⟨node, hnode, hsome⟩
      · exact .inl
          ⟨name :: first, node, hlift hnode, hasked, List.cons_prefix_cons.2 ⟨rfl, hprefix⟩⟩
      · exact .inr ⟨node, hlift hnode, hsome⟩

/-- A level of excluded fields with nothing below them asks for none. -/
theorem needsInclusion_eq_false {fields : Fields} (hordered : fields.Ordered)
    (h : ∀ name node, fields.find? name = some node → node.Refused) :
    fields.needsInclusion = false := by
  rw [← Bool.not_eq_true, needsInclusion_iff_find? hordered]
  rintro ⟨name, node, hfind, hneeds⟩
  obtain ⟨hexcluded, hnone⟩ := h name node hfind
  rcases hneeds with hincluded | ⟨below, hsub, -⟩
  · rw [hexcluded] at hincluded
    cases hincluded
  · rw [hnone] at hsub
    cases hsub

end Fields

namespace View

/-- **Where what is not mentioned is dropped at every level**, a member is kept if its path is
covered.  Below an excluded field the mode is never asked for. -/
theorem keeps_iff_covers {view : View} (hview : view.listsKept = true)
    (hbelow : view.level.fields.EachBelow fun node below =>
      node.polarity = .included → below.mode = .included)
    {path : List String} (hpath : path ≠ []) :
    view.keeps path = true ↔ view.level.fields.Covers path := by
  induction path generalizing view with
  | nil => exact absurd rfl hpath
  | cons name rest ih =>
    rw [keeps, decide, Fields.covers_cons]
    cases hfind : view.level.fields.find? name with
    | none => simp [hview]
    | some node =>
      obtain ⟨polarity, children⟩ := node
      cases hsub : Node.subLevel? ⟨polarity, children⟩ with
      | none => cases polarity <;> simp [hsub, Node.Asked]
      | some below =>
        obtain ⟨hmode, hdeeper⟩ := Fields.eachBelow_iff.1 hbelow name _ below hfind hsub
        -- Where the path ends at a field with a level below it, the field is kept; else the level
        -- decides.
        by_cases hrest : rest = []
        · subst hrest
          cases polarity <;> simp [hsub, keeps]
        · cases polarity with
          | included =>
            have hinner : listsKept ⟨below, false⟩ = true := by simp [listsKept, hmode rfl]
            simpa [hsub, Node.Asked, hrest] using ih hinner hdeeper hrest
          | excluded =>
            have hinner : listsKept ⟨{ below with mode := .included }, true⟩ = true := rfl
            simpa [hsub, Node.Asked, hrest] using ih hinner hdeeper hrest

end View

namespace FlatProjection

variable {mask : Mask}

/-- What an inclusion keeps: what it lists, what lies in that, and the fields on the way.
The levels below included fields must be those of kept names, as a path that is not
mentioned there follows their mode. -/
theorem keeps_iff_inclusion (hmask : mask.isEmpty = false)
    (hnames : mask.toLevel.Throughout Level.Dotless)
    (hkind : (ofMask (some mask)).kind = .inclusion) (hroot : mask.mode = .included)
    (hbelow : mask.fields.EachBelow fun node below =>
      node.polarity = .included → below.mode = .included)
    {path : List String} (hpath : path ≠ []) :
    mask.Keeps path ↔
      (∃ names ∈ (ofMask (some mask)).listed, names <+: path) ∨
        ∃ node, mask.fields.nodeAt? path = some node ∧ node.subLevel?.isSome = true := by
  have hview : View.listsKept ⟨mask.toLevel, false⟩ = true := by simp [View.listsKept, hroot]
  rw [← View.keeps_iff (View.consistent_of_level mask.toLevel) hpath,
    View.keeps_iff_covers hview hbelow hpath, Fields.Covers]
  simp only [mem_listed_inclusion hmask hnames hkind]
  grind

/-- What an exclusion keeps: all but what it lists.  Every field of the root is refused
there, so what is not mentioned is kept. -/
theorem keeps_iff_exclusion (hmask : mask.isEmpty = false)
    (hnames : mask.toLevel.Throughout Level.Dotless)
    (hrefused : ∀ name node, mask.fields.find? name = some node → node.Refused)
    (hroot : mask.mode = .excluded) (hkind : (ofMask (some mask)).kind = .exclusion)
    (name : String) (rest : List String) :
    mask.Keeps (name :: rest) ↔ [name] ∉ (ofMask (some mask)).listed := by
  rw [mem_listed_exclusion hmask hnames hkind]
  cases hfind : mask.fields.find? name with
  | none =>
    rw [Level.keeps_of_find?_none hfind]
    simp [hroot, hfind]
  | some node =>
    obtain ⟨hpolarity, hsub⟩ := hrefused name node hfind
    rw [Level.keeps_of_subLevel?_none hfind hsub]
    simp [hpolarity, hsub, hfind, Node.Refused]

/-- A mask of excluded fields with nothing below them is flattened to an exclusion. -/
theorem kind_eq_exclusion (hmask : mask.isEmpty = false)
    (hrefused : ∀ name node, mask.fields.find? name = some node → node.Refused) :
    (ofMask (some mask)).kind = .exclusion := by
  rw [ofMask_of_some hmask, Fields.needsInclusion_eq_false mask.ordered hrefused]
  rfl

end FlatProjection

/-- **A flat projection says which members survive.**  Let no name of a mask be empty or have a
dot in it.  Through the mask a document loses members and nothing else, and which these are can be
read off the listed paths:

* of an inclusion, if the root and the levels below included fields drop what they do not mention:
  what is listed, what lies in that, and the fields with a level below them are kept;
* of excluded fields with nothing below them, if the root keeps what it does not mention: the form
  is an exclusion, and of the members those are kept whose first name is not listed. -/
theorem flat_projection_faithful {σ : Type} [TokenSource σ] {pending : σ → List Token → Prop}
    (hfaithful : Faithful pending) (mask : Mask) (hmask : mask.isEmpty = false)
    (hnames : mask.toLevel.Throughout Level.Dotless) (doc : Doc) (rest : List Token) (source : σ)
    (sink : Collected) (h : pending source (doc.flatten ++ rest)) :
    ∃ kept : Doc,
      (∃ source', project (some mask) source sink =
          (.ok (), source', ⟨sink.tokens ++ kept.flatten.toArray⟩) ∧ pending source' rest) ∧
      kept = doc.prune (fun path => mask.Keeps path) ∧
      kept.memberPaths = doc.memberPaths.filter (fun path => mask.Keeps path) ∧
      ((FlatProjection.ofMask (some mask)).kind = .inclusion → mask.mode = .included →
        (mask.fields.EachBelow fun node below =>
          node.polarity = .included → below.mode = .included) →
        ∀ path, path ≠ [] →
          (mask.Keeps path ↔
            (∃ names ∈ (FlatProjection.ofMask (some mask)).listed, names <+: path) ∨
              ∃ node, mask.fields.nodeAt? path = some node ∧ node.subLevel?.isSome = true)) ∧
      ((∀ name node, mask.fields.find? name = some node → node.Refused) →
        mask.mode = .excluded →
        (FlatProjection.ofMask (some mask)).kind = .exclusion ∧
          ∀ name more, mask.Keeps (name :: more) ↔
            [name] ∉ (FlatProjection.ofMask (some mask)).listed) := by
  refine ⟨doc.through (some mask), ?_, Doc.through_eq_prune hmask doc, ?_, ?_, ?_⟩
  · exact project_of_writeAll hfaithful (some mask) doc h (writeAll_collected _ sink)
  · rw [Doc.through_eq_prune hmask]
    exact Doc.memberPaths_prune mask.toLevel.inherited_keeps doc
  · intro hkind hroot hbelow path hpath
    exact FlatProjection.keeps_iff_inclusion hmask hnames hkind hroot hbelow hpath
  · intro hrefused hroot
    have hkind := FlatProjection.kind_eq_exclusion hmask hrefused
    exact ⟨hkind, FlatProjection.keeps_iff_exclusion hmask hnames hrefused hroot hkind⟩

/-- An excluded field with a level below it, whose mode does not count, beside an included one; and
a mask of excluded fields. -/
theorem flat_projection_faithful_forms :
    let mixed : Mask := ⟨⟨.included, .subtree "b" .excluded .excluded (.leaf "c" .included .nil)
      (.subtree "d" .included .included (.leaf "e" .included .nil) .nil)⟩, by decide⟩
    let plain : Mask := ⟨⟨.excluded, .leaf "a" .excluded .nil⟩, by decide⟩
    let doc : Doc := .object [("a", .scalar .null),
      ("b", .object [("c", .scalar .null), ("x", .scalar .null)]),
      ("d", .object [("e", .object [("a", .scalar .null)])])]
    ((FlatProjection.ofMask (some mixed)).paths = ["b.c", "d.e"] ∧
      (∃ kept : Doc, kept = doc.prune (fun path => mixed.Keeps path) ∧
        kept.memberPaths = [["b"], ["b", "c"], ["d"], ["d", "e"], ["d", "e", "a"]]) ∧
      ∀ path, path ≠ [] →
        (mixed.Keeps path ↔
          (∃ names ∈ (FlatProjection.ofMask (some mixed)).listed, names <+: path) ∨
            ∃ node, mixed.fields.nodeAt? path = some node ∧ node.subLevel?.isSome = true)) ∧
    (FlatProjection.ofMask (some plain)).paths = ["a"] ∧
      (∃ kept : Doc, kept = doc.prune (fun path => plain.Keeps path) ∧
        kept.memberPaths = [["b"], ["b", "c"], ["b", "x"], ["d"], ["d", "e"], ["d", "e", "a"]]) ∧
      ∀ name more, plain.Keeps (name :: more) ↔
        [name] ∉ (FlatProjection.ofMask (some plain)).listed := by
  intro mixed plain doc
  constructor
  · have hnames : mixed.toLevel.Throughout Level.Dotless := by
      simp [mixed, Level.Throughout, Fields.Throughout, Level.Dotless, Fields.names, Dotless]
    have hleaf {holds : Node Level → Level → Prop} (name : String) :
        (Fields.cons name ⟨.included, none⟩ .nil).EachBelow holds :=
      (Fields.eachBelow_cons (by simp)).2 ⟨by rintro _ ⟨⟩, Fields.eachBelow_nil⟩
    -- Only `d` is included and has a level below it.
    have hbelow : mixed.fields.EachBelow fun node below =>
        node.polarity = .included → below.mode = .included := by
      have hb : (Fields.cons "b" ⟨.excluded, some ⟨.excluded, .leaf "c" .included .nil⟩⟩
          (.cons "d" ⟨.included, some ⟨.included, .leaf "e" .included .nil⟩⟩ .nil)).EachBelow
          fun node below => node.polarity = .included → below.mode = .included := by
        rw [Fields.eachBelow_cons (by decide), Fields.eachBelow_cons (by decide)]
        refine ⟨?_, ?_, Fields.eachBelow_nil⟩
        · rintro _ ⟨⟩
          exact ⟨by decide, hleaf "c"⟩
        · rintro _ ⟨⟩
          exact ⟨fun _ => rfl, hleaf "e"⟩
      exact hb
    obtain ⟨kept, -, hkept, hpaths, hinclusion, -⟩ :=
      flat_projection_faithful Replay.faithful mixed rfl hnames doc [] (.ofTokens _)
        Collected.empty rfl
    exact ⟨by decide, ⟨kept, hkept, hpaths⟩, hinclusion (by decide) rfl hbelow⟩
  · have hnames : plain.toLevel.Throughout Level.Dotless := by
      simp [plain, Level.Throughout, Fields.Throughout, Level.Dotless, Fields.names, Dotless]
    have hrefused (name : String) (node : Node Level)
        (h : plain.fields.find? name = some node) : node.Refused := by
      rw [Fields.find?_eq_some_iff plain.ordered] at h
      cases List.mem_singleton.1 h
      exact ⟨rfl, rfl⟩
    obtain ⟨kept, -, hkept, hpaths, -, hexclusion⟩ :=
      flat_projection_faithful Replay.faithful plain rfl hnames doc [] (.ofTokens _)
        Collected.empty rfl
    exact ⟨by decide, ⟨kept, hkept, hpaths⟩, (hexclusion hrefused rfl).2⟩

end FieldMask
