import FieldMask.Json.Projection
import FieldMask.Flat
import FieldMask.Mask.Text
import FieldMask.Proofs.Mask.Erasure
import FieldMask.Proofs.Mask.Modes
import FieldMask.Proofs.Stream.Alike

namespace FieldMask

/-!
# Empty levels below a name

A level that mentions no name says nothing about what is below its field, and nobody who uses a mask
can tell such a field from a plain decision.

* `Fields.trim`, `Level.trim`, `Node.trim`, `Mask.trim` — a mask with plain decisions in the place
  of fields above empty levels; everything else stays, modes included.
* `Fields.find?_trim`, `Node.subLevel?_trim` — what a trimmed level says, and what is below it.
* `View.decide_trim` — a view decides on each member as its trimmed form does, so that projections
  are the same (`project_trim`, `Datum.project_trim`).
* `Fields.members_trim`, `Fields.pieces_trim`, `FlatProjection.ofMask_trim` — what is written of a
  mask is the same.
* `Fields.trim_overlay`, `Mask.trim_overlay` — trimming goes through layering.
* `trim_indistinguishable` — all of it.
-/

/-! ### Trimming -/

/-- Some fields with a plain decision in the place of each field above an empty level.
Levels that mention a name keep their mode. -/
def Fields.trim : Fields → Fields
  | nil => nil
  | leaf name polarity rest => leaf name polarity rest.trim
  | subtree name polarity mode children rest =>
    if children.isEmpty then leaf name polarity rest.trim
    else subtree name polarity mode children.trim rest.trim

/-- A level with its fields trimmed, under the same mode. -/
def Level.trim (level : Level) : Level := ⟨level.mode, level.fields.trim⟩

/-- A node with the level below it trimmed, or left out if it is empty. -/
def Node.trim (node : Node Level) : Node Level := ⟨node.polarity, node.subLevel?.map Level.trim⟩

/-- Trimming leaves every polarity as it is. -/
theorem Node.polarity_trim (node : Node Level) : node.trim.polarity = node.polarity := rfl

namespace Fields

/-- Fields are trimmed one by one, in their order. -/
theorem trim_cons (name : String) (node : Node Level) (rest : Fields) :
    (cons name node rest).trim = cons name node.trim rest.trim := by
  obtain ⟨polarity, _ | ⟨mode, children⟩⟩ := node
  · rfl
  · rw [cons, trim, Node.trim, Node.subLevel?_some]
    cases children.isEmpty <;> rfl

/-- Only a level without any fields is empty. -/
theorem eq_nil_of_isEmpty {fields : Fields} (h : fields.isEmpty = true) : fields = nil := by
  cases fields with
  | nil => rfl
  | leaf _ _ _ => cases h
  | subtree _ _ _ _ _ => cases h

/-- No field is lost, so a level is empty afterwards if it was empty before. -/
theorem isEmpty_trim (fields : Fields) : fields.trim.isEmpty = fields.isEmpty := by
  cases fields with
  | nil => rfl
  | leaf _ _ _ => rfl
  | subtree name polarity mode children rest =>
    rw [trim]
    cases children.isEmpty <;> rfl

/-- Under every name the trimmed node is found. -/
theorem find?_trim (fields : Fields) (name : String) :
    fields.trim.find? name = (fields.find? name).map Node.trim := by
  induction fields using consInduction with
  | nil => rfl
  | cons n node rest _ ih =>
    rw [trim_cons, find?_cons, find?_cons, ih]
    split <;> rfl

/-- The entries stay in place, each with its node trimmed. -/
theorem entries_trim (fields : Fields) :
    fields.trim.entries = fields.entries.map (Prod.map id Node.trim) := by
  induction fields using consInduction with
  | nil => rfl
  | cons name node rest _ ih =>
    rw [trim_cons, entries_cons, entries_cons, ih]
    rfl

/-- All names stay. -/
theorem names_trim (fields : Fields) : fields.trim.names = fields.names := by
  rw [← map_fst_entries, entries_trim, List.map_map, ← map_fst_entries]
  rfl

/-- Only the polarities of a level's own fields count, and these stay. -/
theorem derivedMode_trim (fields : Fields) : fields.trim.derivedMode = fields.derivedMode := by
  rw [derivedMode, derivedMode, entries_trim, List.map_map]
  rfl

end Fields

/-- What lies below a trimmed node is trimmed as well.  An empty level counts for nothing
before and is gone afterwards, so nobody who looks for a level finds a difference. -/
theorem Node.subLevel?_trim (node : Node Level) :
    node.trim.subLevel? = node.subLevel?.map Level.trim := by
  rw [trim, subLevel?]
  cases hsub : node.subLevel? with
  | none => rfl
  | some level =>
    have hne := (subLevel?_eq_some_iff.1 hsub).2
    rw [Option.map_some, Option.filter_some, Level.trim, Fields.isEmpty_trim, hne]
    rfl

/-- Trimmed fields are in order, since the names are the same and what stays below is in
order. -/
theorem Fields.ordered_trim {fields : Fields} (h : fields.Ordered) : fields.trim.Ordered := by
  induction fields using consInduction with
  | nil => trivial
  | cons name node rest hbelow ih =>
    obtain ⟨hlt, hnode, hrest⟩ := ordered_cons.1 h
    rw [trim_cons, ordered_cons, names_trim]
    refine ⟨hlt, ?_, ih hrest⟩
    intro level hlevel
    obtain ⟨below, hsub, rfl⟩ := Option.map_eq_some_iff.1 hlevel
    have hchildren := (Node.subLevel?_eq_some_iff.1 hsub).1
    exact hbelow below hchildren (hnode below hchildren)

/-- A mask with plain decisions in the place of fields above empty levels, under the same mode. -/
def Mask.trim (mask : Mask) : Mask := ⟨mask.toLevel.trim, Fields.ordered_trim mask.ordered⟩

/-! ### Projections -/

/-- A view of the trimmed level. -/
def View.trim (view : View) : View := ⟨view.level.trim, view.overridden⟩

/-- A view and its trimmed form decide alike: only a level that mentions a name is entered. -/
theorem View.decide_trim : DecideAlike (fun view view' => view' = view.trim) decide decide := by
  rintro view _ name rfl
  have hfind : view.trim.level.fields.find? name = (view.level.fields.find? name).map Node.trim :=
    Fields.find?_trim view.level.fields name
  rw [decide, decide, hfind]
  cases view.level.fields.find? name with
  | none =>
    -- The mode and what lies above are those of the view.
    show Action.Rel _ (if view.listsKept then .skip else .copy)
      (if view.listsKept then .skip else .copy)
    split
    · exact .skip
    · exact .copy
  | some node =>
    -- A field over an empty level decides like a plain one already, before it is trimmed.
    dsimp only [Option.map_some]
    rw [Node.subLevel?_trim]
    obtain ⟨polarity, children⟩ := node
    dsimp only [Node.trim]
    cases Node.subLevel? ⟨polarity, children⟩ with
    | none =>
      cases polarity with
      | included => exact .copy
      | excluded => exact .skip
    | some level =>
      cases polarity with
      | included => exact .descend rfl
      | excluded => exact .descend rfl

/-- A projection begins under the trimmed view, or without a view in both cases. -/
theorem View.ofMask?_trim (mask : Mask) :
    ofMask? (some mask.trim) = (ofMask? (some mask)).map View.trim := by
  have hempty : mask.trim.isEmpty = mask.isEmpty := mask.fields.isEmpty_trim
  rw [ofMask?, ofMask?, Option.filter_some, Option.filter_some, hempty]
  cases mask.isEmpty <;> rfl

section Project

variable {σ κ : Type} [TokenSource σ] [TokenSink κ] (mask : Mask)

/-- **Streams are projected through the trimmed mask as through the mask itself.**  The
two views are related at every level that a projection reaches, and related views decide
alike. -/
theorem project_trim (source : σ) (sink : κ) :
    project (some mask.trim) source sink = project (some mask) source sink := by
  rw [project, project, View.ofMask?_trim]
  cases View.ofMask? (some mask) with
  | none => rfl
  | some view => exact (projectBy_of_alike View.decide_trim rfl source sink).symm

/-- **Data are projected through the trimmed mask as through the mask itself.**  The two
views decide alike, or neither mask has one. -/
theorem Datum.project_trim (origin : Origin) (datum : Datum) (sink : κ) :
    datum.project origin (some mask.trim) sink = datum.project origin (some mask) sink := by
  have hview : Option.Rel (fun view view' => view' = View.trim view) (View.ofMask? (some mask))
      (View.ofMask? (some mask.trim)) := by
    rw [View.ofMask?_trim]
    cases View.ofMask? (some mask) with
    | none => exact .none
    | some view => exact .some rfl
  exact (Datum.projectBy_of_alike View.decide_trim hview sink datum).symm

end Project

/-! ### What is written of a mask -/

namespace Fields

/-- The structural form has an object for a level with fields and a value for anything else,
be it above an empty level or not. -/
theorem members_trim (fields : Fields) : fields.trim.members = fields.members := by
  induction fields using consInduction with
  | nil => rfl
  | cons name node rest hbelow ih =>
    rw [trim_cons, members_cons, members_cons, ih, Node.toDoc, Node.toDoc, Node.subLevel?_trim]
    cases hsub : node.subLevel? with
    | none => rfl
    -- What is below a field is written alike by the hypothesis for its level.
    | some level =>
      have hlevel := hbelow level (Node.subLevel?_eq_some_iff.1 hsub).1
      show (name, Doc.object level.fields.trim.members) :: _ = _
      rw [hlevel]

/-- An expression writes no parentheses for an empty level. -/
theorem pieces_trim (fields : Fields) : fields.trim.pieces = fields.pieces := by
  induction fields with
  | nil => rfl
  | leaf name polarity rest ih => rw [trim, pieces, pieces, ih]
  | subtree name polarity mode children rest ihc ihr =>
    cases h : children.isEmpty <;> simp [trim, pieces, h, isEmpty_trim, ihc, ihr]

/-- Whether a flat projection has to list what it includes does not depend on empty
levels. -/
theorem needsInclusion_trim (fields : Fields) :
    fields.trim.needsInclusion = fields.needsInclusion := by
  induction fields with
  | nil => rfl
  | leaf name polarity rest ih => rw [trim, needsInclusion, needsInclusion, ih]
  | subtree name polarity mode children rest ihc ihr =>
    cases h : children.isEmpty with
    | true =>
      obtain rfl := eq_nil_of_isEmpty h
      simp [trim, isEmpty, needsInclusion, ihr]
    | false => simp [trim, h, needsInclusion, ihc, ihr]

/-- Nor do the paths that it lists then, below whatever prefix. -/
theorem includedPaths_trim (outer : List String) (fields : Fields) :
    fields.trim.includedPaths outer = fields.includedPaths outer := by
  induction fields generalizing outer with
  | nil => rfl
  | leaf name polarity rest ih => rw [trim, includedPaths, includedPaths, ih]
  | subtree name polarity mode children rest ihc ihr =>
    cases h : children.isEmpty <;> simp [trim, includedPaths, h, isEmpty_trim, ihc, ihr]

/-- Nor do the names that it lists otherwise. -/
theorem excludedNames_trim (fields : Fields) :
    fields.trim.excludedNames = fields.excludedNames := by
  rw [excludedNames, excludedNames, entries_trim, List.filterMap_map]
  refine congrArg (List.filterMap · fields.entries) (funext ?_)
  rintro ⟨name, node⟩
  simp only [Function.comp_apply, Prod.map_apply, id_eq, Node.polarity_trim, Node.subLevel?_trim,
    Option.isNone_map]

end Fields

/-- The expression of a mask is the same, and so is its structural form. -/
theorem Mask.text_trim (mask : Mask) : mask.trim.text = mask.text := by
  rw [text_eq, text_eq, Fields.chars, Fields.chars]
  exact congrArg (fun pieces => String.ofList (commaSeparated pieces)) mask.fields.pieces_trim

theorem Mask.toDoc_trim (mask : Mask) : mask.trim.toDoc = mask.toDoc :=
  congrArg Doc.object mask.fields.members_trim

/-- A flat projection is made of three things, none of which trimming changes.  They are
whether the mask mentions a name, whether it needs an inclusion, and the paths of either
form. -/
theorem FlatProjection.ofMask_trim (mask : Mask) :
    ofMask (some mask.trim) = ofMask (some mask) := by
  have hempty : mask.trim.isEmpty = mask.isEmpty := mask.fields.isEmpty_trim
  have hneeds : mask.trim.fields.needsInclusion = mask.fields.needsInclusion :=
    mask.fields.needsInclusion_trim
  have hpaths : mask.trim.fields.includedPaths [] = mask.fields.includedPaths [] :=
    mask.fields.includedPaths_trim []
  have hnames : mask.trim.fields.excludedNames = mask.fields.excludedNames :=
    mask.fields.excludedNames_trim
  rw [ofMask, ofMask, Option.filter_some, Option.filter_some, hempty]
  cases mask.isEmpty with
  | true => rfl
  | false =>
    show (if mask.trim.fields.needsInclusion then _ else _) = _
    rw [hneeds, hpaths, hnames]
    rfl

/-! ### Layering -/

/-- What is joined may be joined after a change if what is there may. -/
theorem map_merge_of {α β : Type} {change : α → β} {join : α → α → α} {join' : β → β → β}
    {first second : Option α}
    (h : ∀ x y, first = some x → second = some y →
      change (join x y) = join' (change x) (change y)) :
    (first.merge join second).map change = (first.map change).merge join' (second.map change) := by
  cases first with
  | none => simp
  | some x =>
    cases second with
    | none => simp
    | some y => exact congrArg some (h x y rfl rfl)

/-- Levels are joined under the same mode, which only polarities decide on. -/
theorem Level.trim_overlay {upper lower : Level}
    (h : (upper.fields.overlay lower.fields).trim =
      upper.fields.trim.overlay lower.fields.trim) :
    (upper.overlay lower).trim = upper.trim.overlay lower.trim := by
  have hmode := Fields.derivedMode_trim (upper.fields.overlay lower.fields)
  rw [h] at hmode
  exact congrArg₂ Level.mk hmode.symm h

/-- Joined nodes may be trimmed before or after, if the levels below them may. -/
theorem Node.trim_overlay {base other : Node Level} (hother : other.Ordered)
    (h : ∀ upper lower, base.subLevel? = some upper → other.subLevel? = some lower →
      (upper.overlay lower).trim = upper.trim.overlay lower.trim) :
    (base.overlay other).trim = base.trim.overlay other.trim := by
  -- The levels that count on both sides are the trimmed ones of those that count before.
  have hlevels : ((base.overlay other).subLevel?).map Level.trim =
      base.trim.subLevel?.merge Level.overlay other.trim.subLevel? := by
    rw [subLevel?_overlay base hother, subLevel?_trim, subLevel?_trim]
    exact map_merge_of h
  rw [trim, polarity_overlay, hlevels]
  -- Whether the lower node has a level to add is seen after trimming as well as before.
  cases hsub : other.trim.subLevel? with
  | none =>
    rw [overlay_of_subLevel?_none hsub, Option.merge_none_right, subLevel?_trim]
    rfl
  | some lower =>
    rw [overlay_of_subLevel?_some hsub, hsub]
    rfl

/-- **Trimming goes through layering.**  The induction is on the levels of the upper fields.
What is joined there is compared name by name, since both sides are in order. -/
theorem Fields.trim_overlay {base other : Fields} (hbase : base.Ordered) (hother : other.Ordered) :
    (base.overlay other).trim = base.trim.overlay other.trim := by
  induction base using belowInduction generalizing other with
  | step base ih =>
    apply eq_of_find? (ordered_trim (ordered_overlay hbase hother))
      (ordered_overlay (ordered_trim hbase) (ordered_trim hother))
    intro name
    rw [find?_trim, find?_overlay base hother, find?_overlay _ (ordered_trim hother), find?_trim,
      find?_trim]
    apply map_merge_of
    intro node node' hnode hnode'
    apply Node.trim_overlay (ordered_of_find? hother hnode')
    intro upper lower hupper hlower
    have hupperOrdered := ordered_of_subLevel? (ordered_of_find? hbase hnode) hupper
    have hlowerOrdered := ordered_of_subLevel? (ordered_of_find? hother hnode') hlower
    have hchildren := (Node.subLevel?_eq_some_iff.1 hupper).1
    exact Level.trim_overlay (ih name node upper hnode hchildren hupperOrdered hlowerOrdered)

/-- The modes agree because both are derived from fields with the same polarities. -/
theorem Mask.trim_overlay (base other : Mask) :
    (base.overlay other).trim = base.trim.overlay other.trim := by
  have hfields := Fields.trim_overlay base.ordered other.ordered
  have hmode := Fields.derivedMode_trim (base.fields.overlay other.fields)
  exact eq_of_fields hmode.symm rfl hfields

/-! ### All uses of a mask -/

/-- **Nobody can tell a field above an empty level from a plain decision.**  A mask with plain
decisions in the place of such fields projects every stream from any source to any sink, every JSON
text, every document in memory and every datum of any format as the mask itself does, with the same
failures.  Its expression, its structural form and its flat projection are the same, and it is all
one whether masks are trimmed before or after they are laid over each other. -/
theorem trim_indistinguishable (mask : Mask) :
    (∀ {σ κ : Type} [TokenSource σ] [TokenSink κ] (source : σ) (sink : κ),
        project (some mask.trim) source sink = project (some mask) source sink) ∧
      (∀ text, projectText (some mask.trim) text = projectText (some mask) text) ∧
      (∀ bytes ending device, projectBytes (some mask.trim) bytes ending device =
        projectBytes (some mask) bytes ending device) ∧
      (∀ doc, projectDoc (some mask.trim) doc = projectDoc (some mask) doc) ∧
      (∀ {κ : Type} [TokenSink κ] (origin : Origin) (datum : Datum) (sink : κ),
        datum.project origin (some mask.trim) sink = datum.project origin (some mask) sink) ∧
      (∀ {κ : Type} [TokenSink κ] (bytes : List UInt8) (sink : κ),
        projectJson (some mask.trim) bytes sink = projectJson (some mask) bytes sink) ∧
      (∀ {κ : Type} [TokenSink κ] (doc : Doc) (sink : κ),
        projectTree (some mask.trim) doc sink = projectTree (some mask) doc sink) ∧
      mask.trim.text = mask.text ∧
      mask.trim.toDoc = mask.toDoc ∧
      FlatProjection.ofMask (some mask.trim) = FlatProjection.ofMask (some mask) ∧
      ∀ other : Mask, (mask.overlay other).trim = mask.trim.overlay other.trim := by
  -- Every way to project goes through the projection of a stream or that of a datum.
  have hbytes (bytes : List UInt8) (ending : Ending) (device : Device) :
      projectBytes (some mask.trim) bytes ending device =
        projectBytes (some mask) bytes ending device := by
    rw [projectBytes, projectBytes, project_trim]
  have htext (text : String) :
      projectText (some mask.trim) text = projectText (some mask) text := by
    rw [projectText, projectText, hbytes]
  have hdoc (doc : Doc) : projectDoc (some mask.trim) doc = projectDoc (some mask) doc := by
    rw [projectDoc, projectDoc, project_trim]
  refine ⟨project_trim mask, htext, hbytes, hdoc, Datum.project_trim mask, ?_, ?_, mask.text_trim,
    mask.toDoc_trim, FlatProjection.ofMask_trim mask, mask.trim_overlay⟩
  · intro κ _ bytes sink
    rw [projectJson, projectJson, Datum.project_trim]
  · intro κ _ doc sink
    exact Datum.project_trim mask .document (.ofDoc doc) sink

/-- The mode below `a` stays, the empty level below `b` goes with its mode. -/
example :
    let below : Fields := .subtree "b" .excluded .excluded .nil .nil
    (Fields.subtree "a" .excluded .included below .nil).trim =
      .subtree "a" .excluded .included (.leaf "b" .excluded .nil) .nil := by
  decide

end FieldMask
