import FieldMask.Mask.Document
import FieldMask.Proofs.Expression.WellFormed
import FieldMask.Proofs.Mask.Layers

namespace FieldMask

/-!
# What the structural form keeps of a mask

The structural form writes an object for a field with a level below it, and has no place in that
object for the polarity of the field or for a mode.

* `Fields.EachBelow` — something holds of every node with a level below it, and of that level.
* `Fields.erase`, `Mask.erase` — a mask without what the structural form leaves out.
* `Fields.members_cons`, `Fields.erase_cons` — both, field by field.
* `Mask.erase_eq_self` — an expression that overrides nothing denotes a mask that is kept whole.
-/

/-! ### Levels below -/

namespace Fields

/-- Something holds of every node that a path leads to and that has a level below it mentioning a
name, together with that level. -/
def EachBelow (holds : Node Level → Level → Prop) (fields : Fields) : Prop :=
  ∀ path node level, fields.nodeAt? path = some node → node.subLevel? = some level →
    holds node level

/-- It holds of the levels below the fields, and again below these.  A path of one name
leads to the first, a longer one into the second. -/
theorem eachBelow_iff {holds : Node Level → Level → Prop} {fields : Fields} :
    fields.EachBelow holds ↔
      ∀ name node level, fields.find? name = some node → node.subLevel? = some level →
        holds node level ∧ level.fields.EachBelow holds := by
  constructor
  · intro h name node level hfind hsub
    refine ⟨h [name] node level (nodeAt?_singleton hfind) hsub, ?_⟩
    intro path below lower hpath hlower
    refine h (name :: path) below lower ?_ hlower
    exact nodeAt?_cons_eq_some_iff.2 (.inr ⟨node, level, hfind, hsub, hpath⟩)
  · intro h path node level hpath hsub
    match path with
    | [] => cases hpath
    | name :: rest =>
      rcases nodeAt?_cons_eq_some_iff.1 hpath with ⟨-, hfind⟩ | ⟨nd, upper, hfind, hnd, hbelow⟩
      · exact (h name node level hfind hsub).1
      · exact (h name nd upper hfind hnd).2 rest node level hbelow hsub

/-- There is nothing below a level without fields. -/
theorem eachBelow_nil {holds : Node Level → Level → Prop} : nil.EachBelow holds := by
  rw [eachBelow_iff]
  intro name node level hfind
  cases hfind

/-- Below a level in order are what is below its first field and what is below the others. -/
theorem eachBelow_cons {holds : Node Level → Level → Prop} {name : String} {node : Node Level}
    {rest : Fields} (hlt : ∀ n ∈ rest.names, name < n) :
    (cons name node rest).EachBelow holds ↔
      (∀ level, node.subLevel? = some level → holds node level ∧ level.fields.EachBelow holds) ∧
        rest.EachBelow holds := by
  rw [eachBelow_iff, eachBelow_iff]
  constructor
  · intro h
    constructor
    · intro level hsub
      exact h name node level (by rw [find?_cons, if_pos rfl]) hsub
    · intro key nd level hfind hsub
      exact h key nd level (find?_cons_of_find? hlt hfind) hsub
  · -- A name that is found is that of the first field or of one behind it.
    rintro ⟨hnode, hrest⟩ key nd level hfind hsub
    rw [find?_cons] at hfind
    by_cases hkey : name = key
    · rw [if_pos hkey] at hfind
      cases hfind
      exact hnode level hsub
    · rw [if_neg hkey] at hfind
      exact hrest key nd level hfind hsub

end Fields

/-- An empty level below a node counts for nothing. -/
theorem Node.subLevel?_some (polarity : Polarity) (level : Level) :
    Node.subLevel? ⟨polarity, some level⟩ =
      if level.fields.isEmpty then none else some level := by
  rw [Node.subLevel?, Option.filter_some]
  cases level.fields.isEmpty <;> rfl

/-! ### Erasing -/

/-- Some fields without what the structural form leaves out: a field with a level below it is
included, and its mode is derived; a field above an empty level is a plain decision. -/
def Fields.erase : Fields → Fields
  | nil => nil
  | leaf name polarity rest => leaf name polarity rest.erase
  | subtree name polarity _ children rest =>
    if children.isEmpty then leaf name polarity rest.erase
    else subtree name .included children.erase.derivedMode children.erase rest.erase

/-- A level without what the structural form leaves out. -/
def Level.erase (level : Level) : Level := ⟨level.fields.erase.derivedMode, level.fields.erase⟩

namespace Node

/-- A node without what the structural form leaves out. -/
def erase (node : Node Level) : Node Level :=
  match node.subLevel? with
  | none => ⟨node.polarity, none⟩
  | some level => ⟨.included, some level.erase⟩

/-- What the structural form has for a node. -/
def toDoc (node : Node Level) : Doc :=
  match node.subLevel? with
  | none => .scalar (.bool (node.polarity == .included))
  | some level => .object level.fields.members

end Node

namespace Fields

/-- The members of the structural form are those of the fields, one by one. -/
theorem members_cons (name : String) (node : Node Level) (rest : Fields) :
    (cons name node rest).members = (name, node.toDoc) :: rest.members := by
  obtain ⟨polarity, _ | ⟨mode, children⟩⟩ := node
  · rfl
  · rw [cons, members, Node.toDoc, Node.subLevel?_some]
    cases children.isEmpty <;> rfl

/-- Fields are erased one by one, in their order. -/
theorem erase_cons (name : String) (node : Node Level) (rest : Fields) :
    (cons name node rest).erase = cons name node.erase rest.erase := by
  obtain ⟨polarity, _ | ⟨mode, children⟩⟩ := node
  · rfl
  · rw [cons, erase, Node.erase, Node.subLevel?_some]
    cases children.isEmpty <;> rfl

/-- All names stay. -/
theorem names_erase (fields : Fields) : fields.erase.names = fields.names := by
  induction fields using consInduction with
  | nil => rfl
  | cons name node rest _ ih => rw [erase_cons, names_cons, names_cons, ih]

/-- What is left is in order: the names stay, and so does the order below. -/
theorem ordered_erase {fields : Fields} (h : fields.Ordered) : fields.erase.Ordered := by
  induction fields using consInduction with
  | nil => trivial
  | cons name node rest hbelow ih =>
    obtain ⟨hlt, hnode, hrest⟩ := ordered_cons.1 h
    rw [erase_cons, ordered_cons, names_erase]
    refine ⟨hlt, ?_, ih hrest⟩
    intro level hlevel
    -- Only a level that mentions a name is left below a node.
    rw [Node.erase] at hlevel
    cases hsub : node.subLevel? with
    | none =>
      rw [hsub] at hlevel
      cases hlevel
    | some below =>
      rw [hsub] at hlevel
      cases hlevel
      have hchildren := (Node.subLevel?_eq_some_iff.1 hsub).1
      exact hbelow below hchildren (hnode below hchildren)

/-- Fields that some expression denotes are kept if every field with a level below is
included.  The induction is on the fields and the levels below them. -/
theorem erase_eq_self {fields : Fields} (hordered : fields.Ordered) (h : fields.WellFormed)
    (hincluded : fields.EachBelow fun node _ => node.polarity = .included) :
    fields.erase = fields := by
  induction fields using consInduction with
  | nil => rfl
  | cons name node rest hbelow ih =>
    obtain ⟨hlt, hnode, hrest⟩ := ordered_cons.1 hordered
    obtain ⟨⟨-, hlevels⟩, hwell⟩ := wellFormed_cons.1 h
    obtain ⟨hpolarity, hincluded'⟩ := (eachBelow_cons hlt).1 hincluded
    rw [erase_cons, ih hrest hwell hincluded']
    congr 1
    obtain ⟨polarity, _ | level⟩ := node
    · rfl
    · -- Three things can be left out here: an empty level, a polarity and a mode.  An expression
      -- gives no empty level and derives the mode, and the polarity is the one that is put in.
      obtain ⟨hne, hmode, hfields⟩ := hlevels level rfl
      have hsub : Node.subLevel? ⟨polarity, some level⟩ = some level :=
        Node.subLevel?_eq_some_iff.2 ⟨rfl, isEmpty_eq_false hne⟩
      obtain ⟨rfl, hincluded''⟩ := hpolarity level hsub
      have hlevel := hbelow level rfl (hnode level rfl) hfields hincluded''
      rw [Node.erase, hsub]
      show (⟨.included, some ⟨level.fields.erase.derivedMode, level.fields.erase⟩⟩ : Node Level) = _
      rw [hlevel, ← hmode]

end Fields

namespace Mask

/-- A mask without what the structural form leaves out; its mode is derived. -/
def erase (mask : Mask) : Mask := ofFields mask.fields.erase (Fields.ordered_erase mask.ordered)

/-- A mask that some expression denotes is kept if it overrides nothing. -/
theorem erase_eq_self {mask : Mask} (h : mask.WellFormed)
    (hincluded : mask.fields.EachBelow fun node _ => node.polarity = .included) :
    mask.erase = mask :=
  eq_of_fields rfl h.1 (Fields.erase_eq_self mask.ordered h.2 hincluded)

end Mask

end FieldMask
