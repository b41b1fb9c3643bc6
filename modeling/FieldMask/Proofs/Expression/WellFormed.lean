import FieldMask.Proofs.Expression.Grammar

namespace FieldMask

/-!
# The masks that an expression can denote

* `PlainName` — a name that can stand in an expression with a given sign.
* `Fields.WellFormed`, `Node.WellFormed`, `Level.WellFormed`, `Mask.WellFormed` — every name is such
  a name, every subtree mentions one, and every mode is the derived one.
* `Expression.Denotes.wellFormed` — no other mask is denoted by any text.
-/

open Expression

/-- A name that an expression can give with a sign; without one it must not start with a hyphen. -/
structure PlainName (polarity : Polarity) (name : String) : Prop where
  isName : IsName name
  unsigned : polarity = .included → name.toList.head? ≠ some '-'

/-- Every name of a level and of those below can stand in an expression; every level below mentions
a name and has the mode that its fields derive. -/
def Fields.WellFormed : Fields → Prop
  | nil => True
  | leaf name polarity rest => PlainName polarity name ∧ rest.WellFormed
  | subtree name polarity mode children rest =>
    PlainName polarity name ∧
      (children ≠ nil ∧ mode = children.derivedMode ∧ children.WellFormed) ∧ rest.WellFormed

/-- A level whose mode is the derived one, with fields that are well-formed. -/
def Level.WellFormed (level : Level) : Prop :=
  level.mode = level.fields.derivedMode ∧ level.fields.WellFormed

/-- A node that is well-formed under its name. -/
structure Node.WellFormed (name : String) (node : Node Level) : Prop where
  plain : PlainName node.polarity name
  below : ∀ level, node.children = some level → level.fields ≠ .nil ∧ level.WellFormed

/-- A mask that is well-formed at every level. -/
def Mask.WellFormed (mask : Mask) : Prop := mask.toLevel.WellFormed

/-! ### Level by level -/

namespace Fields

/-- A level is well-formed if its first field is, under its name, and the others are.  The
definition tells plain fields from those with a level, which this does not. -/
theorem wellFormed_cons {name : String} {node : Node Level} {rest : Fields} :
    (cons name node rest).WellFormed ↔ node.WellFormed name ∧ rest.WellFormed := by
  obtain ⟨polarity, _ | level⟩ := node
  · constructor
    · rintro ⟨hname, hrest⟩
      refine ⟨⟨hname, ?_⟩, hrest⟩
      rintro level ⟨⟩
    · rintro ⟨hnode, hrest⟩
      exact ⟨hnode.plain, hrest⟩
  · constructor
    · rintro ⟨hname, hlevel, hrest⟩
      refine ⟨⟨hname, ?_⟩, hrest⟩
      rintro _ ⟨⟩
      exact hlevel
    · rintro ⟨hnode, hrest⟩
      exact ⟨hnode.plain, hnode.below level rfl, hrest⟩

/-- A level in order is well-formed if it is under each of its names.  Order is needed
because a look-up never gets to a second field of the same name. -/
theorem wellFormed_of_find? {fields : Fields} (hordered : fields.Ordered)
    (h : ∀ name node, fields.find? name = some node → node.WellFormed name) :
    fields.WellFormed := by
  induction fields using consInduction with
  | nil => trivial
  | cons name node rest _ ih =>
    obtain ⟨hlt, -, hrest⟩ := ordered_cons.1 hordered
    rw [wellFormed_cons]
    constructor
    · apply h
      rw [find?_cons, if_pos rfl]
    · apply ih hrest
      intro key nd hkey
      exact h key nd (find?_cons_of_find? hlt hkey)

/-- What a well-formed level says about a name is well-formed under that name.  By induction
on the fields: the name is that of the first one or is found behind it. -/
theorem WellFormed.node {fields : Fields} (h : fields.WellFormed) {name : String}
    {node : Node Level} (hfind : fields.find? name = some node) : node.WellFormed name := by
  induction fields using consInduction with
  | nil => cases hfind
  | cons key nd rest _ ih =>
    obtain ⟨hnd, hrest⟩ := wellFormed_cons.1 h
    rw [find?_cons] at hfind
    by_cases hkey : key = name
    · rw [if_pos hkey] at hfind
      cases hfind
      exact hkey ▸ hnd
    · rw [if_neg hkey] at hfind
      exact ih hrest hfind

end Fields

namespace Expression

/-! ### What a derivation says about names -/

/-- Without a sign a name cannot begin with a hyphen, which would be one. -/
theorem SignedName.plainName {signed : List Char} {polarity : Polarity} {name : String}
    (h : SignedName signed polarity name) : PlainName polarity name := by
  cases h with
  | included hname hhead => exact ⟨hname, fun _ => hhead⟩
  | excluded _ hname =>
    refine ⟨hname, ?_⟩
    rintro ⟨⟩

namespace Gathers

variable {entries : List (String × Node Mask)} {mask : Mask}

/-- Entries that are well-formed under their names make up a well-formed mask. -/
theorem wellFormed (h : Gathers entries mask)
    (hentries : ∀ entry ∈ entries, entry.2.raw.WellFormed entry.1) : mask.WellFormed := by
  refine ⟨h.mode_eq, Fields.wellFormed_of_find? mask.ordered ?_⟩
  intro name node hnode
  rw [← Mask.raw_find?, Option.map_eq_some_iff] at hnode
  obtain ⟨nd, hnd, rfl⟩ := hnode
  exact hentries (name, nd) ((h.find?_iff name nd).1 hnd)

end Gathers

mutual

/-- An entry is well-formed under its name.  The two lemmas go along with the two parts of
the grammar. -/
theorem EntryText.wellFormed {cs : List Char} {name : String} {node : Node Mask} :
    EntryText cs name node → node.raw.WellFormed name
  | .plain _ hsigned => by
    refine ⟨hsigned.plainName, ?_⟩
    rintro _ ⟨⟩
  | .nested _ hsigned _ _ hinner hchild _ => by
    refine ⟨hsigned.plainName, ?_⟩
    rintro _ ⟨⟩
    exact ⟨hchild.fields_ne_nil hinner.ne_nil, hchild.wellFormed hinner.wellFormed⟩

/-- So are all entries of a level.  The induction is on the text of the level, along with
that of its entries. -/
theorem EntriesText.wellFormed {cs : List Char} {entries : List (String × Node Mask)} :
    EntriesText cs entries → ∀ entry ∈ entries, entry.2.raw.WellFormed entry.1
  | .one hentry => by
    intro entry hmem
    rw [List.mem_singleton.1 hmem]
    exact hentry.wellFormed
  | .more hinit _ hentry => by
    intro entry hmem
    rcases List.mem_append.1 hmem with hmem | hmem
    · exact hinit.wellFormed entry hmem
    · rw [List.mem_singleton.1 hmem]
      exact hentry.wellFormed

end

/-- Every mask that a text denotes is well-formed. -/
theorem Denotes.wellFormed {cs : List Char} {mask : Mask} (h : Denotes cs mask) :
    mask.WellFormed := by
  cases h with
  | blank _ => exact ⟨rfl, trivial⟩
  | level hlevel _ =>
    obtain ⟨entries, hentries, hmask⟩ := hlevel
    exact hmask.wellFormed hentries.wellFormed

end Expression

end FieldMask
