namespace FieldMask

/-!
# The fields of one mask level

A mask level is a list of named fields, kept in the order of their names.  A field is either a
plain decision about its name or a decision with a further level below it, so the whole tree is a
single inductive type: a list whose cells may own a list of children.

* `Polarity` — a field is included or excluded; a level's mode is one of the same two words.
* `Fields` — the fields of a level, children inside; `Level` — a mode and the fields under it.
* `Node` — what a level says about one name: a polarity and, for a subtree, what lies below.
* `Fields.find?`, `Fields.insert`, `Fields.entries`, `Fields.derivedMode` — the operations.
* `Fields.consInduction` — a level is empty or has a first field, whichever of the two kinds it is.
* `Fields.Ordered` — the names of every level strictly increase; `insert` keeps it
  (`ordered_insert`) and `find?` passes it on to what it finds (`ordered_of_find?`).

Names are compared by code point, which is also the order of their UTF-8 bytes.
-/

/-- Whether a field is kept or dropped. -/
inductive Polarity where
  | included
  | excluded
  deriving DecidableEq

/-- The fields of one level, in the order of their names.  The fields of a level and those
below them are one type, so that one recursion goes through both. -/
inductive Fields where
  | nil
  /-- A plain decision. -/
  | leaf (name : String) (polarity : Polarity) (rest : Fields)
  /-- A decision with a level of its own, whose mode is stored beside its fields. -/
  | subtree (name : String) (polarity : Polarity) (mode : Polarity) (children : Fields)
      (rest : Fields)
  deriving DecidableEq

/-- A level: its fields, and what its mode says about the names it does not mention. -/
structure Level where
  mode : Polarity
  fields : Fields
  deriving DecidableEq

/-- What a level says about one name; `children` is absent for a plain decision. -/
structure Node (α : Type) where
  polarity : Polarity
  children : Option α
  deriving DecidableEq

namespace Fields

/-- Puts one field in front. -/
def cons (name : String) (node : Node Level) (rest : Fields) : Fields :=
  match node.children with
  | none => leaf name node.polarity rest
  | some level => subtree name node.polarity level.mode level.fields rest

/-- The names of the level, in order. -/
def names : Fields → List String
  | nil => []
  | leaf name _ rest => name :: rest.names
  | subtree name _ _ _ rest => name :: rest.names

/-- The names of the level with what is said about each, in order. -/
def entries : Fields → List (String × Node Level)
  | nil => []
  | leaf name polarity rest => (name, ⟨polarity, none⟩) :: rest.entries
  | subtree name polarity mode children rest =>
    (name, ⟨polarity, some ⟨mode, children⟩⟩) :: rest.entries

/-- The number of fields of the level. -/
def size (fields : Fields) : Nat := fields.names.length

/-- Whether the level mentions no name at all. -/
def isEmpty : Fields → Bool
  | nil => true
  | _ => false

/-- What the level says about `name`. -/
def find? (name : String) : Fields → Option (Node Level)
  | nil => none
  | leaf n polarity rest => if n = name then some ⟨polarity, none⟩ else rest.find? name
  | subtree n polarity mode children rest =>
    if n = name then some ⟨polarity, some ⟨mode, children⟩⟩ else rest.find? name

/-- Whether the level mentions `name`. -/
def contains (fields : Fields) (name : String) : Bool := (fields.find? name).isSome

/-- Puts a field at its place in the order of names, in the stead of one of the same name.
The fields before it and behind it stay as they are. -/
def insert (name : String) (node : Node Level) : Fields → Fields
  | nil => cons name node nil
  | leaf n polarity rest =>
    if name < n then cons name node (leaf n polarity rest)
    else if name = n then cons name node rest
    else leaf n polarity (rest.insert name node)
  | subtree n polarity mode children rest =>
    if name < n then cons name node (subtree n polarity mode children rest)
    else if name = n then cons name node rest
    else subtree n polarity mode children (rest.insert name node)

/-- The mode that the fields' own polarities give their level: a level that excludes some names
and includes none keeps the names it does not mention, any other level drops them. -/
def derivedMode (fields : Fields) : Polarity :=
  let polarities := fields.entries.map (·.2.polarity)
  if polarities.contains .excluded && !polarities.contains .included then .excluded else .included

/-- The names of every level strictly increase. -/
def Ordered : Fields → Prop
  | nil => True
  | leaf name _ rest => (∀ n ∈ rest.names, name < n) ∧ rest.Ordered
  | subtree name _ _ children rest =>
    (∀ n ∈ rest.names, name < n) ∧ children.Ordered ∧ rest.Ordered

instance decidableOrdered : (fields : Fields) → Decidable fields.Ordered
  | nil => .isTrue trivial
  | leaf _ _ rest =>
    have := decidableOrdered rest
    inferInstanceAs (Decidable (_ ∧ _))
  | subtree _ _ _ children rest =>
    have := decidableOrdered children
    have := decidableOrdered rest
    inferInstanceAs (Decidable (_ ∧ _ ∧ _))

end Fields

/-- What lies below a node is in order; a plain decision has nothing below. -/
def Node.Ordered (node : Node Level) : Prop :=
  ∀ level, node.children = some level → level.fields.Ordered

/-- The level below a node, if it mentions any name: an empty level says no more than none. -/
def Node.subLevel? (node : Node Level) : Option Level :=
  node.children.filter (!·.fields.isEmpty)

namespace Fields

/-! ### Small laws -/

/-- A first field's name is the first of the names, whichever kind of field it is. -/
@[simp] theorem names_cons (name : String) (node : Node Level) (rest : Fields) :
    (cons name node rest).names = name :: rest.names := by
  unfold cons; split <;> rfl

/-- Asked for a name, a first field of that name answers, and the rest of the level
otherwise. -/
@[simp] theorem find?_cons (name key : String) (node : Node Level) (rest : Fields) :
    (cons name node rest).find? key = if name = key then some node else rest.find? key := by
  obtain ⟨polarity, children⟩ := node
  cases children <;> rfl

/-- A level is in order if its first name is before all others, what lies below that name is
in order, and so is the rest. -/
theorem ordered_cons {name : String} {node : Node Level} {rest : Fields} :
    (cons name node rest).Ordered ↔
      (∀ n ∈ rest.names, name < n) ∧ node.Ordered ∧ rest.Ordered := by
  obtain ⟨polarity, children⟩ := node
  cases children <;> simp [cons, Ordered, Node.Ordered]

/-- A level is empty or has a first field; what holds of the levels below and behind it
carries over.  Lemmas about `find?`, `insert` and the modes go by this induction, which does
not tell plain decisions from subtrees. -/
@[elab_as_elim]
theorem consInduction {motive : Fields → Prop} (nil : motive nil)
    (cons : ∀ (name : String) (node : Node Level) (rest : Fields),
      (∀ level, node.children = some level → motive level.fields) → motive rest →
      motive (cons name node rest))
    (fields : Fields) : motive fields := by
  induction fields with
  | nil => exact nil
  | leaf name polarity rest ih =>
    refine cons name ⟨polarity, none⟩ rest ?_ ih
    intro level h
    cases h
  | subtree name polarity mode children rest ihc ihr =>
    refine cons name ⟨polarity, some ⟨mode, children⟩⟩ rest ?_ ihr
    intro level h
    cases h
    exact ihc

/-- Where a field is put, told by the first field: before it, in its stead or behind it. -/
theorem insert_cons (name n : String) (node nd : Node Level) (rest : Fields) :
    (cons n nd rest).insert name node =
      if name < n then cons name node (cons n nd rest)
      else if name = n then cons name node rest
      else cons n nd (rest.insert name node) := by
  obtain ⟨polarity, children⟩ := nd
  cases children <;> rfl

/-- A field that is put in adds its name and takes none away. -/
theorem mem_names_insert {name key : String} {node : Node Level} {fields : Fields} :
    key ∈ (fields.insert name node).names ↔ key = name ∨ key ∈ fields.names := by
  induction fields using consInduction with
  | nil => simp [insert, names]
  | cons n nd rest _ ih =>
    rw [insert_cons]
    split
    · simp
    · split
      next heq => simp [heq]
      next => simp [ih, or_left_comm]

/-- A name that is neither before nor equal to another comes after it. -/
theorem lt_of_not_lt_of_ne {a b : String} (h : ¬a < b) (hne : a ≠ b) : b < a :=
  Decidable.byContradiction fun hn =>
    hne (String.le_antisymm (String.not_lt.1 hn) (String.not_lt.1 h))

/-- A field put at its place leaves the level in order, if what lies below that field is. -/
theorem ordered_insert {name : String} {node : Node Level} {fields : Fields}
    (hnode : node.Ordered) (h : fields.Ordered) : (fields.insert name node).Ordered := by
  induction fields using consInduction with
  | nil => exact ordered_cons.2 ⟨by simp [names], hnode, trivial⟩
  | cons n nd rest _ ih =>
    obtain ⟨hlt, hnd, hrest⟩ := ordered_cons.1 h
    rw [insert_cons]
    split
    next hbefore =>
      -- It comes first: the names that follow are the old first name and those behind it.
      refine ordered_cons.2 ⟨?_, hnode, h⟩
      intro m hm
      rw [names_cons, List.mem_cons] at hm
      rcases hm with rfl | hm
      · exact hbefore
      · exact String.lt_trans hbefore (hlt m hm)
    next hbehind =>
      split
      -- It stands in for a field of the same name.
      next heq => exact ordered_cons.2 ⟨heq ▸ hlt, hnode, hrest⟩
      next hne =>
        -- It comes later: the names behind the first one are the new name and those that were
        -- there.
        refine ordered_cons.2 ⟨?_, hnd, ih hrest⟩
        intro m hm
        rcases mem_names_insert.1 hm with rfl | hm
        · exact lt_of_not_lt_of_ne hbehind hne
        · exact hlt m hm

/-- What a level in order says about a name is in order below that name. -/
theorem ordered_of_find? {name : String} {node : Node Level} {fields : Fields}
    (h : fields.Ordered) (hfind : fields.find? name = some node) : node.Ordered := by
  induction fields using consInduction with
  | nil => cases hfind
  | cons n nd rest _ ih =>
    obtain ⟨-, hnd, hrest⟩ := ordered_cons.1 h
    rw [find?_cons] at hfind
    split at hfind
    · cases hfind
      exact hnd
    · exact ih hrest hfind

end Fields

end FieldMask
