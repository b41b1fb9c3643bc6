import FieldMask.Mask.Fields

namespace FieldMask

/-!
# Masks

A mask says which fields of a document are kept: a tree of levels in order, each with its mode.

* `Mask` — a level all of whose names are in order.
* `Mask.find?`, `Mask.contains`, `Mask.names`, `Mask.size` — what a mask says.
* `Mask.put`, `Mask.insert?`, `Mask.ofEntries?`, `Mask.withMode` — building one; every operation but
  `withMode` derives the mode of the level it returns.
* `MaskError` — why a mask cannot be built.
-/

/-- A mask: a level whose names, and those of every level below it, are in order. -/
structure Mask extends Level where
  ordered : fields.Ordered
  deriving DecidableEq

/-- Why a mask cannot be built. -/
inductive MaskError where
  | duplicateField (name : String)
  deriving DecidableEq

/-- The wording of a failed construction. -/
def MaskError.message : MaskError → String
  | duplicateField name => "duplicate field '" ++ name ++ "'"

namespace Node

/-- The child mask of a node, if it mentions any name.  An empty child counts as none. -/
def subMask? (node : Node Mask) : Option Mask :=
  node.children.filter (!·.fields.isEmpty)

/-- An excluded field of which some descendants are included again. -/
def isOverride (node : Node Mask) : Bool :=
  node.polarity == .excluded && node.subMask?.isSome

/-- A node with the proof of order below it set aside. -/
def raw (node : Node Mask) : Node Level := ⟨node.polarity, node.children.map Mask.toLevel⟩

/-- The proof of order that a child mask carries is the order of what lies below the
node. -/
theorem ordered_raw (node : Node Mask) : node.raw.Ordered := by
  intro level h
  obtain ⟨mask, -, rfl⟩ := Option.map_eq_some_iff.1 h
  exact mask.ordered

/-- A node whose levels are in order, with its child as a mask. -/
def ofOrdered (node : Node Level) (h : node.Ordered) : Node Mask :=
  match node, h with
  | ⟨polarity, none⟩, _ => ⟨polarity, none⟩
  | ⟨polarity, some level⟩, h => ⟨polarity, some ⟨level, h level rfl⟩⟩

end Node

namespace Mask

/-- The mask of a level in order, with its mode derived from its fields. -/
def ofFields (fields : Fields) (ordered : fields.Ordered) : Mask :=
  ⟨⟨fields.derivedMode, fields⟩, ordered⟩

/-- The mask that mentions nothing; it keeps everything. -/
def empty : Mask := ofFields .nil trivial

instance : Inhabited Mask := ⟨empty⟩

/-- Whether the mask mentions no name at its root. -/
def isEmpty (mask : Mask) : Bool := mask.fields.isEmpty

/-- The number of fields at the root. -/
def size (mask : Mask) : Nat := mask.fields.size

/-- The names of the root fields, in order. -/
def names (mask : Mask) : List String := mask.fields.names

/-- Whether the root mentions `name`. -/
def contains (mask : Mask) (name : String) : Bool := mask.fields.contains name

/-- What the root says about `name`. -/
def find? (mask : Mask) (name : String) : Option (Node Mask) :=
  match h : mask.fields.find? name with
  | none => none
  | some node => some (.ofOrdered node (Fields.ordered_of_find? mask.ordered h))

/-- The mask with one root field put in place or replaced, its mode derived.  A mode that
was set before is lost, whichever field is put. -/
def put (mask : Mask) (name : String) (node : Node Mask) : Mask :=
  ofFields (mask.fields.insert name node.raw) (Fields.ordered_insert node.ordered_raw mask.ordered)

/-- The mask with one more root field, its mode derived; a name is not given twice. -/
def insert? (mask : Mask) (name : String) (node : Node Mask) : Except MaskError Mask :=
  if mask.contains name then .error (.duplicateField name) else .ok (mask.put name node)

/-- The mask of some named nodes, its mode derived; the first name given twice is an error. -/
def ofEntries? (entries : List (String × Node Mask)) : Except MaskError Mask :=
  entries.foldlM (fun mask (name, node) => mask.insert? name node) empty

/-- The mask with another root mode: the one way to a mode that its fields do not derive. -/
def withMode (mask : Mask) (mode : Polarity) : Mask := { mask with mode }

end Mask

end FieldMask
