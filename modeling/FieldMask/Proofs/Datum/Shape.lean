import FieldMask.Proofs.Binary64.Reading
import FieldMask.Proofs.Datum.Number
import FieldMask.Proofs.Datum.Structural
import FieldMask.Proofs.Mask.Construction

namespace FieldMask

open Expression JsonText

/-!
# The shape of a structural form

Which documents are the structural form of a mask, and of which mask, said without a reader.

* `Doc.IsField`, `Doc.AreFields`, `Doc.IsMask` — the documents that are structural forms.
* `Doc.NodeOf`, `Doc.EntriesOf`, `Doc.MaskOf` — the masks that mirror a document.
* `Doc.MaskOf.isMask` — only a structural form is mirrored.
* `Doc.nodeOf_of_ofDatum`, `Doc.entriesOf_of_ofEntries` — what is read mirrors the document.
* `Doc.exists_ofDatum`, `Doc.exists_ofEntries` — every structural form is read.
* `ofJson_shapes` — reading a text accepts exactly the structural forms.
-/

/-! ### Values -/

/-- An object is read as a level, since no first member stands for a number. -/
theorem Node.ofDatum_map_seenEntries {members : List (String × Doc)}
    (h : Doc.MembersAvoid numberKey members) :
    Node.ofDatum .json (.map (seenEntries members)) =
      (Mask.ofEntries .json .empty (seenEntries members)).map fun children =>
        ⟨.included, some children⟩ := by
  cases members with
  | nil => rfl
  | cons member rest => exact ofDatum_map_entry h.1 (seen member.2) (seenEntries rest)

/-- A decision by a sign excludes only where the sign is negative. -/
theorem Polarity.eq_true_of_ite {negative : Bool}
    (h : (if negative then Polarity.excluded else Polarity.included) = .excluded) :
    negative = true := by
  cases negative with
  | true => rfl
  | false => cases h

namespace Doc

/-! ### Documents -/

mutual

/-- The value of a member: a truth value, a number, or an object of such members.  Nothing,
strings and arrays are no such value, at whatever depth. -/
def IsField : Doc → Prop
  | scalar .null => False
  | scalar (.bool _) => True
  | scalar (.number _) => True
  | scalar (.string _) => False
  | array _ => False
  | object members => AreFields members

/-- Members of which each has such a value, and no two have one name. -/
def AreFields : List (String × Doc) → Prop
  | [] => True
  | (name, value) :: rest => name ∉ rest.map Prod.fst ∧ value.IsField ∧ AreFields rest

end

/-- An object of such members. -/
def IsMask : Doc → Prop
  | scalar _ => False
  | array _ => False
  | object members => AreFields members

/-! ### Masks -/

mutual

/-- A node mirrors the value of a member.  By a number it is excluded only if there is a minus in
front of it. -/
inductive NodeOf : Doc → Node Mask → Prop where
  | bool (value : Bool) :
      NodeOf (.scalar (.bool value)) ⟨if value then .included else .excluded, none⟩
  | number {n : Number} {polarity : Polarity}
      (h : polarity = .excluded → n.text.toList.head? = some '-') :
      NodeOf (.scalar (.number n)) ⟨polarity, none⟩
  | object {members : List (String × Doc)} {entries : List (String × Node Mask)} {child : Mask}
      (hmembers : EntriesOf members entries) (hchild : Gathers entries child) :
      NodeOf (.object members) ⟨.included, some child⟩

/-- Entries mirror some members, one entry each. -/
inductive EntriesOf : List (String × Doc) → List (String × Node Mask) → Prop where
  | nil : EntriesOf [] []
  | cons {name : String} {value : Doc} {node : Node Mask} {rest : List (String × Doc)}
      {entries : List (String × Node Mask)} (hvalue : NodeOf value node)
      (hrest : EntriesOf rest entries) : EntriesOf ((name, value) :: rest) ((name, node) :: entries)

end

/-- A mask mirrors an object: its entries mirror the members, and its mode is the one that they
derive. -/
inductive MaskOf : Doc → Mask → Prop where
  | object {members : List (String × Doc)} {entries : List (String × Node Mask)} {mask : Mask}
      (hmembers : EntriesOf members entries) (hmask : Gathers entries mask) :
      MaskOf (.object members) mask

/-! ### What is mirrored -/

/-- Entries that mirror some members have their names, in their order. -/
theorem EntriesOf.map_fst {members : List (String × Doc)} {entries : List (String × Node Mask)} :
    EntriesOf members entries → members.map Prod.fst = entries.map Prod.fst
  | .nil => rfl
  | .cons _ hrest => congrArg _ hrest.map_fst

mutual

/-- Only the value of a member of a structural form is mirrored by a node. -/
theorem NodeOf.isField {value : Doc} {node : Node Mask} : NodeOf value node → value.IsField
  | .bool _ => trivial
  | .number _ => trivial
  | .object hmembers hchild => hmembers.areFields hchild.distinct

/-- Members that are mirrored by entries of different names are members of a structural
form. -/
theorem EntriesOf.areFields {members : List (String × Doc)} {entries : List (String × Node Mask)}
    (h : EntriesOf members entries) (hdistinct : (entries.map Prod.fst).Nodup) :
    AreFields members := by
  match h with
  | .nil => trivial
  | .cons hvalue hrest =>
    rw [List.map_cons, List.nodup_cons, ← hrest.map_fst] at hdistinct
    obtain ⟨hname, hdistinct'⟩ := hdistinct
    refine ⟨hname, hvalue.isField, hrest.areFields ?_⟩
    rwa [← hrest.map_fst]

end

/-- Only a structural form is mirrored. -/
theorem MaskOf.isMask {doc : Doc} {mask : Mask} (h : MaskOf doc mask) : doc.IsMask := by
  cases h with
  | object hmembers hmask => exact hmembers.areFields hmask.distinct

/-! ### What is read -/

/-- A number is read as a plain decision, which excludes only if there is a minus in front.
That it need not exclude then is because a small number can be rounded to zero. -/
theorem exists_ofDatum_number (n : Number) :
    ∃ polarity, Node.ofDatum .json (seenScalar (.number n)) = .ok ⟨polarity, none⟩ ∧
      (polarity = .excluded → n.text.toList.head? = some '-') := by
  rw [seenScalar]
  rcases ofNumeral_text n with ⟨value, hseen, rfl⟩ | hseen
  · rw [hseen]
    refine ⟨_, rfl, ?_⟩
    intro hexcluded
    have hnegative := of_decide_eq_true (Polarity.eq_true_of_ite hexcluded)
    exact Number.head?_text_ofInt_iff.2 hnegative
  · rw [hseen]
    have hnumeral := (numberText_text n).numeral
    obtain ⟨x, hread, hminus⟩ := Binary64.exists_read_of_numeralText hnumeral
    rw [String.ofList_toList] at hread
    rw [Node.ofDatum, Node.ofDecimal, hread]
    refine ⟨_, rfl, ?_⟩
    intro hexcluded
    exact hminus (Polarity.eq_true_of_ite hexcluded)

mutual

/-- What is read of a value mirrors it.  By induction on the value, along with its
members. -/
theorem nodeOf_of_ofDatum (value : Doc) (havoids : value.Avoids numberKey) {node : Node Mask}
    (h : Node.ofDatum .json (seen value) = .ok node) : NodeOf value node := by
  match value with
  | .scalar .null | .scalar (.string _) | .array _ => cases h
  | .scalar (.bool value) =>
    cases h
    exact .bool value
  | .scalar (.number n) =>
    obtain ⟨polarity, hread, hminus⟩ := exists_ofDatum_number n
    rw [seen, hread] at h
    cases h
    exact .number hminus
  | .object members =>
    rw [seen, Node.ofDatum_map_seenEntries havoids] at h
    obtain ⟨child, hchild, rfl⟩ := exists_of_map_eq_ok h
    obtain ⟨entries, hentries, hgathers⟩ := entriesOf_of_ofEntries members havoids .nil hchild
    exact .object hentries hgathers

/-- What is read of some members, put behind what was there before, mirrors them.  What was
there before stays in front, because the mask is built by putting one entry behind the
other. -/
theorem entriesOf_of_ofEntries (members : List (String × Doc))
    (havoids : MembersAvoid numberKey members) {prior : List (String × Node Mask)}
    {before mask : Mask} (hbefore : Gathers prior before)
    (h : Mask.ofEntries .json before (seenEntries members) = .ok mask) :
    ∃ entries, EntriesOf members entries ∧ Gathers (prior ++ entries) mask := by
  match members with
  | [] =>
    cases h
    exact ⟨[], .nil, by rwa [List.append_nil]⟩
  | (name, value) :: rest =>
    obtain ⟨-, hvalue, hrest⟩ := havoids
    rw [seenEntries, Mask.ofEntries] at h
    -- A name that is there already is refused, be it from the entries before or from elsewhere.
    split at h
    · cases h
    next hfresh =>
      split at h
      · cases h
      next node hnode =>
        have hnone : before.find? name = none := by
          rw [Mask.contains_eq_isSome_find?] at hfresh
          simpa using hfresh
        obtain ⟨entries, hentries, hgathers⟩ :=
          entriesOf_of_ofEntries rest hrest (hbefore.put hnone) h
        refine ⟨(name, node) :: entries, .cons (nodeOf_of_ofDatum value hvalue hnode) hentries, ?_⟩
        rwa [List.append_assoc, List.singleton_append] at hgathers

end

mutual

/-- The value of a member of a structural form is read.  By induction on the value; the only
values that are refused are excluded by the shape. -/
theorem exists_ofDatum (value : Doc) (havoids : value.Avoids numberKey) (h : value.IsField) :
    ∃ node, Node.ofDatum .json (seen value) = .ok node := by
  match value with
  | .scalar .null | .scalar (.string _) | .array _ => exact h.elim
  | .scalar (.bool value) => exact ⟨_, rfl⟩
  | .scalar (.number n) =>
    obtain ⟨polarity, hread, -⟩ := exists_ofDatum_number n
    exact ⟨_, hread⟩
  | .object members =>
    obtain ⟨child, hchild⟩ := exists_ofEntries members havoids h fun _ _ => Mask.find?_empty _
    rw [seen, Node.ofDatum_map_seenEntries havoids, hchild]
    exact ⟨_, rfl⟩

/-- Members of a structural form are read behind what was there before, if their names are new. -/
theorem exists_ofEntries (members : List (String × Doc)) (havoids : MembersAvoid numberKey members)
    (h : AreFields members) {before : Mask}
    (hfresh : ∀ name ∈ members.map Prod.fst, before.find? name = none) :
    ∃ mask, Mask.ofEntries .json before (seenEntries members) = .ok mask := by
  match members with
  | [] => exact ⟨before, rfl⟩
  | (name, value) :: rest =>
    obtain ⟨-, hvalue, hrest⟩ := havoids
    obtain ⟨hname, hfield, hfields⟩ := h
    obtain ⟨node, hnode⟩ := exists_ofDatum value hvalue hfield
    have hnone : before.find? name = none := hfresh name List.mem_cons_self
    have hcontains : before.contains name = false := by
      rw [Mask.contains_eq_isSome_find?, hnone]
      rfl
    rw [seenEntries, Mask.ofEntries, hcontains, if_neg Bool.false_ne_true, hnode]
    -- The names that are still to come are new beside this one too.
    refine exists_ofEntries rest hrest hfields ?_
    intro key hkey
    have hne : name ≠ key := by
      rintro rfl
      exact hname hkey
    rw [Mask.find?_put, if_neg hne]
    exact hfresh key (List.mem_cons_of_mem _ hkey)

end

end Doc

/-! ### Whole texts -/

/-- A scalar is no mask. -/
theorem exists_ofDatum_seenScalar (value : Scalar) :
    ∃ e, Mask.ofDatum .json (seenScalar value) = .error e := by
  cases value with
  | null | bool _ | string _ => exact ⟨_, rfl⟩
  | number n =>
    rw [seenScalar]
    rcases ofNumeral_text n with ⟨value, hseen, -⟩ | hseen
    · rw [hseen]
      exact ⟨_, rfl⟩
    · rw [hseen]
      exact ⟨_, rfl⟩

/-- What is read of a text is read of the members of the object that the text denotes.  The
visit sees the document, and nothing is left behind it, so only the reading of the members
can fail. -/
theorem ofJson_eq_ok_iff {bytes : List UInt8} {doc : Doc} (hdoc : JsonText.Denotes bytes doc)
    (hdepth : doc.depth ≤ maxDepth) (mask : Mask) :
    Mask.ofJson bytes = .ok mask ↔
      ∃ members, doc = .object members ∧
        Mask.ofEntries .json .empty (seenEntries members) = .ok mask := by
  have hrest := checkRest_of_denotes hdoc
  rw [Mask.ofJson, datum_ofJson_of_denotes hdoc hdepth]
  cases doc with
  | object members =>
    rw [seen, Mask.ofDatum]
    constructor
    · intro h
      refine ⟨members, rfl, ?_⟩
      split at h
      · cases h
      next hentries =>
        rw [hrest] at h
        cases h
        exact hentries
    · rintro ⟨_, hobject, hentries⟩
      cases hobject
      rw [hentries]
      dsimp only
      rw [hrest]
      rfl
  | array items =>
    refine iff_of_false (by rintro ⟨⟩) ?_
    rintro ⟨_, hobject, -⟩
    cases hobject
  | scalar value =>
    obtain ⟨e, hrefused⟩ := exists_ofDatum_seenScalar value
    rw [seen, hrefused]
    refine iff_of_false (by rintro ⟨⟩) ?_
    rintro ⟨_, hobject, -⟩
    cases hobject

/-- **Reading a text accepts exactly the structural forms.**  Let a text denote a document that is
nested at most 127 deep and has no member that stands for a number.  Then a mask is read from it if
and only if the document is an object in which, at every depth, each member is a truth value, a
number or an object again and no name is repeated.  The mask mirrors the object: a field for each
member, plain for a truth value and for a number, which excludes only if there is a minus in front
of it, and included with a level below it for an object, be it empty or not; and the mode of every
level is the derived one. -/
theorem ofJson_shapes {bytes : List UInt8} {doc : Doc} (hdoc : JsonText.Denotes bytes doc)
    (hdepth : doc.depth ≤ maxDepth) (hnames : doc.Avoids numberKey) :
    ((∃ mask, Mask.ofJson bytes = .ok mask) ↔ doc.IsMask) ∧
      ∀ mask, Mask.ofJson bytes = .ok mask → doc.MaskOf mask := by
  have hmirrors (mask : Mask) (hread : Mask.ofJson bytes = .ok mask) : doc.MaskOf mask := by
    obtain ⟨members, rfl, hentries⟩ := (ofJson_eq_ok_iff hdoc hdepth mask).1 hread
    obtain ⟨entries, hmembers, hgathers⟩ :=
      Doc.entriesOf_of_ofEntries members hnames .nil hentries
    exact .object hmembers hgathers
  refine ⟨⟨?_, ?_⟩, hmirrors⟩
  · rintro ⟨mask, hread⟩
    exact (hmirrors mask hread).isMask
  · intro hshape
    match doc, hshape with
    | .object members, hshape =>
      obtain ⟨mask, hentries⟩ :=
        Doc.exists_ofEntries members hnames hshape fun _ _ => Mask.find?_empty _
      exact ⟨mask, (ofJson_eq_ok_iff hdoc hdepth mask).2 ⟨members, rfl, hentries⟩⟩

/-- An object in an object is a level, even if it is empty; but it may not repeat a name. -/
theorem ofJson_shapes_nested :
    (∃ mask, Mask.ofJson "\x7b\"a\":-1,\"b\":\x7b\x7d\x7d".toUTF8.toList = .ok mask ∧
      Doc.MaskOf (.object [("a", .scalar (.number ⟨"-1", rfl, by decide⟩)), ("b", .object [])])
        mask) ∧
    ¬∃ mask, Mask.ofJson "\x7b\"a\":\x7b\"b\":true,\"b\":true\x7d\x7d".toUTF8.toList =
      .ok mask := by
  let fields : Doc :=
    .object [("a", .scalar (.number ⟨"-1", rfl, by decide⟩)), ("b", .object [])]
  let repeated : Doc :=
    .object [("a", .object [("b", .scalar (.bool true)), ("b", .scalar (.bool true))])]
  constructor
  · -- The first text has the shape, and the second one fails it inside of `a`.
    obtain ⟨hread, hmirrors⟩ := ofJson_shapes (denotes_text fields) (by decide)
      ⟨by decide, trivial, by decide, trivial, trivial⟩
    obtain ⟨mask, hmask⟩ := hread.2 ⟨by decide, trivial, by decide, trivial, trivial⟩
    exact ⟨mask, hmask, hmirrors mask hmask⟩
  · obtain ⟨hread, -⟩ := ofJson_shapes (denotes_text repeated) (by decide)
      ⟨by decide, ⟨by decide, trivial, by decide, trivial, trivial⟩, trivial⟩
    intro hmask
    obtain ⟨-, hfield, -⟩ := hread.1 hmask
    exact absurd List.mem_cons_self hfield.1

end FieldMask
