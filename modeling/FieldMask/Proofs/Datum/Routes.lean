import FieldMask.Proofs.Datum.Number
import FieldMask.Proofs.Datum.Shape
import FieldMask.Proofs.Document.Numbers

namespace FieldMask

open JsonText

/-!
# Two routes to a mask

A mask can be read from a text, or from the document in memory that is built from the text.  The
document has its members in another order and hands over its numbers by other rules.

* `Mask.Reads` — what a mask says that is read from some entries, whatever their order;
  `Mask.ofEntries_eq_ok_iff` — it is read from them.
* `Doc.Distinct` — no object of a document repeats a name; `Doc.perm_canonicalMembers` — then
  building the document only changes the order of members.
* `Node.ofDatum_ofNumber_iff` — a number, by both routes.
* `Doc.ofDatum_canonical_iff` — a value, by both routes.
* `ofDoc_ofJson` — the routes lead to the same mask, unless there is a number that the second one
  refuses.
-/

/-! ### Entries in any order -/

namespace Mask

/-- A mask says of the name of each entry what the datum under it says, and of no other
name.  This speaks of a set of entries, so their order plays no part in it. -/
structure Reads (origin : Origin) (pairs : List (String × Datum)) (mask : Mask) : Prop where
  distinct : (pairs.map Prod.fst).Nodup
  read : ∀ pair ∈ pairs, ∃ node, Node.ofDatum origin pair.2 = .ok node ∧
    mask.find? pair.1 = some node
  named : ∀ name, name ∉ pairs.map Prod.fst → mask.find? name = none
  mode_eq : mask.HasDerivedMode

variable {origin : Origin} {pairs : List (String × Datum)} {mask : Mask}

/-- Masks of derived modes that say the same about every name are the same. -/
theorem HasDerivedMode.eq_of_find? {other : Mask} (h : mask.HasDerivedMode)
    (hother : other.HasDerivedMode) (hfind : ∀ name, mask.find? name = other.find? name) :
    mask = other := by
  apply eq_of_fields h hother
  apply Fields.eq_of_find? mask.ordered other.ordered
  intro name
  rw [← raw_find?, ← raw_find?, hfind]

/-- Entries with new names add to a mask what they say.  By induction on the entries, for
every mask that was there before: the first one makes a mask with one name more, and the
others are read into that. -/
theorem ofEntries_ofList_iff {before : Mask} (hbefore : before.HasDerivedMode) :
    ofEntries origin before (.ofList pairs) = .ok mask ↔
      (∀ name ∈ pairs.map Prod.fst, before.find? name = none) ∧ (pairs.map Prod.fst).Nodup ∧
      (∀ pair ∈ pairs, ∃ node, Node.ofDatum origin pair.2 = .ok node ∧
        mask.find? pair.1 = some node) ∧
      (∀ name, name ∉ pairs.map Prod.fst → mask.find? name = before.find? name) ∧
      mask.HasDerivedMode := by
  induction pairs generalizing before with
  | nil =>
    rw [Entries.ofList, ofEntries]
    constructor
    · rintro ⟨⟩
      exact ⟨nofun, List.nodup_nil, nofun, fun _ _ => rfl, hbefore⟩
    · rintro ⟨-, -, -, hfind, hmode⟩
      rw [hbefore.eq_of_find? hmode fun name => (hfind name List.not_mem_nil).symm]
  | cons pair rest ih =>
    obtain ⟨name, datum⟩ := pair
    rw [Entries.ofList, ofEntries, contains_eq_isSome_find?, List.map_cons, List.forall_mem_cons,
      List.forall_mem_cons, List.nodup_cons]
    by_cases hname : before.find? name = none
    · rw [hname, Option.isSome_none, if_neg Bool.false_ne_true]
      cases hnode : Node.ofDatum origin datum with
      | error e =>
        refine iff_of_false (by rintro ⟨⟩) ?_
        rintro ⟨-, -, ⟨⟨node, hread, -⟩, -⟩, -⟩
        cases hread
      | ok node =>
        dsimp only
        rw [ih (show (before.put name node).HasDerivedMode from rfl)]
        simp only [find?_put]
        -- The new name is that of no other entry, and it is found with its node.
        grind
    · rw [Option.isSome_iff_ne_none.2 hname, if_pos rfl]
      exact iff_of_false (by rintro ⟨⟩) fun h => hname h.1.1

/-- **What is read of some entries does not depend on their order.**  The right side speaks
of the entries as a set, and the left side of reading them one by one. -/
theorem ofEntries_eq_ok_iff :
    ofEntries origin .empty (.ofList pairs) = .ok mask ↔ mask.Reads origin pairs := by
  rw [ofEntries_ofList_iff (show empty.HasDerivedMode from rfl)]
  constructor
  · rintro ⟨-, hdistinct, hread, hnamed, hmode⟩
    exact ⟨hdistinct, hread, hnamed, hmode⟩
  · rintro ⟨hdistinct, hread, hnamed, hmode⟩
    exact ⟨fun _ _ => find?_empty _, hdistinct, hread, hnamed, hmode⟩

/-- A mask that is read of some entries is read of them in any order. -/
theorem Reads.perm {other : List (String × Datum)} (h : mask.Reads origin pairs)
    (hperm : pairs.Perm other) : mask.Reads origin other := by
  have hnames := hperm.map Prod.fst
  refine ⟨hnames.nodup_iff.1 h.distinct, ?_, ?_, h.mode_eq⟩
  · intro pair hpair
    exact h.read pair (hperm.mem_iff.2 hpair)
  · intro name hname
    exact h.named name fun hmem => hname (hnames.mem_iff.1 hmem)

end Mask

/-- A map is read as the level that its entries are read as, if none stands for a number.
The level mirrors the entries, in whatever order they come. -/
theorem Node.ofDatum_map_eq_ok_iff {origin : Origin} {pairs : List (String × Datum)}
    (h : ∀ pair ∈ pairs, pair.1 ≠ numberKey) {node : Node Mask} :
    Node.ofDatum origin (.map (.ofList pairs)) = .ok node ↔
      ∃ child : Mask, child.Reads origin pairs ∧ node = ⟨.included, some child⟩ := by
  have hlevel : Node.ofDatum origin (.map (.ofList pairs)) =
      (Mask.ofEntries origin .empty (.ofList pairs)).map fun children =>
        ⟨.included, some children⟩ := by
    cases pairs with
    | nil => rfl
    | cons pair rest => exact ofDatum_map_entry (h pair List.mem_cons_self) pair.2 (.ofList rest)
  rw [hlevel]
  constructor
  · intro hread
    obtain ⟨child, hchild, rfl⟩ := exists_of_map_eq_ok hread
    exact ⟨child, Mask.ofEntries_eq_ok_iff.1 hchild, rfl⟩
  · rintro ⟨child, hchild, rfl⟩
    rw [Mask.ofEntries_eq_ok_iff.2 hchild]
    rfl

/-! ### Numbers -/

/-- A number that is read as a value decides as its text does. -/
theorem Node.ofDatum_ofFloat (origin : Origin) (n : Number) :
    Node.ofDatum origin (Datum.ofNumber.ofFloat n) = Node.ofDecimal n.text := by
  rcases Datum.ofFloat_cases n with ⟨hnumeral, -⟩ | ⟨x, hvalue, hread, -⟩
  · rw [hnumeral, Node.ofDatum]
  · rw [hvalue, Node.ofDatum, Node.ofDecimal, hread]

/-- **A number decides alike by both routes**, unless it is an integer of more than 64 bits that
still has no more than 128. -/
theorem Node.ofDatum_ofNumber_iff (n : Number) (node : Node Mask) :
    Node.ofDatum .document (.ofNumber n) = .ok node ↔
      Node.ofDatum .json (ofNumeral n.text.toList) = .ok node ∧ ¬n.Wide := by
  rcases n.exists_eq_ofInt_or with ⟨value, rfl⟩ | hnone
  · rw [Datum.ofNumber_ofInt, ofNumeral_ofInt, Number.wide_ofInt]
    by_cases hword : IsWord value
    · simp [hword, Node.ofDatum]
    · by_cases hdouble : IsDoubleWord value
      · simp [hword, hdouble, Node.ofDatum]
      · simp [hword, hdouble, Node.ofDatum, Node.ofDatum_ofFloat]
  · rw [Datum.ofNumber_of_none hnone, ofNumeral_of_none hnone, Node.ofDatum_ofFloat, Node.ofDatum,
      and_iff_left (Number.not_wide_of_none hnone)]

namespace Doc

/-! ### Documents without repeated names -/

mutual

/-- No object of a document has two members of one name. -/
def Distinct : Doc → Prop
  | scalar _ => True
  | array items => ItemsDistinct items
  | object members => (members.map Prod.fst).Nodup ∧ MembersDistinct members

/-- None of some items has such an object in it. -/
def ItemsDistinct : List Doc → Prop
  | [] => True
  | item :: rest => item.Distinct ∧ ItemsDistinct rest

/-- None of the values of some members has such an object in it. -/
def MembersDistinct : List (String × Doc) → Prop
  | [] => True
  | (_, value) :: rest => value.Distinct ∧ MembersDistinct rest

end

variable {members : List (String × Doc)}

/-- A member with a new name takes the place of no other. -/
theorem perm_insertMember {name : String} {value : Doc} (h : name ∉ members.map Prod.fst) :
    (insertMember name value members).Perm ((name, value) :: members) := by
  induction members with
  | nil => exact .refl _
  | cons member rest ih =>
    obtain ⟨k, v⟩ := member
    rw [List.map_cons, List.mem_cons, not_or] at h
    rw [insertMember, if_neg h.1]
    split
    · exact .refl _
    · exact ((ih h.2).cons (k, v)).trans (.swap ..)

/-- Members with new names are added to those that are built already.  By induction on the
members, for any that are there before: each new one takes no other's place. -/
theorem perm_canonicalMembers_append {sorted : List (String × Doc)}
    (h : (sorted.map Prod.fst ++ members.map Prod.fst).Nodup) :
    (canonicalMembers sorted members).Perm
      (sorted ++ members.map fun member => (member.1, member.2.canonical)) := by
  induction members generalizing sorted with
  | nil =>
    rw [canonicalMembers, List.map_nil, List.append_nil]
  | cons member rest ih =>
    obtain ⟨name, value⟩ := member
    rw [List.map_cons, List.nodup_middle, List.nodup_cons] at h
    have hperm : (insertMember name value.canonical sorted).Perm
        ((name, value.canonical) :: sorted) :=
      perm_insertMember fun hmem => h.1 (List.mem_append_left _ hmem)
    have hnames := ((hperm.map Prod.fst).append_right (rest.map Prod.fst)).nodup_iff.2
      (List.nodup_cons.2 h)
    rw [canonicalMembers]
    exact (ih hnames).trans ((hperm.append_right _).trans List.perm_middle.symm)

/-- Building an object without repeated names only changes the order of its members. -/
theorem perm_canonicalMembers (h : (members.map Prod.fst).Nodup) :
    (canonicalMembers [] members).Perm
      (members.map fun member => (member.1, member.2.canonical)) :=
  perm_canonicalMembers_append h

/-! ### Values -/

/-- What is handed over of some members is the list of what is handed over of each. -/
theorem ofMembers_eq_ofList (members : List (String × Doc)) :
    Entries.ofMembers members =
      .ofList (members.map fun member => (member.1, Datum.ofDoc member.2)) := by
  induction members with
  | nil => rfl
  | cons member rest ih => rw [Entries.ofMembers, ih]; rfl

/-- What is seen of some members is the list of what is seen of each. -/
theorem seenEntries_eq_ofList (members : List (String × Doc)) :
    seenEntries members = .ofList (members.map fun member => (member.1, seen member.2)) := by
  induction members with
  | nil => rfl
  | cons member rest ih => rw [seenEntries, ih]; rfl

/-- Members that avoid a name at every depth do not have it themselves. -/
theorem MembersAvoid.ne {name : String} (h : MembersAvoid name members) :
    ∀ member ∈ members, member.1 ≠ name := by
  induction members with
  | nil => exact nofun
  | cons member rest ih => exact List.forall_mem_cons.2 ⟨h.1, ih h.2.2⟩

/-- What is read of the values of some members, in terms of the members.  The names are
those of the members, and only the data under them depend on the route. -/
theorem reads_map_iff {origin : Origin} {f : Doc → Datum} {mask : Mask} :
    mask.Reads origin (members.map fun member => (member.1, f member.2)) ↔
      (members.map Prod.fst).Nodup ∧
      (∀ member ∈ members, ∃ node, Node.ofDatum origin (f member.2) = .ok node ∧
        mask.find? member.1 = some node) ∧
      (∀ name, name ∉ members.map Prod.fst → mask.find? name = none) ∧ mask.HasDerivedMode := by
  have hnames : (members.map fun member => (member.1, f member.2)).map Prod.fst =
      members.map Prod.fst := by
    rw [List.map_map]
    rfl
  constructor
  · rintro ⟨hdistinct, hread, hnamed, hmode⟩
    rw [hnames] at hdistinct hnamed
    refine ⟨hdistinct, ?_, hnamed, hmode⟩
    intro member hmember
    exact hread _ (List.mem_map_of_mem hmember)
  · rintro ⟨hdistinct, hread, hnamed, hmode⟩
    rw [← hnames] at hdistinct hnamed
    exact ⟨hdistinct, List.forall_mem_map.2 hread, hnamed, hmode⟩

/-- **The members of an object are read alike by both routes** if their values are, but for the
numbers that the second one refuses. -/
theorem reads_canonicalMembers_iff (hnames : (members.map Prod.fst).Nodup)
    (hvalues : ∀ member ∈ members, ∀ node,
      Node.ofDatum .document (.ofDoc member.2.canonical) = .ok node ↔
        Node.ofDatum .json (seen member.2) = .ok node ∧ ∀ n ∈ member.2.numbers, ¬n.Wide)
    {mask : Mask} :
    mask.Reads .document
        ((canonicalMembers [] members).map fun member => (member.1, Datum.ofDoc member.2)) ↔
      mask.Reads .json (members.map fun member => (member.1, seen member.2)) ∧
        ∀ n ∈ membersNumbers members, ¬n.Wide := by
  have hperm := (perm_canonicalMembers hnames).map fun member => (member.1, Datum.ofDoc member.2)
  rw [List.map_map] at hperm
  have hordered : mask.Reads .document
        ((canonicalMembers [] members).map fun member => (member.1, Datum.ofDoc member.2)) ↔
      mask.Reads .document
        (members.map fun member => (member.1, (Datum.ofDoc ∘ canonical) member.2)) :=
    ⟨fun h => h.perm hperm, fun h => h.perm hperm.symm⟩
  -- Both sides speak of the same members now, and differ only in what is read of the values.
  rw [hordered, reads_map_iff, reads_map_iff]
  constructor
  · rintro ⟨hdistinct, hread, hnamed, hmode⟩
    refine ⟨⟨hdistinct, ?_, hnamed, hmode⟩, ?_⟩
    · intro member hmember
      obtain ⟨node, hnode, hfind⟩ := hread member hmember
      exact ⟨node, ((hvalues member hmember node).1 hnode).1, hfind⟩
    · intro n hn
      obtain ⟨member, hmember, hn⟩ := mem_membersNumbers.1 hn
      obtain ⟨node, hnode, -⟩ := hread member hmember
      exact ((hvalues member hmember node).1 hnode).2 n hn
  · rintro ⟨⟨hdistinct, hread, hnamed, hmode⟩, hwide⟩
    refine ⟨hdistinct, ?_, hnamed, hmode⟩
    intro member hmember
    obtain ⟨node, hnode, hfind⟩ := hread member hmember
    have hnumbers (n : Number) (hn : n ∈ member.2.numbers) : ¬n.Wide :=
      hwide n (mem_membersNumbers.2 ⟨member, hmember, hn⟩)
    exact ⟨node, (hvalues member hmember node).2 ⟨hnode, hnumbers⟩, hfind⟩

/-- Building an object gives it no names. -/
theorem ne_of_mem_canonicalMembers {name : String} (h : MembersAvoid name members)
    (hnames : (members.map Prod.fst).Nodup) :
    ∀ member ∈ canonicalMembers [] members, member.1 ≠ name := by
  intro member hmember
  obtain ⟨source, hsource, rfl⟩ :=
    List.mem_map.1 ((perm_canonicalMembers hnames).mem_iff.1 hmember)
  exact h.ne source hsource

mutual

/-- **A value is read alike by both routes**, but for the numbers that the second one
refuses.  The induction is on the value.  For an object the values of its members are
compared first, and then the object itself, whose members may have changed places. -/
theorem ofDatum_canonical_iff (value : Doc) (havoids : value.Avoids numberKey)
    (hdistinct : value.Distinct) (node : Node Mask) :
    Node.ofDatum .document (.ofDoc value.canonical) = .ok node ↔
      Node.ofDatum .json (seen value) = .ok node ∧ ∀ n ∈ value.numbers, ¬n.Wide := by
  match value with
  | .scalar .null | .scalar (.string _) | .array _ =>
    exact iff_of_false (by rintro ⟨⟩) (by rintro ⟨⟨⟩, -⟩)
  | .scalar (.bool value) =>
    rw [and_iff_left (by simp [numbers])]
    rfl
  | .scalar (.number n) =>
    rw [numbers, List.forall_mem_singleton]
    exact Node.ofDatum_ofNumber_iff n node
  | .object members =>
    have hseen : ∀ pair ∈ members.map fun member => (member.1, seen member.2),
        pair.1 ≠ numberKey := List.forall_mem_map.2 (MembersAvoid.ne havoids)
    have hbuilt : ∀ pair ∈ (canonicalMembers [] members).map fun member =>
        (member.1, Datum.ofDoc member.2), pair.1 ≠ numberKey :=
      List.forall_mem_map.2 (ne_of_mem_canonicalMembers havoids hdistinct.1)
    have hvalues := forall_ofDatum_canonical_iff members havoids hdistinct.2
    rw [canonical, Datum.ofDoc, seen, numbers, ofMembers_eq_ofList, seenEntries_eq_ofList,
      Node.ofDatum_map_eq_ok_iff hbuilt, Node.ofDatum_map_eq_ok_iff hseen]
    simp only [reads_canonicalMembers_iff hdistinct.1 hvalues]
    constructor
    · rintro ⟨child, ⟨hchild, hwide⟩, rfl⟩
      exact ⟨⟨child, hchild, rfl⟩, hwide⟩
    · rintro ⟨⟨child, hchild, rfl⟩, hwide⟩
      exact ⟨child, ⟨hchild, hwide⟩, rfl⟩

/-- The values of some members are read alike by both routes, but for the numbers that the
second one refuses. -/
theorem forall_ofDatum_canonical_iff (members : List (String × Doc))
    (havoids : MembersAvoid numberKey members) (hdistinct : MembersDistinct members) :
    ∀ member ∈ members, ∀ node,
      Node.ofDatum .document (.ofDoc member.2.canonical) = .ok node ↔
        Node.ofDatum .json (seen member.2) = .ok node ∧ ∀ n ∈ member.2.numbers, ¬n.Wide := by
  match members with
  | [] => exact nofun
  | (name, value) :: rest =>
    obtain ⟨-, havoid, havoids'⟩ := havoids
    exact List.forall_mem_cons.2 ⟨ofDatum_canonical_iff value havoid hdistinct.1,
      forall_ofDatum_canonical_iff rest havoids' hdistinct.2⟩

end

end Doc

/-- A scalar of a document is no mask.  Whichever way a number is handed over, it is a
scalar still. -/
theorem exists_ofDatum_ofDoc_scalar (value : Scalar) :
    ∃ e, Mask.ofDatum .document (.ofDoc (.scalar value)) = .error e := by
  cases value with
  | null | bool _ | string _ => exact ⟨_, rfl⟩
  | number n =>
    rw [Datum.ofDoc]
    rcases Datum.ofNumber_cases n with ⟨value, -, -, hdata⟩ | ⟨-, hdata⟩
    · rw [hdata]
      split
      · exact ⟨_, rfl⟩
      · exact ⟨_, rfl⟩
    · rcases Datum.ofFloat_cases n with ⟨hnumeral, -⟩ | ⟨x, hvalue, -⟩
      · rw [hdata, hnumeral]
        exact ⟨_, rfl⟩
      · rw [hdata, hvalue]
        exact ⟨_, rfl⟩

/-- **A mask read from a text and the same mask read through a document agree**, up to numbers that
the document hands over as integers of more than 64 bits.  Let a text denote a document that is
nested at most 127 deep, with no member that stands for a number and no name repeated in an object.
The document in memory is built, and a mask is read from it exactly if the same mask is read from
the text and there is no such number. -/
theorem ofDoc_ofJson {bytes : List UInt8} {doc : Doc} (hdoc : Denotes bytes doc)
    (hdepth : doc.depth ≤ maxDepth) (hnames : doc.Avoids numberKey) (hdistinct : doc.Distinct) :
    ∃ whole, Doc.ofJson bytes = .ok whole ∧
      ∀ mask, Mask.ofDoc whole = .ok mask ↔
        Mask.ofJson bytes = .ok mask ∧ ∀ n ∈ doc.numbers, ¬n.Wide := by
  refine ⟨doc.canonical, ofJson_of_denotes hdoc hdepth hnames, ?_⟩
  intro mask
  rw [ofJson_eq_ok_iff hdoc hdepth, Mask.ofDoc]
  match doc with
  | .object members =>
    have hvalues := Doc.forall_ofDatum_canonical_iff members hnames hdistinct.2
    rw [Doc.canonical, Datum.ofDoc, Mask.ofDatum, Doc.ofMembers_eq_ofList,
      Mask.ofEntries_eq_ok_iff, Doc.reads_canonicalMembers_iff hdistinct.1 hvalues, Doc.numbers,
      ← Mask.ofEntries_eq_ok_iff, ← Doc.seenEntries_eq_ofList]
    simp only [Doc.object.injEq, exists_eq_left']
  | .array items =>
    refine iff_of_false (by rintro ⟨⟩) ?_
    rintro ⟨⟨_, ⟨⟩, -⟩, -⟩
  | .scalar value =>
    obtain ⟨e, hrefused⟩ := exists_ofDatum_ofDoc_scalar value
    rw [Doc.canonical, hrefused]
    refine iff_of_false (by rintro ⟨⟩) ?_
    rintro ⟨⟨_, ⟨⟩, -⟩, -⟩

/-- Members out of order, with an integer and a fraction. -/
theorem ofDoc_ofJson_unordered :
    ∃ mask whole,
      Mask.ofJson "\x7b\"b\":-1,\"a\":\x7b\"c\":0.5\x7d\x7d".toUTF8.toList = .ok mask ∧
      Doc.ofJson "\x7b\"b\":-1,\"a\":\x7b\"c\":0.5\x7d\x7d".toUTF8.toList = .ok whole ∧
      Mask.ofDoc whole = .ok mask := by
  let members : List (String × Doc) := [("b", .scalar (.number (.ofInt (-1)))),
    ("a", .object [("c", .scalar (.number ⟨"0.5", rfl, by decide⟩))])]
  have hdoc := denotes_text (.object members)
  have havoids : Doc.MembersAvoid numberKey members :=
    ⟨by decide, trivial, by decide, ⟨by decide, trivial, trivial⟩, trivial⟩
  have hdistinct : Doc.Distinct (.object members) :=
    ⟨by decide, trivial, ⟨by decide, trivial, trivial⟩, trivial⟩
  -- Neither number is an integer of more than 64 bits.
  have hnumbers : ∀ n ∈ Doc.numbers (.object members), ¬n.Wide := by
    have hinteger : ¬(Number.ofInt (-1)).Wide := by
      rw [Number.wide_ofInt]
      decide
    have hfraction : ¬Number.Wide ⟨"0.5", rfl, by decide⟩ := Number.not_wide_of_none rfl
    exact List.forall_mem_cons.2 ⟨hinteger, List.forall_mem_singleton.2 hfraction⟩
  obtain ⟨mask, hmask⟩ := Doc.exists_ofEntries members havoids
    ⟨by decide, trivial, by decide, ⟨by decide, trivial, trivial⟩, trivial⟩
    fun _ _ => Mask.find?_empty _
  have hread := (ofJson_eq_ok_iff hdoc (by decide) mask).2 ⟨members, rfl, hmask⟩
  obtain ⟨whole, hwhole, hagree⟩ := ofDoc_ofJson hdoc (by decide) havoids hdistinct
  exact ⟨mask, whole, hread, hwhole, (hagree mask).2 ⟨hread, hnumbers⟩⟩

/-- A mask is read of an integer of 65 bits in a text, but not of the same integer in the document
that the text denotes. -/
theorem ofDoc_ofJson_wide :
    ∃ mask whole, Mask.ofJson "\x7b\"a\":18446744073709551616\x7d".toUTF8.toList = .ok mask ∧
      Doc.ofJson "\x7b\"a\":18446744073709551616\x7d".toUTF8.toList = .ok whole ∧
      Mask.ofDoc whole = .error (.invalidType (.wide 18446744073709551616) .field) := by
  let members : List (String × Doc) := [("a", .scalar (.number (.ofInt 18446744073709551616)))]
  have hdoc := denotes_text (.object members)
  have havoids : Doc.MembersAvoid numberKey members := ⟨by decide, trivial, trivial⟩
  obtain ⟨mask, hmask⟩ := Doc.exists_ofEntries members havoids ⟨by decide, trivial, trivial⟩
    fun _ _ => Mask.find?_empty _
  have hread := (ofJson_eq_ok_iff hdoc (by decide) mask).2 ⟨members, rfl, hmask⟩
  exact ⟨mask, _, hread, ofJson_of_denotes hdoc (by decide) havoids, rfl⟩

end FieldMask
