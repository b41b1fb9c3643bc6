import FieldMask.Mask.Basic

namespace FieldMask

/-!
# What a mask says after it was built

* `Fields.find?_eq_some_iff` — in a level in order, what is found under a name is its entry.
* `Fields.find?_insert`, `Mask.find?_put` — a field put into a level is found there, and no other
  name is touched.
* `Fields.eq_of_find?` — levels in order that say the same about every name are the same;
  `Mask.eq_of_find?` — so are masks, if their modes agree.
* `Mask.raw_find?` — looking up in a mask is looking up in its fields.
-/

namespace Fields

/-! ### Names -/

@[simp] theorem find?_nil (name : String) : nil.find? name = none := rfl

@[simp] theorem names_nil : nil.names = [] := rfl

/-- A name is mentioned if, and only if, something is found under it. -/
theorem mem_names_iff {name : String} {fields : Fields} :
    name ∈ fields.names ↔ ∃ node, fields.find? name = some node := by
  induction fields using consInduction with
  | nil => simp
  | cons n nd rest _ ih =>
    rw [names_cons, find?_cons, List.mem_cons, ih]
    by_cases h : n = name
    · simp [h]
    · simp [h, Ne.symm h]

/-- Nothing is found under the names that are not mentioned. -/
theorem find?_eq_none_iff {name : String} {fields : Fields} :
    fields.find? name = none ↔ name ∉ fields.names := by
  rw [mem_names_iff, Option.eq_none_iff_forall_ne_some]
  exact not_exists.symm

/-- The first field of a level in order is the only one of its name. -/
theorem find?_eq_none_of_forall_lt {name : String} {rest : Fields}
    (h : ∀ n ∈ rest.names, name < n) : rest.find? name = none := by
  rw [find?_eq_none_iff]
  intro hname
  exact String.lt_irrefl name (h name hname)

/-- The first field of a level in order hides none of those behind it. -/
theorem find?_cons_of_find? {name key : String} {node nd : Node Level} {rest : Fields}
    (hlt : ∀ n ∈ rest.names, name < n) (h : rest.find? key = some nd) :
    (cons name node rest).find? key = some nd := by
  have hne : name ≠ key := by
    rintro rfl
    rw [find?_eq_none_of_forall_lt hlt] at h
    cases h
  rw [find?_cons, if_neg hne, h]

/-- Any field at all makes a level one that is not empty. -/
theorem isEmpty_eq_false {fields : Fields} (h : fields ≠ nil) : fields.isEmpty = false := by
  cases fields with
  | nil => exact absurd rfl h
  | leaf _ _ _ => rfl
  | subtree _ _ _ _ _ => rfl

/-- Fields that are not empty mention some name. -/
theorem isEmpty_eq_false_iff {fields : Fields} :
    fields.isEmpty = false ↔ ∃ name node, fields.find? name = some node := by
  cases fields using consInduction with
  | nil => simp [isEmpty]
  | cons name node rest =>
    have hfind : (cons name node rest).find? name = some node := by simp
    have hcons : (cons name node rest).isEmpty = false := by
      obtain ⟨polarity, children⟩ := node
      cases children <;> rfl
    exact iff_of_true hcons ⟨name, node, hfind⟩

/-! ### Entries -/

/-- The first entry is that of the first field. -/
@[simp] theorem entries_cons (name : String) (node : Node Level) (rest : Fields) :
    (cons name node rest).entries = (name, node) :: rest.entries := by
  obtain ⟨polarity, children⟩ := node
  cases children <;> rfl

/-- The names of the entries are those of the fields. -/
theorem map_fst_entries (fields : Fields) : fields.entries.map Prod.fst = fields.names := by
  induction fields using consInduction with
  | nil => rfl
  | cons name node rest _ ih => rw [entries_cons, names_cons, List.map_cons, ih]

/-- No name is mentioned twice in a level in order. -/
theorem nodup_names {fields : Fields} (h : fields.Ordered) : fields.names.Nodup := by
  induction fields using consInduction with
  | nil => exact List.nodup_nil
  | cons name node rest _ ih =>
    obtain ⟨hlt, -, hrest⟩ := ordered_cons.1 h
    rw [names_cons, List.nodup_cons]
    refine ⟨?_, ih hrest⟩
    intro hname
    exact String.lt_irrefl name (hlt name hname)

/-- In a level in order, what is found under a name is the entry of that name.  A look-up
stops at the first field of the name, which order makes the only one. -/
theorem find?_eq_some_iff {name : String} {node : Node Level} {fields : Fields}
    (h : fields.Ordered) : fields.find? name = some node ↔ (name, node) ∈ fields.entries := by
  induction fields using consInduction with
  | nil => exact ⟨nofun, nofun⟩
  | cons n nd rest _ ih =>
    obtain ⟨hlt, -, hrest⟩ := ordered_cons.1 h
    rw [find?_cons, entries_cons, List.mem_cons, Prod.mk.injEq, ← ih hrest]
    by_cases hn : n = name
    · -- No field behind the first has its name.
      subst hn
      rw [if_pos rfl, find?_eq_none_of_forall_lt hlt, Option.some.injEq]
      constructor
      · intro hnd
        exact Or.inl ⟨rfl, hnd.symm⟩
      · rintro (⟨-, hnd⟩ | hnone)
        · exact hnd.symm
        · cases hnone
    · rw [if_neg hn]
      constructor
      · exact Or.inr
      · rintro (⟨hname, -⟩ | hfind)
        · exact absurd hname.symm hn
        · exact hfind

/-! ### Inserting -/

/-- A field that is inserted is found under its name, and nothing else changes.  No order is
needed for this: the field is put in front of the first larger name, or in the place of its
own. -/
theorem find?_insert (name key : String) (node : Node Level) (fields : Fields) :
    (fields.insert name node).find? key = if name = key then some node else fields.find? key := by
  induction fields using consInduction with
  | nil => exact find?_cons name key node nil
  | cons n nd rest _ ih =>
    rw [insert_cons]
    -- The name belongs in front of the first field, in its place, or behind it.
    by_cases hlt : name < n
    · rw [if_pos hlt, find?_cons]
    · by_cases heq : name = n
      · subst heq
        rw [if_neg hlt, if_pos rfl, find?_cons, find?_cons]
        split <;> rfl
      · rw [if_neg hlt, if_neg heq, find?_cons, find?_cons, ih]
        by_cases hn : n = key
        · have hkey : name ≠ key := by
            intro h
            exact heq (h.trans hn.symm)
          rw [if_pos hn, if_neg hkey, if_pos hn]
        · rw [if_neg hn, if_neg hn]

/-! ### Levels that say the same -/

/-- The first names of two levels that mention each other's first name are the same. -/
theorem eq_of_mem_names {n n' : String} {rest rest' : Fields} (h : ∀ m ∈ rest.names, n < m)
    (h' : ∀ m ∈ rest'.names, n' < m) (hn : n = n' ∨ n ∈ rest'.names)
    (hn' : n' = n ∨ n' ∈ rest.names) : n = n' := by
  rcases hn with hn | hn
  · exact hn
  · rcases hn' with hn' | hn'
    · exact hn'.symm
    · exact absurd (String.lt_trans (h n' hn') (h' n hn)) (String.lt_irrefl n)

/-- Levels in order that say the same about every name are the same.  The induction is on
one of them; the other must begin with the same name, since each first name is the least.
Fields in order are told by what they say about each name. -/
theorem eq_of_find? {fields other : Fields} (h : fields.Ordered) (hother : other.Ordered)
    (hfind : ∀ name, fields.find? name = other.find? name) : fields = other := by
  induction fields using consInduction generalizing other with
  | nil =>
    cases other using consInduction with
    | nil => rfl
    | cons n nd rest =>
      have hn := hfind n
      simp at hn
  | cons n nd rest _ ih =>
    cases other using consInduction with
    | nil =>
      have hn := hfind n
      simp at hn
    | cons n' nd' rest' =>
      obtain ⟨hlt, _, hrest⟩ := ordered_cons.1 h
      obtain ⟨hlt', _, hrest'⟩ := ordered_cons.1 hother
      have hnames : ∀ name, name ∈ (cons n nd rest).names ↔ name ∈ (cons n' nd' rest').names := by
        intro name
        rw [mem_names_iff, mem_names_iff, hfind]
      simp only [names_cons, List.mem_cons] at hnames
      -- Each first name is mentioned by the other level, where nothing comes before the first.
      obtain rfl : n = n' := eq_of_mem_names hlt hlt' ((hnames n).1 (Or.inl rfl))
        ((hnames n').2 (Or.inl rfl))
      have hnode := hfind n
      rw [find?_cons, find?_cons, if_pos rfl, if_pos rfl, Option.some.injEq] at hnode
      have htail : rest = rest' := by
        apply ih hrest hrest'
        intro name
        by_cases hname : n = name
        · subst hname
          rw [find?_eq_none_of_forall_lt hlt, find?_eq_none_of_forall_lt hlt']
        · have hfound := hfind name
          rwa [find?_cons, find?_cons, if_neg hname, if_neg hname] at hfound
      rw [hnode, htail]

end Fields

/-! ### Masks -/

namespace Node

/-- A node that is taken apart and put together again is the same. -/
theorem raw_ofOrdered {node : Node Level} (h : node.Ordered) : (ofOrdered node h).raw = node := by
  obtain ⟨polarity, children⟩ := node
  cases children <;> rfl

/-- Masks add only proofs to the levels that they are made of. -/
theorem raw_injective : Function.Injective raw := by
  intro node other h
  have hlevel : Function.Injective Mask.toLevel := by
    rintro ⟨level, ordered⟩ ⟨level', ordered'⟩ rfl
    rfl
  obtain ⟨hpolarity, hchildren⟩ := Node.mk.inj h
  rw [Node.mk.injEq]
  exact ⟨hpolarity, Option.map_injective hlevel hchildren⟩

end Node

namespace Mask

/-- Looking up in a mask is looking up in its fields. -/
theorem raw_find? (mask : Mask) (name : String) :
    (mask.find? name).map Node.raw = mask.fields.find? name := by
  rw [find?]
  split
  next h => rw [h, Option.map_none]
  next h =>
    rw [Option.map_some, Node.raw_ofOrdered]
    exact h.symm

/-- A mask contains a name if something is found under it. -/
theorem contains_eq_isSome_find? (mask : Mask) (name : String) :
    mask.contains name = (mask.find? name).isSome := by
  rw [contains, Fields.contains, ← raw_find?, Option.isSome_map]

/-- The empty mask says nothing about any name. -/
theorem find?_empty (name : String) : empty.find? name = none := rfl

/-- What is put into a mask is found there, and no other name is touched. -/
theorem find?_put (mask : Mask) (name key : String) (node : Node Mask) :
    (mask.put name node).find? key = if name = key then some node else mask.find? key := by
  apply Option.map_injective Node.raw_injective
  rw [raw_find?]
  show (mask.fields.insert name node.raw).find? key = _
  rw [Fields.find?_insert, ← raw_find?]
  split <;> rfl

/-- Masks of one mode that say the same about every name are the same. -/
theorem eq_of_find? {mask other : Mask} (hmode : mask.mode = other.mode)
    (hfind : ∀ name, mask.find? name = other.find? name) : mask = other := by
  obtain ⟨⟨mode, fields⟩, ordered⟩ := mask
  obtain ⟨⟨mode', fields'⟩, ordered'⟩ := other
  have hfields : fields = fields' := by
    apply Fields.eq_of_find? ordered ordered'
    intro name
    have hraw := congrArg (Option.map Node.raw) (hfind name)
    rwa [raw_find?, raw_find?] at hraw
  obtain rfl : mode = mode' := hmode
  subst hfields
  rfl

end Mask

end FieldMask
