import FieldMask.Proofs.Document.Projection

namespace FieldMask.Doc

/-!
# Canonical documents

Whoever builds a document in memory keeps the members of every object in the order of their names,
and of members of one name the last.

* `Doc.canonical` — a document as it is built.
* `canonical_canonical`, `Canonical.canonical_eq` — it is canonical, and a canonical document is
  built as it is.
* `canonical_project` — a rule that decides by names alone does not tell whether a document was
  built before it is projected or after.
-/

mutual

/-- A document with the members of every object in the order of their names, of those of one name
the last. -/
def canonical : Doc → Doc
  | scalar value => scalar value
  | array items => array (canonicalItems items)
  | object members => object (canonicalMembers [] members)

/-- Some items, each canonical. -/
def canonicalItems : List Doc → List Doc
  | [] => []
  | item :: rest => item.canonical :: canonicalItems rest

/-- Some members put in their places among those in order so far. -/
def canonicalMembers (sorted : List (String × Doc)) : List (String × Doc) → List (String × Doc)
  | [] => sorted
  | (name, value) :: rest => canonicalMembers (insertMember name value.canonical sorted) rest

end

variable {name : String} {value : Doc} {members : List (String × Doc)}

/-- The last item is the last afterwards. -/
theorem canonicalItems_concat (items : List Doc) (item : Doc) :
    canonicalItems (items ++ [item]) = canonicalItems items ++ [item.canonical] := by
  induction items with
  | nil => simp [canonicalItems]
  | cons first rest ih => simp [canonicalItems, ih]

/-- The last member is put in its place when all others are in theirs. -/
theorem canonicalMembers_concat (sorted members : List (String × Doc)) (name : String)
    (value : Doc) :
    canonicalMembers sorted (members ++ [(name, value)]) =
      insertMember name value.canonical (canonicalMembers sorted members) := by
  induction members generalizing sorted with
  | nil => simp [canonicalMembers]
  | cons first rest ih =>
    obtain ⟨n, v⟩ := first
    simp [canonicalMembers, ih]

/-! ### Members in order -/

/-- Behind an insertion there are the names that were there, and the one that is put in.  A
member of the same name gives way, so no name is lost either. -/
theorem mem_names_insertMember {n : String} :
    n ∈ (insertMember name value members).map (·.1) ↔ n = name ∨ n ∈ members.map (·.1) := by
  induction members with
  | nil => simp [insertMember]
  | cons member rest ih =>
    obtain ⟨k, v⟩ := member
    rw [insertMember]
    split
    · simp
    · split
      next heq => simp [heq]
      · rw [List.map_cons, List.mem_cons, ih, List.map_cons, List.mem_cons]
        exact or_left_comm

/-- A canonical value may be put in its place among canonical members. -/
theorem CanonicalMembers.insertMember (hmembers : CanonicalMembers members)
    (hvalue : value.Canonical) : CanonicalMembers (insertMember name value members) := by
  induction members with
  | nil => exact ⟨nofun, hvalue, trivial⟩
  | cons member rest ih =>
    obtain ⟨k, v⟩ := member
    obtain ⟨hfirst, hv, hrest⟩ := hmembers
    rw [Doc.insertMember]
    -- The name goes in front of the first one, takes its place, or goes behind it.
    split
    next hlt =>
      refine ⟨?_, hvalue, hfirst, hv, hrest⟩
      intro n hn
      rcases List.mem_cons.1 hn with rfl | hn
      · exact hlt
      · exact String.lt_trans hlt (hfirst n hn)
    next hge =>
      split
      next heq => exact ⟨heq ▸ hfirst, hvalue, hrest⟩
      next hne =>
        refine ⟨?_, hv, ih hrest⟩
        intro n hn
        rcases mem_names_insertMember.1 hn with rfl | hn
        · exact Fields.lt_of_not_lt_of_ne hge hne
        · exact hfirst n hn

/-- A name before all others goes to the front. -/
theorem insertMember_of_lt (h : ∀ n ∈ members.map (·.1), name < n) :
    insertMember name value members = (name, value) :: members := by
  cases members with
  | nil => rfl
  | cons member rest => exact if_pos (h member.1 List.mem_cons_self)

/-- A name behind all others goes to the end.  The induction passes over each of the
others. -/
theorem insertMember_of_gt (h : ∀ n ∈ members.map (·.1), n < name) :
    insertMember name value members = members ++ [(name, value)] := by
  induction members with
  | nil => rfl
  | cons member rest ih =>
    obtain ⟨k, v⟩ := member
    have hlt : k < name := h k List.mem_cons_self
    have hne : name ≠ k := by
      rintro rfl
      exact String.lt_irrefl _ hlt
    rw [insertMember, if_neg fun hgt => String.lt_irrefl _ (String.lt_trans hlt hgt), if_neg hne,
      ih fun n hn => h n (List.mem_cons_of_mem _ hn)]
    rfl

/-! ### What is built is canonical -/

mutual

/-- What is built is canonical, level by level. -/
theorem canonical_canonical (doc : Doc) : doc.canonical.Canonical := by
  cases doc with
  | scalar value => trivial
  | array items => exact canonicalItems_canonical items
  | object members => exact canonicalMembers_canonical members [] trivial

/-- So is each item of an array. -/
theorem canonicalItems_canonical (items : List Doc) : CanonicalItems (canonicalItems items) := by
  cases items with
  | nil => trivial
  | cons item rest => exact ⟨canonical_canonical item, canonicalItems_canonical rest⟩

/-- Members that are put in their places one by one stay in order. -/
theorem canonicalMembers_canonical (members sorted : List (String × Doc))
    (h : CanonicalMembers sorted) : CanonicalMembers (canonicalMembers sorted members) := by
  match members with
  | [] => exact h
  | (name, value) :: rest =>
    exact canonicalMembers_canonical rest _ (h.insertMember (canonical_canonical value))

end

mutual

/-- A canonical document is built as it is. -/
theorem Canonical.canonical_eq (doc : Doc) (h : doc.Canonical) : doc.canonical = doc := by
  cases doc with
  | scalar value => rfl
  | array items => rw [canonical, CanonicalItems.canonical_eq items h]
  | object members =>
    rw [canonical, CanonicalMembers.canonical_eq members h [] nofun]
    rfl

/-- So are the items of an array. -/
theorem CanonicalItems.canonical_eq (items : List Doc) (h : CanonicalItems items) :
    canonicalItems items = items := by
  cases items with
  | nil => rfl
  | cons item rest =>
    rw [canonicalItems, Canonical.canonical_eq item h.1, CanonicalItems.canonical_eq rest h.2]

/-- Members in order go behind those that come before all of them. -/
theorem CanonicalMembers.canonical_eq (members : List (String × Doc)) (h : CanonicalMembers members)
    (sorted : List (String × Doc))
    (hsorted : ∀ n ∈ sorted.map (·.1), ∀ n' ∈ members.map (·.1), n < n') :
    canonicalMembers sorted members = sorted ++ members := by
  match members with
  | [] => rw [canonicalMembers, List.append_nil]
  | (name, value) :: rest =>
    obtain ⟨hfirst, hvalue, hrest⟩ := h
    -- The next member comes behind all that are in their places so far.
    have hlast : ∀ n ∈ sorted.map (·.1), n < name := fun n hn =>
      hsorted n hn name List.mem_cons_self
    have hsorted' : ∀ n ∈ (sorted ++ [(name, value)]).map (·.1), ∀ n' ∈ rest.map (·.1), n < n' := by
      intro n hn n' hn'
      rw [List.map_append, List.mem_append] at hn
      rcases hn with hn | hn
      · exact hsorted n hn n' (List.mem_cons_of_mem _ hn')
      · obtain rfl : n = name := by simpa using hn
        exact hfirst n' hn'
    rw [canonicalMembers, Canonical.canonical_eq value hvalue, insertMember_of_gt hlast,
      CanonicalMembers.canonical_eq rest hrest _ hsorted', List.append_assoc, List.singleton_append]

end

/-! ### Projection -/

section Project

variable {ν : Type} {decide : ν → String → Action ν} {view : ν}

/-- A projection has no names but those that were there.  What is kept keeps its name,
whether its value is projected or not. -/
theorem mem_names_of_projectMembers {n : String}
    (h : n ∈ (projectMembers decide view members).map (·.1)) : n ∈ members.map (·.1) := by
  induction members with
  | nil => exact h
  | cons member rest ih =>
    obtain ⟨k, v⟩ := member
    rw [List.map_cons, List.mem_cons]
    cases haction : decide view k with
    | skip =>
      rw [projectMembers_of_skip haction] at h
      exact .inr (ih h)
    | copy =>
      rw [projectMembers_of_copy haction] at h
      exact (List.mem_cons.1 h).imp_right ih
    | descend inner =>
      rw [projectMembers_of_descend haction] at h
      exact (List.mem_cons.1 h).imp_right ih

/-- A member that is dropped is dropped wherever it is put.  This is why building a document
and projecting it can change places. -/
theorem projectMembers_insertMember_of_skip (hskip : decide view name = .skip) :
    projectMembers decide view (insertMember name value members) =
      projectMembers decide view members := by
  have hdrop := projectMembers_of_skip hskip
  induction members with
  | nil => exact hdrop value []
  | cons member rest ih =>
    obtain ⟨k, v⟩ := member
    rw [insertMember]
    split
    · exact hdrop value _
    · split
      next heq =>
        subst heq
        rw [hdrop, hdrop]
      · rw [projectMembers, projectMembers, ih]

/-- A member that is kept is put in its place among those that are kept.  That needs the
order of the members, since the places are looked for on both sides. -/
theorem projectMembers_insertMember {f : Doc → Doc}
    (hkeep : ∀ v rest, projectMembers decide view ((name, v) :: rest) =
      (name, f v) :: projectMembers decide view rest) (h : CanonicalMembers members) :
    projectMembers decide view (insertMember name value members) =
      insertMember name (f value) (projectMembers decide view members) := by
  induction members with
  | nil => exact hkeep value []
  | cons member rest ih =>
    obtain ⟨k, v⟩ := member
    obtain ⟨hfirst, -, hrest⟩ := h
    rw [insertMember]
    split
    next hlt =>
      -- The member goes before all others, and so it does among those that are kept.
      refine (hkeep value _).trans (insertMember_of_lt ?_).symm
      intro n hn
      rcases List.mem_cons.1 (mem_names_of_projectMembers hn) with rfl | hn
      · exact hlt
      · exact String.lt_trans hlt (hfirst n hn)
    next hge =>
      split
      next heq =>
        subst heq
        rw [hkeep, hkeep, insertMember, if_neg (String.lt_irrefl name), if_pos rfl]
      next hne =>
        rw [projectMembers, projectMembers, ih hrest]
        cases decide view k with
        | skip => rfl
        | copy => exact ((if_neg hge).trans (if_neg hne)).symm
        | descend inner => exact ((if_neg hge).trans (if_neg hne)).symm

mutual

/-- **Projecting commutes with dropping repeated names.**  The rule decides by the name of a member,
so of members of one name either all are kept or none, and the last stays the last. -/
theorem canonical_project (doc : Doc) (view : ν) :
    doc.canonical.project decide view = (doc.project decide view).canonical := by
  cases doc with
  | scalar value => rfl
  | array items => exact congrArg array (canonicalItems_project items view)
  | object members =>
    exact congrArg object (canonicalMembers_project members view [] trivial)

/-- Items are projected under the view of their array on both sides. -/
theorem canonicalItems_project (items : List Doc) (view : ν) :
    projectItems decide view (canonicalItems items) =
      canonicalItems (projectItems decide view items) := by
  cases items with
  | nil => rfl
  | cons item rest =>
    rw [canonicalItems, projectItems, projectItems, canonicalItems, canonical_project item view,
      canonicalItems_project rest view]

/-- Members go in one by one on both sides, and one that is dropped goes in nowhere. -/
theorem canonicalMembers_project (members : List (String × Doc)) (view : ν)
    (sorted : List (String × Doc)) (h : CanonicalMembers sorted) :
    projectMembers decide view (canonicalMembers sorted members) =
      canonicalMembers (projectMembers decide view sorted)
        (projectMembers decide view members) := by
  match members with
  | [] => rfl
  | (name, value) :: rest =>
    -- Members go in one by one, into any that are in order so far.
    rw [canonicalMembers,
      canonicalMembers_project rest view _ (h.insertMember (canonical_canonical value))]
    cases haction : decide view name with
    | skip =>
      rw [projectMembers_insertMember_of_skip haction, projectMembers_of_skip haction]
    | copy =>
      have hkeep := projectMembers_of_copy haction
      rw [projectMembers_insertMember hkeep h, hkeep, canonicalMembers]
    | descend inner =>
      have hkeep := projectMembers_of_descend haction
      rw [projectMembers_insertMember hkeep h, hkeep, canonicalMembers,
        canonical_project value inner]

end

end Project

/-- Through a mask, too, a document may be built before or after. -/
theorem canonical_through (mask : Option Mask) (doc : Doc) :
    (doc.canonical.through mask).canonical = (doc.through mask).canonical := by
  rw [through, through]
  cases View.ofMask? mask with
  | none => exact Canonical.canonical_eq _ (canonical_canonical doc)
  | some view =>
    show (doc.canonical.project View.decide view).canonical = _
    rw [canonical_project, Canonical.canonical_eq _ (canonical_canonical _)]

end FieldMask.Doc
