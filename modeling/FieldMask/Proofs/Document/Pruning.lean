import FieldMask.Document.Basic

namespace FieldMask

/-!
# Pruning a document by key paths

A member of a document has a key path: the names of the members that it lies in, from the root
inwards, with its own name at the end.  Arrays on the way leave no trace in it, and members of one
name share it.

* `Doc.prune` — a document with the members whose paths are wanted; order, items and scalars stay.
* `Doc.prune_prune` — pruning twice is pruning once, by both wishes.
* `Doc.memberPaths` — the path of every member, in the order of the document.
* `Doc.memberPaths_prune` — if no path is wanted without those that lead to it, the members that
  are left are just the wanted ones.
-/

namespace Doc

mutual

/-- A document without the members whose paths are not wanted. -/
def prune (keep : List String → Bool) : Doc → Doc
  | scalar value => scalar value
  | array items => array (pruneItems keep items)
  | object members => object (pruneMembers keep members)

/-- Some items, each pruned at the path of their array. -/
def pruneItems (keep : List String → Bool) : List Doc → List Doc
  | [] => []
  | item :: rest => item.prune keep :: pruneItems keep rest

/-- The wanted ones of some members, with their values pruned.  Below a name the paths are
asked for with the name in front. -/
def pruneMembers (keep : List String → Bool) : List (String × Doc) → List (String × Doc)
  | [] => []
  | (name, value) :: rest =>
    if keep [name] then
      (name, value.prune fun path => keep (name :: path)) :: pruneMembers keep rest
    else pruneMembers keep rest

end

mutual

/-- The paths of all members of a document, in order. -/
def memberPaths : Doc → List (List String)
  | scalar _ => []
  | array items => itemsPaths items
  | object members => membersPaths members

/-- The paths of all members of some items. -/
def itemsPaths : List Doc → List (List String)
  | [] => []
  | item :: rest => item.memberPaths ++ itemsPaths rest

/-- The paths of some members, each with those inside of it behind its own. -/
def membersPaths : List (String × Doc) → List (List String)
  | [] => []
  | (name, value) :: rest =>
    [name] :: (value.memberPaths.map (name :: ·) ++ membersPaths rest)

end

mutual

/-- Where every path is wanted nothing is pruned. -/
theorem prune_true (doc : Doc) : doc.prune (fun _ => true) = doc := by
  cases doc with
  | scalar value => rfl
  | array items => rw [prune, pruneItems_true items]
  | object members => rw [prune, pruneMembers_true members]

/-- So of items. -/
theorem pruneItems_true (items : List Doc) : pruneItems (fun _ => true) items = items := by
  cases items with
  | nil => rfl
  | cons item rest => rw [pruneItems, prune_true item, pruneItems_true rest]

/-- And of members, all of which are wanted. -/
theorem pruneMembers_true (members : List (String × Doc)) :
    pruneMembers (fun _ => true) members = members := by
  match members with
  | [] => rfl
  | (name, value) :: rest =>
    rw [pruneMembers, if_pos rfl, prune_true value, pruneMembers_true rest]

end

mutual

/-- Pruning only asks for the paths of members, which are not empty.  The three lemmas go
along with the three functions. -/
theorem prune_congr {keep keep' : List String → Bool}
    (h : ∀ path, path ≠ [] → keep path = keep' path) (doc : Doc) :
    doc.prune keep = doc.prune keep' := by
  cases doc with
  | scalar value => rfl
  | array items => rw [prune, prune, pruneItems_congr h items]
  | object members => rw [prune, prune, pruneMembers_congr h members]

/-- Items are pruned at the path of their array, so the same paths are asked for. -/
theorem pruneItems_congr {keep keep' : List String → Bool}
    (h : ∀ path, path ≠ [] → keep path = keep' path) (items : List Doc) :
    pruneItems keep items = pruneItems keep' items := by
  cases items with
  | nil => rfl
  | cons item rest =>
    rw [pruneItems, pruneItems, prune_congr h item, pruneItems_congr h rest]

/-- Inside of a member all paths begin with its name. -/
theorem pruneMembers_congr {keep keep' : List String → Bool}
    (h : ∀ path, path ≠ [] → keep path = keep' path) (members : List (String × Doc)) :
    pruneMembers keep members = pruneMembers keep' members := by
  match members with
  | [] => rfl
  | (name, value) :: rest =>
    have hbelow : ∀ path, path ≠ [] → keep (name :: path) = keep' (name :: path) :=
      fun path _ => h (name :: path) (List.cons_ne_nil name path)
    rw [pruneMembers, pruneMembers, h [name] (List.cons_ne_nil name []), prune_congr hbelow value,
      pruneMembers_congr h rest]

end

mutual

/-- Pruning twice leaves what is wanted both times: the path of a member is the same before and
after the first pruning. -/
theorem prune_prune (keep keep' : List String → Bool) (doc : Doc) :
    (doc.prune keep).prune keep' = doc.prune fun path => keep path && keep' path := by
  cases doc with
  | scalar value => rfl
  | array items => rw [prune, prune, prune, pruneItems_pruneItems keep keep' items]
  | object members => rw [prune, prune, prune, pruneMembers_pruneMembers keep keep' members]

/-- So it is with items, none of which is ever dropped. -/
theorem pruneItems_pruneItems (keep keep' : List String → Bool) (items : List Doc) :
    pruneItems keep' (pruneItems keep items) =
      pruneItems (fun path => keep path && keep' path) items := by
  cases items with
  | nil => rfl
  | cons item rest =>
    rw [pruneItems, pruneItems, pruneItems, prune_prune keep keep' item,
      pruneItems_pruneItems keep keep' rest]

/-- And with members: one is left if it is wanted both times. -/
theorem pruneMembers_pruneMembers (keep keep' : List String → Bool)
    (members : List (String × Doc)) :
    pruneMembers keep' (pruneMembers keep members) =
      pruneMembers (fun path => keep path && keep' path) members := by
  match members with
  | [] => rfl
  | (name, value) :: rest =>
    have hvalue := prune_prune (fun path => keep (name :: path)) (fun path => keep' (name :: path))
      value
    have hrest := pruneMembers_pruneMembers keep keep' rest
    -- The member is dropped the first time, the second time, or not at all.
    by_cases hkeep : keep [name] = true
    · by_cases hkeep' : keep' [name] = true
      · have hboth : (keep [name] && keep' [name]) = true := by rw [hkeep, hkeep', Bool.and_self]
        rw [pruneMembers, pruneMembers, if_pos hkeep, if_pos hboth, pruneMembers, if_pos hkeep',
          hvalue, hrest]
      · have hnot : ¬(keep [name] && keep' [name]) = true := by simp [hkeep']
        rw [pruneMembers, pruneMembers, if_pos hkeep, if_neg hnot, pruneMembers, if_neg hkeep',
          hrest]
    · have hnot : ¬(keep [name] && keep' [name]) = true := by simp [hkeep]
      rw [pruneMembers, pruneMembers, if_neg hkeep, if_neg hnot, hrest]

end

/-! ### The members that are left -/

/-- No path is wanted without those that lead to it. -/
def Inherited (keep : List String → Bool) : Prop :=
  ∀ first rest, keep (first ++ rest) = true → first ≠ [] → keep first = true

/-- The same holds of the paths inside of a member. -/
theorem inherited_below {keep : List String → Bool} (h : Inherited keep) (name : String) :
    Inherited fun path => keep (name :: path) := by
  intro first rest hkeep _
  exact h (name :: first) rest hkeep (List.cons_ne_nil name first)

/-- Under an unwanted name nothing is wanted. -/
theorem not_keep_below {keep : List String → Bool} (h : Inherited keep) {name : String}
    (hname : ¬keep [name] = true) (path : List String) : ¬keep (name :: path) = true := by
  intro hpath
  exact hname (h [name] path hpath (List.cons_ne_nil name []))

mutual

/-- The members that are left are the wanted ones, if no path is wanted without those that
lead to it. -/
theorem memberPaths_prune {keep : List String → Bool} (h : Inherited keep) (doc : Doc) :
    (doc.prune keep).memberPaths = doc.memberPaths.filter keep := by
  cases doc with
  | scalar value => rfl
  | array items => rw [prune, memberPaths, memberPaths, itemsPaths_prune h items]
  | object members => rw [prune, memberPaths, memberPaths, membersPaths_prune h members]

/-- Of items the same, whose paths come one after the other. -/
theorem itemsPaths_prune {keep : List String → Bool} (h : Inherited keep) (items : List Doc) :
    itemsPaths (pruneItems keep items) = (itemsPaths items).filter keep := by
  cases items with
  | nil => rfl
  | cons item rest =>
    rw [pruneItems, itemsPaths, itemsPaths, List.filter_append, memberPaths_prune h item,
      itemsPaths_prune h rest]

/-- Of members: the path of each comes first, and then those inside of it. -/
theorem membersPaths_prune {keep : List String → Bool} (h : Inherited keep)
    (members : List (String × Doc)) :
    membersPaths (pruneMembers keep members) = (membersPaths members).filter keep := by
  match members with
  | [] => rfl
  | (name, value) :: rest =>
    have hrest := membersPaths_prune h rest
    rw [pruneMembers, membersPaths, List.filter_cons, List.filter_append, List.filter_map]
    by_cases hname : keep [name] = true
    · have hvalue := memberPaths_prune (inherited_below h name) value
      rw [if_pos hname, if_pos hname, membersPaths, hvalue, hrest]
      rfl
    · -- The member takes with it what it holds, and none of that is wanted.
      have hnone : value.memberPaths.filter (keep ∘ (name :: ·)) = [] := by
        rw [List.filter_eq_nil_iff]
        intro path _
        exact not_keep_below h hname path
      rw [if_neg hname, if_neg hname, hnone, hrest]
      rfl

end

end Doc

end FieldMask
