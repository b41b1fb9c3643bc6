import FieldMask.Datum.Mask
import FieldMask.Proofs.Datum.Document
import FieldMask.Proofs.Expression.RoundTrip
import FieldMask.Proofs.Expression.Soundness
import FieldMask.Proofs.Mask.Erasure

namespace FieldMask

open JsonText

/-!
# The structural form of a mask, read back

* `Node.ofDatum_map_entry` — an object that does not stand for a number is read as a level.
* `Node.ofDatum_toDoc`, `Mask.ofEntries_members` — what is written for a node and for some fields,
  read back.
* `ofJson_toDoc` — the structural form reads back as the mask, but for what it leaves out.
-/

/-! ### Nodes and levels -/

section Read

variable {origin : Origin}

/-- An object whose first member does not stand for a number is read as a level below an included
field. -/
theorem Node.ofDatum_map_entry {key : String} (hkey : key ≠ numberKey) (value : Datum)
    (rest : Entries) :
    Node.ofDatum origin (.map (.entry key value rest)) =
      (Mask.ofEntries origin .empty (.entry key value rest)).map fun children =>
        ⟨.included, some children⟩ := by
  have hfresh : Mask.empty.contains key = false := rfl
  rw [Node.ofDatum, if_neg hkey, Mask.ofEntries, hfresh, if_neg Bool.false_ne_true]
  cases Node.ofDatum origin value <;> rfl

/-- The object of a level that mentions a name is read as the level that its members are read as,
unless its first member stands for a number. -/
theorem Node.ofDatum_map_members {fields : Fields} (hne : fields.isEmpty = false)
    (hhead : fields.names.head? ≠ some numberKey) :
    Node.ofDatum origin (.map (seenEntries fields.members)) =
      (Mask.ofEntries origin .empty (seenEntries fields.members)).map fun children =>
        ⟨.included, some children⟩ := by
  cases fields using Fields.consInduction with
  | nil => cases hne
  | cons name node rest =>
    have hname : name ≠ numberKey := by
      rintro rfl
      exact hhead (by rw [Fields.names_cons, List.head?_cons])
    rw [Fields.members_cons, seenEntries]
    exact ofDatum_map_entry hname _ _

/-- What is written for a node is read as that node without what is left out, if a level below it
is. -/
theorem Node.ofDatum_toDoc {node : Node Level}
    (h : ∀ level, node.subLevel? = some level → level.fields.names.head? ≠ some numberKey ∧
      ∃ mask : Mask, Mask.ofEntries origin .empty (seenEntries level.fields.members) = .ok mask ∧
        mask.toLevel = level.erase) :
    ∃ nd : Node Mask, Node.ofDatum origin (seen node.toDoc) = .ok nd ∧ nd.raw = node.erase := by
  rw [toDoc, erase]
  cases hsub : node.subLevel? with
  | none =>
    obtain ⟨polarity, children⟩ := node
    refine ⟨⟨polarity, none⟩, ?_, rfl⟩
    cases polarity <;> rfl
  | some level =>
    obtain ⟨hhead, mask, hread, hmask⟩ := h level hsub
    have hne := (subLevel?_eq_some_iff.1 hsub).2
    refine ⟨⟨.included, some mask⟩, ?_, ?_⟩
    · dsimp only
      rw [seen, ofDatum_map_members hne hhead, hread]
      rfl
    · exact congrArg (fun below => (⟨.included, some below⟩ : Node Level)) hmask

/-- A mask with a derived mode that says what some fields say without what is left out is these
fields without it. -/
theorem Mask.toLevel_eq_of_find?_erase {mask : Mask} (hmode : mask.HasDerivedMode) {fields : Fields}
    (hordered : fields.Ordered)
    (hfind : ∀ name, mask.fields.find? name = fields.erase.find? name) :
    mask.toLevel = ⟨fields.erase.derivedMode, fields.erase⟩ := by
  have hfields : mask.fields = fields.erase :=
    Fields.eq_of_find? mask.ordered (Fields.ordered_erase hordered) hfind
  have hderived : mask.mode = fields.erase.derivedMode := hfields ▸ hmode
  exact congrArg₂ Level.mk hderived hfields

/-- **The members of a level are read back** behind those of other names: what comes out says what
was said before, and of the new names what the fields say without what is left out. -/
theorem Mask.ofEntries_members {fields : Fields} (hordered : fields.Ordered)
    (hheads : fields.EachBelow fun _ level => level.fields.names.head? ≠ some numberKey)
    {before : Mask} (hmode : before.HasDerivedMode)
    (hfresh : ∀ name ∈ fields.names, before.find? name = none) :
    ∃ mask, Mask.ofEntries origin before (seenEntries fields.members) = .ok mask ∧
      mask.HasDerivedMode ∧
      ∀ name, mask.fields.find? name = (before.fields.find? name).or (fields.erase.find? name) := by
  -- The entries are read one behind the other into the same mask, so what is there before them
  -- grows; of a level below a field, the induction is used with nothing before it.
  induction fields using Fields.consInduction generalizing before with
  | nil =>
    refine ⟨before, rfl, hmode, ?_⟩
    intro name
    exact Option.or_none.symm
  | cons name node rest hbelow ih =>
    obtain ⟨hlt, hnode, hrest⟩ := Fields.ordered_cons.1 hordered
    obtain ⟨hlevels, hheads'⟩ := (Fields.eachBelow_cons hlt).1 hheads
    have hinner : ∀ level, node.subLevel? = some level →
        level.fields.names.head? ≠ some numberKey ∧
          ∃ mask : Mask, Mask.ofEntries origin .empty (seenEntries level.fields.members) =
            .ok mask ∧ mask.toLevel = level.erase := by
      intro level hsub
      obtain ⟨hhead, hheads''⟩ := hlevels level hsub
      have hchildren := (Node.subLevel?_eq_some_iff.1 hsub).1
      have hlevel := hnode level hchildren
      have hempty : Mask.empty.HasDerivedMode := rfl
      obtain ⟨mask, hread, hmode', hfind⟩ :=
        hbelow level hchildren hlevel hheads'' hempty fun key _ => find?_empty key
      exact ⟨hhead, mask, hread, toLevel_eq_of_find?_erase hmode' hlevel hfind⟩
    obtain ⟨nd, hread, hnd⟩ := Node.ofDatum_toDoc hinner
    have hname : before.find? name = none :=
      hfresh name (by rw [Fields.names_cons]; exact List.mem_cons_self)
    have hcontains : before.contains name = false := by
      rw [contains_eq_isSome_find?, hname]
      rfl
    -- The names behind the first one are still new when it has been put in place.
    have hfresh' : ∀ key ∈ rest.names, (before.put name nd).find? key = none := by
      intro key hkey
      have hne : name ≠ key := by
        rintro rfl
        exact String.lt_irrefl name (hlt name hkey)
      rw [find?_put, if_neg hne]
      exact hfresh key (by rw [Fields.names_cons]; exact List.mem_cons_of_mem _ hkey)
    have hput : (before.put name nd).HasDerivedMode := rfl
    obtain ⟨mask, hreadRest, hmode', hfind⟩ := ih hrest hheads' hput hfresh'
    refine ⟨mask, ?_, hmode', ?_⟩
    · rw [Fields.members_cons, seenEntries, ofEntries, hcontains, if_neg Bool.false_ne_true, hread]
      exact hreadRest
    · intro key
      have hinsert : (before.put name nd).fields.find? key =
          if name = key then some nd.raw else before.fields.find? key :=
        Fields.find?_insert name key nd.raw before.fields
      rw [hfind, hinsert, Fields.erase_cons, Fields.find?_cons, hnd]
      by_cases hkey : name = key
      · subst hkey
        have hnone : before.fields.find? name = none := by rw [← raw_find?, hname, Option.map_none]
        rw [if_pos rfl, if_pos rfl, hnone]
        rfl
      · rw [if_neg hkey, if_neg hkey]

end Read

/-! ### Whole masks -/

/-- The structural form of a mask is read as the mask without what is left out.  The text of
the form is one of the grammar, so the visit sees the form itself. -/
theorem Mask.ofJson_of_heads {mask : Mask} (hdepth : mask.toDoc.depth ≤ maxDepth)
    (hheads : mask.fields.EachBelow fun _ level => level.fields.names.head? ≠ some numberKey) :
    Mask.ofJson mask.toDoc.text.toUTF8.toList = .ok mask.erase := by
  have hdenotes := FieldMask.denotes_text mask.toDoc
  have hempty : Mask.empty.HasDerivedMode := rfl
  obtain ⟨back, hread, hmode, hfind⟩ :=
    ofEntries_members mask.ordered hheads hempty fun name _ => find?_empty name
  have hlevel := toLevel_eq_of_find?_erase hmode mask.ordered hfind
  have hback : back = mask.erase := eq_of_fields hmode rfl (congrArg Level.fields hlevel)
  rw [ofJson, datum_ofJson_of_denotes hdenotes hdepth, toDoc, seen, ofDatum, hread, hback]
  dsimp only
  rw [← toDoc, checkRest_of_denotes hdenotes]
  rfl

/-- The key of a number is no name in an expression, because of its colons. -/
theorem not_isName_numberKey : ¬Expression.IsName numberKey := by
  intro h
  have hcolon : ':' ∈ numberKey.toList := by decide
  exact h.not_special ':' hcolon List.mem_cons_self

/-- In a mask that an expression denotes no level begins with the key of a number.  By
induction on the levels: every name on the way is one that an expression can have. -/
theorem Fields.WellFormed.heads {fields : Fields} (h : fields.WellFormed) :
    fields.EachBelow fun _ level => level.fields.names.head? ≠ some numberKey := by
  induction fields using belowInduction with
  | step fields ih =>
    rw [eachBelow_iff]
    intro name node level hfind hsub
    have hchildren := (Node.subLevel?_eq_some_iff.1 hsub).1
    obtain ⟨-, -, hlevel⟩ := (h.node hfind).below level hchildren
    refine ⟨?_, ih name node level hfind hchildren hlevel⟩
    intro hhead
    obtain ⟨nd, hnd⟩ := mem_names_iff.1 (List.mem_of_head? hhead)
    exact not_isName_numberKey (hlevel.node hnd).plain.isName

/-- **The structural form reads back as the mask, with only the polarity of overrides lost.**  Let
the objects of the structural form of a mask be nested at most 127 deep.  If no level below the root
has the key of a number as its least name, then the form is read as the mask in which every field
with a level below it is included, a field above an empty level is a plain decision, and the mode of
every level is derived.  A mask that was parsed and overrides nothing is read back as it is. -/
theorem ofJson_toDoc (mask : Mask) (hdepth : mask.toDoc.depth ≤ maxDepth) :
    ((mask.fields.EachBelow fun _ level => level.fields.names.head? ≠ some numberKey) →
        Mask.ofJson mask.toDoc.text.toUTF8.toList = .ok mask.erase) ∧
      ∀ text, Expression.parse none text = .ok mask →
        (mask.fields.EachBelow fun node _ => node.polarity = .included) →
          Mask.ofJson mask.toDoc.text.toUTF8.toList = .ok mask := by
  constructor
  · intro hheads
    exact Mask.ofJson_of_heads hdepth hheads
  · intro text hparse hincluded
    have hwell := (Expression.denotes_of_parse hparse).wellFormed
    rw [Mask.ofJson_of_heads hdepth hwell.2.heads, Mask.erase_eq_self hwell hincluded]

/-- The override below `a` becomes a field that is included, the empty level below `b` goes, and
with them the mode of the root changes; a mask that was parsed comes back. -/
theorem ofJson_toDoc_override :
    let mask : Mask := ⟨⟨.excluded, .subtree "a" .excluded .excluded (.leaf "x" .included .nil)
      (.subtree "b" .excluded .included .nil .nil)⟩, by decide⟩
    let parsed : Mask := ⟨⟨.included, .subtree "a" .included .included (.leaf "x" .included .nil)
      (.leaf "b" .excluded .nil)⟩, by decide⟩
    mask.toDoc.text = "\x7b\"a\":\x7b\"x\":true\x7d,\"b\":false\x7d" ∧
      Mask.ofJson mask.toDoc.text.toUTF8.toList = .ok parsed ∧
      Expression.parse none "-b,a:(x)" = .ok parsed ∧
      Mask.ofJson parsed.toDoc.text.toUTF8.toList = .ok parsed := by
  intro mask parsed
  -- In both masks the only level below the root is the one below `a`.
  have hbelow (holds : Node Level → Level → Prop) (node other : Node Level)
      (hnode : ∀ level, node.subLevel? = some level →
        holds node level ∧ level.fields = .leaf "x" .included .nil)
      (hother : other.subLevel? = none) :
      (Fields.cons "a" node (Fields.cons "b" other .nil)).EachBelow holds := by
    have hx : (Fields.cons "x" ⟨.included, none⟩ .nil).EachBelow holds :=
      (Fields.eachBelow_cons (by simp)).2 ⟨nofun, Fields.eachBelow_nil⟩
    have hb : (Fields.cons "b" other .nil).EachBelow holds := by
      refine (Fields.eachBelow_cons (by simp)).2 ⟨?_, Fields.eachBelow_nil⟩
      intro level hlevel
      rw [hother] at hlevel
      cases hlevel
    refine (Fields.eachBelow_cons (by rw [Fields.names_cons]; decide)).2 ⟨?_, hb⟩
    intro level hlevel
    obtain ⟨hholds, hfields⟩ := hnode level hlevel
    exact ⟨hholds, hfields ▸ hx⟩
  have hheads : mask.fields.EachBelow fun _ level => level.fields.names.head? ≠ some numberKey := by
    refine hbelow _ ⟨.excluded, some ⟨.excluded, .leaf "x" .included .nil⟩⟩
      ⟨.excluded, some ⟨.included, .nil⟩⟩ ?_ rfl
    rintro _ ⟨⟩
    exact ⟨by decide, rfl⟩
  have hincluded : parsed.fields.EachBelow fun node _ => node.polarity = .included := by
    refine hbelow _ ⟨.included, some ⟨.included, .leaf "x" .included .nil⟩⟩
      ⟨.excluded, none⟩ ?_ rfl
    rintro _ ⟨⟩
    exact ⟨rfl, rfl⟩
  have hparse : Expression.parse none "-b,a:(x)" = .ok parsed :=
    Expression.parse_of_runFor 20 rfl rfl
  have hmask : mask.erase = parsed := by decide
  refine ⟨by decide, ?_, hparse, ?_⟩
  · rw [← hmask]
    exact (ofJson_toDoc mask (by decide)).1 hheads
  · exact (ofJson_toDoc parsed (by decide)).2 _ hparse hincluded

end FieldMask
