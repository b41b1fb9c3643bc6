import FieldMask.Mask.Text
import FieldMask.Proofs.Expression.Completeness
import FieldMask.Proofs.Expression.WellFormed
import Mathlib.Data.Prod.Basic

namespace FieldMask

/-!
# Canonical text is read back

* `Expression.Gathers.of_entries` — a mask is made up of its own entries.
* `Fields.Spelled` — a level whose canonical text is in the language, with its own entries;
  `Fields.spelled_of_wellFormed` — every well-formed level that mentions a name is.
* `Mask.denotes_text` — the canonical text of a well-formed mask denotes it.
* `parse_text_eq_ok_iff` — the masks that are read back are the well-formed ones, and no text is
  read as another.
-/

namespace Expression

/-! ### Derivations of canonical text -/

/-- A mask with a derived mode is made up of the entries of its fields. -/
theorem Gathers.of_entries {entries : List (String × Node Mask)} {mask : Mask}
    (hmode : mask.mode = mask.fields.derivedMode)
    (hentries : entries.map (Prod.map id Node.raw) = mask.fields.entries) :
    Gathers entries mask := by
  refine ⟨?_, ?_, hmode⟩
  · have hnames : entries.map Prod.fst = mask.fields.names := by
      rw [← Fields.map_fst_entries, ← hentries, List.map_map]
      rfl
    rw [hnames]
    exact Fields.nodup_names mask.ordered
  · intro name node
    have hraw : Function.Injective (Prod.map (id : String → String) Node.raw) :=
      Function.injective_id.prodMap Node.raw_injective
    -- From what is found in the mask to what is listed among its entries.
    calc
      mask.find? name = some node
      _ ↔ (mask.find? name).map Node.raw = (some node).map Node.raw :=
        (Option.map_injective Node.raw_injective).eq_iff.symm
      _ ↔ mask.fields.find? name = some node.raw := by rw [Mask.raw_find?, Option.map_some]
      _ ↔ (name, node.raw) ∈ mask.fields.entries := Fields.find?_eq_some_iff mask.ordered
      _ ↔ Prod.map id Node.raw (name, node) ∈ entries.map (Prod.map id Node.raw) := by
        rw [hentries]
        rfl
      _ ↔ (name, node) ∈ entries := List.mem_map_of_injective hraw

/-- An entry may as well be put before the others. -/
theorem EntriesText.cons {cs blanks cs' : List Char} {name : String} {node : Node Mask}
    {entries : List (String × Node Mask)} (hentry : EntryText cs name node)
    (hblanks : Blanks blanks) (hrest : EntriesText cs' entries) :
    EntriesText (cs ++ (blanks ++ ',' :: cs')) ((name, node) :: entries) := by
  induction hrest using EntriesText.snocInduction with
  | one hentry' => exact .more (.one hentry) hblanks hentry'
  | more _ hblanks' hentry' ih =>
    have hmore := EntriesText.more ih hblanks' hentry'
    rw [List.append_assoc, List.append_assoc] at hmore
    exact hmore

end Expression

open Expression

/-- A plain name behind its sign is a signed name. -/
theorem PlainName.signedName {polarity : Polarity} {name : String} (h : PlainName polarity name) :
    SignedName (polarity.sign ++ name.toList) polarity name := by
  cases polarity with
  | included => exact .included h.isName (h.unsigned rfl)
  | excluded => exact .excluded .nil h.isName

/-! ### Levels and masks -/

namespace Fields

/-- Behind the first piece of a level stands a comma, if there are others. -/
theorem chars_of_pieces {fields rest : Fields} {piece : List Char}
    (h : fields.pieces = piece :: rest.pieces) (hne : rest ≠ nil) :
    fields.chars = piece ++ ',' :: rest.chars := by
  obtain ⟨next, others, hrest⟩ : ∃ next others, rest.pieces = next :: others := by
    cases rest with
    | nil => exact absurd rfl hne
    | leaf _ _ _ => exact ⟨_, _, rfl⟩
    | subtree _ _ _ _ _ => exact ⟨_, _, rfl⟩
  rw [chars, chars, h, hrest, commaSeparated_cons, commaSeparated_cons, List.flatMap_cons]
  rfl

/-- The canonical text of a level is in the language, with the level's own entries. -/
def Spelled (fields : Fields) : Prop :=
  ∃ entries, EntriesText fields.chars entries ∧
    entries.map (Prod.map id Node.raw) = fields.entries

/-- A level is in the language if its first piece is an entry and the rest is in the
language. -/
theorem spelled_of_pieces {fields rest : Fields} {piece : List Char} {name : String}
    {node : Node Mask} (hpieces : fields.pieces = piece :: rest.pieces)
    (hentries : fields.entries = (name, node.raw) :: rest.entries)
    (hentry : EntryText piece name node) (hrest : rest ≠ nil → rest.Spelled) :
    fields.Spelled := by
  by_cases hnil : rest = nil
  · subst hnil
    refine ⟨[(name, node)], ?_, hentries.symm⟩
    rw [chars, hpieces, commaSeparated_cons, pieces, List.flatMap_nil, List.append_nil]
    exact .one hentry
  · obtain ⟨entries, htext, hmap⟩ := hrest hnil
    refine ⟨(name, node) :: entries, ?_, ?_⟩
    · rw [chars_of_pieces hpieces hnil]
      exact .cons hentry .nil htext
    · rw [List.map_cons, hmap, hentries]
      rfl

/-- A well-formed level that mentions a name has its canonical text in the language.  The
induction is on the fields, and for a subtree on those below as well. -/
theorem spelled_of_wellFormed {fields : Fields} (hordered : fields.Ordered)
    (h : fields.WellFormed) (hne : fields ≠ nil) : fields.Spelled := by
  induction fields with
  | nil => exact absurd rfl hne
  | leaf name polarity rest ih =>
    obtain ⟨hname, hrest⟩ := h
    have hentry := EntryText.plain .nil hname.signedName
    exact spelled_of_pieces rfl rfl hentry (ih hordered.2 hrest)
  | subtree name polarity mode children rest ihc ihr =>
    obtain ⟨hname, ⟨hbelow, hmode, hchildren⟩, hrest⟩ := h
    obtain ⟨-, hordered', hrest'⟩ := hordered
    obtain ⟨entries, htext, hmap⟩ := ihc hordered' hchildren hbelow
    have hchild : Gathers entries ⟨⟨mode, children⟩, hordered'⟩ := .of_entries hmode hmap
    have hentry := EntryText.nested .nil hname.signedName .nil .nil htext hchild .nil
    refine spelled_of_pieces ?_ rfl hentry (ihr hrest' hrest)
    -- A level that mentions a name is written in parentheses.
    have hopen : ":(".toList = [':', '('] := rfl
    rw [pieces, isEmpty_eq_false hbelow, if_neg Bool.false_ne_true, hopen, chars]
    simp only [List.append_assoc, List.cons_append, List.nil_append]

end Fields

/-- The canonical text of a well-formed mask denotes this mask. -/
theorem Mask.denotes_text {mask : Mask} (h : mask.WellFormed) :
    Denotes mask.text.toList mask := by
  obtain ⟨hmode, hfields⟩ := h
  rw [Mask.text_eq, String.toList_ofList]
  by_cases hnil : mask.fields = .nil
  · -- A mask that mentions nothing is written as nothing, which is a blank text.
    have hempty : mask = .empty := by
      obtain ⟨⟨mode, fields⟩, hordered⟩ := mask
      obtain rfl : fields = .nil := hnil
      obtain rfl : mode = .included := hmode
      rfl
    rw [hempty]
    exact .blank .nil
  · obtain ⟨entries, htext, hmap⟩ := Fields.spelled_of_wellFormed mask.ordered hfields hnil
    have hlevel : LevelText mask.fields.chars mask := ⟨entries, htext, .of_entries hmode hmap⟩
    have hdenotes := Denotes.level hlevel .nil
    rwa [List.append_nil] at hdenotes

/-- **Canonical text is read back on exactly the parser's image.** A mask is what its canonical text
is read as if and only if it is well-formed, and whatever the order, the spacing and the redundancy
of a text, the mask it is read as is well-formed. -/
theorem parse_text_eq_ok_iff (mask : Mask) :
    (parse none mask.text = .ok mask ↔ mask.WellFormed) ∧
      ∀ text, parse none text = .ok mask → mask.WellFormed ∧ parse none mask.text = .ok mask := by
  have himage : ∀ text, parse none text = .ok mask → mask.WellFormed := by
    intro text h
    exact (denotes_of_parse h).wellFormed
  have hback : mask.WellFormed → parse none mask.text = .ok mask := by
    intro h
    exact parse_of_denotes (Mask.denotes_text h)
  refine ⟨⟨himage mask.text, hback⟩, ?_⟩
  intro text h
  exact ⟨himage text h, hback (himage text h)⟩

/-- Out of order and with blanks, a text is still read as what its canonical form is read as. -/
theorem parse_text_reordered : ∃ mask, parse none " b , - a : (c )" = .ok mask ∧
    mask.WellFormed ∧ parse none "-a:(c),b" = .ok mask := by
  let below : Mask := Mask.empty.put "c" ⟨.included, none⟩
  let mask : Mask := (Mask.empty.put "b" ⟨.included, none⟩).put "a" ⟨.excluded, some below⟩
  have hparse : parse none " b , - a : (c )" = .ok mask := parse_of_runFor 20 rfl rfl
  have htext : mask.text = "-a:(c),b" := rfl
  obtain ⟨hwell, hback⟩ := (parse_text_eq_ok_iff mask).2 _ hparse
  rw [htext] at hback
  exact ⟨mask, hparse, hwell, hback⟩

end FieldMask
