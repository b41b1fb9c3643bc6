import FieldMask.Proofs.Mask.Lookup
import FieldMask.Text.Blank
import Mathlib.Data.List.Induction

namespace FieldMask.Expression

/-!
# The language of mask expressions

What a text denotes, said without a parser:

* `SignedName` — a name with the sign in front of it.
* `EntryText`, `EntriesText` — an entry, with the level below it if there is one, and the entries of
  a level.
* `Gathers` — the mask that a level's entries make up.
* `LevelText`, `Denotes` — a level with its mask, and a whole text with its mask.

No rule says that a name goes on as far as it can: what may stand behind a name in these texts is
never a character of a name.
-/

/-! ### Names -/

/-- A run of blanks, which may be empty. -/
def Blanks (cs : List Char) : Prop := ∀ c ∈ cs, isBlank c = true

/-- A name: at least one character, none of them blank or with a meaning of its own. -/
structure IsName (name : String) : Prop where
  ne_nil : name.toList ≠ []
  not_blank : ∀ c ∈ name.toList, isBlank c = false
  not_special : ∀ c ∈ name.toList, c ∉ [':', ',', ')']

/-- A name with its sign.  Without a sign the name must not look as if it had one. -/
inductive SignedName : List Char → Polarity → String → Prop where
  | included {name : String} (hname : IsName name) (hhead : name.toList.head? ≠ some '-') :
      SignedName name.toList .included name
  | excluded {blanks : List Char} {name : String} (hblanks : Blanks blanks) (hname : IsName name) :
      SignedName ('-' :: (blanks ++ name.toList)) .excluded name

/-! ### Levels -/

/-- A mask says what some entries with distinct names say, and its mode is the one they derive. -/
structure Gathers (entries : List (String × Node Mask)) (mask : Mask) : Prop where
  distinct : (entries.map Prod.fst).Nodup
  find?_iff : ∀ name node, mask.find? name = some node ↔ (name, node) ∈ entries
  mode_eq : mask.mode = mask.fields.derivedMode

mutual

/-- The text of an entry: a name with its sign and, for a subtree, the level below it.
Blanks may stand in front of the sign, around the colon, and in front of either
parenthesis. -/
inductive EntryText : List Char → String → Node Mask → Prop where
  | plain {before signed : List Char} {polarity : Polarity} {name : String}
      (hbefore : Blanks before) (hsigned : SignedName signed polarity name) :
      EntryText (before ++ signed) name ⟨polarity, none⟩
  | nested {before signed colon paren inner after : List Char} {polarity : Polarity} {name : String}
      {entries : List (String × Node Mask)} {child : Mask}
      (hbefore : Blanks before) (hsigned : SignedName signed polarity name)
      (hcolon : Blanks colon) (hparen : Blanks paren) (hinner : EntriesText inner entries)
      (hchild : Gathers entries child) (hafter : Blanks after) :
      EntryText
        (before ++ (signed ++ (colon ++ ':' :: (paren ++ '(' :: (inner ++ (after ++ [')']))))))
        name ⟨polarity, some child⟩

/-- The text of the entries of a level: at least one, with commas between them.  Blanks may
stand in front of a comma; those behind it belong to the entry that follows. -/
inductive EntriesText : List Char → List (String × Node Mask) → Prop where
  | one {cs : List Char} {name : String} {node : Node Mask} (hentry : EntryText cs name node) :
      EntriesText cs [(name, node)]
  | more {cs blanks cs' : List Char} {entries : List (String × Node Mask)} {name : String}
      {node : Node Mask} (hentries : EntriesText cs entries) (hblanks : Blanks blanks)
      (hentry : EntryText cs' name node) :
      EntriesText (cs ++ (blanks ++ ',' :: cs')) (entries ++ [(name, node)])

end

/-- The text of a level and the mask its entries make up. -/
def LevelText (cs : List Char) (mask : Mask) : Prop :=
  ∃ entries, EntriesText cs entries ∧ Gathers entries mask

/-- What a whole text denotes: nothing but blanks mentions no name, all else is a level. -/
inductive Denotes : List Char → Mask → Prop where
  | blank {cs : List Char} (hcs : Blanks cs) : Denotes cs .empty
  | level {cs blanks : List Char} {mask : Mask} (hlevel : LevelText cs mask)
      (hblanks : Blanks blanks) : Denotes (cs ++ blanks) mask

/-! ### Laws of the language -/

namespace Blanks

/-- No characters at all are a run of blanks. -/
theorem nil : Blanks [] := by
  intro c hc
  exact absurd hc List.not_mem_nil

/-- Two runs of blanks are one. -/
theorem append {cs cs' : List Char} (h : Blanks cs) (h' : Blanks cs') : Blanks (cs ++ cs') := by
  intro c hc
  rcases List.mem_append.1 hc with hc | hc
  · exact h c hc
  · exact h' c hc

end Blanks

/-- The sign is no part of the name. -/
theorem SignedName.isName {signed : List Char} {polarity : Polarity} {name : String}
    (h : SignedName signed polarity name) : IsName name := by
  cases h with
  | included hname _ => exact hname
  | excluded _ hname => exact hname

/-- A signed name has a character that is not blank: the hyphen, or any of the name. -/
theorem SignedName.exists_not_blank {signed : List Char} {polarity : Polarity} {name : String}
    (h : SignedName signed polarity name) : ∃ c ∈ signed, isBlank c = false := by
  cases h with
  | included hname _ =>
    obtain ⟨c, hc⟩ := List.exists_mem_of_ne_nil _ hname.ne_nil
    exact ⟨c, hc, hname.not_blank c hc⟩
  | excluded _ _ => exact ⟨'-', List.mem_cons_self, rfl⟩

/-- So has an entry, since there is a name in it. -/
theorem EntryText.exists_not_blank {cs : List Char} {name : String} {node : Node Mask}
    (h : EntryText cs name node) : ∃ c ∈ cs, isBlank c = false := by
  cases h with
  | plain _ hsigned =>
    obtain ⟨c, hc, hblank⟩ := hsigned.exists_not_blank
    exact ⟨c, List.mem_append_right _ hc, hblank⟩
  | nested _ hsigned =>
    obtain ⟨c, hc, hblank⟩ := hsigned.exists_not_blank
    exact ⟨c, List.mem_append_right _ (List.mem_append_left _ hc), hblank⟩

/-- What holds of one entry and carries over to one entry more holds of the entries of every
level, whatever is below them.  The induction that comes with the grammar also asks for a
statement about each single entry; here that is left out. -/
@[elab_as_elim]
theorem EntriesText.snocInduction
    {motive : ∀ cs entries, EntriesText cs entries → Prop}
    (one : ∀ {cs : List Char} {name : String} {node : Node Mask} (hentry : EntryText cs name node),
      motive cs [(name, node)] (.one hentry))
    (more : ∀ {cs blanks cs' : List Char} {entries : List (String × Node Mask)} {name : String}
      {node : Node Mask} (hinit : EntriesText cs entries) (hblanks : Blanks blanks)
      (hentry : EntryText cs' name node), motive cs entries hinit →
      motive (cs ++ (blanks ++ ',' :: cs')) (entries ++ [(name, node)])
        (.more hinit hblanks hentry))
    {cs : List Char} {entries : List (String × Node Mask)} (h : EntriesText cs entries) :
    motive cs entries h :=
  @EntriesText.rec (fun _ _ _ _ => True) motive (fun _ _ => trivial)
    (fun _ _ _ _ _ _ _ _ => trivial) (fun hentry _ => one hentry)
    (fun hinit hblanks hentry ih _ => more hinit hblanks hentry ih) cs entries h

/-- And so has a level. -/
theorem EntriesText.exists_not_blank {cs : List Char} {entries : List (String × Node Mask)}
    (h : EntriesText cs entries) : ∃ c ∈ cs, isBlank c = false := by
  cases h with
  | one hentry => exact hentry.exists_not_blank
  | more _ _ _ => exact ⟨',', by simp, rfl⟩

/-- A level has at least one entry. -/
theorem EntriesText.ne_nil {cs : List Char} {entries : List (String × Node Mask)}
    (h : EntriesText cs entries) : entries ≠ [] := by
  cases h with
  | one _ => exact List.cons_ne_nil _ _
  | more _ _ _ => exact List.append_ne_nil_of_right_ne_nil _ (List.cons_ne_nil _ _)

/-- Further blanks may stand before an entry. -/
theorem EntryText.blanks_append {blanks cs : List Char} {name : String} {node : Node Mask}
    (hblanks : Blanks blanks) (h : EntryText cs name node) :
    EntryText (blanks ++ cs) name node := by
  cases h with
  | plain hbefore hsigned =>
    rw [← List.append_assoc]
    exact .plain (hblanks.append hbefore) hsigned
  | nested hbefore hsigned hcolon hparen hinner hchild hafter =>
    rw [← List.append_assoc]
    exact .nested (hblanks.append hbefore) hsigned hcolon hparen hinner hchild hafter

/-- With one more entry the names are distinct if they were before and the name is new.
Entries are added at the end of a level, as they are read. -/
theorem nodup_names_append {entries : List (String × Node Mask)} {name : String}
    {node : Node Mask} : ((entries ++ [(name, node)]).map Prod.fst).Nodup ↔
      (entries.map Prod.fst).Nodup ∧ name ∉ entries.map Prod.fst := by
  rw [List.map_append, List.nodup_append, List.map_singleton]
  constructor
  · rintro ⟨hdistinct, -, hne⟩
    refine ⟨hdistinct, ?_⟩
    intro hmem
    exact hne name hmem name List.mem_cons_self rfl
  · rintro ⟨hdistinct, hname⟩
    refine ⟨hdistinct, List.pairwise_singleton _ _, ?_⟩
    intro n hn n' hn' heq
    rw [List.mem_singleton] at hn'
    rw [heq, hn'] at hn
    exact hname hn

namespace Gathers

/-- The mask that entries make up is the only one.  Fields in order are determined by what
they say, and the mode by the fields. -/
theorem eq {entries : List (String × Node Mask)} {mask other : Mask} (h : Gathers entries mask)
    (hother : Gathers entries other) : mask = other := by
  have hfind : ∀ name, mask.find? name = other.find? name := by
    intro name
    apply Option.ext
    intro node
    rw [h.find?_iff, hother.find?_iff]
  have hfields : mask.fields = other.fields := by
    apply Fields.eq_of_find? mask.ordered other.ordered
    intro name
    rw [← Mask.raw_find?, ← Mask.raw_find?, hfind]
  apply Mask.eq_of_find? _ hfind
  rw [h.mode_eq, hother.mode_eq, hfields]

/-- No entries make up the empty mask. -/
theorem nil : Gathers [] .empty := by
  refine ⟨List.nodup_nil, ?_, rfl⟩
  intro name node
  simp [Mask.find?_empty]

/-- Any entry shows in the mask. -/
theorem fields_ne_nil {entries : List (String × Node Mask)} {mask : Mask}
    (h : Gathers entries mask) (hne : entries ≠ []) : mask.fields ≠ .nil := by
  obtain ⟨⟨name, node⟩, hmem⟩ := List.exists_mem_of_ne_nil _ hne
  intro hnil
  have hfind := mask.raw_find? name
  rw [(h.find?_iff name node).2 hmem, hnil] at hfind
  cases hfind

/-- An entry with a new name goes into the mask. -/
theorem put {entries : List (String × Node Mask)} {mask : Mask} {name : String} {node : Node Mask}
    (h : Gathers entries mask) (hname : mask.find? name = none) :
    Gathers (entries ++ [(name, node)]) (mask.put name node) := by
  -- No entry has the name, under whatever node.
  have hnew : ∀ nd, (name, nd) ∉ entries := by
    intro nd hmem
    rw [← h.find?_iff, hname] at hmem
    cases hmem
  refine ⟨nodup_names_append.2 ⟨h.distinct, ?_⟩, ?_, rfl⟩
  · intro hmem
    obtain ⟨⟨_, nd⟩, hentry, rfl⟩ := List.mem_map.1 hmem
    exact hnew nd hentry
  · -- The new name is found with its node alone, any other where it was.
    intro key nd
    rw [Mask.find?_put, List.mem_append, List.mem_singleton, Prod.mk.injEq]
    by_cases hkey : name = key
    · subst hkey
      rw [if_pos rfl, Option.some.injEq]
      constructor
      · intro hnd
        exact Or.inr ⟨rfl, hnd.symm⟩
      · rintro (hmem | ⟨-, hnd⟩)
        · exact absurd hmem (hnew nd)
        · exact hnd.symm
    · rw [if_neg hkey, h.find?_iff]
      constructor
      · exact Or.inl
      · rintro (hmem | ⟨hk, -⟩)
        · exact hmem
        · exact absurd hk.symm hkey

/-- Nothing is found under a name that no entry has. -/
theorem find?_eq_none {entries : List (String × Node Mask)} {mask : Mask} {name : String}
    (h : Gathers entries mask) (hname : name ∉ entries.map Prod.fst) : mask.find? name = none := by
  rw [Option.eq_none_iff_forall_ne_some]
  intro node hnode
  exact hname (List.mem_map_of_mem ((h.find?_iff name node).1 hnode))

/-- Entries with distinct names make up a mask.  The induction adds one entry at the end, as
reading does. -/
theorem exists_of_nodup {entries : List (String × Node Mask)}
    (h : (entries.map Prod.fst).Nodup) : ∃ mask, Gathers entries mask := by
  induction entries using List.reverseRecOn with
  | nil => exact ⟨.empty, nil⟩
  | append_singleton entries entry ih =>
    obtain ⟨name, node⟩ := entry
    obtain ⟨hdistinct, hname⟩ := nodup_names_append.1 h
    obtain ⟨mask, hmask⟩ := ih hdistinct
    exact ⟨mask.put name node, hmask.put (hmask.find?_eq_none hname)⟩

/-- The last entry is what was put into the mask of the others. -/
theorem exists_of_append {entries : List (String × Node Mask)} {name : String} {node : Node Mask}
    {mask : Mask} (h : Gathers (entries ++ [(name, node)]) mask) :
    ∃ level, Gathers entries level ∧ level.find? name = none ∧ level.put name node = mask := by
  obtain ⟨hdistinct, hname⟩ := nodup_names_append.1 h.distinct
  obtain ⟨level, hlevel⟩ := exists_of_nodup hdistinct
  have hnone := hlevel.find?_eq_none hname
  exact ⟨level, hlevel, hnone, (hlevel.put hnone).eq h⟩

end Gathers

end FieldMask.Expression
