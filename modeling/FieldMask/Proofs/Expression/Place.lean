import FieldMask.Proofs.Expression.Soundness

namespace FieldMask.Expression

/-!
# Where a fault shows

At which places of a text a fault can show, said without a parser: of the text before the place, by
how far the level there has been read and which subtrees are open around it, and of what stands
behind it.

* `BehindName`, `Announced`, `NameDue`, `BehindEntry` — the text up to the end of a name, up to the
  parenthesis that a colon announces, up to a name, and up to the end of an entry.
* `Fault.ShowsAt` — the place of each fault; `ParseError.PointsInto` — the offset of an error counts
  the bytes before the place of its fault.
* `NameDue.of_beforeEntry`, `Announced.of_opened` — these places in a text that is read in part.
-/

/-! ### Places -/

/-- The text up to the end of a name, with the subtrees that are open there. -/
inductive BehindName : List Char → List OpenSubtree → String → Prop where
  | mk {outer headed : List Char} {enclosing : List OpenSubtree} {level : Mask}
      {polarity : Polarity} {name : String} (houter : Opened outer enclosing)
      (hheaded : Headed headed level polarity name) : BehindName (outer ++ headed) enclosing name

/-- The text up to the parenthesis that a colon announces: a name and the colon behind it, each with
blanks behind it. -/
inductive Announced : List Char → List OpenSubtree → String → Prop where
  | mk {named colon paren : List Char} {enclosing : List OpenSubtree} {name : String}
      (hnamed : BehindName named enclosing name) (hcolon : Blanks colon) (hparen : Blanks paren) :
      Announced (named ++ (colon ++ ':' :: paren)) enclosing name

/-- The text up to a name, with the entries that its level has before it.  The sign, if
there is one, is part of that text, so what follows is the name itself. -/
inductive NameDue : List Char → List OpenSubtree → List (String × Node Mask) → Prop where
  | first {outer blanks sign : List Char} {enclosing : List OpenSubtree} {polarity : Polarity}
      (houter : Opened outer enclosing) (hblanks : Blanks blanks) (hsign : Sign sign polarity) :
      NameDue (outer ++ (blanks ++ sign)) enclosing []
  | further {outer cs blanks after sign : List Char} {enclosing : List OpenSubtree}
      {entries : List (String × Node Mask)} {polarity : Polarity} (houter : Opened outer enclosing)
      (hentries : EntriesText cs entries) (hblanks : Blanks blanks) (hafter : Blanks after)
      (hsign : Sign sign polarity) :
      NameDue (outer ++ (cs ++ (blanks ++ ',' :: (after ++ sign)))) enclosing entries

/-- The text up to the end of an entry; then blanks. -/
inductive BehindEntry : List Char → List OpenSubtree → Prop where
  | mk {outer part : List Char} {enclosing : List OpenSubtree} {level : Mask}
      (houter : Opened outer enclosing) (hread : ReadLevel part level) :
      BehindEntry (outer ++ part) enclosing

/-- What stands behind a name: a blank, a character with a meaning of its own, or nothing. -/
def EndsName (after : List Char) : Prop :=
  ∀ c, after.head? = some c → isBlank c = true ∨ c ∈ [':', ',', ')']

/-- The place where a fault shows, by the text before it and the text behind it.  Nothing is
said here about how the place is found: both texts are described by the grammar alone. -/
inductive Fault.ShowsAt (limit : Option Nat) : Fault → List Char → List Char → Prop where
  /-- In the place of a name stands a character with a meaning of its own, or nothing. -/
  | emptyField {before after : List Char} {enclosing : List OpenSubtree}
      {entries : List (String × Node Mask)} (hdue : NameDue before enclosing entries)
      (hafter : ∀ c, after.head? = some c → c ∈ [':', ',', ')']) :
      ShowsAt limit .emptyField before after
  /-- The name of an entry that the level has is read again, from here to its end. -/
  | duplicateField {before after : List Char} {enclosing : List OpenSubtree}
      {entries : List (String × Node Mask)} {name : String}
      (hdue : NameDue before enclosing entries) (hname : name ∈ entries.map Prod.fst)
      (hafter : EndsName after) :
      ShowsAt limit (.duplicateField name) before (name.toList ++ after)
  /-- In the place of the parenthesis stands something else, or nothing. -/
  | expectedOpenParen {before after : List Char} {enclosing : List OpenSubtree} {name : String}
      (hannounced : Announced before enclosing name) (hafter : after.head? ≠ some '(') :
      ShowsAt limit (.expectedOpenParen name) before after
  /-- The parenthesis that has opened the subtree of the name is closed, with blanks between. -/
  | emptySubtree {before blanks after : List Char} {enclosing : List OpenSubtree} {name : String}
      (hannounced : Announced before enclosing name) (hblanks : Blanks blanks) :
      ShowsAt limit (.emptySubtree name) (before ++ '(' :: blanks) (')' :: after)
  /-- The text ends inside of a subtree, where a name is due or behind an entry. -/
  | unclosedSubtree {before : List Char} {subtree : OpenSubtree} {enclosing : List OpenSubtree}
      (hinside : (∃ entries, NameDue before (subtree :: enclosing) entries) ∨
        BehindEntry before (subtree :: enclosing)) :
      ShowsAt limit .unclosedSubtree before []
  /-- Outside of every subtree a parenthesis is closed. -/
  | unmatchedClose {before after : List Char} (hentry : BehindEntry before []) :
      ShowsAt limit .unmatchedClose before (')' :: after)
  /-- Behind a comma there are only blanks. -/
  | trailingSeparator {before blanks : List Char} {enclosing : List OpenSubtree}
      (hentry : BehindEntry before enclosing) (hblanks : Blanks blanks) :
      ShowsAt limit .trailingSeparator before (',' :: blanks)
  /-- Behind a name and at least one blank stands a character that cannot follow. -/
  | unexpectedChar {named blanks after : List Char} {enclosing : List OpenSubtree} {name : String}
      {c : Char} (hnamed : BehindName named enclosing name) (hblanks : Blanks blanks)
      (hne : blanks ≠ []) (hblank : isBlank c = false) (hspecial : c ∉ [':', ',', ')']) :
      ShowsAt limit (.unexpectedChar c name) (named ++ blanks) (c :: after)
  /-- Behind the parenthesis that closes a subtree, and blanks, stands a character that cannot
  follow. -/
  | expectedSeparator {closed blanks after : List Char} {enclosing : List OpenSubtree} {c : Char}
      (hentry : BehindEntry (closed ++ [')']) enclosing) (hblanks : Blanks blanks)
      (hblank : isBlank c = false) (hspecial : c ∉ [',', ')']) :
      ShowsAt limit (.expectedSeparator c) (closed ++ ')' :: blanks) (c :: after)
  /-- A parenthesis opens one more subtree than the limit allows. -/
  | depthExceeded {before after : List Char} {enclosing : List OpenSubtree} {name : String}
      (hlimit : limit = some enclosing.length) (hannounced : Announced before enclosing name) :
      ShowsAt limit (.depthExceeded enclosing.length) before ('(' :: after)

/-- The fault of an error shows at a place of a text, and the offset counts the bytes before it. -/
def ParseError.PointsInto (limit : Option Nat) (cs : List Char) (error : ParseError) : Prop :=
  ∃ before after, cs = before ++ after ∧ error.offset = byteLength before ∧
    error.fault.ShowsAt limit before after

/-! ### Places in a text that is read in part -/

section Partly

variable {outer part : List Char} {enclosing : List OpenSubtree} {level : Mask}

/-- Behind a comma or at the beginning of a level a name is due, with its sign. -/
theorem NameDue.of_beforeEntry {sign : List Char} {polarity : Polarity}
    (houter : Opened outer enclosing) (hbefore : BeforeEntry part level)
    (hsign : Sign sign polarity) :
    ∃ entries, Gathers entries level ∧ NameDue (outer ++ (part ++ sign)) enclosing entries := by
  cases hbefore with
  | first hblanks => exact ⟨[], .nil, .first houter hblanks hsign⟩
  | further hlevel hblanks hafter =>
    obtain ⟨entries, hentries, hgathers⟩ := hlevel
    refine ⟨entries, hgathers, ?_⟩
    rw [List.append_assoc, List.append_assoc, List.cons_append]
    exact .further houter hentries hblanks hafter hsign

/-- The text before an open subtree ends with the parenthesis that opens it. -/
theorem Announced.of_opened {subtree : OpenSubtree} (h : Opened outer (subtree :: enclosing)) :
    ∃ before, outer = before ++ ['('] ∧ Announced before enclosing subtree.name := by
  cases h with
  | subtree houter hheaded hcolon hparen =>
    refine ⟨_, ?_, .mk (.mk houter hheaded) hcolon hparen⟩
    simp only [List.append_assoc, List.cons_append]

/-- Before its first entry a level has only blanks. -/
theorem BeforeEntry.blanks_of_isEmpty (h : BeforeEntry part level) (hempty : level.isEmpty = true) :
    Blanks part := by
  cases h with
  | first hblanks => exact hblanks
  | further hlevel _ _ =>
    obtain ⟨entries, hentries, hgathers⟩ := hlevel
    have hfull : level.isEmpty = false :=
      Fields.isEmpty_eq_false (hgathers.fields_ne_nil hentries.ne_nil)
    rw [hfull] at hempty
    cases hempty

end Partly

/-- A name that a level has is that of one of its entries. -/
theorem Gathers.mem_of_contains {entries : List (String × Node Mask)} {level : Mask} {name : String}
    (h : Gathers entries level) (hcontains : level.contains name = true) :
    name ∈ entries.map Prod.fst := by
  rw [Mask.contains_eq_isSome_find?, Option.isSome_iff_exists] at hcontains
  obtain ⟨node, hnode⟩ := hcontains
  exact List.mem_map_of_mem ((h.find?_iff name node).1 hnode)

/-- No name goes on where one ends. -/
theorem endsName_iff {after : List Char} :
    EndsName after ↔ ∀ c, after.head? = some c → isNameChar c = false := by
  refine forall₂_congr fun c _ => ?_
  rw [← Bool.not_eq_true, isNameChar_iff, not_and, not_not]
  cases isBlank c <;> simp

end FieldMask.Expression
