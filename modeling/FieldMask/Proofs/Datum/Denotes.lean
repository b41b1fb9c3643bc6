import FieldMask.Datum.Projection
import FieldMask.Proofs.Document.Projection
import FieldMask.Proofs.Stream.Delivery

namespace FieldMask

/-!
# The document that data stand for

A datum is projected as the document that it stands for, as far as the view reaches: nothing is
asked of a member that is skipped.

* `Doc.under` — a document under a view, or whole where there is none.
* `memberView?` — what becomes of a member, with and without a view.
* `Datum.Denotes` — a datum stands for a document, but for the members that are skipped.
* `Datum.projectBy_of_denotes` — a sink that takes the projected document takes it from the datum.
-/

/-! ### With and without a view -/

namespace Doc

variable {ν : Type}

/-- A document under a view, or whole where there is none. -/
def under (decide : ν → String → Action ν) (view : Option ν) (doc : Doc) : Doc :=
  view.elim doc fun view => doc.project decide view

/-- Some items under a view, or whole where there is none. -/
def itemsUnder (decide : ν → String → Action ν) (view : Option ν) (items : List Doc) : List Doc :=
  view.elim items fun view => projectItems decide view items

/-- Some members under a view, or all of them where there is none. -/
def membersUnder (decide : ν → String → Action ν) (view : Option ν)
    (members : List (String × Doc)) : List (String × Doc) :=
  view.elim members fun view => projectMembers decide view members

end Doc

/-- The view of a member's value if the member is kept: none where it is kept whole.
Without a view every member is kept whole, as below a member that is copied. -/
def memberView? {ν : Type} (decide : ν → String → Action ν) (view : Option ν) (name : String) :
    Option (Option ν) :=
  match (view.map (decide · name)).getD .copy with
  | .skip => none
  | .copy => some none
  | .descend inner => some (some inner)

namespace Doc

variable {ν : Type} {decide : ν → String → Action ν} (view : Option ν)

/-- A scalar is the same under every view. -/
theorem under_scalar (value : Scalar) : (scalar value).under decide view = scalar value := by
  cases view <;> rfl

/-- The items of an array are all kept, under the view of the array. -/
theorem under_array (items : List Doc) :
    (array items).under decide view = array (itemsUnder decide view items) := by
  cases view <;> rfl

/-- Of an object the members are kept that the view keeps. -/
theorem under_object (members : List (String × Doc)) :
    (object members).under decide view = object (membersUnder decide view members) := by
  cases view <;> rfl

/-- Of no items none are kept. -/
theorem itemsUnder_nil : itemsUnder decide view [] = [] := by
  cases view <;> rfl

/-- Every item is kept, under the one view. -/
theorem itemsUnder_cons (item : Doc) (items : List Doc) :
    itemsUnder decide view (item :: items) =
      item.under decide view :: itemsUnder decide view items := by
  cases view <;> rfl

/-- Of no members none are kept. -/
theorem membersUnder_nil : membersUnder decide view [] = [] := by
  cases view <;> rfl

/-- A member is left out, or kept with its value under the view that it gets; the members
behind it do not depend on which. -/
theorem membersUnder_cons (name : String) (value : Doc) (members : List (String × Doc)) :
    membersUnder decide view ((name, value) :: members) =
      match memberView? decide view name with
      | none => membersUnder decide view members
      | some inner => (name, value.under decide inner) :: membersUnder decide view members := by
  cases view with
  | none => rfl
  | some view =>
    show projectMembers decide view ((name, value) :: members) = _
    rw [projectMembers, memberView?, Option.map_some, Option.getD_some]
    cases decide view name <;> rfl

/-- A document through a mask is the document under the view of the mask. -/
theorem through_eq_under (mask : Option Mask) (doc : Doc) :
    doc.through mask = doc.under View.decide (View.ofMask? mask) := by
  rw [through]
  cases View.ofMask? mask <;> rfl

end Doc

/-! ### What data stand for -/

/-- The key of the first entry. -/
def Entries.firstKey? : Entries → Option String
  | .entry key _ _ => some key
  | _ => none

section Denotes

variable {ν : Type}

mutual

/-- A datum stands for a document, as far as a view reaches.  Optional values stand for what they
hold, if anything; a map whose first entry makes it a number stands for no document here. -/
inductive Datum.Denotes (decide : ν → String → Action ν) (origin : Origin) :
    Option ν → Datum → Doc → Prop where
  | null {view : Option ν} : Datum.Denotes decide origin view .null (.scalar .null)
  | absent {view : Option ν} : Datum.Denotes decide origin view .absent (.scalar .null)
  | present {view : Option ν} {value : Datum} {doc : Doc}
      (h : Datum.Denotes decide origin view value doc) :
      Datum.Denotes decide origin view (.present value) doc
  | bool {view : Option ν} (value : Bool) :
      Datum.Denotes decide origin view (.bool value) (.scalar (.bool value))
  | integer {view : Option ν} (value : Int) :
      Datum.Denotes decide origin view (.integer value) (.scalar (.number (.ofInt value)))
  | float {view : Option ν} {x : Binary64} {n : Number} (h : Number.ofBinary64? x = some n) :
      Datum.Denotes decide origin view (.float x) (.scalar (.number n))
  | numeral {view : Option ν} {text : String} {n : Number} (h : readNumeral origin text = .ok n) :
      Datum.Denotes decide origin view (.numeral text) (.scalar (.number n))
  | text {view : Option ν} (value : String) :
      Datum.Denotes decide origin view (.text value) (.scalar (.string value))
  | sequence {view : Option ν} {items : Items} {docs : List Doc}
      (h : Items.Denotes decide origin view items docs) :
      Datum.Denotes decide origin view (.sequence items) (.array docs)
  | map {view : Option ν} {entries : Entries} {members : List (String × Doc)}
      (hkey : entries.firstKey? ≠ some numberKey)
      (h : Entries.Denotes decide origin view entries members) :
      Datum.Denotes decide origin view (.map entries) (.object members)

/-- Some items stand for documents, one by one.  They all have the view of the sequence, as
the items of an array have that of the array. -/
inductive Items.Denotes (decide : ν → String → Action ν) (origin : Origin) :
    Option ν → Items → List Doc → Prop where
  | done {view : Option ν} : Items.Denotes decide origin view .done []
  | item {view : Option ν} {value : Datum} {items : Items} {doc : Doc} {docs : List Doc}
      (hvalue : Datum.Denotes decide origin view value doc)
      (hitems : Items.Denotes decide origin view items docs) :
      Items.Denotes decide origin view (.item value items) (doc :: docs)

/-- Some entries stand for members, one by one; one that is skipped stands for any of its name. -/
inductive Entries.Denotes (decide : ν → String → Action ν) (origin : Origin) :
    Option ν → Entries → List (String × Doc) → Prop where
  | done {view : Option ν} : Entries.Denotes decide origin view .done []
  | skipped {view : Option ν} {key : String} {value : Datum} {entries : Entries}
      {members : List (String × Doc)} (hskip : memberView? decide view key = none) (doc : Doc)
      (hentries : Entries.Denotes decide origin view entries members) :
      Entries.Denotes decide origin view (.entry key value entries) ((key, doc) :: members)
  | kept {view inner : Option ν} {key : String} {value : Datum} {entries : Entries} {doc : Doc}
      {members : List (String × Doc)} (hkeep : memberView? decide view key = some inner)
      (hvalue : Datum.Denotes decide origin inner value doc)
      (hentries : Entries.Denotes decide origin view entries members) :
      Entries.Denotes decide origin view (.entry key value entries) ((key, doc) :: members)

end

end Denotes

/-! ### Projecting -/

section Project

variable {ν κ : Type} [TokenSink κ] {decide : ν → String → Action ν} {origin : Origin}
  {view : Option ν} {sink sink' : κ}

/-- A token that the sink takes is emitted. -/
theorem emit_of_write {token : Token} (h : TokenSink.write token sink = (.ok (), sink')) :
    emit token sink = (.ok (), sink') := by
  rw [emit, h]

/-- A map that does not stand for a number goes to the sink as its entries do.  The first
entry is handled by the same rule as those behind it. -/
theorem Datum.projectBy_map {entries : Entries} (hkey : entries.firstKey? ≠ some numberKey)
    (hbroken : ∀ fault behindComma, entries ≠ .broken fault behindComma) :
    Datum.projectBy decide origin view sink (.map entries) =
      followedBy (emit .beginObject sink) fun sink =>
        Entries.projectBy decide origin view sink entries := by
  cases entries with
  | done => rw [Datum.projectBy]; rfl
  | entry key value rest =>
    have hne : key ≠ numberKey := by
      rintro rfl
      exact hkey rfl
    rw [Datum.projectBy, if_neg hne]
    rfl
  | broken fault behindComma => exact absurd rfl (hbroken fault behindComma)

/-- An entry is passed over or goes to the sink with its key, and then those behind it do. -/
theorem Entries.projectBy_entry (key : String) (value : Datum) (rest : Entries) :
    Entries.projectBy decide origin view sink (.entry key value rest) =
      followedBy
        (match memberView? decide view key with
        | none => (.ok (), sink)
        | some inner =>
          followedBy (emit (.key key) sink) fun sink =>
            Datum.projectBy decide origin inner sink value)
        fun sink => Entries.projectBy decide origin view sink rest := by
  rw [Entries.projectBy, memberView?]
  cases (view.map (decide · key)).getD .copy <;> rfl

mutual

/-- **A datum is projected as the document that it stands for**, whatever the sink, as long
as it takes the tokens of the projected document.  The induction is on the datum.  What the
sink takes of a container's tokens is cut into the parts that the entries of the datum
write, one behind the other. -/
theorem Datum.projectBy_of_denotes {ν κ : Type} [TokenSink κ] {decide : ν → String → Action ν}
    {origin : Origin} (x : Datum) {view : Option ν} {doc : Doc} {sink sink' : κ}
    (h : x.Denotes decide origin view doc)
    (hwrite : writeAll (doc.under decide view).flatten sink = (.ok (), sink')) :
    x.projectBy decide origin view sink = (.ok (), sink') := by
  -- A scalar is the same under every view, and one token.
  have hscalar {value : Scalar} (hdoc : doc = .scalar value) :
      emit (.scalar value) sink = (.ok (), sink') := by
    rw [hdoc, Doc.under_scalar] at hwrite
    obtain ⟨_, hwrite, hnil⟩ := writeAll_cons_eq_ok.1 hwrite
    cases hnil
    exact emit_of_write hwrite
  cases x with
  | null =>
    cases h
    exact hscalar rfl
  | absent =>
    cases h
    exact hscalar rfl
  | present value =>
    cases h with
    | present hvalue =>
      rw [Datum.projectBy]
      exact Datum.projectBy_of_denotes value hvalue hwrite
  | bool value =>
    cases h
    exact hscalar rfl
  | integer value =>
    cases h
    exact hscalar rfl
  | float x =>
    cases h with
    | float hnumber =>
      rw [Datum.projectBy, hnumber]
      exact hscalar rfl
  | numeral text =>
    cases h with
    | numeral hnumber =>
      rw [Datum.projectBy, hnumber]
      exact hscalar rfl
  | text value =>
    cases h
    exact hscalar rfl
  | sequence items =>
    cases h with
    | sequence hitems =>
      rw [Doc.under_array] at hwrite
      obtain ⟨inside, hfirst, hrest⟩ := writeAll_cons_eq_ok.1 hwrite
      rw [Datum.projectBy, emit_of_write hfirst]
      exact Items.projectBy_of_denotes items hitems hrest
  | map entries =>
    cases h with
    | map hkey hentries =>
      rw [Doc.under_object] at hwrite
      obtain ⟨inside, hfirst, hrest⟩ := writeAll_cons_eq_ok.1 hwrite
      have hbroken : ∀ fault behindComma, entries ≠ .broken fault behindComma := by
        rintro fault behindComma rfl
        cases hentries
      rw [Datum.projectBy_map hkey hbroken, emit_of_write hfirst]
      exact Entries.projectBy_of_denotes entries hentries hrest
  | wide value => cases h
  | bytes value => cases h
  | tooDeep container => cases h
  | broken fault => cases h

/-- Items are projected as the documents that they stand for, with the end of the array
behind them. -/
theorem Items.projectBy_of_denotes {ν κ : Type} [TokenSink κ] {decide : ν → String → Action ν}
    {origin : Origin} (items : Items) {view : Option ν} {docs : List Doc} {sink sink' : κ}
    (h : items.Denotes decide origin view docs)
    (hwrite : writeAll (Doc.flattenItems (Doc.itemsUnder decide view docs) ++ [.endArray]) sink =
      (.ok (), sink')) :
    Items.projectBy decide origin view sink items = (.ok (), sink') := by
  cases items with
  | done =>
    cases h
    rw [Doc.itemsUnder_nil] at hwrite
    obtain ⟨_, hwrite, hnil⟩ := writeAll_cons_eq_ok.1 hwrite
    cases hnil
    exact emit_of_write hwrite
  | item value rest =>
    cases h with
    | item hvalue hitems =>
      rw [Doc.itemsUnder_cons, Doc.flattenItems, List.append_assoc] at hwrite
      obtain ⟨between, hitem, hrest⟩ := writeAll_append_eq_ok.1 hwrite
      rw [Items.projectBy, Datum.projectBy_of_denotes value hvalue hitem]
      exact Items.projectBy_of_denotes rest hitems hrest
  | broken fault => cases h

/-- Entries are projected as the members that they stand for, with the end of the object
behind them. -/
theorem Entries.projectBy_of_denotes {ν κ : Type} [TokenSink κ] {decide : ν → String → Action ν}
    {origin : Origin} (entries : Entries) {view : Option ν} {members : List (String × Doc)}
    {sink sink' : κ} (h : entries.Denotes decide origin view members)
    (hwrite : writeAll (Doc.flattenMembers (Doc.membersUnder decide view members) ++ [.endObject])
      sink = (.ok (), sink')) :
    Entries.projectBy decide origin view sink entries = (.ok (), sink') := by
  cases entries with
  | done =>
    cases h
    rw [Doc.membersUnder_nil] at hwrite
    obtain ⟨_, hwrite, hnil⟩ := writeAll_cons_eq_ok.1 hwrite
    cases hnil
    exact emit_of_write hwrite
  | entry key value rest =>
    rw [Entries.projectBy_entry]
    cases h with
    | skipped hskip doc hentries =>
      rw [Doc.membersUnder_cons, hskip] at hwrite
      rw [hskip]
      exact Entries.projectBy_of_denotes rest hentries hwrite
    | @kept _ inner _ _ _ _ _ hkeep hvalue hentries =>
      -- A member that stays is its name, its value under some view, and the members behind it.
      rw [Doc.membersUnder_cons, hkeep] at hwrite
      dsimp only at hwrite
      rw [Doc.flattenMembers, List.cons_append, List.append_assoc] at hwrite
      obtain ⟨named, hname, hwrite⟩ := writeAll_cons_eq_ok.1 hwrite
      obtain ⟨between, hinner, hrest⟩ := writeAll_append_eq_ok.1 hwrite
      rw [hkeep, emit_of_write hname]
      show followedBy (Datum.projectBy decide origin inner named value) _ = _
      rw [Datum.projectBy_of_denotes value hvalue hinner]
      exact Entries.projectBy_of_denotes rest hentries hrest
  | broken fault behindComma => cases h

end

end Project

end FieldMask
