import FieldMask.Proofs.Binary64.Numeral
import FieldMask.Proofs.Datum.Denotes
import FieldMask.Proofs.Stream.Projection

namespace FieldMask

/-!
# Data from formats with kinds of their own

A format that gives every value a kind of its own may have values that no document has: bytes, and
floating-point values that are not finite.  They stop a projection, unless the mask skips them.

* `Datum.Plain` — the data that such a format delivers.
* `Datum.reached`, `Datum.Supported` — the values that a projection reaches, and those that have a
  place in a document.
* `Datum.exists_denotes` — where all of them have one, the datum stands for a document.
* `Datum.supported_of_projectBy` — a projection that comes to its end has reached no others.
* `typed_data_projected` — data are projected as the documents that they stand for.
-/

/-! ### What is delivered and what is reached -/

mutual

/-- A datum that is whole, with whole numbers of 64 bits only, and in which no map begins with the
key of a number. -/
def Datum.Plain : Datum → Prop
  | .present value => value.Plain
  | .sequence items => items.Plain
  | .map entries => entries.firstKey? ≠ some numberKey ∧ entries.Plain
  | .wide _ => False
  | .numeral _ => False
  | .tooDeep _ => False
  | .broken _ => False
  | _ => True

/-- Items that are plain, up to their end. -/
def Items.Plain : Items → Prop
  | .done => True
  | .item value rest => value.Plain ∧ rest.Plain
  | .broken _ => False

/-- Entries whose values are plain, up to their end. -/
def Entries.Plain : Entries → Prop
  | .done => True
  | .entry _ value rest => value.Plain ∧ rest.Plain
  | .broken _ _ => False

end

section Reached

variable {ν : Type}

mutual

/-- The values that a projection reaches: a datum itself and all that is inside of it, but for the
members that are skipped. -/
def Datum.reached (decide : ν → String → Action ν) (view : Option ν) : Datum → List Datum
  | .present value => .present value :: Datum.reached decide view value
  | .sequence items => .sequence items :: Items.reached decide view items
  | .map entries => .map entries :: Entries.reached decide view entries
  | x => [x]

/-- The values that are reached in some items. -/
def Items.reached (decide : ν → String → Action ν) (view : Option ν) : Items → List Datum
  | .item value rest => Datum.reached decide view value ++ Items.reached decide view rest
  | _ => []

/-- The values that are reached in some entries.  Below the key of an entry that is kept the
view is that of the member. -/
def Entries.reached (decide : ν → String → Action ν) (view : Option ν) : Entries → List Datum
  | .entry key value rest =>
    (match memberView? decide view key with
    | none => []
    | some inner => Datum.reached decide inner value) ++ Entries.reached decide view rest
  | _ => []

end

end Reached

/-- A value that has a place in a document, if all that is inside of it has: neither bytes nor a
floating-point value that is not finite. -/
def Datum.Supported : Datum → Prop
  | .bytes _ => False
  | .float x => x.isFinite = true
  | _ => True

/-! ### From what is reached to a document -/

mutual

/-- Where every value that is reached has a place in a document, there is one that the datum stands
for. -/
theorem Datum.exists_denotes {ν : Type} {decide : ν → String → Action ν} (x : Datum)
    (view : Option ν) (hplain : x.Plain)
    (hsupported : ∀ value ∈ x.reached decide view, value.Supported) :
    ∃ doc, x.Denotes decide .typed view doc := by
  -- By induction on the datum; what a plain datum cannot be falls away, and bytes are not
  -- supported.
  cases x with
  | null => exact ⟨_, .null⟩
  | absent => exact ⟨_, .absent⟩
  | present value =>
    rw [Datum.reached, List.forall_mem_cons] at hsupported
    obtain ⟨doc, hdoc⟩ := Datum.exists_denotes value view hplain hsupported.2
    exact ⟨doc, .present hdoc⟩
  | bool value => exact ⟨_, .bool value⟩
  | integer value => exact ⟨_, .integer value⟩
  | float x =>
    have hfinite : x.isFinite = true := hsupported _ List.mem_cons_self
    obtain ⟨n, hn, -⟩ := Number.exists_ofBinary64? hfinite
    exact ⟨_, .float hn⟩
  | text value => exact ⟨_, .text value⟩
  | bytes value => exact absurd (hsupported _ List.mem_cons_self) id
  | sequence items =>
    rw [Datum.reached, List.forall_mem_cons] at hsupported
    obtain ⟨docs, hdocs⟩ := Items.exists_denotes items view hplain hsupported.2
    exact ⟨_, .sequence hdocs⟩
  | map entries =>
    rw [Datum.reached, List.forall_mem_cons] at hsupported
    obtain ⟨hkey, hentries⟩ := hplain
    obtain ⟨members, hmembers⟩ := Entries.exists_denotes entries view hentries hsupported.2
    exact ⟨_, .map hkey hmembers⟩
  | wide value => exact absurd hplain id
  | numeral text => exact absurd hplain id
  | tooDeep container => exact absurd hplain id
  | broken fault => exact absurd hplain id

/-- Where every value that is reached in some items has a place in a document, there are
documents that they stand for, one by one. -/
theorem Items.exists_denotes {ν : Type} {decide : ν → String → Action ν} (items : Items)
    (view : Option ν) (hplain : items.Plain)
    (hsupported : ∀ value ∈ items.reached decide view, value.Supported) :
    ∃ docs, items.Denotes decide .typed view docs := by
  cases items with
  | done => exact ⟨[], .done⟩
  | item value rest =>
    rw [Items.reached, List.forall_mem_append] at hsupported
    obtain ⟨hvalue, hrest⟩ := hplain
    obtain ⟨doc, hdoc⟩ := Datum.exists_denotes value view hvalue hsupported.1
    obtain ⟨docs, hdocs⟩ := Items.exists_denotes rest view hrest hsupported.2
    exact ⟨doc :: docs, .item hdoc hdocs⟩
  | broken fault => exact absurd hplain id

/-- Where every value that is reached in some entries has a place in a document, there are
members that they stand for.  An entry that is skipped is reached by nothing and takes any
value. -/
theorem Entries.exists_denotes {ν : Type} {decide : ν → String → Action ν} (entries : Entries)
    (view : Option ν) (hplain : entries.Plain)
    (hsupported : ∀ value ∈ entries.reached decide view, value.Supported) :
    ∃ members, entries.Denotes decide .typed view members := by
  cases entries with
  | done => exact ⟨[], .done⟩
  | entry key value rest =>
    rw [Entries.reached, List.forall_mem_append] at hsupported
    obtain ⟨hvalue, hrest⟩ := hplain
    obtain ⟨members, hmembers⟩ := Entries.exists_denotes rest view hrest hsupported.2
    cases haction : memberView? decide view key with
    | none =>
      -- Nothing is asked of the value, which may stand for any document.
      exact ⟨(key, .scalar .null) :: members, .skipped haction _ hmembers⟩
    | some inner =>
      rw [haction] at hsupported
      obtain ⟨doc, hdoc⟩ := Datum.exists_denotes value inner hvalue hsupported.1
      exact ⟨(key, doc) :: members, .kept haction hdoc hmembers⟩
  | broken fault behindComma => exact absurd hplain id

end

/-! ### From a projection to what it has reached -/

/-- Two parts come to their end together if the first one does and the second one does from
there. -/
theorem followedBy_eq_ok {κ : Type} {done : Except ReadError Unit × κ}
    {more : κ → Except ReadError Unit × κ} {sink' : κ} :
    followedBy done more = (.ok (), sink') ↔
      ∃ between, done = (.ok (), between) ∧ more between = (.ok (), sink') := by
  obtain ⟨result, sink⟩ := done
  cases result with
  | error e => simp [followedBy]
  | ok u => simp [followedBy]

mutual

/-- A projection that comes to its end has reached no value that has no place in a document.
By induction on the datum: each part of the projection came to its end, so each part reached
only what can be written. -/
theorem Datum.supported_of_projectBy {ν κ : Type} [TokenSink κ] {decide : ν → String → Action ν}
    (x : Datum) (view : Option ν) (hplain : x.Plain) {sink sink' : κ}
    (h : x.projectBy decide .typed view sink = (.ok (), sink')) :
    ∀ value ∈ x.reached decide view, value.Supported := by
  cases x with
  | present value =>
    rw [Datum.reached, List.forall_mem_cons]
    rw [Datum.projectBy] at h
    exact ⟨trivial, Datum.supported_of_projectBy value view hplain h⟩
  | float x =>
    show ∀ value ∈ [Datum.float x], value.Supported
    rw [List.forall_mem_singleton]
    cases hnumber : Number.ofBinary64? x with
    | none =>
      -- What is no number is refused before anything is written.
      rw [Datum.projectBy, hnumber] at h
      cases h
    | some n =>
      show x.isFinite = true
      rw [← Bool.not_eq_false, ← Number.ofBinary64?_eq_none_iff, hnumber]
      nofun
  | bytes value =>
    rw [Datum.projectBy] at h
    cases h
  | sequence items =>
    rw [Datum.reached, List.forall_mem_cons]
    rw [Datum.projectBy, followedBy_eq_ok] at h
    obtain ⟨between, -, hitems⟩ := h
    exact ⟨trivial, Items.supported_of_projectBy items view hplain hitems⟩
  | map entries =>
    rw [Datum.reached, List.forall_mem_cons]
    obtain ⟨hkey, hentries⟩ := hplain
    have hbroken : ∀ fault behindComma, entries ≠ .broken fault behindComma := by
      rintro fault behindComma rfl
      exact hentries
    rw [Datum.projectBy_map hkey hbroken, followedBy_eq_ok] at h
    obtain ⟨between, -, hrest⟩ := h
    exact ⟨trivial, Entries.supported_of_projectBy entries view hentries hrest⟩
  | null => simp [Datum.reached, Datum.Supported]
  | absent => simp [Datum.reached, Datum.Supported]
  | bool value => simp [Datum.reached, Datum.Supported]
  | integer value => simp [Datum.reached, Datum.Supported]
  | text value => simp [Datum.reached, Datum.Supported]
  | wide value => exact absurd hplain id
  | numeral text => exact absurd hplain id
  | tooDeep container => exact absurd hplain id
  | broken fault => exact absurd hplain id

/-- A projection of items that comes to its end has reached no value without a place in a
document. -/
theorem Items.supported_of_projectBy {ν κ : Type} [TokenSink κ] {decide : ν → String → Action ν}
    (items : Items) (view : Option ν) (hplain : items.Plain) {sink sink' : κ}
    (h : items.projectBy decide .typed view sink = (.ok (), sink')) :
    ∀ value ∈ items.reached decide view, value.Supported := by
  cases items with
  | done => simp [Items.reached]
  | item value rest =>
    obtain ⟨hvalue, hrest⟩ := hplain
    rw [Items.projectBy, followedBy_eq_ok] at h
    obtain ⟨between, hitem, hitems⟩ := h
    rw [Items.reached, List.forall_mem_append]
    exact ⟨Datum.supported_of_projectBy value view hvalue hitem,
      Items.supported_of_projectBy rest view hrest hitems⟩
  | broken fault => exact absurd hplain id

/-- A projection of entries that comes to its end has reached no such value either, since it
asks nothing of an entry that it skips. -/
theorem Entries.supported_of_projectBy {ν κ : Type} [TokenSink κ]
    {decide : ν → String → Action ν} (entries : Entries) (view : Option ν)
    (hplain : entries.Plain) {sink sink' : κ}
    (h : entries.projectBy decide .typed view sink = (.ok (), sink')) :
    ∀ value ∈ entries.reached decide view, value.Supported := by
  cases entries with
  | done => simp [Entries.reached]
  | entry key value rest =>
    obtain ⟨hvalue, hrest⟩ := hplain
    rw [Entries.projectBy_entry, followedBy_eq_ok] at h
    obtain ⟨between, hmember, hentries⟩ := h
    rw [Entries.reached, List.forall_mem_append]
    refine ⟨?_, Entries.supported_of_projectBy rest view hrest hentries⟩
    cases haction : memberView? decide view key with
    | none => simp
    | some inner =>
      -- The member came to its end behind its name, and with it the projection of its value.
      rw [haction] at hmember
      obtain ⟨named, -, hinner⟩ := followedBy_eq_ok.1 hmember
      exact Datum.supported_of_projectBy value inner hvalue hinner
  | broken fault behindComma => exact absurd hplain id

end

/-! ### Through a mask -/

/-- **Data of any kind are projected as documents are.**  Let a sink take the tokens of every
document.  Then the projection of plain data comes to its end if and only if every value that it
reaches has a place in a document; what is in the members that the mask skips makes no difference.
In that case the data stand for a document, and what reaches the sink is what the projection of this
document writes, whatever stands in it for the members that are skipped. -/
theorem typed_data_projected (mask : Option Mask) {x : Datum} (hplain : x.Plain) {κ : Type}
    [TokenSink κ] (sink : κ)
    (htakes : ∀ doc : Doc, ∃ sink', writeAll doc.flatten sink = (.ok (), sink')) :
    ((∃ sink', x.project .typed mask sink = (.ok (), sink')) ↔
        ∀ value ∈ x.reached View.decide (View.ofMask? mask), value.Supported) ∧
      ((∀ value ∈ x.reached View.decide (View.ofMask? mask), value.Supported) →
        ∃ doc, x.Denotes View.decide .typed (View.ofMask? mask) doc) ∧
      ∀ doc, x.Denotes View.decide .typed (View.ofMask? mask) doc →
        ∃ source' sink', x.project .typed mask sink = (.ok (), sink') ∧
          project mask (Replay.ofTokens doc.flatten) sink = (.ok (), source', sink') := by
  have hdenotes : (∀ value ∈ x.reached View.decide (View.ofMask? mask), value.Supported) →
      ∃ doc, x.Denotes View.decide .typed (View.ofMask? mask) doc :=
    x.exists_denotes (View.ofMask? mask) hplain
  -- Both routes write the projected document, which the sink takes by assumption.
  have hagree : ∀ doc, x.Denotes View.decide .typed (View.ofMask? mask) doc →
      ∃ source' sink', x.project .typed mask sink = (.ok (), sink') ∧
        project mask (Replay.ofTokens doc.flatten) sink = (.ok (), source', sink') := by
    intro doc hdoc
    obtain ⟨sink', hwrite⟩ := htakes (doc.through mask)
    have hpending : Replay.ofTokens doc.flatten = .ofTokens (doc.flatten ++ []) := by
      rw [List.append_nil]
    obtain ⟨source', hproject, -⟩ := project_of_writeAll Replay.faithful mask doc hpending hwrite
    rw [Doc.through_eq_under] at hwrite
    exact ⟨source', sink', x.projectBy_of_denotes hdoc hwrite, hproject⟩
  refine ⟨⟨?_, ?_⟩, hdenotes, hagree⟩
  · rintro ⟨sink', h⟩
    exact x.supported_of_projectBy (View.ofMask? mask) hplain h
  · intro hsupported
    obtain ⟨doc, hdoc⟩ := hdenotes hsupported
    obtain ⟨_, sink', h, -⟩ := hagree doc hdoc
    exact ⟨sink', h⟩

/-- Bytes and a value that is not a number are passed over in a member that is skipped; a sequence
that holds bytes is not projected where it is kept. -/
theorem typed_data_projected_skip :
    let mask : Mask := ⟨⟨.included, .leaf "a" .included .nil⟩, by decide⟩
    let unsupported : Datum := .sequence (.item (.bytes ⟨#[0]⟩) (.item (.float .nan) .done))
    let entries : Entries := .entry "a" (.present (.integer 7)) (.entry "b" unsupported .done)
    (∃ source', (Datum.map entries).project .typed (some mask) Collected.empty =
        (.ok (), ⟨#[.beginObject, .key "a", .scalar (.number (.ofInt 7)), .endObject]⟩) ∧
      project (some mask) (Replay.ofTokens [.beginObject, .key "a",
          .scalar (.number (.ofInt 7)), .key "b", .scalar .null, .endObject]) Collected.empty =
        (.ok (), source',
          ⟨#[.beginObject, .key "a", .scalar (.number (.ofInt 7)), .endObject]⟩)) ∧
      ¬∃ sink', (Datum.map entries).project .typed none Collected.empty = (.ok (), sink') := by
  intro mask unsupported entries
  have hplain : (Datum.map entries).Plain := by
    refine ⟨?_, trivial, ⟨trivial, trivial, trivial⟩, trivial⟩
    show some "a" ≠ some numberKey
    decide
  have htakes : ∀ doc : Doc, ∃ sink', writeAll doc.flatten Collected.empty = (.ok (), sink') :=
    fun doc => ⟨_, writeAll_collected doc.flatten Collected.empty⟩
  constructor
  · obtain ⟨-, -, hagree⟩ := typed_data_projected (some mask) hplain Collected.empty htakes
    let doc : Doc := .object [("a", .scalar (.number (.ofInt 7))), ("b", .scalar .null)]
    have hdoc : (Datum.map entries).Denotes View.decide .typed (View.ofMask? (some mask)) doc := by
      refine .map hplain.1 (.kept rfl (.present (.integer 7)) (.skipped ?_ _ .done))
      rfl
    obtain ⟨source', sink', hproject, htokens⟩ := hagree doc hdoc
    have hsink : (Datum.map entries).project .typed (some mask) Collected.empty =
        (.ok (), ⟨#[.beginObject, .key "a", .scalar (.number (.ofInt 7)), .endObject]⟩) := rfl
    obtain rfl : sink' = _ := congrArg Prod.snd (hproject.symm.trans hsink)
    exact ⟨source', hsink, htokens⟩
  · obtain ⟨hiff, -, -⟩ := typed_data_projected none hplain Collected.empty htakes
    rw [hiff]
    intro hsupported
    refine hsupported (.bytes ⟨#[0]⟩) ?_
    simp [entries, unsupported, Datum.reached, Entries.reached, Items.reached, memberView?,
      View.ofMask?]

end FieldMask
