import FieldMask.Proofs.Datum.Projection
import FieldMask.Proofs.Document.InMemory
import FieldMask.Proofs.Json.RoundTrip

namespace FieldMask

open JsonText JsonWriter

/-!
# Three ways to project a text

A text can be projected token by token, while it is visited, or after a document has been built from
it in memory.  A text that is nested no deeper than a visit goes, and in which no member stands for
a number, comes out the same in all three.

* `JsonText.ofDatum_seen` — the document that is built from what a visit sees.
* `ofJson_of_denotes`, `projectJson_of_denotes` — a text of the grammar built, and visited.
* `drivers_agree` — the three ways agree.
-/

/-! ### Building -/

namespace JsonText

/-- A scalar is built as it is, also where a number is seen by its text.  Either way leads
back to the number itself. -/
theorem ofDatum_seenScalar (value : Scalar) :
    Doc.ofDatum .json (seenScalar value) = .ok (.scalar value) := by
  match value with
  | .null => rfl
  | .bool _ => rfl
  | .string _ => rfl
  | .number n =>
    rw [seenScalar]
    rcases ofNumeral_text n with ⟨value, hseen, hvalue⟩ | hseen
    · rw [hseen, Doc.ofDatum, hvalue]
    · rw [hseen, Doc.ofDatum, readNumeral_text]
      rfl

/-- An object is built from its entries, since no first member stands for a number. -/
theorem ofDatum_map_seenEntries {members : List (String × Doc)}
    (h : Doc.MembersAvoid numberKey members) :
    Doc.ofDatum .json (.map (seenEntries members)) =
      (Doc.ofEntries .json [] (seenEntries members)).map .object := by
  cases members with
  | nil => rfl
  | cons member rest =>
    obtain ⟨name, value⟩ := member
    rw [seenEntries, Doc.ofDatum, if_neg h.1, Doc.ofEntries]
    cases Doc.ofDatum .json (seen value) <;> rfl

mutual

/-- **What has been seen of a document is built** to the canonical document.  By induction
on the document; its members are put in order while they are built. -/
theorem ofDatum_seen (doc : Doc) (havoids : doc.Avoids numberKey) :
    Doc.ofDatum .json (seen doc) = .ok doc.canonical := by
  cases doc with
  | scalar value => exact ofDatum_seenScalar value
  | array items =>
    rw [seen, Doc.ofDatum, ofItems_seenItems items havoids]
    rfl
  | object members =>
    rw [seen, ofDatum_map_seenEntries havoids, ofEntries_seenEntries members havoids]
    rfl

/-- The items of an array are built one by one. -/
theorem ofItems_seenItems (items : List Doc) (havoids : Doc.ItemsAvoid numberKey items) :
    Doc.ofItems .json (seenItems items) = .ok (Doc.canonicalItems items) := by
  cases items with
  | nil => rfl
  | cons item items =>
    rw [seenItems, Doc.ofItems, ofDatum_seen item havoids.1]
    dsimp only
    rw [ofItems_seenItems items havoids.2]
    rfl

/-- The entries of an object are put among those that were built before them, as the
canonical document puts its members. -/
theorem ofEntries_seenEntries (members : List (String × Doc))
    (havoids : Doc.MembersAvoid numberKey members) {sorted : List (String × Doc)} :
    Doc.ofEntries .json sorted (seenEntries members) =
      .ok (Doc.canonicalMembers sorted members) := by
  match members with
  | [] => rfl
  | (name, value) :: rest =>
    obtain ⟨-, hvalue, hrest⟩ := havoids
    rw [seenEntries, Doc.ofEntries, ofDatum_seen value hvalue]
    exact ofEntries_seenEntries rest hrest

end

end JsonText

/-! ### Whole texts -/

section Texts

variable {bytes : List UInt8} {doc : Doc}

/-- The visit of a whole text sees the document that the text denotes. -/
theorem datum_ofJson_of_denotes (h : Denotes bytes doc) (hdepth : doc.depth ≤ maxDepth) :
    Datum.ofJson bytes = seen doc := by
  obtain ⟨hbefore, hvalue, hafter⟩ := h
  exact (visit_valueText doc hdepth hbefore hvalue (hafter.endsNumeral nofun)).1

/-- Behind the value of a whole text there are only blanks, so nothing is left to complain
about. -/
theorem checkRest_of_denotes (h : Denotes bytes doc) : checkRest bytes = .ok () := by
  obtain ⟨hbefore, hvalue, hafter⟩ := h
  rw [checkRest, skip_of_valueText hbefore hvalue (hafter.endsNumeral nofun)]
  have hdrop : dropSpaces _ = [] := hafter.dropWhile_eq
  dsimp only
  rw [hdrop]
  rfl

/-- The document that is built from a text is the canonical one of what the text
denotes.  The depth and the names are what the visit limits and what the building takes
for a number. -/
theorem ofJson_of_denotes (h : Denotes bytes doc) (hdepth : doc.depth ≤ maxDepth)
    (havoids : doc.Avoids numberKey) : Doc.ofJson bytes = .ok doc.canonical := by
  rw [Doc.ofJson, datum_ofJson_of_denotes h hdepth, ofDatum_seen doc havoids]
  dsimp only
  rw [checkRest_of_denotes h]
  rfl

/-- A text that is visited goes through a mask as the document that it denotes. -/
theorem projectJson_of_denotes {κ : Type} [TokenSink κ] (mask : Option Mask)
    (h : Denotes bytes doc) (hdepth : doc.depth ≤ maxDepth) (havoids : doc.Avoids numberKey)
    {sink sink' : κ} (hwrite : writeAll (doc.through mask).flatten sink = (.ok (), sink')) :
    projectJson mask bytes sink = (.ok (), sink') := by
  rw [projectJson, datum_ofJson_of_denotes h hdepth, project_seen mask havoids hwrite]
  exact Prod.ext (checkRest_of_denotes h) rfl

end Texts

/-! ### Agreement -/

/-- **The three ways to project a text agree.**  Let a text be projected token by token, and let the
document that it denotes be nested at most 127 deep and have no member that stands for a number.
Then the text is also projected while it is visited, to the same bytes, repeated names included; and
the document built from what came out is the projection of the document built from the text. -/
theorem drivers_agree (mask : Option Mask) {text out : String} {doc : Doc}
    (hout : projectText mask text = .ok out) (hdoc : Denotes text.toUTF8.toList doc)
    (hdepth : doc.depth ≤ maxDepth) (hnames : doc.Avoids numberKey) :
    (∃ writer, projectJson mask text.toUTF8.toList (ofDevice (.empty .unlimited)) =
        (.ok (), writer) ∧
      writer.finish = .ok () ∧ writer.device.received.toList = out.toUTF8.toList) ∧
    ∃ whole projected, Doc.ofJson text.toUTF8.toList = .ok whole ∧
      projectDoc mask whole = .ok projected ∧ Doc.ofJson out.toUTF8.toList = .ok projected := by
  rw [projectText_of_denotes mask hdoc] at hout
  obtain rfl : (doc.through mask).text = out := Except.ok.inj hout
  constructor
  · refine ⟨_, projectJson_of_denotes mask hdoc hdepth hnames
      (writeAll_document (doc.through mask)), rfl, ?_⟩
    rw [toList_received_written, toList_toUTF8, Doc.text_eq, String.toList_ofList]
  · -- What came out is a text again, nested no deeper and with no other names.
    have hdepth' := Nat.le_trans (Doc.depth_through_le mask doc) hdepth
    refine ⟨doc.canonical, (doc.through mask).canonical, ofJson_of_denotes hdoc hdepth hnames, ?_,
      ofJson_of_denotes (denotes_text _) hdepth' (hnames.through mask)⟩
    rw [projectDoc_eq, Doc.canonical_through]

/-- Of two members of one name both are written, and the last one is built. -/
theorem drivers_agree_repeated :
    (∃ writer, projectJson (some ⟨⟨.included, .leaf "a" .included .nil⟩, by decide⟩)
        "\x7b\"a\":1,\"b\":true,\"a\":null\x7d".toUTF8.toList (ofDevice (.empty .unlimited)) =
          (.ok (), writer) ∧
      writer.device.received.toList = "\x7b\"a\":1,\"a\":null\x7d".toUTF8.toList) ∧
    Doc.ofJson "\x7b\"a\":1,\"b\":true,\"a\":null\x7d".toUTF8.toList =
      .ok (.object [("a", .scalar .null), ("b", .scalar (.bool true))]) ∧
    Doc.ofJson "\x7b\"a\":1,\"a\":null\x7d".toUTF8.toList =
      .ok (.object [("a", .scalar .null)]) := by
  let mask : Option Mask := some ⟨⟨.included, .leaf "a" .included .nil⟩, by decide⟩
  let doc : Doc := .object [("a", .scalar (.number ⟨"1", rfl, by decide⟩)),
    ("b", .scalar (.bool true)), ("a", .scalar .null)]
  have hdoc : Denotes "\x7b\"a\":1,\"b\":true,\"a\":null\x7d".toUTF8.toList doc :=
    denotes_text doc
  -- The one route is known, and the theorem tells the other two.
  have hout : projectText mask "\x7b\"a\":1,\"b\":true,\"a\":null\x7d" =
      .ok "\x7b\"a\":1,\"a\":null\x7d" := projectText_of_denotes mask hdoc
  have hnames : doc.Avoids numberKey :=
    ⟨by decide, trivial, by decide, trivial, by decide, trivial, trivial⟩
  obtain ⟨⟨writer, hproject, -, hwritten⟩, whole, projected, hwhole, hprojected, hbuilt⟩ :=
    drivers_agree mask hout hdoc (by decide) hnames
  have hcanonical := ofJson_of_denotes hdoc (by decide) hnames
  rw [hcanonical] at hwhole
  cases hwhole
  rw [projectDoc_eq] at hprojected
  cases hprojected
  exact ⟨⟨writer, hproject, hwritten⟩, hcanonical, hbuilt⟩

end FieldMask
