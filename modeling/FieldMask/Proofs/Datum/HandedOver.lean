import FieldMask.Proofs.Binary64.Numeral
import FieldMask.Proofs.Datum.Document
import FieldMask.Proofs.Datum.Number
import FieldMask.Proofs.Datum.Typed
import FieldMask.Proofs.Document.Numbers

namespace FieldMask

open JsonText JsonWriter

/-!
# Documents in memory, handed over

A document in memory can be projected as a document, or be handed over as a datum and projected
while it is read.  By the second way an integer of more than 64 bits may stop the projection, and a
number may come out in another form.

* `Number.handed` — the number that is read of one in a document.
* `Number.Rewritten` — the numbers for which this is another one; `Number.handed_eq_self_iff`.
* `Number.denotes_ofNumber`, `Doc.denotes_ofDoc` — what is handed over stands for the document with
  the numbers that are read.
* `Doc.narrow_of_projectBy` — a projection that comes to its end has reached no integer that stops
  it.
* `projectTree_of_narrow` — otherwise the document comes out, with the numbers that are read.
* `projectTree_agrees` — both ways agree, up to the two kinds of numbers.
-/

namespace Number

/-! ### Numbers -/

/-- The number that is read of one in a document: that of the value that it is handed over as, if it
is handed over as one. -/
def handed (n : Number) : Number :=
  match Datum.ofNumber n with
  | .float x => (ofBinary64? x).getD n
  | _ => n

/-- A number that is no integer of up to 128 bits and is written like a value without an exponent,
although such a value is written differently. -/
def Rewritten (n : Number) : Prop :=
  (∀ value, n = .ofInt value → ¬IsDoubleWord value) ∧
    ∃ x, Binary64.read n.text = .ok x ∧ x.isFinite = true ∧ x.plainText = n.text ∧
      x.canonicalText ≠ n.text

variable {n : Number}

/-- **A number is read as it is** unless it is written like a value without an exponent.  An
integer of up to 128 bits is never rewritten.  Any other number is handed over as its text
or as a value, and the value comes out in its canonical form, which may differ from the form
in the document. -/
theorem handed_eq_self_iff : n.handed = n ↔ ¬n.Rewritten := by
  rcases Datum.ofNumber_cases n with ⟨value, rfl, hdouble, hdata⟩ | ⟨hinteger, hdata⟩
  · have hhanded : (ofInt value).handed = ofInt value := by
      rw [handed, hdata]
      by_cases hword : IsWord value
      · rw [if_pos hword]
      · rw [if_neg hword]
    exact iff_of_true hhanded fun hrewritten => hrewritten.1 value rfl hdouble
  · rw [handed, hdata]
    rcases Datum.ofFloat_cases n with ⟨hnumeral, hplain⟩ | ⟨x, hvalue, hread, hfinite, htext⟩
    · rw [hnumeral]
      refine iff_of_true rfl ?_
      rintro ⟨-, x, hread, hfinite, htext, -⟩
      exact hplain x hread hfinite htext
    · obtain ⟨m, hm, hcanonical⟩ := exists_ofBinary64? hfinite
      rw [hvalue]
      dsimp only
      rw [hm, Option.getD_some]
      -- The value is written in its canonical form, so the number stays exactly if it has that
      -- form.
      by_cases heq : x.canonicalText = n.text
      · rw [heq, ofText?_text] at hcanonical
        refine iff_of_true (Option.some.inj hcanonical).symm ?_
        rintro ⟨-, y, hread', -, -, hne⟩
        rw [hread] at hread'
        cases hread'
        exact hne heq
      · refine iff_of_false ?_ ?_
        · rintro rfl
          rw [← String.ofList_toList (s := x.canonicalText)] at hcanonical
          have hnumber := ofText?_eq_some_iff.1 hcanonical
          have htext' := hnumber.text_eq
          split at htext'
          · -- Zero is written like a value only where it is no integer.
            exact hinteger 0 (eq_of_toList_text htext') (by decide)
          · exact heq (String.toList_inj.1 htext').symm
        · intro hnot
          exact hnot ⟨hinteger, x, hread, hfinite, htext.resolve_left heq, heq⟩

/-- What is handed over of a number stands for the one that is read.  An integer has to fit
into 64 bits for that, as a wider one stands for no document. -/
theorem denotes_ofNumber {ν : Type} {decide : ν → String → Action ν} {view : Option ν}
    (h : ¬n.Wide) :
    (Datum.ofNumber n).Denotes decide .document view (.scalar (.number n.handed)) := by
  rcases Datum.ofNumber_cases n with ⟨value, rfl, hdouble, hdata⟩ | ⟨-, hdata⟩
  · have hword : IsWord value := by
      by_contra hword
      exact h ⟨value, rfl, hword, hdouble⟩
    rw [if_pos hword] at hdata
    rw [handed, hdata]
    exact .integer value
  · rcases Datum.ofFloat_cases n with ⟨hnumeral, -⟩ | ⟨x, hvalue, -, hfinite, -⟩
    · rw [handed, hdata, hnumeral]
      exact .numeral (readNumeral_text .document n)
    · obtain ⟨m, hm, -⟩ := exists_ofBinary64? hfinite
      rw [handed, hdata, hvalue]
      dsimp only
      rw [hm]
      exact .float hm

/-- An integer of more than 64 bits stops the projection. -/
theorem projectBy_ofNumber_of_wide {ν κ : Type} [TokenSink κ] (h : n.Wide)
    (decide : ν → String → Action ν) (view : Option ν) (sink : κ) :
    ∃ e, (Datum.ofNumber n).projectBy decide .document view sink = (.error e, sink) := by
  obtain ⟨value, rfl, hword, hdouble⟩ := h
  rw [Datum.ofNumber_ofInt, if_neg hword, if_pos hdouble, Datum.projectBy]
  exact ⟨_, rfl⟩

end Number

namespace Doc

/-! ### Documents -/

/-- No first member stands for a number. -/
theorem firstKey?_ofMembers {members : List (String × Doc)} (h : MembersAvoid numberKey members) :
    (Entries.ofMembers members).firstKey? ≠ some numberKey := by
  cases members with
  | nil => exact (Option.some_ne_none numberKey).symm
  | cons member rest =>
    intro hkey
    exact h.1 (Option.some.inj hkey)

mutual

/-- **What is handed over of a document stands for the document with the numbers that are read**, if
no integer of more than 64 bits is reached. -/
theorem denotes_ofDoc {ν : Type} {decide : ν → String → Action ν} (doc : Doc) (view : Option ν)
    (havoids : doc.Avoids numberKey)
    (hnarrow : ∀ n ∈ (doc.under decide view).numbers, ¬n.Wide) :
    (Datum.ofDoc doc).Denotes decide .document view (doc.mapNumbers Number.handed) := by
  match doc with
  | .scalar .null => exact .null
  | .scalar (.bool value) => exact .bool value
  | .scalar (.string value) => exact .text value
  | .scalar (.number n) =>
    rw [under_scalar, numbers, List.forall_mem_singleton] at hnarrow
    exact Number.denotes_ofNumber hnarrow
  | .array items =>
    rw [under_array, numbers] at hnarrow
    exact .sequence (denotes_ofDocs items view havoids hnarrow)
  | .object members =>
    rw [under_object, numbers] at hnarrow
    exact .map (firstKey?_ofMembers havoids) (denotes_ofMembers members view havoids hnarrow)

/-- What is handed over of some items stands for the items with the numbers that are
read. -/
theorem denotes_ofDocs {ν : Type} {decide : ν → String → Action ν} (items : List Doc)
    (view : Option ν) (havoids : ItemsAvoid numberKey items)
    (hnarrow : ∀ n ∈ itemsNumbers (itemsUnder decide view items), ¬n.Wide) :
    (Items.ofDocs items).Denotes decide .document view (mapItemsNumbers Number.handed items) := by
  cases items with
  | nil => exact .done
  | cons item rest =>
    rw [itemsUnder_cons, itemsNumbers, List.forall_mem_append] at hnarrow
    exact .item (denotes_ofDoc item view havoids.1 hnarrow.1)
      (denotes_ofDocs rest view havoids.2 hnarrow.2)

/-- What is handed over of some members stands for the members with the numbers that are
read.  Numbers in members that are skipped are not reached, and may be as large as they
like. -/
theorem denotes_ofMembers {ν : Type} {decide : ν → String → Action ν}
    (members : List (String × Doc)) (view : Option ν) (havoids : MembersAvoid numberKey members)
    (hnarrow : ∀ n ∈ membersNumbers (membersUnder decide view members), ¬n.Wide) :
    (Entries.ofMembers members).Denotes decide .document view
      (mapMembersNumbers Number.handed members) := by
  match members with
  | [] => exact .done
  | (name, value) :: rest =>
    obtain ⟨-, havoid, havoids'⟩ := havoids
    rw [membersUnder_cons] at hnarrow
    -- A skipped member stands for any value of its name, so also for the one with other numbers.
    cases haction : memberView? decide view name with
    | none =>
      rw [haction] at hnarrow
      exact .skipped haction _ (denotes_ofMembers rest view havoids' hnarrow)
    | some inner =>
      rw [haction] at hnarrow
      dsimp only at hnarrow
      rw [membersNumbers, List.forall_mem_append] at hnarrow
      exact .kept haction (denotes_ofDoc value inner havoid hnarrow.1)
        (denotes_ofMembers rest view havoids' hnarrow.2)

end

mutual

/-- **A projection that comes to its end has reached no integer of more than 64 bits.**
Only a number can be such an integer, and there the projection stops at once; the containers
pass the fact on from their parts. -/
theorem narrow_of_projectBy {ν κ : Type} [TokenSink κ] {decide : ν → String → Action ν} (doc : Doc)
    (view : Option ν) (havoids : doc.Avoids numberKey) {sink sink' : κ}
    (h : (Datum.ofDoc doc).projectBy decide .document view sink = (.ok (), sink')) :
    ∀ n ∈ (doc.under decide view).numbers, ¬n.Wide := by
  match doc with
  | .scalar .null | .scalar (.bool _) | .scalar (.string _) =>
    rw [under_scalar]
    exact nofun
  | .scalar (.number n) =>
    rw [under_scalar, numbers, List.forall_mem_singleton]
    intro hwide
    obtain ⟨e, herror⟩ := Number.projectBy_ofNumber_of_wide hwide decide view sink
    rw [Datum.ofDoc, herror] at h
    cases h
  | .array items =>
    rw [Datum.ofDoc, Datum.projectBy, followedBy_eq_ok] at h
    obtain ⟨between, -, hitems⟩ := h
    rw [under_array, numbers]
    exact narrow_of_projectBy_items items view havoids hitems
  | .object members =>
    have hbroken (fault : TextFault) (behindComma : Bool) :
        Entries.ofMembers members ≠ .broken fault behindComma := by
      cases members <;> nofun
    rw [Datum.ofDoc, Datum.projectBy_map (firstKey?_ofMembers havoids) hbroken,
      followedBy_eq_ok] at h
    obtain ⟨between, -, hentries⟩ := h
    rw [under_object, numbers]
    exact narrow_of_projectBy_members members view havoids hentries

/-- A projection of items that comes to its end has reached no integer of more than 64
bits. -/
theorem narrow_of_projectBy_items {ν κ : Type} [TokenSink κ] {decide : ν → String → Action ν}
    (items : List Doc) (view : Option ν) (havoids : ItemsAvoid numberKey items) {sink sink' : κ}
    (h : (Items.ofDocs items).projectBy decide .document view sink = (.ok (), sink')) :
    ∀ n ∈ itemsNumbers (itemsUnder decide view items), ¬n.Wide := by
  cases items with
  | nil =>
    rw [itemsUnder_nil]
    exact nofun
  | cons item rest =>
    rw [Items.ofDocs, Items.projectBy, followedBy_eq_ok] at h
    obtain ⟨between, hitem, hrest⟩ := h
    rw [itemsUnder_cons, itemsNumbers, List.forall_mem_append]
    exact ⟨narrow_of_projectBy item view havoids.1 hitem,
      narrow_of_projectBy_items rest view havoids.2 hrest⟩

/-- A projection of members that comes to its end has reached no integer of more than 64
bits in those that it keeps. -/
theorem narrow_of_projectBy_members {ν κ : Type} [TokenSink κ] {decide : ν → String → Action ν}
    (members : List (String × Doc)) (view : Option ν) (havoids : MembersAvoid numberKey members)
    {sink sink' : κ}
    (h : (Entries.ofMembers members).projectBy decide .document view sink = (.ok (), sink')) :
    ∀ n ∈ membersNumbers (membersUnder decide view members), ¬n.Wide := by
  match members with
  | [] =>
    rw [membersUnder_nil]
    exact nofun
  | (name, value) :: rest =>
    obtain ⟨-, havoid, havoids'⟩ := havoids
    rw [Entries.ofMembers, Entries.projectBy_entry, followedBy_eq_ok] at h
    obtain ⟨between, hmember, hentries⟩ := h
    have hrest := narrow_of_projectBy_members rest view havoids' hentries
    rw [membersUnder_cons]
    cases haction : memberView? decide view name with
    | none => exact hrest
    | some inner =>
      -- The member came to its end behind its name, and with it the projection of its value.
      rw [haction] at hmember
      obtain ⟨named, -, hinner⟩ := followedBy_eq_ok.1 hmember
      dsimp only
      rw [membersNumbers, List.forall_mem_append]
      exact ⟨narrow_of_projectBy value inner havoid hinner, hrest⟩

end

end Doc

/-! ### Through a mask -/

/-- Where no integer of more than 64 bits is kept, the document comes out with the numbers that are
read. -/
theorem projectTree_of_narrow (mask : Option Mask) {doc : Doc} (hnames : doc.Avoids numberKey)
    (hnarrow : ∀ n ∈ (doc.through mask).numbers, ¬n.Wide) :
    ∃ writer, projectTree mask doc (ofDevice (.empty .unlimited)) = (.ok (), writer) ∧
      writer.device.received.toList =
        ((doc.through mask).mapNumbers Number.handed).text.toUTF8.toList := by
  have hwrite := writeAll_document ((doc.through mask).mapNumbers Number.handed)
  rw [Doc.through_eq_under] at hnarrow
  have hdenotes := Doc.denotes_ofDoc doc (View.ofMask? mask) hnames hnarrow
  rw [← Doc.through_mapNumbers, Doc.through_eq_under] at hwrite
  refine ⟨_, Datum.projectBy_of_denotes _ hdenotes hwrite, ?_⟩
  rw [toList_received_written, Doc.toList_toUTF8_text, ← Doc.through_eq_under,
    Doc.through_mapNumbers]

/-- Documents of one text are the same. -/
theorem Doc.eq_of_text {doc doc' : Doc} (h : doc.text.toUTF8.toList = doc'.text.toUTF8.toList) :
    doc = doc' :=
  (denotes_text doc).unique (h ▸ denotes_text doc')

/-- What is projected of a canonical document is built as it is. -/
theorem Doc.Canonical.canonical_through_eq {doc : Doc} (h : doc.Canonical) (mask : Option Mask) :
    (doc.through mask).canonical = doc.through mask := by
  have hdoc := Doc.Canonical.canonical_eq doc h
  rw [Doc.through]
  cases View.ofMask? mask with
  | none => exact hdoc
  | some view =>
    show (doc.project View.decide view).canonical = doc.project View.decide view
    rw [← Doc.canonical_project, hdoc]

/-- **A document in memory is projected alike by both ways**, up to two kinds of numbers.  Let a
document have its members in order and no member that stands for a number.  Projecting it as a
document always gives one.  Projecting it while it is handed over comes to its end if and only if
this one has no integer of more than 64 bits that still has no more than 128; and what is written
then is its text, but for the numbers that are written like a value without an exponent although
such a value is written differently. -/
theorem projectTree_agrees (mask : Option Mask) {doc : Doc} (hcanonical : doc.Canonical)
    (hnames : doc.Avoids numberKey) :
    ∃ kept, projectDoc mask doc = .ok kept ∧
      ((∃ writer, projectTree mask doc (ofDevice (.empty .unlimited)) = (.ok (), writer)) ↔
        ∀ n ∈ kept.numbers, ¬n.Wide) ∧
      ∀ writer, projectTree mask doc (ofDevice (.empty .unlimited)) = (.ok (), writer) →
        writer.device.received.toList = (kept.mapNumbers Number.handed).text.toUTF8.toList ∧
        (writer.device.received.toList = kept.text.toUTF8.toList ↔
          ∀ n ∈ kept.numbers, ¬n.Rewritten) := by
  have hnarrow (writer : JsonWriter)
      (h : projectTree mask doc (ofDevice (.empty .unlimited)) = (.ok (), writer)) :
      ∀ n ∈ (doc.through mask).numbers, ¬n.Wide := by
    rw [Doc.through_eq_under]
    exact Doc.narrow_of_projectBy doc (View.ofMask? mask) hnames h
  refine ⟨doc.through mask, by rw [projectDoc_eq, hcanonical.canonical_through_eq], ⟨?_, ?_⟩, ?_⟩
  · rintro ⟨writer, h⟩
    exact hnarrow writer h
  · intro hnarrow
    obtain ⟨writer, h, -⟩ := projectTree_of_narrow mask hnames hnarrow
    exact ⟨writer, h⟩
  · intro writer h
    obtain ⟨other, hother, hreceived⟩ := projectTree_of_narrow mask hnames (hnarrow writer h)
    rw [h] at hother
    cases hother
    refine ⟨hreceived, ?_⟩
    -- The text is that of the kept document exactly if every number in it is read as it is.
    have hsame : ((doc.through mask).mapNumbers Number.handed).text.toUTF8.toList =
        (doc.through mask).text.toUTF8.toList ↔
          (doc.through mask).mapNumbers Number.handed = doc.through mask :=
      ⟨Doc.eq_of_text, fun heq => by rw [heq]⟩
    rw [hreceived, hsame, Doc.mapNumbers_eq_self_iff]
    simp only [Number.handed_eq_self_iff]

/-- A fraction and an integer are kept; an integer of 65 bits in a member that is skipped stops
nothing. -/
theorem projectTree_agrees_skip :
    let mask : Mask := ⟨⟨.included, .leaf "a" .included .nil⟩, by decide⟩
    let items : Doc := .array [.scalar (.number ⟨"1.5", rfl, by decide⟩),
      .scalar (.number (.ofInt (-1)))]
    let doc : Doc := .object [("a", items),
      ("b", .scalar (.number (.ofInt 18446744073709551616)))]
    projectDoc (some mask) doc = .ok (.object [("a", items)]) ∧
      ∃ writer, projectTree (some mask) doc (ofDevice (.empty .unlimited)) = (.ok (), writer) ∧
        writer.device.received.toList = "\x7b\"a\":[1.5,-1]\x7d".toUTF8.toList := by
  intro mask items doc
  have hcanonical : doc.Canonical :=
    ⟨by decide, ⟨trivial, trivial, trivial⟩, by decide, trivial, trivial⟩
  have hnames : doc.Avoids numberKey :=
    ⟨by decide, ⟨trivial, trivial, trivial⟩, by decide, trivial, trivial⟩
  obtain ⟨kept, hkept, hends, hwritten⟩ := projectTree_agrees (some mask) hcanonical hnames
  have hproject : projectDoc (some mask) doc = .ok (.object [("a", items)]) := by
    rw [projectDoc_eq]
    rfl
  obtain rfl : Doc.object [("a", items)] = kept := Except.ok.inj (hproject.symm.trans hkept)
  have hnumbers (holds : Number → Prop) (hfraction : holds ⟨"1.5", rfl, by decide⟩)
      (hinteger : holds (.ofInt (-1))) : ∀ n ∈ Doc.numbers (.object [("a", items)]), holds n :=
    List.forall_mem_cons.2 ⟨hfraction, List.forall_mem_singleton.2 hinteger⟩
  have hinteger : ¬(Number.ofInt (-1)).Wide := by
    rw [Number.wide_ofInt]
    decide
  obtain ⟨writer, hwriter⟩ := hends.2
    (hnumbers (fun n => ¬n.Wide) (Number.not_wide_of_none rfl) hinteger)
  have hsame := (hwritten writer hwriter).2.2 (hnumbers (fun n => ¬n.Rewritten)
    (Number.handed_eq_self_iff.1 (by decide +kernel))
    (Number.handed_eq_self_iff.1 (by decide +kernel)))
  exact ⟨hproject, writer, hwriter, hsame⟩

/-- By the second way an integer of 65 bits stops the projection, and a small number comes out with
an exponent. -/
theorem projectTree_agrees_not :
    let wide : Doc := .scalar (.number (.ofInt 18446744073709551616))
    let small : Doc := .scalar (.number ⟨"0.000001", rfl, by decide⟩)
    projectDoc none wide = .ok wide ∧
      projectTree none wide (ofDevice (.empty .unlimited)) =
        (.error (.invalidType (.wide 18446744073709551616) .document),
          ofDevice (.empty .unlimited)) ∧
      projectDoc none small = .ok small ∧
      ∃ writer, projectTree none small (ofDevice (.empty .unlimited)) = (.ok (), writer) ∧
        writer.device.received.toList = "1e-6".toUTF8.toList := by
  intro wide small
  have hhanded : Number.handed ⟨"0.000001", rfl, by decide⟩ = ⟨"1e-6", rfl, by decide⟩ := by
    decide +kernel
  have hnames : small.Avoids numberKey := trivial
  obtain ⟨writer, hwriter, hreceived⟩ := projectTree_of_narrow none hnames
    (List.forall_mem_singleton.2 (Number.not_wide_of_none rfl))
  refine ⟨by rw [projectDoc_eq]; rfl, rfl, by rw [projectDoc_eq]; rfl, writer, hwriter, ?_⟩
  rw [hreceived]
  show (Doc.scalar (.number (Number.handed ⟨"0.000001", rfl, by decide⟩))).text.toUTF8.toList = _
  rw [hhanded]
  rfl

end FieldMask
