import FieldMask.Proofs.Json.Grammar
import FieldMask.Proofs.Json.Literal
import FieldMask.Proofs.Json.Numeral
import FieldMask.Proofs.Stream.Delivery

namespace FieldMask

/-!
# What is written for a document

* `JsonWriter.written` — a writer on a device that takes everything.
* `JsonWriter.Ready`, `JsonWriter.separator`, `JsonWriter.behindValue` — whether a value may come
  next, what is written before it and what is then begun.
* `JsonWriter.writeAll_flatten` — a document inside of any containers;
  `JsonWriter.writeAll_document` — a whole one.
* `JsonText.valueText_charsBefore`, `JsonText.denotes_chars` — what is written is a text of the
  grammar and denotes the document.
-/

namespace JsonWriter

/-- A writer that has written some bytes to a device that takes everything.  Every lemma
about what is written is an equation between two such writers. -/
def written (bytes : List UInt8) (begun : List Begun) (complete : Bool) : JsonWriter :=
  ⟨⟨bytes.toArray, .unlimited⟩, begun, complete⟩

section Tokens

variable {bytes : List UInt8} {begun outer : List Begun} {complete fresh : Bool}

/-- Characters are put behind the bytes written before, and a device that takes everything
never fails. -/
theorem put_written (cs : List Char) (wrap : String → StreamError) :
    put cs wrap (written bytes begun complete) =
      (.ok (), written (bytes ++ utf8Bytes cs) begun complete) := by
  rw [put, written, Device.write]
  simp [written, Except.mapError]

/-- Whether a value may come next: outside of all containers if the document is not
complete, in an array always, in an object behind a name. -/
def Ready (complete : Bool) : List Begun → Prop
  | [] => complete = false
  | .array _ :: _ => True
  | .object _ named :: _ => named = true

/-- What stands before a part of a container. -/
def comma (fresh : Bool) : List Char := if fresh then [] else [',']

/-- What is written before a value. -/
def separator : List Begun → List Char
  | .array fresh :: _ => comma fresh
  | _ => []

/-- What is begun when a value has been. -/
def behindValue : List Begun → List Begun
  | [] => []
  | .array _ :: outer => .array false :: outer
  | .object fresh _ :: outer => .object fresh false :: outer

/-- A value opens and closes no containers around it. -/
theorem isEmpty_behindValue (begun : List Begun) :
    (behindValue begun).isEmpty = begun.isEmpty := by
  match begun with
  | [] | .array _ :: _ | .object _ _ :: _ => rfl

/-- Before a value that may come next its comma is written, if there is one, and the
container around it is told. -/
theorem beginValue_written (kind : TokenKind) (h : Ready complete begun) :
    beginValue kind (written bytes begun complete) =
      (.ok (), written (bytes ++ utf8Bytes (separator begun)) (behindValue begun) complete) := by
  match begun, h with
  | [], h =>
    obtain rfl : complete = false := h
    simp [beginValue, written, separator, behindValue]
  | .array true :: outer, _ => simp [beginValue, written, separator, behindValue, comma]
  | .array false :: outer, _ => exact put_written [','] .io
  | .object _ named :: outer, h =>
    obtain rfl : named = true := h
    simp [beginValue, written, separator, behindValue]

/-! ### One token -/

/-- An array begins with its bracket, behind a comma if need be, and nothing is in it
yet. -/
theorem write_beginArray (h : Ready complete begun) :
    write .beginArray (written bytes begun complete) =
      (.ok (), written (bytes ++ utf8Bytes (separator begun ++ ['[']))
        (.array true :: behindValue begun) complete) := by
  simp only [write, beginValue_written .beginArray h, andThen, put_written, utf8Bytes_append,
    List.append_assoc]
  rfl

/-- An object begins with its brace, and no name waits for a value. -/
theorem write_beginObject (h : Ready complete begun) :
    write .beginObject (written bytes begun complete) =
      (.ok (), written (bytes ++ utf8Bytes (separator begun ++ ['{']))
        (.object true false :: behindValue begun) complete) := by
  simp only [write, beginValue_written .beginObject h, andThen, put_written, utf8Bytes_append,
    List.append_assoc]
  rfl

/-- An array ends with its bracket; if nothing is open around it, the document is
complete. -/
theorem write_endArray :
    write .endArray (written bytes (.array fresh :: outer) complete) =
      (.ok (), written (bytes ++ utf8Bytes [']']) outer (complete || outer.isEmpty)) := by
  show andThen (put [']'] .io (written bytes outer complete)) endValue = _
  rw [put_written]
  rfl

/-- So does an object, if no name waits for a value. -/
theorem write_endObject :
    write .endObject (written bytes (.object fresh false :: outer) complete) =
      (.ok (), written (bytes ++ utf8Bytes ['}']) outer (complete || outer.isEmpty)) := by
  show andThen (put ['}'] .io (written bytes outer complete)) endValue = _
  rw [put_written]
  rfl

/-- A scalar is written whole, behind a comma if need be. -/
theorem write_scalar (value : Scalar) (h : Ready complete begun) :
    write (.scalar value) (written bytes begun complete) =
      (.ok (), written (bytes ++ utf8Bytes (separator begun ++ value.chars)) (behindValue begun)
        (complete || begun.isEmpty)) := by
  simp only [write, beginValue_written .scalar h, andThen, put_written, endValue, utf8Bytes_append,
    List.append_assoc]
  rw [← isEmpty_behindValue begun]
  rfl

/-- A name is written with its colon, behind a comma if it is not the first, and then waits
for a value. -/
theorem write_key (name : String) :
    write (.key name) (written bytes (.object fresh false :: outer) complete) =
      (.ok (), written (bytes ++ utf8Bytes (comma fresh ++ (Quoted.encode name ++ [':'])))
        (.object false true :: outer) complete) := by
  -- The name itself is written alike, whether or not a comma stands before it.
  have hname (bytes : List UInt8) :
      putName name (written bytes (.object false true :: outer) complete) =
        (.ok (), written (bytes ++ utf8Bytes (Quoted.encode name ++ [':']))
          (.object false true :: outer) complete) := by
    simp only [putName, put_written, andThen, utf8Bytes_append, List.append_assoc]
  cases fresh with
  | true => exact hname bytes
  | false =>
    -- The object is told of the name before the name is written.
    show andThen (put [','] .io (written bytes (.object false false :: outer) complete))
      (fun writer => putName name { writer with begun := .object false true :: outer }) = _
    rw [put_written]
    refine (hname _).trans ?_
    simp [comma]

/-- The bytes of the device are those that were written. -/
theorem toList_received_written :
    (written bytes begun complete).device.received.toList = bytes := rfl

end Tokens

/-! ### Documents -/

mutual

/-- Where a value may come next a document is taken, and its text is written.  The three
lemmas go along with the three functions that make up `flatten`. -/
theorem writeAll_flatten (doc : Doc) {bytes : List UInt8} {begun : List Begun} {complete : Bool}
    (h : Ready complete begun) :
    writeAll doc.flatten (written bytes begun complete) =
      (.ok (), written (bytes ++ utf8Bytes (separator begun ++ doc.chars)) (behindValue begun)
        (complete || begun.isEmpty)) := by
  cases doc with
  | scalar value => exact writeAll_cons_eq_ok.2 ⟨_, write_scalar value h, rfl⟩
  -- The opening bracket, the items, and the closing bracket.
  | array items =>
    refine writeAll_cons_eq_ok.2 ⟨_, write_beginArray h, writeAll_append_eq_ok.2
      ⟨_, writeAll_flattenItems items, writeAll_cons_eq_ok.2 ⟨_, write_endArray, ?_⟩⟩⟩
    rw [writeAll_nil, isEmpty_behindValue, comma, if_pos rfl, (Doc.itemsBefore_eq items []).2]
    simp [Doc.chars]
  | object members =>
    refine writeAll_cons_eq_ok.2 ⟨_, write_beginObject h, writeAll_append_eq_ok.2
      ⟨_, writeAll_flattenMembers members, writeAll_cons_eq_ok.2 ⟨_, write_endObject, ?_⟩⟩⟩
    rw [writeAll_nil, isEmpty_behindValue, comma, if_pos rfl, (Doc.membersBefore_eq members []).2]
    simp [Doc.chars]

/-- Inside of an array items are taken, and their texts are written with commas between
them. -/
theorem writeAll_flattenItems (items : List Doc) {bytes : List UInt8} {outer : List Begun}
    {complete fresh : Bool} :
    writeAll (Doc.flattenItems items) (written bytes (.array fresh :: outer) complete) =
      (.ok (), written (bytes ++ utf8Bytes (Doc.itemsBefore (comma fresh) items []))
        (.array (fresh && items.isEmpty) :: outer) complete) := by
  cases items with
  | nil => simp [Doc.flattenItems, Doc.itemsBefore]
  | cons item items =>
    refine writeAll_append_eq_ok.2 ⟨_, writeAll_flatten item trivial, ?_⟩
    -- Behind its first item an array is no longer fresh.
    show writeAll _ (written _ (.array false :: outer) (complete || false)) = _
    rw [writeAll_flattenItems items, Doc.itemsBefore, Doc.charsBefore_eq]
    simp [separator, comma]

/-- Inside of an object members are taken, and their texts are written with commas between
them. -/
theorem writeAll_flattenMembers (members : List (String × Doc)) {bytes : List UInt8}
    {outer : List Begun} {complete fresh : Bool} :
    writeAll (Doc.flattenMembers members) (written bytes (.object fresh false :: outer) complete) =
      (.ok (), written (bytes ++ utf8Bytes (Doc.membersBefore (comma fresh) members []))
        (.object (fresh && members.isEmpty) false :: outer) complete) := by
  match members with
  | [] => simp [Doc.flattenMembers, Doc.membersBefore]
  | (name, value) :: members =>
    refine writeAll_cons_eq_ok.2 ⟨_, write_key name, writeAll_append_eq_ok.2
      ⟨_, writeAll_flatten value (show Ready complete (.object false true :: outer) from rfl), ?_⟩⟩
    -- Behind the value no name waits any more, and the object is no longer fresh.
    show writeAll _ (written _ (.object false false :: outer) (complete || false)) = _
    rw [writeAll_flattenMembers members, Doc.membersBefore, Doc.charsBefore_eq]
    simp [separator, comma]

end

/-- **A document is written as its compact text**, and is complete with it.  It goes to a
device that takes everything, so nothing can be refused. -/
theorem writeAll_document (doc : Doc) :
    writeAll doc.flatten (ofDevice (.empty .unlimited)) =
      (.ok (), written (utf8Bytes doc.chars) [] true) :=
  writeAll_flatten doc (show Ready false [] from rfl)

end JsonWriter

/-- The bytes of a document's text are those of its characters. -/
theorem Doc.toList_toUTF8_text (doc : Doc) : doc.text.toUTF8.toList = utf8Bytes doc.chars := by
  rw [toList_toUTF8, text_eq, String.toList_ofList]

namespace JsonText

/-! ### What is written is in the grammar -/

/-- The text of a number is a numeral that stands for it; it is never a bare negative
zero. -/
theorem numberText_text (n : Number) : NumberText n.text.toList n := by
  refine ⟨isNumeral_iff.1 n.isNumeral, ?_⟩
  rw [if_neg]
  intro h
  exact n.ne_negativeZero (String.toList_inj.1 h)

/-- What is written for a scalar is one, in front of anything. -/
theorem scalarText_chars (value : Scalar) (rest : List UInt8) :
    ScalarText (utf8Bytes value.chars ++ rest) value rest := by
  match value with
  | .null => exact .null
  | .bool true => exact .true
  | .bool false => exact .false
  | .number n => exact .number (numberText_text n)
  | .string s => exact .string (literalText_encode s rest)

/-- What is written for a name and a value is a member, if what is written for the value is
one. -/
theorem memberText_encode (name : String) {value : Doc} {cs after : List Char}
    (h : ValueText (utf8Bytes cs) value (utf8Bytes after)) :
    MemberText (utf8Bytes (Quoted.encode name ++ ':' :: cs)) name value (utf8Bytes after) := by
  rw [utf8Bytes_append]
  exact .mk (literalText_encode name _) (.refl _) (.refl _) h

mutual

/-- The text of a document is one of a value that denotes it.  The accumulating form of the
text fits the grammar, in which a rule says what follows it. -/
theorem valueText_charsBefore (doc : Doc) (after : List Char) :
    ValueText (utf8Bytes (doc.charsBefore after)) doc (utf8Bytes after) := by
  cases doc with
  | scalar value =>
    rw [Doc.charsBefore, utf8Bytes_append]
    exact .scalar (scalarText_chars value _)
  | array items => exact .array (itemsText_itemsBefore items after)
  | object members => exact .object (membersText_membersBefore members after)

/-- What is written for some items is the text of them, with the bracket that ends their
array. -/
theorem itemsText_itemsBefore (items : List Doc) (after : List Char) :
    ItemsText (utf8Bytes (Doc.itemsBefore [] items (']' :: after))) items (utf8Bytes after) := by
  cases items with
  | nil => exact .none (.refl _)
  | cons item items =>
    exact .some (.refl _) (valueText_charsBefore item _) (moreItemsText_itemsBefore items after)

/-- So it is behind another item, with a comma before the first. -/
theorem moreItemsText_itemsBefore (items : List Doc) (after : List Char) :
    MoreItemsText (utf8Bytes (Doc.itemsBefore [','] items (']' :: after))) items
      (utf8Bytes after) := by
  cases items with
  | nil => exact .none (.refl _)
  | cons item items =>
    exact .some (.refl _) (.refl _) (valueText_charsBefore item _)
      (moreItemsText_itemsBefore items after)

/-- What is written for some members is the text of them, with the brace that ends their
object. -/
theorem membersText_membersBefore (members : List (String × Doc)) (after : List Char) :
    MembersText (utf8Bytes (Doc.membersBefore [] members ('}' :: after))) members
      (utf8Bytes after) := by
  match members with
  | [] => exact .none (.refl _)
  | (name, value) :: members =>
    exact .some (.refl _) (memberText_encode name (valueText_charsBefore value _))
      (moreMembersText_membersBefore members after)

/-- So it is behind another member, with a comma before the first. -/
theorem moreMembersText_membersBefore (members : List (String × Doc)) (after : List Char) :
    MoreMembersText (utf8Bytes (Doc.membersBefore [','] members ('}' :: after))) members
      (utf8Bytes after) := by
  match members with
  | [] => exact .none (.refl _)
  | (name, value) :: members =>
    exact .some (.refl _) (.refl _) (memberText_encode name (valueText_charsBefore value _))
      (moreMembersText_membersBefore members after)

end

/-- The compact text of a document denotes it. -/
theorem denotes_chars (doc : Doc) : Denotes (utf8Bytes doc.chars) doc := by
  have h := valueText_charsBefore doc []
  rw [Doc.charsBefore_eq, List.append_nil] at h
  exact .mk (.refl _) h (.refl [])

end JsonText

end FieldMask
