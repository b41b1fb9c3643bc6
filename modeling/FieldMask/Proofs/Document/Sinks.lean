import FieldMask.Proofs.Document.Compact
import FieldMask.Proofs.Document.InMemory
import FieldMask.Proofs.Json.Writer

namespace FieldMask

/-!
# Writing a document and building one

The writer of JSON text and the builder of documents know different things of a stream: the writer
when a value begins, the builder when it ends.  Both go along with the same draft, so they take the
same streams, and what they make of one is the same document.

* `Draft.begun`, `Draft.built` — what the writer and the builder know of a draft.
* `JsonWriter.write_of_add?`, `DocBuilder.write_of_add?` — what they make of a token that there is
  room for; `JsonWriter.write_of_add?_eq_none`, `DocBuilder.write_of_add?_eq_none` — and of one that
  there is none for.
* `Draft.lose` — what the builder is left with when it refuses the end of a container.
* `JsonWriter.guides`, `DocBuilder.guides` — both go along with drafts.
* `JsonWriter.exists_writeAll_iff` — what the writer takes; `JsonWriter.exists_doc_of_finish`,
  `DocBuilder.exists_doc_of_finish` — what is finished.
* `sinks_agree` — the streams that both take, those that both finish, and what comes of them.
-/

namespace Draft

/-! ### What the writer knows -/

/-- An open container as the writer knows it while a part of it is being written. -/
def Frame.begun : Frame → Begun
  | .items _ => .array false
  | .member _ _ => .object false false

/-- The containers that the writer has begun.  For each the writer remembers whether it has
a part yet and whether a member's value is due. -/
def begun : Draft → List Begun
  | .value [] => []
  | .value (.items done :: outer) => .array done.isEmpty :: outer.map Frame.begun
  | .value (.member _ _ :: outer) => .object false true :: outer.map Frame.begun
  | .name done frames => .object done.isEmpty false :: frames.map Frame.begun
  | .whole _ => []

/-- Whether the writer has written a whole document. -/
def isWhole : Draft → Bool
  | .whole _ => true
  | _ => false

variable (doc : Doc) (frames : List Frame)

/-- Where a draft has room for a value the writer is ready for one. -/
theorem ready_begun : JsonWriter.Ready false (Draft.value frames).begun := by
  match frames with
  | [] => rfl
  | .items _ :: _ => trivial
  | .member _ _ :: _ => rfl

/-- Behind a value the writer knows of each open container that something is in it. -/
theorem behindValue_begun :
    JsonWriter.behindValue (Draft.value frames).begun = frames.map Frame.begun := by
  match frames with
  | [] | .items _ :: _ | .member _ _ :: _ => rfl

/-- The writer knows of as many containers as are open. -/
theorem isEmpty_begun : (Draft.value frames).begun.isEmpty = frames.isEmpty := by
  match frames with
  | [] | .items _ :: _ | .member _ _ :: _ => rfl

/-- A value that is put in its place is, to the writer, a part that has been written. -/
theorem begun_fill : (fill doc frames).begun = frames.map Frame.begun := by
  match frames with
  | [] => rfl
  | .items done :: outer => simp [fill, begun, Frame.begun]
  | .member done key :: outer => simp [fill, begun, Frame.begun]

/-- It makes the document whole if nothing is open around it. -/
theorem isWhole_fill : (fill doc frames).isWhole = frames.isEmpty := by
  match frames with
  | [] | .items _ :: _ | .member _ _ :: _ => rfl

/-- The writer puts a comma exactly where a value has ended just before. -/
theorem separator_begun :
    JsonWriter.separator (Draft.value frames).begun =
      JsonWriter.comma !(Draft.value frames).behindValue := by
  match frames with
  | [] | .member _ _ :: _ => rfl
  | .items done :: outer => simp [begun, behindValue, JsonWriter.separator]

/-- A part of a container is put behind another one with a comma. -/
theorem mark_tokens {token : Token} (draft : Draft) (h : token.closes = false) :
    token.mark draft.tokens.getLast? = JsonWriter.comma !draft.behindValue := by
  rw [Token.mark, any_endsValue_tokens, h]
  cases draft.behindValue <;> rfl

/-! ### What the builder knows -/

/-- An open container as the builder has it. -/
def Frame.built : Frame → Unfinished
  | .items done => .array (Doc.canonicalItems done).reverse
  | .member done key => .object (Doc.canonicalMembers [] done) (some key)

/-- What the builder has built. -/
def built : Draft → DocBuilder
  | .value frames => ⟨frames.map Frame.built, none⟩
  | .name done frames =>
    ⟨.object (Doc.canonicalMembers [] done) none :: frames.map Frame.built, none⟩
  | .whole doc => ⟨[], some doc.canonical⟩

/-- A value is put in its place by the builder where the draft puts it. -/
theorem placed_built :
    (Draft.value frames).built.placed doc.canonical = (fill doc frames).built := by
  match frames with
  | [] => rfl
  | .items done :: outer =>
    simp [fill, built, Frame.built, DocBuilder.placed, DocBuilder.place, Doc.canonicalItems_concat]
  | .member done key :: outer =>
    simp [fill, built, Frame.built, DocBuilder.placed, DocBuilder.place,
      Doc.canonicalMembers_concat]

/-- Where a draft has room for a value the builder expects one. -/
theorem expectsValue_built : (Draft.value frames).built.expectsValue = true := by
  match frames with
  | [] | .items _ :: _ | .member _ _ :: _ => rfl

end Draft

/-! ### Both go along -/

/-- A writer that has written what leads to a draft. -/
def JsonWriter.Drafted (draft : Draft) (writer : JsonWriter) : Prop :=
  ∃ bytes, writer = written bytes draft.begun draft.isWhole

/-- A builder that has built what a draft has. -/
def DocBuilder.Drafted (draft : Draft) (builder : DocBuilder) : Prop := builder = draft.built

/-- A new writer has written what leads to the empty draft: nothing. -/
theorem JsonWriter.drafted_empty : Drafted .empty (ofDevice (.empty .unlimited)) := ⟨[], rfl⟩

/-- A new builder has built nothing. -/
theorem DocBuilder.drafted_empty : Drafted .empty DocBuilder.empty := rfl

/-- A token that there is room for is written behind what is there. -/
theorem JsonWriter.write_of_add? {draft draft' : Draft} {token : Token} (bytes : List UInt8)
    (h : draft.add? token = some draft') :
    write token (written bytes draft.begun draft.isWhole) =
      (.ok (), written (bytes ++ utf8Bytes (token.mark draft.tokens.getLast? ++ token.chars))
        draft'.begun draft'.isWhole) := by
  -- One case for each rule of addition; the mark is the comma that the writer puts.
  unfold Draft.add? at h
  split at h
  next frames =>
    cases h
    rw [Draft.mark_tokens _ rfl, ← Draft.separator_begun]
    refine (write_beginObject (Draft.ready_begun frames)).trans ?_
    rw [Draft.behindValue_begun]
    rfl
  next frames =>
    cases h
    rw [Draft.mark_tokens _ rfl, ← Draft.separator_begun]
    refine (write_beginArray (Draft.ready_begun frames)).trans ?_
    rw [Draft.behindValue_begun]
    rfl
  next value frames =>
    cases h
    rw [Draft.mark_tokens _ rfl, ← Draft.separator_begun]
    refine (write_scalar value (Draft.ready_begun frames)).trans ?_
    rw [Draft.behindValue_begun, Draft.isEmpty_begun, Draft.begun_fill, Draft.isWhole_fill]
    rfl
  next done outer =>
    cases h
    refine write_endArray.trans ?_
    rw [List.isEmpty_map, Draft.begun_fill, Draft.isWhole_fill, Token.mark_of_closes _ rfl]
    rfl
  next key done frames =>
    cases h
    rw [Draft.mark_tokens _ rfl, Draft.behindValue, Bool.not_not]
    exact write_key key
  next done frames =>
    cases h
    refine write_endObject.trans ?_
    rw [List.isEmpty_map, Draft.begun_fill, Draft.isWhole_fill, Token.mark_of_closes _ rfl]
    rfl
  next => cases h

/-- A token that there is no room for is refused before anything is done.  For each kind of
draft these are the tokens that it has no rule for. -/
theorem JsonWriter.write_of_add?_eq_none {draft : Draft} {token : Token} (bytes : List UInt8)
    (h : draft.add? token = none) :
    ∃ e, write token (written bytes draft.begun draft.isWhole) =
      (.error e, written bytes draft.begun draft.isWhole) := by
  match draft, token with
  | .value [], .key _ | .value [], .endObject | .value [], .endArray
  | .value (.items _ :: _), .key _ | .value (.items _ :: _), .endObject
  | .value (.member _ _ :: _), .key _ | .value (.member _ _ :: _), .endObject
  | .value (.member _ _ :: _), .endArray
  | .name _ _, .beginObject | .name _ _, .beginArray | .name _ _, .scalar _
  | .name _ _, .endArray
  | .whole _, .beginObject | .whole _, .beginArray | .whole _, .scalar _
  | .whole _, .key _ | .whole _, .endObject | .whole _, .endArray => exact ⟨_, rfl⟩

/-- A writer goes along with what it has written. -/
theorem JsonWriter.guides : Draft.Guides JsonWriter.Drafted where
  takes := by
    rintro draft draft' _ token ⟨bytes, rfl⟩ hadd
    exact ⟨_, write_of_add? bytes hadd, _, rfl⟩
  refuses := by
    rintro draft _ token ⟨bytes, rfl⟩ hadd
    obtain ⟨e, hwrite⟩ := write_of_add?_eq_none bytes hadd
    exact ⟨e, _, hwrite⟩

/-- A token that there is room for is built in.  There is one case for each rule of
addition. -/
theorem DocBuilder.write_of_add? {draft draft' : Draft} {token : Token}
    (h : draft.add? token = some draft') : write token draft.built = (.ok (), draft'.built) := by
  unfold Draft.add? at h
  split at h
  next frames =>
    cases h
    exact enter_of_expectsValue (Draft.expectsValue_built frames) _ _
  next frames =>
    cases h
    exact enter_of_expectsValue (Draft.expectsValue_built frames) _ _
  next value frames =>
    cases h
    refine (place_of_expectsValue (Draft.expectsValue_built frames) _ _).trans ?_
    exact congrArg _ (Draft.placed_built (.scalar value) frames)
  next done outer =>
    cases h
    have hplace := place_of_expectsValue (Draft.expectsValue_built outer)
      (Doc.array done).canonical .endArray
    rw [Draft.placed_built] at hplace
    -- An open array holds its items in reverse, which its end undoes.
    rw [← hplace, Doc.canonical, ← List.reverse_reverse (Doc.canonicalItems done)]
    rfl
  next key done frames =>
    cases h
    rfl
  next done frames =>
    cases h
    have hplace := place_of_expectsValue (Draft.expectsValue_built frames)
      (Doc.object done).canonical .endObject
    rwa [Draft.placed_built] at hplace
  next => cases h

/-- A draft without the innermost of its open containers, in whose place a value comes next. -/
def Draft.lose : Draft → Draft
  | .value (_ :: outer) => .value outer
  | .name _ frames => .value frames
  | draft => draft

/-- A token that there is no room for is refused, but a closing one takes the innermost container
with it. -/
theorem DocBuilder.write_of_add?_eq_none {draft : Draft} {token : Token}
    (h : draft.add? token = none) :
    ∃ e, write token draft.built =
      (.error e, if token.closes then draft.lose.built else draft.built) := by
  match draft, token with
  | .value [], .key _ | .value [], .endObject | .value [], .endArray
  | .value (.items _ :: _), .key _ | .value (.items _ :: _), .endObject
  | .value (.member _ _ :: _), .key _ | .value (.member _ _ :: _), .endObject
  | .value (.member _ _ :: _), .endArray
  | .name _ _, .beginObject | .name _ _, .beginArray | .name _ _, .scalar _
  | .name _ _, .endArray
  | .whole _, .beginObject | .whole _, .beginArray | .whole _, .scalar _
  | .whole _, .key _ | .whole _, .endObject | .whole _, .endArray => exact ⟨_, rfl⟩

/-- A builder goes along with what it has built. -/
theorem DocBuilder.guides : Draft.Guides DocBuilder.Drafted where
  takes := by
    rintro draft draft' _ token rfl hadd
    exact ⟨_, write_of_add? hadd, rfl⟩
  refuses := by
    rintro draft _ token rfl hadd
    obtain ⟨e, hwrite⟩ := write_of_add?_eq_none hadd
    exact ⟨e, _, hwrite⟩

/-! ### The same streams, the same document -/

/-- A writer that has taken some tokens and finishes has been given a whole document. -/
theorem JsonWriter.exists_doc_of_finish {tokens : List Token} {writer : JsonWriter}
    (hwrite : writeAll tokens (ofDevice (.empty .unlimited)) = (.ok (), writer))
    (hfinish : writer.finish = .ok ()) : ∃ doc : Doc, tokens = doc.flatten := by
  obtain ⟨draft, ⟨bytes, rfl⟩, htokens⟩ := guides.exists_draft drafted_empty hwrite
  cases draft with
  | whole doc => exact ⟨doc, htokens.symm⟩
  | value frames => cases hfinish
  | name done frames => cases hfinish

/-- So has a builder. -/
theorem DocBuilder.exists_doc_of_finish {tokens : List Token} {builder : DocBuilder} {built : Doc}
    (hwrite : writeAll tokens DocBuilder.empty = (.ok (), builder))
    (hfinish : builder.finish = .ok built) : ∃ doc : Doc, tokens = doc.flatten := by
  obtain ⟨draft, rfl, htokens⟩ := guides.exists_draft drafted_empty hwrite
  cases draft with
  | whole doc => exact ⟨doc, htokens.symm⟩
  | value frames =>
    -- Without a document in its place the builder does not finish, whatever is open.
    cases frames <;> cases hfinish
  | name done frames => cases hfinish

/-- The writer takes the first tokens of documents, and nothing else.  A draft can be made
whole, and of a document that is taken whole each first part is taken. -/
theorem JsonWriter.exists_writeAll_iff (tokens : List Token) :
    (∃ writer, writeAll tokens (ofDevice (.empty .unlimited)) = (.ok (), writer)) ↔
      ∃ doc : Doc, tokens <+: doc.flatten := by
  constructor
  · rintro ⟨writer, hwrite⟩
    obtain ⟨draft, -, htokens⟩ := guides.exists_draft drafted_empty hwrite
    have htokens : draft.tokens = tokens := htokens
    rw [← htokens]
    exact draft.exists_whole
  · rintro ⟨doc, rest, hrest⟩
    have hwrite := writeAll_document doc
    rw [← hrest] at hwrite
    obtain ⟨between, htaken, -⟩ := writeAll_append_eq_ok.1 hwrite
    exact ⟨between, htaken⟩

/-- A whole document is written as its compact text, and built with the last of repeated members. -/
theorem Doc.exists_finished (doc : Doc) : ∃ writer builder,
    writeAll doc.flatten (JsonWriter.ofDevice (.empty .unlimited)) = (.ok (), writer) ∧
      writeAll doc.flatten DocBuilder.empty = (.ok (), builder) ∧
      writer.finish = .ok () ∧ builder.finish = .ok doc.canonical ∧
      writer.device.received.toList = doc.text.toUTF8.toList := by
  have hwrite := JsonWriter.writeAll_document doc
  have hempty : DocBuilder.empty.expectsValue = true := rfl
  have hbuild := DocBuilder.writeAll_flatten doc hempty
  refine ⟨_, _, hwrite, hbuild, rfl, rfl, ?_⟩
  rw [JsonWriter.toList_received_written, Doc.toList_toUTF8_text]

/-- **The writer and the builder take the same streams and make the same document of them.**  Of any
tokens they refuse the same one, if any; they refuse none if and only if the tokens are the first
ones of some document; a stream is taken and finished by the one or by the other if and only if it
is a whole document; and then the writer has written the compact text of this document, and the
builder has built it with the last of repeated members. -/
theorem sinks_agree (tokens : List Token) :
    refusedAt? tokens (JsonWriter.ofDevice (.empty .unlimited)) =
        refusedAt? tokens DocBuilder.empty ∧
      (refusedAt? tokens (JsonWriter.ofDevice (.empty .unlimited)) = none ↔
        ∃ doc : Doc, tokens <+: doc.flatten) ∧
      ((∃ writer, writeAll tokens (JsonWriter.ofDevice (.empty .unlimited)) = (.ok (), writer) ∧
        writer.finish = .ok ()) ↔ ∃ doc : Doc, tokens = doc.flatten) ∧
      ((∃ builder built, writeAll tokens DocBuilder.empty = (.ok (), builder) ∧
        builder.finish = .ok built) ↔ ∃ doc : Doc, tokens = doc.flatten) ∧
      ∀ doc : Doc, ∃ writer builder,
        writeAll doc.flatten (JsonWriter.ofDevice (.empty .unlimited)) = (.ok (), writer) ∧
          writeAll doc.flatten DocBuilder.empty = (.ok (), builder) ∧
          writer.finish = .ok () ∧ builder.finish = .ok doc.canonical ∧
          writer.device.received.toList = doc.text.toUTF8.toList := by
  -- Refusals, what is taken, and what is finished by the writer and by the builder.
  refine ⟨?_, ?_, ?_, ?_, Doc.exists_finished⟩
  · exact JsonWriter.guides.refusedAt?_eq DocBuilder.guides JsonWriter.drafted_empty
      DocBuilder.drafted_empty tokens
  · rw [refusedAt?_eq_none_iff]
    exact JsonWriter.exists_writeAll_iff tokens
  · constructor
    · rintro ⟨writer, hwrite, hfinish⟩
      exact JsonWriter.exists_doc_of_finish hwrite hfinish
    · rintro ⟨doc, rfl⟩
      obtain ⟨writer, -, hwrite, -, hfinish, -⟩ := doc.exists_finished
      exact ⟨writer, hwrite, hfinish⟩
  · constructor
    · rintro ⟨builder, built, hwrite, hfinish⟩
      exact DocBuilder.exists_doc_of_finish hwrite hfinish
    · rintro ⟨doc, rfl⟩
      obtain ⟨-, builder, -, hbuild, -, hfinish, -⟩ := doc.exists_finished
      exact ⟨builder, doc.canonical, hbuild, hfinish⟩

end FieldMask
