import FieldMask.Proofs.Document.Sinks
import FieldMask.Proofs.Stream.Completion

namespace FieldMask

/-!
# The writer writes no invalid text

The writer looks whether a token fits before it does anything for it.  So whatever it is offered,
what it has written is the compact text of the tokens that it has taken, and these are the first
ones of a document.  A projection that succeeds has handed it the last one, too.

* `JsonWriter.Wrote` — a writer that has written the text of a draft, and nothing else;
  `JsonWriter.guides_wrote` — it goes along with the draft.
* `JsonWriter.prefix_text_of_prefix` — this text is the first part of that of any document that
  begins with the draft.
* `writer_refusals` — what a writer has written and whether it finishes, whatever it was offered.
* `project_writes_document` — what a projection that succeeds has written, whatever its source had.
-/

namespace JsonWriter

/-- A writer that has written nothing, to a device that takes everything. -/
def fresh : JsonWriter := ofDevice (.empty .unlimited)

/-- A writer that has written the compact text of the tokens of a draft. -/
def Wrote (draft : Draft) (writer : JsonWriter) : Prop :=
  writer = written (utf8Bytes (compactChars draft.tokens)) draft.begun draft.isWhole

/-- A writer that has written nothing has written the empty draft. -/
theorem wrote_fresh : Wrote .empty fresh := rfl

/-- The writer goes along with the draft: it takes what the draft takes, and refuses what
the draft refuses. -/
theorem guides_wrote : Draft.Guides Wrote where
  takes := by
    rintro draft draft' _ token rfl hadd
    refine ⟨_, write_of_add? _ hadd, ?_⟩
    rw [Wrote, Draft.tokens_of_add? hadd, compactChars_concat]
    simp only [utf8Bytes_append]
  refuses := by
    rintro draft _ token rfl hadd
    obtain ⟨e, hwrite⟩ := write_of_add?_eq_none _ hadd
    exact ⟨e, _, hwrite⟩

namespace Wrote

variable {draft : Draft} {writer : JsonWriter}

/-- A refusal leaves the writer as it is. -/
theorem eq_of_write_eq_error (h : Wrote draft writer) {token : Token} {e : StreamError}
    {writer' : JsonWriter} (hwrite : TokenSink.write token writer = (.error e, writer')) :
    writer' = writer := by
  -- The draft decides: a token that it takes is not refused.
  cases hadd : draft.add? token with
  | none =>
    obtain rfl := h
    obtain ⟨e', hrefused⟩ := write_of_add?_eq_none _ hadd
    exact congrArg Prod.snd (hwrite.symm.trans hrefused)
  | some draft' =>
    obtain ⟨taken, htaken, -⟩ := guides_wrote.takes h hadd
    rw [hwrite] at htaken
    cases htaken

/-- The bytes of the device are the compact text of the draft. -/
theorem toList_received (h : Wrote draft writer) :
    writer.device.received.toList = utf8Bytes (compactChars draft.tokens) := by
  rw [h, toList_received_written]

end Wrote

/-- The compact text of the tokens of a document is the text of the document: the writer
writes the one, and is known to have written the other. -/
theorem utf8Bytes_compactChars_flatten (doc : Doc) :
    utf8Bytes (compactChars doc.flatten) = utf8Bytes doc.chars := by
  obtain ⟨draft, hwrote, htokens⟩ := guides_wrote.exists_draft wrote_fresh (writeAll_document doc)
  have htokens : draft.tokens = doc.flatten := htokens
  rw [← htokens, ← hwrote.toList_received, toList_received_written]

/-- The text of the first tokens of a document is the first part of its text.  So what has
been written can still become the text of any document that begins with them. -/
theorem prefix_text_of_prefix {tokens : List Token} {doc : Doc} (h : tokens <+: doc.flatten) :
    utf8Bytes (compactChars tokens) <+: utf8Bytes doc.chars := by
  obtain ⟨more, hmore⟩ := h
  rw [← utf8Bytes_compactChars_flatten, ← hmore, compactChars_append, utf8Bytes_append]
  exact List.prefix_append _ _

/-! ### Whatever is offered -/

/-- Whatever a writer has been offered, it has written some draft. -/
theorem exists_wrote (tokens : List Token) : ∃ draft, Wrote draft (offered tokens fresh) := by
  refine guides_wrote.exists_offered wrote_fresh ?_ tokens
  intro draft writer writer' token e hwrote hwrite
  rw [hwrote.eq_of_write_eq_error hwrite]
  exact ⟨draft, hwrote⟩

/-- No refusal on the way has moved the writer. -/
theorem unmoved (tokens : List Token) : Unmoved tokens fresh := by
  intro before token after e writer _ hwrite
  obtain ⟨draft, hwrote⟩ := exists_wrote before
  exact hwrote.eq_of_write_eq_error hwrite

/-- A writer that has taken some tokens finishes if and only if they are a whole document. -/
theorem finish_eq_ok_iff {tokens : List Token} {writer : JsonWriter}
    (hwrite : writeAll tokens fresh = (.ok (), writer)) :
    writer.finish = .ok () ↔ ∃ doc : Doc, tokens = doc.flatten := by
  constructor
  · exact exists_doc_of_finish hwrite
  · rintro ⟨doc, rfl⟩
    have hsame := hwrite.symm.trans (writeAll_document doc)
    cases hsame
    rfl

end JsonWriter

/-- **Whatever a writer is offered, it writes no invalid text.**  A refusal leaves it as it is.  The
tokens that it has taken are the first ones of some document, and the bytes are the compact text of
these tokens; more bytes make of them a text of every document that begins so.  The writer finishes
if and only if it has taken a whole document, and then the bytes are its text. -/
theorem writer_refusals (tokens : List Token) :
    (∀ (token : Token) (e : StreamError) (writer : JsonWriter),
      TokenSink.write token (offered tokens JsonWriter.fresh) = (.error e, writer) →
        writer = offered tokens JsonWriter.fresh) ∧
      (∃ doc : Doc, accepted tokens JsonWriter.fresh <+: doc.flatten) ∧
      (offered tokens JsonWriter.fresh).device.received.toList =
        utf8Bytes (compactChars (accepted tokens JsonWriter.fresh)) ∧
      (∀ doc : Doc, accepted tokens JsonWriter.fresh <+: doc.flatten →
        ∃ more, JsonText.Denotes
          ((offered tokens JsonWriter.fresh).device.received.toList ++ more) doc) ∧
      ((offered tokens JsonWriter.fresh).finish = .ok () ↔
        ∃ doc : Doc, accepted tokens JsonWriter.fresh = doc.flatten) ∧
      ∀ doc : Doc, accepted tokens JsonWriter.fresh = doc.flatten →
        (offered tokens JsonWriter.fresh).device.received.toList = doc.text.toUTF8.toList ∧
          JsonText.Denotes (offered tokens JsonWriter.fresh).device.received.toList doc := by
  -- The accepted tokens could have been handed over by themselves, and then every one of them was
  -- taken.
  have htaken := writeAll_accepted (JsonWriter.unmoved tokens)
  obtain ⟨draft, hwrote, htokens⟩ :=
    JsonWriter.guides_wrote.exists_draft JsonWriter.wrote_fresh htaken
  have htokens : draft.tokens = accepted tokens JsonWriter.fresh := htokens
  have hbytes := hwrote.toList_received
  rw [htokens] at hbytes
  refine ⟨?_, ?_, hbytes, ?_, JsonWriter.finish_eq_ok_iff htaken, ?_⟩
  · intro token e writer hwrite
    exact hwrote.eq_of_write_eq_error hwrite
  · rw [← htokens]
    exact draft.exists_whole
  · -- What the document has more than the accepted tokens is what the bytes still lack.
    intro doc hprefix
    obtain ⟨more, hmore⟩ := JsonWriter.prefix_text_of_prefix hprefix
    rw [hbytes]
    exact ⟨more, hmore ▸ JsonText.denotes_chars doc⟩
  · intro doc hdoc
    rw [hbytes, hdoc, JsonWriter.utf8Bytes_compactChars_flatten]
    exact ⟨doc.toList_toUTF8_text.symm, JsonText.denotes_chars doc⟩

/-- In an array a name is refused, and the text of the empty array is written as if without
it.  The refused name has left nothing behind in either. -/
theorem writer_refusals_key :
    (TokenSink.write (.key "k") (offered [.beginArray] JsonWriter.fresh)).2 =
        offered [.beginArray] JsonWriter.fresh ∧
      (offered [.beginArray, .key "k", .endArray] JsonWriter.fresh).finish = .ok () ∧
      (offered [.beginArray, .key "k", .endArray] JsonWriter.fresh).device.received.toList =
        (Doc.array []).text.toUTF8.toList := by
  have htaken : accepted [.beginArray, .key "k", .endArray] JsonWriter.fresh =
      (Doc.array []).flatten := rfl
  obtain ⟨hrefused, -⟩ := writer_refusals [.beginArray]
  obtain ⟨-, -, -, -, hfinish, htext⟩ := writer_refusals [.beginArray, .key "k", .endArray]
  exact ⟨hrefused (.key "k") (.unexpectedToken .value .key) _ rfl, hfinish.2 ⟨_, htaken⟩,
    (htext _ htaken).1⟩

/-! ### Whatever is projected -/

/-- **A projection that succeeds has written a whole document**, whatever tokens the source
delivered: the writer finishes, and the bytes are the compact text of some document, which they
denote. -/
theorem project_writes_document {σ : Type} [TokenSource σ] {pending : σ → List Token → Prop}
    {fault : StreamError} (hbreaking : Breaking pending fault) (mask : Option Mask)
    {tokens : List Token} {source source' : σ} {writer : JsonWriter} (h : pending source tokens)
    (hproject : project mask source JsonWriter.fresh = (.ok (), source', writer)) :
    writer.finish = .ok () ∧
      ∃ doc : Doc, writer.device.received.toList = doc.text.toUTF8.toList ∧
        JsonText.Denotes writer.device.received.toList doc := by
  obtain ⟨doc, hwrote⟩ := exists_whole_of_project JsonWriter.guides_wrote hbreaking h
    JsonWriter.wrote_fresh hproject
  have hbytes : writer.device.received.toList = utf8Bytes doc.chars := by
    rw [hwrote.toList_received]
    exact JsonWriter.utf8Bytes_compactChars_flatten doc
  have hfinish : writer.finish = .ok () := by
    rw [hwrote]
    rfl
  rw [hbytes]
  exact ⟨hfinish, doc, doc.toList_toUTF8_text.symm, JsonText.denotes_chars doc⟩

/-- An array with a name in it, which an object's bracket ends, is passed over with its
member.  The source is no document, and yet what is written is one. -/
theorem project_writes_document_skip :
    let mask : Mask := ⟨⟨.included, .leaf "a" .excluded .nil⟩, by decide⟩
    let source := Replay.ofTokens [.beginObject, .key "a", .beginArray, .key "x", .endObject,
      .key "b", .scalar .null, .endObject]
    ∃ source' writer, project (some mask) source JsonWriter.fresh = (.ok (), source', writer) ∧
      writer.finish = .ok () ∧
      ∃ doc : Doc, writer.device.received.toList = doc.text.toUTF8.toList ∧
        JsonText.Denotes writer.device.received.toList doc := by
  intro mask source
  have hproject : (project (some mask) source JsonWriter.fresh).1 = .ok () := by decide +kernel
  obtain ⟨hfinish, hdoc⟩ := project_writes_document Replay.breaking (some mask)
    (show source = .ofTokens _ from rfl)
    (show project (some mask) source JsonWriter.fresh = (.ok (), _, _) from
      Prod.ext hproject rfl)
  exact ⟨_, _, Prod.ext hproject rfl, hfinish, hdoc⟩

end FieldMask
