import FieldMask.Proofs.Json.Projection

namespace FieldMask

open JsonText JsonReader JsonWriter

/-!
# Writing and reading are inverse

* `JsonText.Denotes.unique` — a text denotes one document.
* `readAll_writeAll` — the tokens of a document are written to a text that is read as those tokens,
  and a text that is copied denotes what it denoted before.
-/

/-- A text denotes one document, since it is read in one way and the tokens tell the
document. -/
theorem JsonText.Denotes.unique {bytes : List UInt8} {doc doc' : Doc} (h : Denotes bytes doc)
    (h' : Denotes bytes doc') : doc = doc' := by
  have hread := (readAll_of_denotes h).symm.trans (readAll_of_denotes h')
  exact Doc.flatten_injective (Except.ok.inj hread)

/-- What is written for a document in a string denotes it. -/
theorem denotes_text (doc : Doc) : Denotes doc.text.toUTF8.toList doc := by
  rw [Doc.toList_toUTF8_text]
  exact denotes_chars doc

/-- A text that is copied denotes the document as before, and is copied to itself. -/
theorem exists_denotes_of_copy {text out : String} (h : projectText none text = .ok out) :
    ∃ doc, Denotes text.toUTF8.toList doc ∧ Denotes out.toUTF8.toList doc ∧
      projectText none out = .ok out := by
  obtain ⟨doc, hdenotes⟩ := (exists_projectText_iff none text).1 ⟨out, h⟩
  rw [projectText_of_denotes none hdenotes] at h
  obtain rfl : doc.text = out := Except.ok.inj h
  exact ⟨doc, hdenotes, denotes_text doc, projectText_of_denotes none (denotes_text doc)⟩

/-- **Writing and reading are inverse.**  The tokens of any document are taken by a writer, which is
then complete, and are those that are read from what it has written; so a text that is copied gives
the tokens that it gave before, and copying it once more changes nothing. -/
theorem readAll_writeAll (doc : Doc) (text : String) :
    (∃ writer, writeAll doc.flatten (ofDevice (.empty .unlimited)) = (.ok (), writer) ∧
      writer.finish = .ok () ∧ readAll writer.device.received.toList = .ok doc.flatten) ∧
    ∀ out, projectText none text = .ok out →
      (∃ tokens, readAll text.toUTF8.toList = .ok tokens ∧
        readAll out.toUTF8.toList = .ok tokens) ∧ projectText none out = .ok out := by
  constructor
  · refine ⟨_, writeAll_document doc, rfl, ?_⟩
    rw [toList_received_written]
    exact readAll_of_denotes (denotes_chars doc)
  · intro out h
    obtain ⟨doc, hdenotes, hout, hcopy⟩ := exists_denotes_of_copy h
    exact ⟨⟨doc.flatten, readAll_of_denotes hdenotes, readAll_of_denotes hout⟩, hcopy⟩

/-- Spaces in a text are lost when it is copied. -/
theorem readAll_writeAll_spaces :
    projectText none "[ ]" = .ok "[]" ∧ projectText none "[]" = .ok "[]" := by
  have hdenotes : Denotes "[ ]".toUTF8.toList (.array []) := by
    rw [toList_toUTF8]
    exact .mk (.refl _) (.array (.none ⟨[0x20], rfl, by simp⟩)) (.refl [])
  have hcopy : projectText none "[ ]" = .ok "[]" := projectText_of_denotes none hdenotes
  exact ⟨hcopy, ((readAll_writeAll (.array []) "[ ]").2 _ hcopy).2⟩

end FieldMask
