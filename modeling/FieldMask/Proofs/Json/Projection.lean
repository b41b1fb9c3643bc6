import FieldMask.Json.Projection
import FieldMask.Proofs.Document.Flatten
import FieldMask.Proofs.Json.Document
import FieldMask.Proofs.Json.Fault
import FieldMask.Proofs.Json.Writer
import FieldMask.Proofs.Stream.Breaking

namespace FieldMask

open JsonText JsonReader JsonWriter

/-!
# Projecting JSON text

Projection of a text reads its tokens just as far as reading them all does, and fails where that
does: the mask decides on what is written and on nothing else.

* `project_of_stops`, `project_of_holds` — a reader that stops early, and one that gets through.
* `project_ofBytes` — the reader and the writer together: a text that breaks off, or one that begins
  with a document.
* `projectBytes_fst`, `projectBytes_of_denotes` — the result, and what is written for a text of the
  grammar.
* `projectText_of_denotes`, `exists_projectText_iff` — the same of a string, and which strings are
  projected at all.
* `projectText_rejects_alike` — the mask has no say in that.
-/

variable {bytes : List UInt8} {doc : Doc}

/-- Where a reader stops before the document is complete, projection fails as it does.  Some document
begins with the tokens that were read, and what is missing of it has at least one token. -/
theorem project_of_stops (mask : Option Mask) {position : Position} {piece : List UInt8}
    {tokens : List Token} {source : Lookahead JsonReader} {final : JsonReader} {e : StreamError}
    (hholds : source.Holds final tokens)
    (hdue : ∀ {rest : List UInt8} {more : List Token}, Due position rest more →
      Due (.value []) (piece ++ rest) (tokens ++ more))
    (hposition : position ≠ .behind []) (hstops : Stops final e) :
    ∃ source' writer,
      project mask source (ofDevice (.empty .unlimited)) = (.error e, source', writer) := by
  obtain ⟨rest, more, hmore⟩ := exists_due position
  obtain ⟨doc, -, hflatten⟩ := due_start_iff.1 (hdue hmore)
  refine project_breaks (Lookahead.breaking hstops) mask hflatten.symm ?_ hholds
    (writeAll_document (doc.through mask))
  rintro rfl
  exact hposition hmore.of_nil.1

/-- Where the tokens that a reader hands out are those of a document, that document is written
through the mask, and the reader is left behind it. -/
theorem project_of_holds (mask : Option Mask) {source : Lookahead JsonReader} {final : JsonReader}
    (hholds : source.Holds final doc.flatten) :
    project mask source (ofDevice (.empty .unlimited)) =
      (.ok (), .of final, written (utf8Bytes (doc.through mask).chars) [] true) := by
  rw [← List.append_nil doc.flatten] at hholds
  obtain ⟨source', hproject, hnil⟩ := project_of_writeAll (Lookahead.faithful final) mask doc hholds
    (writeAll_document (doc.through mask))
  rw [hproject, Lookahead.eq_of_holds_nil hnil]

/-- Either the reader fails within the document, and then projection fails as reading does;
or it gets through a document, which is written through the mask, and all that is left is to
see whether the text ends there.  What is known of the reader is how far it gets when all
its tokens are taken, and projection takes the same ones. -/
theorem project_ofBytes (mask : Option Mask) (bytes : List UInt8) :
    (∃ e source writer, readAll bytes = .error e ∧ e.OfText ∧
      project mask (Lookahead.of (ofBytes bytes .closed)) (ofDevice (.empty .unlimited)) =
        (.error e, source, writer)) ∨
    ∃ (doc : Doc) (final : JsonReader), final.ending = .closed ∧
      readAll bytes = final.finish.1.map (fun _ => doc.flatten) ∧
      project mask (Lookahead.of (ofBytes bytes .closed)) (ofDevice (.empty .unlimited)) =
        (.ok (), .of final, written (utf8Bytes (doc.through mask).chars) [] true) := by
  obtain ⟨tokens, final, hproduces, hend⟩ := exists_produces (ofBytes bytes .closed)
  obtain ⟨position, piece, rest, hat, rfl, hdue⟩ :=
    due_of_produces (at_ofBytes bytes .closed) hproduces
  have hholds := Lookahead.holds_of hproduces
  cases hread : final.readToken with
  | mk result behind =>
    match result with
    | .ok (some token) => exact absurd hread (hend token behind)
    | .error e =>
      -- Where a document is complete no further token is asked for, so none can be wrong.
      have hposition : position ≠ .behind [] := by
        rintro rfl
        rw [hat.readToken_done] at hread
        cases hread
      obtain ⟨source, writer, hproject⟩ :=
        project_of_stops mask hholds hdue hposition ⟨behind, .inl hread⟩
      refine .inl ⟨e, source, writer, ?_, ofText_of_readToken hat.ending hread, hproject⟩
      rw [readAll, drain_of_produces_error hproduces hread]
    | .ok none =>
      have hdrain := drain_of_produces_none hproduces hread
      rcases readToken_eq_none hread with ⟨hplace, rfl⟩ | hplace
      · -- The tokens are those of a document, and whatever follows it is left to `finish`.
        rw [hat.place] at hplace
        obtain rfl := Position.eq_behind_nil_of_place hplace
        obtain ⟨doc, -, hflatten⟩ := due_start_iff.1 (@hdue [] [] ⟨.refl [], rfl⟩)
        rw [List.append_nil] at hflatten
        subst hflatten
        exact .inr ⟨doc, behind, hat.ending, by rw [readAll, hdrain]; rfl,
          project_of_holds mask hholds⟩
      · -- The bytes have come to an end before the document has.
        have hposition : position ≠ .behind [] := by
          rintro rfl
          rw [hat.readToken_done] at hread
          cases hread
          exact hplace hat.place
        obtain ⟨source, writer, hproject⟩ :=
          project_of_stops mask hholds hdue hposition ⟨behind, .inr ⟨hread, rfl⟩⟩
        refine .inl ⟨.unexpectedEnd, source, writer, ?_, trivial, hproject⟩
        rw [readAll, hdrain]
        show behind.finish.1.map _ = _
        rw [JsonReader.finish, if_neg hplace]
        rfl

/-! ### Results -/

/-- The result of a projection is that of reading all tokens, whatever the mask. -/
theorem projectBytes_fst (mask : Option Mask) (bytes : List UInt8) :
    (projectBytes mask bytes .closed (.empty .unlimited)).1 =
      (readAll bytes).map fun _ => () := by
  rcases project_ofBytes mask bytes with ⟨e, source, writer, hread, -, hproject⟩ |
    ⟨doc, final, -, hread, hproject⟩
  · rw [projectBytes, hproject, hread]
    rfl
  · rw [projectBytes, hproject, hread]
    dsimp only [Lookahead.of]
    cases final.finish.1 <;> rfl

/-- A text of the grammar is read to its end and written through the mask.  Nothing is left
behind it but spaces, so the reader can be finished. -/
theorem project_of_denotes (mask : Option Mask) (h : Denotes bytes doc) :
    ∃ final, final.finish.1 = .ok () ∧
      project mask (Lookahead.of (ofBytes bytes .closed)) (ofDevice (.empty .unlimited)) =
        (.ok (), .of final, written (utf8Bytes (doc.through mask).chars) [] true) := by
  rcases project_ofBytes mask bytes with ⟨e, source, writer, hread, -, hproject⟩ |
    ⟨doc', final, -, hread, hproject⟩
  · rw [readAll_of_denotes h] at hread
    cases hread
  · rw [readAll_of_denotes h] at hread
    obtain ⟨hfinish, hflatten⟩ := map_eq_ok hread.symm
    obtain rfl := Doc.flatten_injective hflatten
    exact ⟨final, hfinish, hproject⟩

/-- Its projection succeeds, and the device has received the text of the document through
the mask. -/
theorem projectBytes_of_denotes (mask : Option Mask) (h : Denotes bytes doc) :
    projectBytes mask bytes .closed (.empty .unlimited) =
      (.ok (), ⟨(utf8Bytes (doc.through mask).chars).toArray, .unlimited⟩) := by
  obtain ⟨final, hfinish, hproject⟩ := project_of_denotes mask h
  rw [projectBytes, hproject]
  dsimp only [Lookahead.of]
  rw [hfinish]
  rfl

/-! ### Strings -/

/-- The bytes of characters are read as these characters. -/
theorem fromUTF8?_utf8Bytes (cs : List Char) :
    String.fromUTF8? ⟨(utf8Bytes cs).toArray⟩ = some (String.ofList cs) := by
  rw [fromUTF8?_eq_some_iff, String.toList_ofList]

/-- What comes out for a string that holds a text of the grammar is the text of its document
through the mask. -/
theorem projectText_of_denotes (mask : Option Mask) {text : String}
    (h : Denotes text.toUTF8.toList doc) : projectText mask text = .ok (doc.through mask).text := by
  rw [projectText, projectBytes_of_denotes mask h, Doc.text_eq]
  dsimp only
  rw [fromUTF8?_utf8Bytes]

/-- A string that cannot be read is rejected with the failure of reading it. -/
theorem projectText_of_readAll_error (mask : Option Mask) {text : String} {e : StreamError}
    (h : readAll text.toUTF8.toList = .error e) : projectText mask text = .error e := by
  have hfst := projectBytes_fst mask text.toUTF8.toList
  rw [h] at hfst
  rw [projectText]
  generalize projectBytes mask text.toUTF8.toList .closed (.empty .unlimited) = result at hfst
  obtain ⟨result, device⟩ := result
  obtain rfl : result = .error e := hfst
  rfl

/-- A string is projected if it can be read, and rejected as reading rejects it. -/
theorem projectText_map (mask : Option Mask) (text : String) :
    (projectText mask text).map (fun _ => ()) =
      (readAll text.toUTF8.toList).map fun _ => () := by
  rcases readAll_error_or_denotes text.toUTF8.toList with ⟨e, hread⟩ | ⟨doc, hdenotes⟩
  · rw [projectText_of_readAll_error mask hread, hread]
    rfl
  · rw [projectText_of_denotes mask hdenotes, readAll_of_denotes hdenotes]
    rfl

/-- The strings that are projected are those that hold a text of the grammar, whatever the
mask. -/
theorem exists_projectText_iff (mask : Option Mask) (text : String) :
    (∃ out, projectText mask text = .ok out) ↔ ∃ doc, Denotes text.toUTF8.toList doc := by
  constructor
  · rintro ⟨out, h⟩
    rcases readAll_error_or_denotes text.toUTF8.toList with ⟨e, hread⟩ | hdenotes
    · rw [projectText_of_readAll_error mask hread] at h
      cases h
    · exact hdenotes
  · rintro ⟨doc, h⟩
    exact ⟨_, projectText_of_denotes mask h⟩

/-- A text that is rejected is rejected for what it holds. -/
theorem ofText_of_readAll {e : StreamError} (h : readAll bytes = .error e) : e.OfText := by
  rcases project_ofBytes none bytes with ⟨e', _, _, hread, hofText, -⟩ |
    ⟨doc, final, hending, hread, -⟩
  · -- The document was read, so it is what follows it.
    rw [h] at hread
    cases hread
    exact hofText
  · rw [h] at hread
    cases hfinish : final.finish with
    | mk result behind =>
      rw [hfinish] at hread
      cases result with
      | ok => cases hread
      | error e' =>
        cases hread
        exact ofText_of_finish hending hfinish

/-- **The mask has no say in what is rejected.**  Whatever the mask, the same texts are projected,
those of the grammar, and any other is rejected with the same failure, which is one of the text.
The projector, the writer and the conversion of what was written have no failures of their own. -/
theorem projectText_rejects_alike (mask mask' : Option Mask) (text : String) :
    (projectText mask text).map (fun _ => ()) = (projectText mask' text).map (fun _ => ()) ∧
      ((∃ out, projectText mask text = .ok out) ↔ ∃ doc, Denotes text.toUTF8.toList doc) ∧
      (∀ e, projectText mask text = .error e → e.OfText) ∧
      ∀ source writer, project mask (Lookahead.of (ofBytes text.toUTF8.toList .closed))
          (ofDevice (.empty .unlimited)) = (.ok (), source, writer) →
        writer.finish = .ok () ∧ ∃ out, String.fromUTF8? ⟨writer.device.received⟩ = some out := by
  refine ⟨?_, exists_projectText_iff mask text, ?_, ?_⟩
  · rw [projectText_map, projectText_map]
  · -- A failure of projection is one of reading, which has no others.
    intro e h
    have hmap := projectText_map mask text
    rw [h] at hmap
    cases hread : readAll text.toUTF8.toList with
    | error e' =>
      rw [hread] at hmap
      cases hmap
      exact ofText_of_readAll hread
    | ok tokens =>
      rw [hread] at hmap
      cases hmap
  · -- Where the projector comes to its end, the writer has written a whole document.
    intro source writer h
    rcases project_ofBytes mask text.toUTF8.toList with ⟨e, _, _, -, -, hproject⟩ |
      ⟨doc, final, -, -, hproject⟩
    · rw [hproject] at h
      cases h
    · rw [hproject] at h
      cases h
      exact ⟨rfl, _, fromUTF8?_utf8Bytes _⟩

/-- A text that breaks off and one that is complete. -/
theorem projectText_rejects_alike_brackets :
    projectText none "[[" = .error .unexpectedEnd ∧ StreamError.unexpectedEnd.OfText ∧
      ∃ final writer, project none (Lookahead.of (ofBytes "[]".toUTF8.toList .closed))
          (ofDevice (.empty .unlimited)) = (.ok (), .of final, writer) ∧
        writer.finish = .ok () := by
  have hbytes : "[[".toUTF8.toList = [0x5B, 0x5B] := by
    rw [toList_toUTF8]
    rfl
  have hread : readAll "[[".toUTF8.toList = .error .unexpectedEnd := by
    rw [hbytes, readAll, drain_of_produces_error (.cons rfl (.cons rfl .nil)) rfl]
  have hdenotes : Denotes "[]".toUTF8.toList (.array []) := by
    rw [toList_toUTF8]
    exact denotes_chars (.array [])
  have herror := projectText_of_readAll_error none hread
  -- The second text denotes the empty array, which is copied.
  obtain ⟨final, -, hproject⟩ := project_of_denotes none hdenotes
  exact ⟨herror, (projectText_rejects_alike none none "[[").2.2.1 _ herror, final, _, hproject,
    ((projectText_rejects_alike none none "[]").2.2.2 _ _ hproject).1⟩

end FieldMask
