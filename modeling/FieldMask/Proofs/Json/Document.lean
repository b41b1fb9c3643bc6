import FieldMask.Proofs.Json.Completeness
import FieldMask.Proofs.Json.Soundness
import FieldMask.Proofs.Stream.Production

namespace FieldMask.JsonReader

open JsonText

/-!
# Reading whole texts

* `due_of_produces` — the tokens read so far can be completed, by what is due where the reader is.
* `produces_of_due` — what is due is read.
* `readAll` — reads all tokens of a text and asks whether it is complete; `readAll_of_denotes`,
  `exists_denotes_of_readAll` — what that gives.
* `readAll_error_or_denotes` — there is nothing between a failure and a document.
* `readAll_eq_ok_iff` — the texts that are read are those of the grammar.
-/

variable {reader final : JsonReader} {position : Position} {bytes : List UInt8}
  {tokens : List Token} {ending : Ending}

/-- **Nothing is read that could not be completed.**  Where some tokens have been read,
whatever is due there completes the bytes that they were read from.  By induction on the
run, with `Step.due` for each of its tokens. -/
theorem due_of_produces (hat : reader.At position bytes ending)
    (h : Produces reader tokens final) :
    ∃ position' piece rest, final.At position' rest ending ∧ bytes = piece ++ rest ∧
      ∀ {rest' : List UInt8} {more : List Token}, Due position' rest' more →
        Due position (piece ++ rest') (tokens ++ more) := by
  induction h generalizing position bytes with
  | nil => exact ⟨position, [], bytes, hat, rfl, id⟩
  | cons hproduce _ ih =>
    -- The bytes of the first token stand before those that the rest of the run has passed.
    obtain ⟨between, rest, hstep, hbetween⟩ := readToken_eq_ok hat hproduce
    obtain ⟨piece, rfl, hdue⟩ := hstep.due
    obtain ⟨position', piece', rest', hfinal, rfl, hdue'⟩ := ih hbetween
    refine ⟨position', piece ++ piece', rest', hfinal, (List.append_assoc ..).symm, ?_⟩
    intro last more h
    rw [List.append_assoc]
    exact hdue (hdue' h)

/-- What is due where a number has been read does not go on with a numeral: an element leads
behind a value, and there `endsNumeral_of_due_behind` applies. -/
theorem endsNumeral_of_step {position' : Position} {rest : List UInt8} {token : Token}
    (h : Step position bytes token position' rest) (hdue : Due position' rest tokens) (n : Number)
    (htoken : token = .scalar (.number n)) : EndsNumeral rest := by
  have helement {position : Position} {first : List UInt8}
      (h : Element position first token position' rest) : EndsNumeral rest := by
    cases h with
    | scalar => exact endsNumeral_of_due_behind hdue
    | @enter container => cases container <;> cases htoken
    | name => cases htoken
  cases h with
  | element _ h => exact helement h
  | part _ h => exact helement h
  | @empty container => exact endsNumeral_of_due_behind hdue
  | more _ _ h => exact helement h
  | @close container => exact endsNumeral_of_due_behind hdue

/-- **What is due is read**, up to the end of the document.  The induction is on the tokens
that are due, each of which is the next one by the grammar. -/
theorem produces_of_due (hat : reader.At position bytes .closed) (h : Due position bytes tokens) :
    ∃ final rest, Produces reader tokens final ∧ final.At (.behind []) rest .closed ∧
      Spaces rest [] := by
  induction tokens generalizing reader position bytes with
  | nil =>
    obtain ⟨rfl, hspaces⟩ := h.of_nil
    exact ⟨reader, bytes, .nil, hat, hspaces⟩
  | cons token tokens ih =>
    -- The first token is read, and what is due behind it is read by the induction.
    obtain ⟨position', rest, hstep, hdue⟩ := h.exists_step
    obtain ⟨reader', hread, hat'⟩ := readToken_of_step hat hstep (endsNumeral_of_step hstep hdue)
    obtain ⟨final, last, hproduces, hfinal, hspaces⟩ := ih hat' hdue
    exact ⟨final, last, .cons hread hproduces, hfinal, hspaces⟩

/-! ### Whole texts -/

/-- Reads all tokens of a text, and asks whether the text ends with them. -/
def readAll (bytes : List UInt8) : Except StreamError (List Token) :=
  match drain (Lookahead.of (ofBytes bytes .closed)) with
  | (.error e, _) => .error e
  | (.ok tokens, source) => source.producer.finish.1.map fun () => tokens

/-- A result that keeps some tokens is a success with just these. -/
theorem map_eq_ok {result : Except StreamError Unit} {tokens tokens' : List Token}
    (h : result.map (fun () => tokens) = .ok tokens') : result = .ok () ∧ tokens = tokens' := by
  cases result with
  | error => cases h
  | ok => exact ⟨rfl, Except.ok.inj h⟩

/-- A text that denotes a document is read, and its tokens are those of the document. -/
theorem readAll_of_denotes {doc : Doc} (h : Denotes bytes doc) :
    readAll bytes = .ok doc.flatten := by
  obtain ⟨final, rest, hproduces, hat, hspaces⟩ :=
    produces_of_due (at_ofBytes bytes .closed) (due_start_iff.2 ⟨doc, h, rfl⟩)
  rw [readAll, drain_of_produces_none hproduces hat.readToken_done]
  show final.finish.1.map _ = _
  rw [(finish_eq_ok_iff hat).2 ⟨rfl, hspaces⟩]
  rfl

/-- A text that is read denotes a document, of which the tokens are.  The run of the reader
is taken as a whole: it ends without a token, and what has been read until then can be
completed. -/
theorem exists_denotes_of_readAll (h : readAll bytes = .ok tokens) :
    ∃ doc, Denotes bytes doc ∧ tokens = doc.flatten := by
  obtain ⟨tokens', final, hproduces, hend⟩ := exists_produces (ofBytes bytes .closed)
  obtain ⟨position, piece, rest, hat, rfl, hdue⟩ :=
    due_of_produces (at_ofBytes bytes .closed) hproduces
  cases hread : final.readToken with
  | mk result behind =>
    match result with
    | .error e =>
      rw [readAll, drain_of_produces_error hproduces hread] at h
      cases h
    | .ok (some token) => exact absurd hread (hend token behind)
    | .ok none =>
      rw [readAll, drain_of_produces_none hproduces hread] at h
      obtain ⟨hfinish, rfl⟩ := map_eq_ok h
      -- There are no more tokens because the document is complete, or because it is missing, to
      -- which `finish` objects.
      rcases readToken_eq_none hread with ⟨-, rfl⟩ | hplace
      · obtain ⟨rfl, hspaces⟩ := (finish_eq_ok_iff hat).1 hfinish
        have hall := @hdue rest [] ⟨hspaces, rfl⟩
        rw [List.append_nil] at hall
        exact due_start_iff.1 hall
      · exact absurd (place_of_finish hfinish) hplace

/-- A text is rejected or it denotes a document; there is no third way for reading to
end. -/
theorem readAll_error_or_denotes (bytes : List UInt8) :
    (∃ e, readAll bytes = .error e) ∨ ∃ doc, Denotes bytes doc := by
  cases hread : readAll bytes with
  | error e => exact Or.inl ⟨e, rfl⟩
  | ok tokens =>
    obtain ⟨doc, hdenotes, -⟩ := exists_denotes_of_readAll hread
    exact Or.inr ⟨doc, hdenotes⟩

/-- **The texts that are read are those of the grammar**, at any depth, and the tokens are those of
the document that the text denotes. -/
theorem readAll_eq_ok_iff (bytes : List UInt8) (tokens : List Token) :
    readAll bytes = .ok tokens ↔ ∃ doc, Denotes bytes doc ∧ tokens = doc.flatten := by
  constructor
  · exact exists_denotes_of_readAll
  · rintro ⟨doc, h, rfl⟩
    exact readAll_of_denotes h

end FieldMask.JsonReader
