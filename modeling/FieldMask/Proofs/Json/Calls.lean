import FieldMask.Proofs.Document.Draft
import FieldMask.Proofs.Json.Failure
import FieldMask.Proofs.Json.Soundness
import FieldMask.Proofs.Stream.Production
import FieldMask.Proofs.Stream.Recording

namespace FieldMask

open JsonText

/-!
# Any calls to a reader

Whatever a caller asks of a reader, and however often it goes on after a failure, the tokens that it
gets are the first ones of some document.  The reader knows nothing of the tokens before; but they
have led to a document in part, and what may stand at the reader's position is what there is room
for in that.

* `Draft.Meets` — a document in part agrees with a position of a text.
* `Draft.exists_add?_of_step` — a token of a text has room in it, and they agree again.
* `JsonReader.After` — some tokens have led a reader to where it stands;
  `JsonReader.After.readToken` — one step.
* `JsonReader.Consistent` — the reader's place and its open containers agree.
* `JsonReader.led_invariant` — the operations of a reader that looks one token ahead.
* `delivered_of_calls` — any calls to a reader of any bytes.
-/

namespace Draft

/-! ### Drafts and positions -/

/-- A draft agrees with a position of a text: there is room in it for whatever may stand
there.  Where a container may end, its part is said to be due, which has the same draft. -/
inductive Meets : Draft → Position → Prop where
  | value (frames : List Frame) : Meets (.value frames) (.value (frames.map Frame.container))
  | name (done : List (String × Doc)) (frames : List Frame) :
      Meets (.name done frames) (.name (frames.map Frame.container))
  | whole (doc : Doc) : Meets (.whole doc) (.behind [])
  | first {draft : Draft} {container : Container} {outer : List Container}
      (h : Meets draft (.part container outer)) : Meets draft (.first container outer)
  | behind {draft : Draft} {container : Container} {outer : List Container}
      (h : Meets draft (.part container outer)) : Meets draft (.behind (container :: outer))

variable {draft : Draft} {position position' : Position} {container : Container}
  {outer : List Container} {bytes rest : List UInt8} {token : Token}

/-- The same containers are open in a draft and at a position that it agrees with. -/
theorem Meets.containers_eq (h : draft.Meets position) :
    draft.containers = position.containers := by
  have hpart (container : Container) (outer : List Container) :
      (Position.part container outer).containers = container :: outer := by
    cases container <;> rfl
  induction h with
  | value => rfl
  | name => rfl
  | whole => rfl
  | first _ ih => rw [ih, hpart]; rfl
  | behind _ ih => rw [ih, hpart]; rfl

/-- Behind a value a draft agrees with what may follow: another part of the innermost
container, or its end, or nothing. -/
theorem meets_fill (doc : Doc) (frames : List Frame) :
    (fill doc frames).Meets (.behind (frames.map Frame.container)) := by
  match frames with
  | [] => exact .whole doc
  | .items done :: outer => exact .behind (.value (.items (done ++ [doc]) :: outer))
  | .member done key :: outer => exact .behind (.name (done ++ [(key, doc)]) outer)

/-- Where a value may stand, the draft waits for one. -/
theorem Meets.of_value {containers : List Container} (h : draft.Meets (.value containers)) :
    ∃ frames, draft = .value frames ∧ frames.map Frame.container = containers := by
  cases h with
  | value frames => exact ⟨frames, rfl, rfl⟩

/-- Where a name may stand, the draft waits for a member. -/
theorem Meets.of_name (h : draft.Meets (.name outer)) :
    ∃ done frames, draft = .name done frames ∧ frames.map Frame.container = outer := by
  cases h with
  | name done frames => exact ⟨done, frames, rfl, rfl⟩

/-- There is room for the end of a container where there is room for a part of it. -/
theorem Meets.exists_add?_last (h : draft.Meets (.part container outer)) :
    ∃ draft', draft.add? container.last = some draft' ∧ draft'.Meets (.behind outer) := by
  cases container with
  | array =>
    -- Where a value may stand, a name may be waiting for it; but then the frame is an object's.
    obtain ⟨frames, rfl, hframes⟩ := h.of_value
    match frames with
    | [] => cases hframes
    | .member _ _ :: _ => cases hframes
    | .items done :: frames =>
      cases hframes
      exact ⟨_, rfl, meets_fill (.array done) frames⟩
  | object =>
    obtain ⟨done, frames, rfl, rfl⟩ := h.of_name
    exact ⟨_, rfl, meets_fill (.object done) frames⟩

/-- A token that begins a part or a document has room in the draft. -/
theorem exists_add?_of_element (h : Element position bytes token position' rest)
    (hmeets : draft.Meets position) :
    ∃ draft', draft.add? token = some draft' ∧ draft'.Meets position' := by
  cases h with
  | @scalar _ _ _ value =>
    obtain ⟨frames, rfl, rfl⟩ := hmeets.of_value
    exact ⟨_, rfl, meets_fill (.scalar value) frames⟩
  -- A container is begun with no part, and may end at once.
  | enter container =>
    obtain ⟨frames, rfl, rfl⟩ := hmeets.of_value
    cases container with
    | array => exact ⟨_, rfl, .first (.value (.items [] :: frames))⟩
    | object => exact ⟨_, rfl, .first (.name [] frames)⟩
  | @name _ _ _ _ key =>
    obtain ⟨done, frames, rfl, rfl⟩ := hmeets.of_name
    exact ⟨_, rfl, .value (.member done key :: frames)⟩

/-- **A token of a text has room in the draft**, and what may stand behind it is what there
is room for then.  This is the step lemma; `After.readToken` uses it for every token that a
reader delivers. -/
theorem exists_add?_of_step (h : Step position bytes token position' rest)
    (hmeets : draft.Meets position) :
    ∃ draft', draft.add? token = some draft' ∧ draft'.Meets position' := by
  cases h with
  | element _ helement => exact exists_add?_of_element helement hmeets
  | part _ helement =>
    cases hmeets with
    | first hpart => exact exists_add?_of_element helement hpart
  | empty =>
    cases hmeets with
    | first hpart => exact hpart.exists_add?_last
  | more _ _ helement =>
    cases hmeets with
    | behind hpart => exact exists_add?_of_element helement hpart
  | close =>
    cases hmeets with
    | behind hpart => exact hpart.exists_add?_last

/-- Behind a comma there is room for what there was room for before it. -/
theorem Meets.resumes (hmeets : draft.Meets position) (h : position.ResumesAt position') :
    draft.Meets position' := by
  cases h with
  | same => exact hmeets
  | comma =>
    cases hmeets with
    | behind hpart => exact hpart

end Draft

/-! ### Readers -/

namespace JsonReader

/-- The reader's place and its open containers agree: names stand in objects, items in
arrays, commas in some container and the end of a document in none. -/
structure Consistent (reader : JsonReader) : Prop where
  name : reader.place = .name → reader.containers.head? = some .object
  firstName : reader.place = .firstName → reader.containers.head? = some .object
  firstItem : reader.place = .firstItem → reader.containers.head? = some .array
  comma : reader.place = .comma → reader.containers ≠ []
  done : reader.place = .done → reader.containers = []

variable {reader reader' : JsonReader} {tokens : List Token} {token : Token}

/-- A reader that stands at a position of the grammar is consistent. -/
theorem At.consistent {position : Position} {bytes : List UInt8} {ending : Ending}
    (h : reader.At position bytes ending) : reader.Consistent := by
  obtain ⟨hplace, hcontainers, -, -⟩ := h
  rcases position with _ | ⟨_ | _, _⟩ | _ | ⟨_ | _⟩ <;> constructor <;>
    simp [hplace, hcontainers, Position.place, Position.containers]

/-- Some tokens have led a reader to where it stands: they make up a document in part, which has
room for what may stand there. -/
def After (reader : JsonReader) (tokens : List Token) : Prop :=
  ∃ (draft : Draft) (position : Position), draft.tokens = tokens ∧
    draft.containers = openContainers tokens ∧ draft.Meets position ∧
    reader.At position reader.rest reader.ending

namespace After

/-- No token has led a reader to its start. -/
theorem ofBytes (bytes : List UInt8) (ending : Ending) : (ofBytes bytes ending).After [] :=
  ⟨.empty, .value [], rfl, rfl, .value [], at_ofBytes bytes ending⟩

/-- A token that is read leads on. -/
theorem readToken_some (h : reader.After tokens)
    (hread : reader.readToken = (.ok (some token), reader')) :
    reader'.After (tokens ++ [token]) := by
  obtain ⟨draft, position, htokens, hcontainers, hmeets, hat⟩ := h
  obtain ⟨position', rest, hstep, hat'⟩ := readToken_eq_ok hat hread
  obtain ⟨draft', hadd, hmeets'⟩ := Draft.exists_add?_of_step hstep hmeets
  refine ⟨draft', position', ?_, ?_, hmeets', ?_⟩
  · rw [Draft.tokens_of_add? hadd, htokens]
  · rw [Draft.containers_of_add? hadd, hcontainers, openContainers_concat]
  · exact ⟨hat'.place, hat'.containers, rfl, rfl⟩

/-- Without a token the reader still stands where the tokens before have led.  It may have
passed a comma, behind which there is the same room. -/
theorem readToken_none (h : reader.After tokens) {result : Except StreamError (Option Token)}
    (hread : reader.readToken = (result, reader')) (hnone : ∀ token, result ≠ .ok (some token)) :
    reader'.After tokens := by
  obtain ⟨draft, position, htokens, hcontainers, hmeets, hat⟩ := h
  have hresult : reader.readToken.1 = result := congrArg Prod.fst hread
  obtain ⟨position', hresumes, hat'⟩ := readToken_resumes hat (hresult ▸ hnone)
  rw [hread] at hat'
  exact ⟨draft, position', htokens, hcontainers, hmeets.resumes hresumes, hat'.place,
    hat'.containers, rfl, rfl⟩

/-- Whatever comes of it, a reader stands where the tokens read so far have led it.  A token
is added to those read so far, and a failure or the end adds nothing. -/
theorem readToken (h : reader.After tokens) :
    reader.readToken.2.After (tokens ++ (Lookahead.handedOut reader.readToken.1).toList) := by
  match hread : reader.readToken with
  | (.ok (some token), reader') => exact h.readToken_some hread
  | (.ok none, reader') =>
    show reader'.After (tokens ++ [])
    rw [List.append_nil]
    exact h.readToken_none hread nofun
  | (.error e, reader') =>
    show reader'.After (tokens ++ [])
    rw [List.append_nil]
    exact h.readToken_none hread nofun

/-- To ask for the end of the document moves the reader over spaces at most. -/
theorem finish (h : reader.After tokens) : reader.finish.2.After tokens := by
  obtain ⟨draft, position, htokens, hcontainers, hmeets, hat⟩ := h
  have hat' := hat.passes (finish_passes reader)
  exact ⟨draft, position, htokens, hcontainers, hmeets, hat'.place, hat'.containers, rfl, rfl⟩

/-- Tokens that have led a reader somewhere are the first ones of some document. -/
theorem exists_prefix (h : reader.After tokens) : ∃ doc : Doc, tokens <+: doc.flatten := by
  obtain ⟨draft, -, rfl, -⟩ := h
  exact draft.exists_whole

/-- The containers that they have left open are the reader's. -/
theorem containers_eq (h : reader.After tokens) : reader.containers = openContainers tokens := by
  obtain ⟨draft, position, -, hcontainers, hmeets, hat⟩ := h
  rw [hat.containers, ← hmeets.containers_eq, hcontainers]

/-- And the reader's place agrees with its containers. -/
theorem consistent (h : reader.After tokens) : reader.Consistent := by
  obtain ⟨_, _, -, -, -, hat⟩ := h
  exact hat.consistent

end After

/-- Checks that the document is complete, without regard to a token that is held. -/
def finishSource (source : Lookahead JsonReader) :
    Except StreamError Unit × Lookahead JsonReader :=
  let (result, reader) := source.producer.finish
  (result, ⟨reader, source.held⟩)

/-- The tokens that have been taken from a source, and the one that it holds, have led its reader to
where it stands. -/
def Led (recording : Recording (Lookahead JsonReader)) : Prop :=
  recording.source.producer.After (recording.taken ++ recording.source.held.toList)

/-- Without a token that is held, those that were taken have led the reader to its place. -/
theorem led_of_iff {taken : List Token} : Led ⟨.of reader, taken⟩ ↔ reader.After taken := by
  show After reader (taken ++ []) ↔ _
  rw [List.append_nil]

/-- What is read is recorded, if it is a token.  A reader that holds no token reads one for
this. -/
theorem snd_next_of (reader : JsonReader) (taken : List Token) :
    (TokenSource.next (⟨.of reader, taken⟩ : Recording (Lookahead JsonReader))).2 =
      ⟨.of reader.readToken.2, taken ++ (Lookahead.handedOut reader.readToken.1).toList⟩ := by
  show (Recording.next (⟨.of reader, taken⟩ : Recording (Lookahead JsonReader))).2 = _
  have hnone : taken ++ (none : Option Token).toList = taken := List.append_nil taken
  match hread : reader.readToken with
  | (.ok (some token), reader') =>
    have hnext : TokenSource.next (Lookahead.of reader) = _ := Lookahead.next_of_some hread
    rw [Recording.next, hnext]
    rfl
  | (.ok none, reader') =>
    have hnext : TokenSource.next (Lookahead.of reader) = _ := Lookahead.next_of_none hread
    rw [Recording.next, hnext, Lookahead.handedOut, hnone]
  | (.error e, reader') =>
    have hnext : TokenSource.next (Lookahead.of reader) = _ := Lookahead.next_of_error hread
    rw [Recording.next, hnext, Lookahead.handedOut, hnone]

/-- **The reader's own operations keep what has led it there.**  A token that is held has
been read and counts among them; taking it moves it from the one list to the other. -/
theorem led_invariant : CallInvariant (Recording.through finishSource) Led where
  peek := by
    rintro ⟨⟨reader, held⟩, taken⟩ hled
    cases held with
    | some token => exact hled
    | none =>
      show Led ⟨(TokenSource.peek (Lookahead.of reader)).2, taken⟩
      rw [Lookahead.snd_peek_of]
      exact (led_of_iff.1 hled).readToken
  next := by
    rintro ⟨⟨reader, held⟩, taken⟩ hled
    cases held with
    | some token => exact led_of_iff.2 hled
    | none =>
      show Led (TokenSource.next (⟨.of reader, taken⟩ : Recording (Lookahead JsonReader))).2
      rw [snd_next_of]
      exact led_of_iff.2 (led_of_iff.1 hled).readToken
  finish recording hled := After.finish hled

end JsonReader

/-- **A reader never delivers an ill-formed stream.**  Let a reader be asked for anything in any
order, of any bytes and with any failures below, and let the caller go on whatever comes back.  Then
the tokens that have been taken from it, those within copied and skipped values included, and the
one that it holds, if any, are the first tokens of some document.  The containers that they have
left open are those that the reader takes to be open, and its place agrees with them. -/
theorem delivered_of_calls (bytes : List UInt8) (ending : Ending) (calls : List Call) :
    let start := Lookahead.of (JsonReader.ofBytes bytes ending)
    ∃ answers source taken,
      performAll JsonReader.finishSource start calls = (answers, source) ∧
      performAll (Recording.through JsonReader.finishSource) (Recording.of start) calls =
        (answers, ⟨source, taken⟩) ∧
      (∃ doc : Doc, taken ++ source.held.toList <+: doc.flatten) ∧
      source.producer.containers = openContainers (taken ++ source.held.toList) ∧
      source.producer.Consistent := by
  intro start
  -- The invariant holds at the start, and every call keeps it.
  have hled := JsonReader.led_invariant.performAll
    (show JsonReader.Led (Recording.of start) from .ofBytes bytes ending) calls
  exact ⟨_, _, _, Recording.performAll_forget (Recording.of start) calls, rfl, hled.exists_prefix,
    hled.containers_eq, hled.consistent⟩

/-- After a failure in the middle of a word the reader goes on with what follows. -/
example :
    let start := Lookahead.of (JsonReader.ofBytes "[trfalse]".toUTF8.toList .closed)
    (performAll (Recording.through JsonReader.finishSource) (Recording.of start)
      [.next, .next, .next, .next]).2.taken = [.beginArray, .scalar (.bool false), .endArray] := by
  decide +kernel

end FieldMask
