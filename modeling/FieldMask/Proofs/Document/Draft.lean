import FieldMask.Proofs.Document.Flatten
import FieldMask.Proofs.Stream.Refusal

namespace FieldMask

/-!
# Documents in part

A stream of tokens that has come to some place is a document in part: the containers that are open
there, each with what it has so far, or the whole document.  A draft keeps all of it, so the tokens
can be read off it again, and whatever is still missing can be added.

* `Draft`, `Draft.Frame` — a document in part; every draft is one that some stream leads to.
* `Draft.add?` — one token more, where the grammar of documents has room for it.
* `Draft.tokens`, `Draft.tokens_of_add?` — the tokens that lead to a draft.
* `openContainers`, `Draft.containers_of_add?` — the containers that some tokens open and do not
  close, and those that are open in a draft.
* `Draft.addAll?` — several tokens more; `Draft.exists_whole` — every draft can be made whole.
* `Draft.Guides` — a sink goes along with a draft; `Draft.Guides.refusedAt?_eq` — two sinks that go
  along with the same draft refuse the same token.
-/

namespace Doc

/-! ### One more part -/

/-- The tokens of one more item come behind those of the others. -/
theorem flattenItems_concat (items : List Doc) (item : Doc) :
    flattenItems (items ++ [item]) = flattenItems items ++ item.flatten := by
  induction items with
  | nil => simp [flattenItems]
  | cons first rest ih => simp [flattenItems, ih]

/-- So do the name and the tokens of one more member. -/
theorem flattenMembers_concat (members : List (String × Doc)) (name : String) (value : Doc) :
    flattenMembers (members ++ [(name, value)]) =
      flattenMembers members ++ .key name :: value.flatten := by
  induction members with
  | nil => simp [flattenMembers]
  | cons first rest ih =>
    obtain ⟨n, v⟩ := first
    simp [flattenMembers, ih]

end Doc

/-! ### The containers that tokens leave open -/

/-- Whether a token ends a container. -/
def Token.closes : Token → Bool
  | endObject | endArray => true
  | beginObject | beginArray | key _ | scalar _ => false

/-- The containers that are open behind a token.  A closing token ends the innermost one, of
whichever kind. -/
def Token.nest : List Container → Token → List Container
  | opened, .beginObject => .object :: opened
  | opened, .beginArray => .array :: opened
  | opened, .endObject => opened.tail
  | opened, .endArray => opened.tail
  | opened, .key _ => opened
  | opened, .scalar _ => opened

/-- The containers that some tokens open and do not close, innermost first. -/
def openContainers (tokens : List Token) : List Container := tokens.foldl Token.nest []

/-- One more token opens or closes a container, or does neither. -/
theorem openContainers_concat (tokens : List Token) (token : Token) :
    openContainers (tokens ++ [token]) = token.nest (openContainers tokens) := by
  rw [openContainers, List.foldl_append]
  rfl

/-! ### Drafts -/

/-- An open container around the place where a value comes next: what it has so far and, for an
object, the name that the value is for. -/
inductive Draft.Frame where
  | items (done : List Doc)
  | member (done : List (String × Doc)) (name : String)

/-- A document in part, by what comes next; the frames are those of the open containers, innermost
first. -/
inductive Draft where
  /-- A value, or the end of the array that is open. -/
  | value (frames : List Draft.Frame)
  /-- A name of the object that is open, or its end. -/
  | name (done : List (String × Doc)) (frames : List Draft.Frame)
  /-- Nothing. -/
  | whole (doc : Doc)

namespace Draft

/-- A document of which there is nothing yet. -/
def empty : Draft := .value []

/-- Puts a value where one comes next. -/
def fill (doc : Doc) : List Frame → Draft
  | [] => .whole doc
  | .items done :: outer => .value (.items (done ++ [doc]) :: outer)
  | .member done key :: outer => .name (done ++ [(key, doc)]) outer

/-- Adds a token, if there is room for it.  A value, a name or the end of a container has
room depending on the innermost frame; whatever comes after the whole document has none. -/
def add? : Token → Draft → Option Draft
  | .beginObject, .value frames => some (.name [] frames)
  | .beginArray, .value frames => some (.value (.items [] :: frames))
  | .scalar s, .value frames => some (fill (.scalar s) frames)
  | .endArray, .value (.items done :: outer) => some (fill (.array done) outer)
  | .key key, .name done frames => some (.value (.member done key :: frames))
  | .endObject, .name done frames => some (fill (.object done) frames)
  | _, _ => none

/-! ### The tokens of a draft -/

/-- The tokens before the place where a value comes next. -/
def tokensBefore : List Frame → List Token
  | [] => []
  | .items done :: outer => tokensBefore outer ++ .beginArray :: Doc.flattenItems done
  | .member done key :: outer =>
    tokensBefore outer ++ .beginObject :: (Doc.flattenMembers done ++ [.key key])

/-- The tokens that lead to a draft. -/
def tokens : Draft → List Token
  | .value frames => tokensBefore frames
  | .name done frames => tokensBefore frames ++ .beginObject :: Doc.flattenMembers done
  | .whole doc => doc.flatten

/-- A value that is put in its place adds its tokens to those before that place. -/
theorem tokens_fill (doc : Doc) (frames : List Frame) :
    (fill doc frames).tokens = tokensBefore frames ++ doc.flatten := by
  match frames with
  | [] => rfl
  | .items done :: outer => simp [fill, tokens, tokensBefore, Doc.flattenItems_concat]
  | .member done key :: outer => simp [fill, tokens, tokensBefore, Doc.flattenMembers_concat]

/-- A token that is added comes behind those before it. -/
theorem tokens_of_add? {token : Token} {draft draft' : Draft} (h : draft.add? token = some draft') :
    draft'.tokens = draft.tokens ++ [token] := by
  -- Six rules of addition, and the drafts for which they are.
  unfold add? at h
  split at h
  · cases h
    simp [tokens, Doc.flattenMembers]
  · cases h
    simp [tokens, tokensBefore, Doc.flattenItems]
  · cases h
    exact tokens_fill _ _
  · cases h
    rw [tokens_fill]
    simp [tokens, tokensBefore, Doc.flatten]
  · cases h
    simp [tokens, tokensBefore]
  · cases h
    rw [tokens_fill]
    simp [tokens, Doc.flatten]
  · cases h

/-! ### Open containers -/

/-- Which container a frame is of. -/
def Frame.container : Frame → Container
  | items _ => .array
  | member _ _ => .object

/-- The containers around the place where the next token comes, innermost first. -/
def containers : Draft → List Container
  | value frames => frames.map Frame.container
  | name _ frames => .object :: frames.map Frame.container
  | whole _ => []

/-- A value that is put in its place leaves the containers around it open. -/
theorem containers_fill (doc : Doc) (frames : List Frame) :
    (fill doc frames).containers = frames.map Frame.container := by
  match frames with
  | [] => rfl
  | .items _ :: _ => rfl
  | .member _ _ :: _ => rfl

/-- A token that is added opens and closes the containers of the draft. -/
theorem containers_of_add? {token : Token} {draft draft' : Draft}
    (h : draft.add? token = some draft') : draft'.containers = token.nest draft.containers := by
  -- Two rules open a container; the three that fill a value in close none but its own.
  unfold add? at h
  split at h
  · cases h
    rfl
  · cases h
    rfl
  · cases h
    exact containers_fill _ _
  · cases h
    exact containers_fill _ _
  · cases h
    rfl
  · cases h
    exact containers_fill _ _
  · cases h

/-! ### Several tokens -/

/-- Adds some tokens, if there is room for all of them. -/
def addAll? : List Token → Draft → Option Draft
  | [], draft => some draft
  | token :: rest, draft => (draft.add? token).bind (addAll? rest)

section Several

variable {tokens : List Token} {draft draft' : Draft}

/-- Tokens that are added come behind those before them, in their order. -/
theorem tokens_of_addAll? (h : draft.addAll? tokens = some draft') :
    draft'.tokens = draft.tokens ++ tokens := by
  induction tokens generalizing draft with
  | nil =>
    cases h
    exact (List.append_nil _).symm
  | cons token rest ih =>
    obtain ⟨between, hadd, hrest⟩ := Option.bind_eq_some_iff.1 h
    rw [ih hrest, tokens_of_add? hadd, List.append_assoc, List.singleton_append]

/-- They open and close containers one after the other. -/
theorem containers_of_addAll? (h : draft.addAll? tokens = some draft') :
    draft'.containers = tokens.foldl Token.nest draft.containers := by
  induction tokens generalizing draft with
  | nil =>
    cases h
    rfl
  | cons token rest ih =>
    obtain ⟨between, hadd, hrest⟩ := Option.bind_eq_some_iff.1 h
    rw [ih hrest, containers_of_add? hadd, List.foldl_cons]

end Several

/-- A draft that has begun and in which no container is open is whole. -/
theorem exists_eq_whole {draft : Draft} (h : draft.containers = []) (hbegun : draft.tokens ≠ []) :
    ∃ doc, draft = .whole doc := by
  -- Where a value or a name comes next, something is open or nothing has begun.
  match draft with
  | .whole doc => exact ⟨doc, rfl⟩
  | .value [] => exact absurd rfl hbegun
  | .value (_ :: _) | .name _ _ => cases h

/-! ### What is missing can be added -/

/-- The token that ends a container. -/
def Frame.closer : Frame → Token
  | items _ => .endArray
  | member _ _ => .endObject

/-- Behind a value it is enough to end the containers around it, from the innermost outwards. -/
theorem exists_addAll?_closers (doc : Doc) (frames : List Frame) :
    ∃ outermost, (fill doc frames).addAll? (frames.map Frame.closer) = some (.whole outermost) := by
  -- A container that is ended is itself a value, inside of those that are left.
  induction frames generalizing doc with
  | nil => exact ⟨doc, rfl⟩
  | cons frame outer ih =>
    cases frame with
    | items done => exact ih (.array (done ++ [doc]))
    | member done key => exact ih (.object (done ++ [(key, doc)]))

/-- **Every draft can be made whole**: its tokens are the first ones of some document.  What
is missing is written out: a value or an end that is due, and then the ends of all open
containers. -/
theorem exists_whole (draft : Draft) : ∃ doc : Doc, draft.tokens <+: doc.flatten := by
  have hadd : ∃ more doc, draft.addAll? more = some (.whole doc) := by
    -- A value that is due may be `null`, and an object may end where a name is due.
    cases draft with
    | value frames =>
      obtain ⟨doc, hclosers⟩ := exists_addAll?_closers (.scalar .null) frames
      exact ⟨.scalar .null :: frames.map Frame.closer, doc, hclosers⟩
    | name done frames =>
      obtain ⟨doc, hclosers⟩ := exists_addAll?_closers (.object done) frames
      exact ⟨.endObject :: frames.map Frame.closer, doc, hclosers⟩
    | whole doc => exact ⟨[], doc, rfl⟩
  obtain ⟨more, doc, hmore⟩ := hadd
  exact ⟨doc, more, (tokens_of_addAll? hmore).symm⟩

/-! ### Sinks that go along -/

/-- A sink goes along with a draft: it takes the tokens that there is room for, and only
those.  So the draft says of every sink of this kind which token is the first that it
refuses. -/
structure Guides {κ : Type} [TokenSink κ] (guides : Draft → κ → Prop) : Prop where
  takes : ∀ {draft draft' : Draft} {sink : κ} {token : Token}, guides draft sink →
    draft.add? token = some draft' →
      ∃ sink', TokenSink.write token sink = (.ok (), sink') ∧ guides draft' sink'
  refuses : ∀ {draft : Draft} {sink : κ} {token : Token}, guides draft sink →
    draft.add? token = none → ∃ e sink', TokenSink.write token sink = (.error e, sink')

namespace Guides

variable {κ κ' : Type} [TokenSink κ] [TokenSink κ'] {guides : Draft → κ → Prop}
  {guides' : Draft → κ' → Prop} {draft : Draft} {sink : κ} {other : κ'}

/-- A token that is taken is one that there was room for.  Otherwise the sink would have
refused it. -/
theorem exists_add? (h : Guides guides) (hdraft : guides draft sink) {token : Token} {sink' : κ}
    (hwrite : TokenSink.write token sink = (.ok (), sink')) :
    ∃ draft', draft.add? token = some draft' ∧ guides draft' sink' := by
  cases hadd : draft.add? token with
  | none =>
    obtain ⟨e, refused, herror⟩ := h.refuses hdraft hadd
    rw [hwrite] at herror
    cases herror
  | some draft' =>
    obtain ⟨taken, htaken, hguides⟩ := h.takes hdraft hadd
    rw [hwrite] at htaken
    cases htaken
    exact ⟨draft', rfl, hguides⟩

/-- Tokens that are taken are tokens that there was room for.  By induction on the tokens,
each of which leads to the next draft. -/
theorem exists_addAll? (h : Guides guides) (hdraft : guides draft sink) {tokens : List Token}
    {sink' : κ} (hwrite : writeAll tokens sink = (.ok (), sink')) :
    ∃ draft', draft.addAll? tokens = some draft' ∧ guides draft' sink' := by
  induction tokens generalizing draft sink with
  | nil =>
    cases hwrite
    exact ⟨draft, rfl, hdraft⟩
  | cons token rest ih =>
    obtain ⟨next, hfirst, hrest⟩ := writeAll_cons_eq_ok.1 hwrite
    obtain ⟨between, hadd, hguides⟩ := h.exists_add? hdraft hfirst
    obtain ⟨last, hlast, hsink⟩ := ih hguides hrest
    exact ⟨last, Option.bind_eq_some_iff.2 ⟨between, hadd, hlast⟩, hsink⟩

/-- Tokens that there is room for are taken.  The induction is on the tokens, with the sink
and the draft one token further each time. -/
theorem exists_writeAll (h : Guides guides) (hdraft : guides draft sink) {tokens : List Token}
    {draft' : Draft} (hadd : draft.addAll? tokens = some draft') :
    ∃ sink', writeAll tokens sink = (.ok (), sink') ∧ guides draft' sink' := by
  induction tokens generalizing draft sink with
  | nil =>
    cases hadd
    exact ⟨sink, rfl, hdraft⟩
  | cons token rest ih =>
    obtain ⟨between, hfirst, hrest⟩ := Option.bind_eq_some_iff.1 hadd
    obtain ⟨next, hwrite, hguides⟩ := h.takes hdraft hfirst
    obtain ⟨sink', hall, hsink⟩ := ih hguides hrest
    exact ⟨sink', writeAll_cons_eq_ok.2 ⟨next, hwrite, hall⟩, hsink⟩

/-- A sink that has taken some tokens has gone along with a draft that has taken them too. -/
theorem exists_draft (h : Guides guides) (hdraft : guides draft sink) {tokens : List Token}
    {sink' : κ} (hwrite : writeAll tokens sink = (.ok (), sink')) :
    ∃ draft', guides draft' sink' ∧ draft'.tokens = draft.tokens ++ tokens := by
  obtain ⟨draft', hadd, hguides⟩ := h.exists_addAll? hdraft hwrite
  exact ⟨draft', hguides, tokens_of_addAll? hadd⟩

/-- If it goes along with some draft after a refusal too, it always does. -/
theorem exists_offered (h : Guides guides) (hdraft : guides draft sink)
    (hrefused : ∀ {draft : Draft} {sink sink' : κ} {token : Token} {e : StreamError},
      guides draft sink → TokenSink.write token sink = (.error e, sink') →
        ∃ draft', guides draft' sink')
    (tokens : List Token) : ∃ draft', guides draft' (offered tokens sink) := by
  induction tokens generalizing draft sink with
  | nil => exact ⟨draft, hdraft⟩
  | cons token rest ih =>
    cases hwrite : TokenSink.write token sink with
    | mk result next =>
      -- Whether the token is taken or refused, the sink goes along with some draft behind it.
      have hnext : ∃ draft', guides draft' next := by
        cases result with
        | error e => exact hrefused hdraft hwrite
        | ok done =>
          obtain ⟨draft', -, hguides⟩ := h.exists_add? hdraft hwrite
          exact ⟨draft', hguides⟩
      obtain ⟨draft', hguides⟩ := hnext
      rw [offered_cons, hwrite]
      exact ih hguides

/-- Two sinks that go along with the same draft refuse the same token.  The draft alone
decides on each token, so the induction carries both sinks along one draft. -/
theorem refusedAt?_eq (h : Guides guides) (h' : Guides guides') (hdraft : guides draft sink)
    (hdraft' : guides' draft other) (tokens : List Token) :
    refusedAt? tokens sink = refusedAt? tokens other := by
  induction tokens generalizing draft sink other with
  | nil => rfl
  | cons token rest ih =>
    cases hadd : draft.add? token with
    | none =>
      obtain ⟨e, next, hwrite⟩ := h.refuses hdraft hadd
      obtain ⟨e', next', hwrite'⟩ := h'.refuses hdraft' hadd
      rw [refusedAt?_cons_of_error hwrite, refusedAt?_cons_of_error hwrite']
    | some draft' =>
      obtain ⟨next, hwrite, hnext⟩ := h.takes hdraft hadd
      obtain ⟨next', hwrite', hnext'⟩ := h'.takes hdraft' hadd
      rw [refusedAt?_cons_of_ok hwrite, refusedAt?_cons_of_ok hwrite', ih hnext hnext']

end Guides

end Draft

end FieldMask
