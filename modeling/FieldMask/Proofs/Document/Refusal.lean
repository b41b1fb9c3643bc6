import FieldMask.Proofs.Document.Sinks

namespace FieldMask

/-!
# Refusals of the builder

The builder takes the innermost container off before it looks whether the token that ends it fits.
So there is one kind of refusal that leaves a trace: the end of a container, refused inside of one.
That container is then lost, with everything in it.  No other refusal is noticed later on.

* `DocBuilder.exists_offered_eq` — whatever a builder has been offered, it has built some draft.
* `DocBuilder.Leaves` — a token ends a container, and one is open.
* `DocBuilder.not_indistinguishable_lose` — a container that is lost is missed later on.
* `builder_refusals` — which refusals leave no trace, and what comes of tokens without the others.
-/

namespace DocBuilder

/-! ### What a builder has after refusals -/

/-- A token that is refused leads to what is built of a draft without its innermost container, if it
ends a container, and leaves the builder alone if it does not. -/
theorem eq_of_write_eq_error {draft : Draft} {token : Token} {e : StreamError}
    {builder : DocBuilder} (h : TokenSink.write token draft.built = (.error e, builder)) :
    builder = if token.closes then draft.lose.built else draft.built := by
  have h : write token draft.built = (.error e, builder) := h
  -- A token is refused exactly if the draft has no room for it.
  cases hadd : draft.add? token with
  | none =>
    obtain ⟨e', hrefused⟩ := write_of_add?_eq_none hadd
    rw [hrefused] at h
    exact (congrArg Prod.snd h).symm
  | some draft' =>
    rw [write_of_add? hadd] at h
    cases h

/-- Whatever a builder has been offered, it has built what some draft has.  Behind a refusal
that may be the draft without its innermost container. -/
theorem exists_offered_eq (tokens : List Token) :
    ∃ draft : Draft, offered tokens empty = draft.built := by
  refine guides.exists_offered drafted_empty ?_ tokens
  rintro draft _ builder token e rfl hwrite
  obtain rfl := eq_of_write_eq_error hwrite
  split
  · exact ⟨draft.lose, rfl⟩
  · exact ⟨draft, rfl⟩

/-! ### How many containers are open -/

/-- Putting a value in its place opens and closes no container. -/
theorem length_unfinished_place (value : Doc) (kind : TokenKind) (builder : DocBuilder) :
    (builder.place value kind).2.unfinished.length = builder.unfinished.length := by
  unfold place
  split <;> simp [*]

/-- The end of a container takes one off, whether it is refused or not.  That is what makes
a refused end lose a container. -/
theorem length_unfinished_write {token : Token} (h : token.closes = true) (builder : DocBuilder) :
    (write token builder).2.unfinished.length = builder.unfinished.length - 1 := by
  cases token with
  | endObject =>
    rw [write]
    split
    · rw [length_unfinished_place, List.length_tail]
    · exact List.length_tail
  | endArray =>
    rw [write]
    split
    · rw [length_unfinished_place, List.length_tail]
    · exact List.length_tail
  | _ => cases h

/-- Any number of ends take as many containers off, as far as there are any.  By induction
on the ends, each of which takes one off. -/
theorem length_unfinished_offered {tokens : List Token} (h : ∀ token ∈ tokens, token.closes = true)
    (builder : DocBuilder) :
    (offered tokens builder).unfinished.length = builder.unfinished.length - tokens.length := by
  induction tokens generalizing builder with
  | nil => rfl
  | cons token rest ih =>
    have hfirst := length_unfinished_write (h token List.mem_cons_self) builder
    have hrest := ih (fun next hnext => h next (List.mem_cons_of_mem _ hnext))
      (write token builder).2
    rw [hfirst] at hrest
    rw [offered_cons, List.length_cons, Nat.add_comm, ← Nat.sub_sub]
    exact hrest

/-- A builder inside of a container does not finish. -/
theorem unfinished_eq_nil {builder : DocBuilder} {doc : Doc} (h : builder.finish = .ok doc) :
    builder.unfinished = [] := by
  unfold finish at h
  split at h
  next hunfinished _ => exact hunfinished
  next => cases h

/-! ### What is lost -/

/-- A token that ends a container, where one is open. -/
def Leaves (token : Token) (builder : DocBuilder) : Prop :=
  token.closes = true ∧ builder.unfinished ≠ []

/-- Inside of a container a draft loses it. -/
theorem exists_lose_eq {draft : Draft} (h : draft.built.unfinished ≠ []) :
    ∃ frames, draft.lose = .value frames ∧
      draft.built.unfinished.length = frames.length + 1 := by
  -- Only where nothing has begun or all is done is no container open.
  match draft with
  | .value [] => exact absurd rfl h
  | .value (_ :: outer) => exact ⟨outer, rfl, congrArg (· + 1) (List.length_map _)⟩
  | .name _ frames => exact ⟨frames, rfl, congrArg (· + 1) (List.length_map _)⟩
  | .whole _ => exact absurd rfl h

/-- Outside of every container there is none to lose. -/
theorem built_lose {draft : Draft} (h : draft.built.unfinished = []) :
    draft.lose.built = draft.built := by
  match draft with
  | .value [] | .whole _ => rfl

/-- **A container that is lost is missed later on**: a value and the ends of the containers around
the lost one make the document whole, but only without it. -/
theorem not_indistinguishable_lose {draft : Draft} (h : draft.built.unfinished ≠ []) :
    ¬ Indistinguishable finish draft.built draft.lose.built := by
  obtain ⟨frames, hlose, hlength⟩ := exists_lose_eq h
  obtain ⟨outermost, hadd⟩ := Draft.exists_addAll?_closers (.scalar .null) frames
  let closers := frames.map Draft.Frame.closer
  have hlost : (offered (.scalar .null :: closers) draft.lose.built).finish =
      .ok outermost.canonical := by
    have hbuilt : Drafted (.value frames) (Draft.value frames).built := rfl
    have hadd : (Draft.value frames).addAll? (.scalar .null :: closers) = some (.whole outermost) :=
      hadd
    obtain ⟨_, hwrite, rfl⟩ := guides.exists_writeAll hbuilt hadd
    rw [hlose, offered_of_writeAll hwrite]
    rfl
  -- With the container still there, as many ends as there are around it do not end it as well.
  have hkept : (offered (.scalar .null :: closers) draft.built).unfinished.length = 1 := by
    have hcloses : ∀ token ∈ closers, token.closes = true := by
      intro token hmem
      obtain ⟨frame, -, rfl⟩ := List.mem_map.1 hmem
      cases frame <;> rfl
    have hvalue : (write (.scalar .null) draft.built).2.unfinished.length = frames.length + 1 :=
      (length_unfinished_place _ _ _).trans hlength
    have hclosers := length_unfinished_offered hcloses (write (.scalar .null) draft.built).2
    rw [hvalue, List.length_map, Nat.add_sub_cancel_left] at hclosers
    exact hclosers
  intro hsame
  rw [unfinished_eq_nil ((hsame _).2.symm.trans hlost)] at hkept
  cases hkept

/-! ### Which refusals leave a trace -/

section Refused

variable {draft : Draft} {token : Token} {e : StreamError} {builder : DocBuilder}

/-- Any other refusal leaves the builder alone. -/
theorem eq_of_not_leaves (h : TokenSink.write token draft.built = (.error e, builder))
    (hstays : ¬ Leaves token draft.built) : builder = draft.built := by
  have hbuilder := eq_of_write_eq_error h
  split at hbuilder
  next hcloses =>
    rw [hbuilder]
    exact built_lose (not_not.1 fun hopen => hstays ⟨hcloses, hopen⟩)
  next => exact hbuilder

/-- A refusal leaves no trace exactly if its token does not end a container inside of
one. -/
theorem indistinguishable_iff (h : TokenSink.write token draft.built = (.error e, builder)) :
    Indistinguishable finish draft.built builder ↔ ¬ Leaves token draft.built := by
  constructor
  · rintro hsame ⟨hcloses, hopen⟩
    obtain rfl := eq_of_write_eq_error h
    rw [if_pos hcloses] at hsame
    exact not_indistinguishable_lose hopen hsame
  · intro hstays
    rw [eq_of_not_leaves h hstays]
    exact fun later => ⟨rfl, rfl⟩

end Refused

/-- Some tokens of which none is refused where it ends a container inside of one. -/
def LosesNothing (tokens : List Token) : Prop :=
  ∀ (before : List Token) (token : Token) (after : List Token), tokens = before ++ token :: after →
    Leaves token (offered before empty) →
      (TokenSink.write token (offered before empty)).1 = .ok ()

/-- Where no such token is refused, no refusal changes the builder. -/
theorem LosesNothing.unmoved {tokens : List Token} (h : LosesNothing tokens) :
    Unmoved tokens empty := by
  intro before token after e builder htokens hwrite
  obtain ⟨draft, hdraft⟩ := exists_offered_eq before
  have hstays : ¬ Leaves token (offered before empty) := by
    intro hleaves
    have htaken := h before token after htokens hleaves
    rw [hwrite] at htaken
    cases htaken
  rw [hdraft] at hwrite hstays ⊢
  exact eq_of_not_leaves hwrite hstays

/-- A builder that has taken some tokens finishes with the document that they are.  No other
tokens let it finish. -/
theorem finish_eq_ok_iff {tokens : List Token} {builder : DocBuilder} {built : Doc}
    (hwrite : writeAll tokens empty = (.ok (), builder)) :
    builder.finish = .ok built ↔ ∃ doc : Doc, tokens = doc.flatten ∧ built = doc.canonical := by
  have hbuilt (doc : Doc) (htokens : tokens = doc.flatten) :
      builder.finish = .ok doc.canonical := by
    obtain ⟨-, finished, -, hbuild, -, hfinish, -⟩ := doc.exists_finished
    rw [← htokens, hwrite] at hbuild
    cases hbuild
    exact hfinish
  constructor
  · intro hfinish
    obtain ⟨doc, htokens⟩ := exists_doc_of_finish hwrite hfinish
    have hsame := (hbuilt doc htokens).symm.trans hfinish
    cases hsame
    exact ⟨doc, htokens, rfl⟩
  · rintro ⟨doc, htokens, rfl⟩
    exact hbuilt doc htokens

end DocBuilder

/-- **A refusal by the builder leaves no trace, unless it is that of the end of a container inside
of one.**  Whatever the builder has been offered, the one that has refused a further token answers
to all later tokens and finishes as if it had not been offered it, if and only if that token does
not end a container or none is open.  And where no such token has been refused, the builder
finishes if and only if the tokens that it has taken are a whole document, and that is then what it
has built, with the last of repeated members. -/
theorem builder_refusals (tokens : List Token) :
    (∀ (token : Token) (e : StreamError) (builder : DocBuilder),
      TokenSink.write token (offered tokens DocBuilder.empty) = (.error e, builder) →
        (Indistinguishable DocBuilder.finish (offered tokens DocBuilder.empty) builder ↔
          ¬ DocBuilder.Leaves token (offered tokens DocBuilder.empty))) ∧
      (DocBuilder.LosesNothing tokens → ∀ built : Doc,
        (offered tokens DocBuilder.empty).finish = .ok built ↔
          ∃ doc : Doc, accepted tokens DocBuilder.empty = doc.flatten ∧
            built = doc.canonical) := by
  constructor
  · intro token e builder hwrite
    obtain ⟨draft, hdraft⟩ := DocBuilder.exists_offered_eq tokens
    rw [hdraft] at hwrite ⊢
    exact DocBuilder.indistinguishable_iff hwrite
  · intro hloses built
    exact DocBuilder.finish_eq_ok_iff (writeAll_accepted hloses.unmoved)

/-- In an array a name is refused without a trace, and the array is built as if without it.
The refused name closes no container, so nothing is lost with it. -/
theorem builder_refusals_key :
    Indistinguishable DocBuilder.finish (offered [.beginArray] DocBuilder.empty)
        (TokenSink.write (.key "k") (offered [.beginArray] DocBuilder.empty)).2 ∧
      (offered [.beginArray, .key "k", .endArray] DocBuilder.empty).finish = .ok (.array []) := by
  have hloses : DocBuilder.LosesNothing [.beginArray, .key "k", .endArray] := by
    rintro (_ | ⟨_, _ | ⟨_, _ | ⟨_, before⟩⟩⟩) token after htokens ⟨hcloses, -⟩
    · cases htokens
      cases hcloses
    · cases htokens
      cases hcloses
    · cases htokens
      rfl
    · simp at htokens
  constructor
  · refine ((builder_refusals [.beginArray]).1 (.key "k") (.unexpectedToken .value .key) _ rfl).2 ?_
    rintro ⟨hcloses, -⟩
    cases hcloses
  · exact ((builder_refusals _).2 hloses _).2 ⟨.array [], rfl, rfl⟩

/-- An object whose last name waits for its value refuses to be ended, but is lost: the value that
comes next is then the whole document. -/
theorem builder_refusals_trace :
    ∃ (e : StreamError) (builder : DocBuilder),
      TokenSink.write .endObject (offered [.beginObject, .key "k"] DocBuilder.empty) =
          (.error e, builder) ∧
        (offered [.scalar (.bool true), .endObject] builder).finish = .ok (.scalar (.bool true)) ∧
        (offered [.scalar (.bool true), .endObject]
            (offered [.beginObject, .key "k"] DocBuilder.empty)).finish =
          .ok (.object [("k", .scalar (.bool true))]) ∧
        ¬ Indistinguishable DocBuilder.finish (offered [.beginObject, .key "k"] DocBuilder.empty)
          builder := by
  refine ⟨_, _, rfl, rfl, rfl, ?_⟩
  intro hsame
  have hfinish := (hsame [.scalar (.bool true), .endObject]).2
  cases hfinish

end FieldMask
