import FieldMask.Json.Projection
import FieldMask.Proofs.Document.Canonical
import FieldMask.Proofs.Stream.Production
import FieldMask.Proofs.Stream.Projection

namespace FieldMask

/-!
# Documents in memory

* `DocBuilder.writeAll_flatten` — the builder takes the tokens of a document wherever a value may
  come next, and puts the canonical document there.
* `DocWalker.produces_tokens` — the walker hands out the tokens that are left, and none from there
  on.
* `projectDoc_eq` — a document in memory is projected, and what comes out is canonical.
* `canonical_rebuilt` — the walker and the builder undo each other.
-/

/-! ### Building -/

namespace DocBuilder

/-- The builder with a finished value put where it belongs. -/
def placed (value : Doc) (builder : DocBuilder) : DocBuilder := (builder.place value .scalar).2

/-- Where a value may come next it is put there. -/
theorem place_of_expectsValue {builder : DocBuilder} (h : builder.expectsValue = true)
    (value : Doc) (kind : TokenKind) :
    builder.place value kind = (.ok (), builder.placed value) := by
  obtain ⟨unfinished, root⟩ := builder
  match unfinished, root, h with
  | [], none, _ => rfl
  | .array _ :: _, _, _ => rfl
  | .object _ (some _) :: _, _, _ => rfl

/-- There a container may begin as well. -/
theorem enter_of_expectsValue {builder : DocBuilder} (h : builder.expectsValue = true)
    (container : Unfinished) (kind : TokenKind) :
    builder.enter container kind = (.ok (), ⟨container :: builder.unfinished, builder.root⟩) :=
  if_pos h

mutual

/-- **A document is put together from its tokens**, with its objects in order.  The
induction is on the document, wherever in the builder it is put. -/
theorem writeAll_flatten (doc : Doc) {builder : DocBuilder} (h : builder.expectsValue = true) :
    writeAll doc.flatten builder = (.ok (), builder.placed doc.canonical) := by
  cases doc with
  | scalar value =>
    exact writeAll_cons_eq_ok.2 ⟨_, place_of_expectsValue h (.scalar value) .scalar, rfl⟩
  | array items =>
    refine writeAll_cons_eq_ok.2 ⟨_, enter_of_expectsValue h (.array []) .beginArray,
      writeAll_append_eq_ok.2 ⟨_, writeAll_flattenItems items, writeAll_cons_eq_ok.2 ⟨_, ?_, rfl⟩⟩⟩
    -- An open array holds its items in reverse, which its end undoes.
    rw [List.append_nil]
    show builder.place (.array (Doc.canonicalItems items).reverse.reverse) .endArray = _
    rw [List.reverse_reverse, place_of_expectsValue h]
    rfl
  | object members =>
    exact writeAll_cons_eq_ok.2 ⟨_, enter_of_expectsValue h (.object [] none) .beginObject,
      writeAll_append_eq_ok.2 ⟨_, writeAll_flattenMembers members,
        writeAll_cons_eq_ok.2 ⟨_, place_of_expectsValue h _ .endObject, rfl⟩⟩⟩

/-- The items of an array are gathered in reverse. -/
theorem writeAll_flattenItems (items : List Doc) {reversed : List Doc} {outer : List Unfinished}
    {root : Option Doc} :
    writeAll (Doc.flattenItems items) (⟨.array reversed :: outer, root⟩ : DocBuilder) =
      (.ok (), ⟨.array ((Doc.canonicalItems items).reverse ++ reversed) :: outer, root⟩) := by
  cases items with
  | nil => rfl
  | cons item items =>
    refine writeAll_append_eq_ok.2 ⟨_, writeAll_flatten item rfl, ?_⟩
    refine (writeAll_flattenItems items).trans ?_
    rw [Doc.canonicalItems, List.reverse_cons, List.append_assoc, List.singleton_append]

/-- The members of an object are put in their places, each behind its name. -/
theorem writeAll_flattenMembers (members : List (String × Doc)) {sorted : List (String × Doc)}
    {outer : List Unfinished} {root : Option Doc} :
    writeAll (Doc.flattenMembers members) (⟨.object sorted none :: outer, root⟩ : DocBuilder) =
      (.ok (), ⟨.object (Doc.canonicalMembers sorted members) none :: outer, root⟩) := by
  match members with
  | [] => rfl
  | (name, value) :: members =>
    refine writeAll_cons_eq_ok.2 ⟨⟨.object sorted (some name) :: outer, root⟩, rfl,
      writeAll_append_eq_ok.2 ⟨_, writeAll_flatten value rfl, ?_⟩⟩
    exact writeAll_flattenMembers members

end

end DocBuilder

/-! ### Walking -/

namespace DocWalker

/-- What is handed out is what was left before and is not left behind. -/
theorem tokens_of_produces {walker final : DocWalker} {tokens : List Token}
    (h : Produces walker tokens final) : walker.tokens = tokens ++ final.tokens := by
  induction h with
  | nil => rfl
  | @cons walker walker' _ token _ hproduce _ ih =>
    -- To hand out a token is to make a step.
    have hstep : walker.step? = some (token, walker') := by
      change walker.produce = _ at hproduce
      unfold produce at hproduce
      split at hproduce
      · cases hproduce
      next heq =>
        cases hproduce
        exact heq
    rw [tokens_of_step? hstep, ih, List.cons_append]

/-- A step hands out its token. -/
theorem produce_of_step? {walker : DocWalker} {token : Token} {walker' : DocWalker}
    (h : walker.step? = some (token, walker')) :
    TokenProducer.produce walker = (.ok (some token), walker') := by
  show walker.produce = _
  rw [produce, h]

/-- Where there is no step there is no token, and the walker stays where it is. -/
theorem produce_of_step?_eq_none {walker : DocWalker} (h : walker.step? = none) :
    TokenProducer.produce walker = (.ok none, walker) := by
  show walker.produce = _
  rw [produce, h]

/-- Where no token is handed out none is left. -/
theorem tokens_of_step?_eq_none {walker : DocWalker} (h : walker.step? = none) :
    walker.tokens = [] := by
  obtain ⟨value, pending⟩ := walker
  match value, pending with
  | none, [] => rfl
  | none, .items [] :: _ | none, .items (_ :: _) :: _ | none, .members [] :: _
  | none, .members (_ :: _) :: _ | some _, _ => cases h

/-- **All tokens that are left are handed out**, and where there are no more the walker
stays.  Some tokens are handed out up to a place without a step, and nothing is left
there. -/
theorem produces_tokens (walker : DocWalker) :
    ∃ final, Produces walker walker.tokens final ∧
      TokenProducer.produce final = (.ok none, final) := by
  obtain ⟨tokens, final, hproduces, hend⟩ := exists_produces walker
  have hstep : final.step? = none := by
    cases hstep : final.step? with
    | none => rfl
    | some pair => exact absurd (produce_of_step? hstep) (hend pair.1 pair.2)
  refine ⟨final, ?_, produce_of_step?_eq_none hstep⟩
  rwa [tokens_of_produces hproduces, tokens_of_step?_eq_none hstep, List.append_nil]

/-- At the root all tokens of the document are left. -/
theorem tokens_of (doc : Doc) : (DocWalker.of doc).tokens = doc.flatten := List.append_nil _

end DocWalker

/-! ### Projecting -/

/-- **A document in memory is projected as a tree**, and what comes out is canonical,
whether or not the document is.  The walker delivers the document's tokens, and the builder
takes those of what comes out. -/
theorem projectDoc_eq (mask : Option Mask) (doc : Doc) :
    projectDoc mask doc = .ok (doc.through mask).canonical := by
  obtain ⟨final, hproduces, -⟩ := DocWalker.produces_tokens (.of doc)
  rw [DocWalker.tokens_of] at hproduces
  have hholds := Lookahead.holds_of hproduces
  rw [← List.append_nil doc.flatten] at hholds
  have hempty : DocBuilder.empty.expectsValue = true := rfl
  obtain ⟨source, hproject, -⟩ := project_of_writeAll (Lookahead.faithful final) mask doc hholds
    (DocBuilder.writeAll_flatten (doc.through mask) hempty)
  rw [projectDoc, hproject]
  rfl

/-! ### There and back -/

/-- **The walker and the builder undo each other.**  A canonical document is walked token by token,
and behind the last of them there is nothing to be seen and nothing to be taken, however often one
tries; put together again, the tokens give the document.  So without a mask, and with one that says
nothing, a document in memory is projected to itself, and no mask makes the projection fail. -/
theorem canonical_rebuilt {doc : Doc} (h : doc.Canonical) :
    (∃ final, drain (Lookahead.of (DocWalker.of doc)) = (.ok doc.flatten, final) ∧
        TokenSource.peek final = (.ok none, final) ∧
        TokenSource.next final = (.error .unexpectedEnd, final)) ∧
      (∃ builder, writeAll doc.flatten DocBuilder.empty = (.ok (), builder) ∧
        builder.finish = .ok doc) ∧
      projectDoc none doc = .ok doc ∧ projectDoc (some .empty) doc = .ok doc ∧
      ∀ mask, ∃ out, projectDoc mask doc = .ok out := by
  have hcanonical : doc.canonical = doc := Doc.Canonical.canonical_eq doc h
  -- Walking, building, and the two projections that change nothing.
  refine ⟨?_, ?_, ?_, ?_, fun mask => ⟨_, projectDoc_eq mask doc⟩⟩
  · obtain ⟨final, hproduces, hend⟩ := DocWalker.produces_tokens (.of doc)
    rw [DocWalker.tokens_of] at hproduces
    exact ⟨.of final, drain_of_produces_none hproduces hend, Lookahead.peek_of_none hend,
      Lookahead.next_of_none hend⟩
  · have hempty : DocBuilder.empty.expectsValue = true := rfl
    refine ⟨_, DocBuilder.writeAll_flatten doc hempty, ?_⟩
    rw [hcanonical]
    rfl
  · have hthrough : doc.through none = doc := rfl
    rw [projectDoc_eq, hthrough, hcanonical]
  · have hthrough : doc.through (some .empty) = doc := rfl
    rw [projectDoc_eq, hthrough, hcanonical]

/-- A document with empty containers, one of them the value of a member. -/
theorem canonical_rebuilt_nested :
    projectDoc none (.object [("a", .array [.array []]), ("b", .object [])]) =
      .ok (.object [("a", .array [.array []]), ("b", .object [])]) := by
  have hcanonical : (Doc.object [("a", .array [.array []]), ("b", .object [])]).Canonical :=
    ⟨by decide, ⟨trivial, trivial⟩, by decide, trivial, trivial⟩
  exact (canonical_rebuilt hcanonical).2.2.1

end FieldMask
