import FieldMask.Document.Basic
import FieldMask.Stream.Lookahead

namespace FieldMask

/-!
# Walking a document

A document in memory hands out its tokens one after the other.  The containers on the way to the
current place are held in a list, each with what is left of it, so the tree is never laid out as a
list of tokens.

* `Pending` — what is left of a container that has been entered.
* `DocWalker` — a place in a document; `DocWalker.produce` — the next token.
* `DocWalker` is a `TokenProducer`: it has as many tokens as `DocWalker.size` says.
-/

/-- What is left of a container that has been entered. -/
inductive Pending where
  | items (rest : List Doc)
  | members (rest : List (String × Doc))

/-- A place in a document: a value that is to come next, if any, and the containers around it,
innermost first. -/
structure DocWalker where
  value : Option Doc
  pending : List Pending

namespace DocWalker

/-- The place before a document. -/
def of (doc : Doc) : DocWalker := ⟨some doc, []⟩

/-- The first token of a value, and the place behind it. -/
def enter (value : Doc) (pending : List Pending) : Token × DocWalker :=
  match value with
  | .scalar s => (.scalar s, ⟨none, pending⟩)
  | .array items => (.beginArray, ⟨none, .items items :: pending⟩)
  | .object members => (.beginObject, ⟨none, .members members :: pending⟩)

/-- The next token, and the place behind it.  A value that is due comes before what is
pending; where neither is there the document is at its end. -/
def step? (walker : DocWalker) : Option (Token × DocWalker) :=
  match walker.value, walker.pending with
  | some value, pending => some (enter value pending)
  | none, [] => none
  | none, .items [] :: outer => some (.endArray, ⟨none, outer⟩)
  | none, .items (item :: rest) :: outer => some (enter item (.items rest :: outer))
  | none, .members [] :: outer => some (.endObject, ⟨none, outer⟩)
  | none, .members ((name, value) :: rest) :: outer =>
    some (.key name, ⟨some value, .members rest :: outer⟩)

/-- Hands out the next token. -/
def produce (walker : DocWalker) : Except StreamError (Option Token) × DocWalker :=
  match walker.step? with
  | none => (.ok none, walker)
  | some (token, walker) => (.ok (some token), walker)

/-! ### How many tokens are left -/

/-- The tokens left in a container that has been entered. -/
def pendingTokens : Pending → List Token
  | .items rest => Doc.flattenItems rest ++ [.endArray]
  | .members rest => Doc.flattenMembers rest ++ [.endObject]

/-- The tokens left. -/
def tokens (walker : DocWalker) : List Token :=
  (walker.value.map Doc.flatten).getD [] ++ walker.pending.flatMap pendingTokens

/-- Entering a value hands out its first token, and the place behind it has the others
left. -/
theorem tokens_enter (value : Doc) (pending : List Pending) :
    (enter value pending).1 :: (enter value pending).2.tokens =
      value.flatten ++ pending.flatMap pendingTokens := by
  cases value <;> simp [enter, tokens, Doc.flatten, pendingTokens]

/-- A step hands out the first of the tokens left.  All that is known of a walk comes from
this: the tokens left are those of the document, from which one after the other is taken. -/
theorem tokens_of_step? {walker walker' : DocWalker} {token : Token}
    (h : walker.step? = some (token, walker')) : walker.tokens = token :: walker'.tokens := by
  obtain ⟨value, pending⟩ := walker
  -- A value that is to come is entered; without one, the innermost container goes on or ends.
  cases value with
  | some value =>
    have := tokens_enter value pending
    rw [Option.some.inj h] at this
    simpa [tokens] using this.symm
  | none =>
    match pending, h with
    | .items [] :: outer, h => cases h; simp [tokens, pendingTokens, Doc.flattenItems]
    | .items (item :: rest) :: outer, h =>
      have := tokens_enter item (.items rest :: outer)
      rw [Option.some.inj h] at this
      simp [tokens, pendingTokens, Doc.flattenItems] at this ⊢
      exact this.symm
    | .members [] :: outer, h => cases h; simp [tokens, pendingTokens, Doc.flattenMembers]
    | .members ((name, value) :: rest) :: outer, h =>
      cases h
      simp [tokens, pendingTokens, Doc.flattenMembers]

/-- The number of tokens left. -/
def size (walker : DocWalker) : Nat := walker.tokens.length

/-- A token that is handed out is one less left. -/
theorem size_lt_of_produce {walker walker' : DocWalker} {token : Token}
    (h : walker.produce = (.ok (some token), walker')) : walker'.size < walker.size := by
  unfold produce at h
  split at h
  · cases h
  next hstep =>
    cases h
    simp [size, tokens_of_step? hstep]

/-- At the end of the document nothing is taken any more. -/
theorem size_produce_le (walker : DocWalker) : walker.produce.2.size ≤ walker.size := by
  unfold produce
  split
  · exact Nat.le_refl _
  next hstep => simp [size, tokens_of_step? hstep]

instance : TokenProducer DocWalker where
  produce := produce
  remaining := size
  remaining_produce_le := size_produce_le
  remaining_lt_of_produce := size_lt_of_produce

end DocWalker

end FieldMask
