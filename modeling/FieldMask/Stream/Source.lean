import FieldMask.Stream.Token

namespace FieldMask

/-!
# Sources of tokens

* `TokenSource` — where tokens come from: the kind of the next one can be seen before it is taken.
  A source has only so many tokens left, so whatever takes tokens until one is missing comes to an
  end.
* `Replay` — a source that delivers a given list; each entry may claim another kind for itself
  than that of its token.

An operation that fails still leaves a source behind, from which the caller may go on.
-/

/-- Where tokens come from.  Looking at a token may read ahead, so it too gives back the
source; but it may not make more tokens of it. -/
class TokenSource (σ : Type) where
  /-- The kind of the next token; none if there is none. -/
  peek : σ → Except StreamError (Option TokenKind) × σ
  /-- Takes the next token. -/
  next : σ → Except StreamError Token × σ
  /-- A bound on the number of tokens left. -/
  remaining : σ → Nat
  remaining_peek_le : ∀ source, remaining (peek source).2 ≤ remaining source
  remaining_lt_of_next : ∀ {source source' : σ} {token : Token},
    next source = (.ok token, source') → remaining source' < remaining source

/-- A token to be delivered, and the kind that is claimed for it if asked before; without a
claim that is the kind of the token. -/
structure Replayed where
  token : Token
  claimed : Option TokenKind

/-- The kind that is reported for an entry. -/
def Replayed.kind (entry : Replayed) : TokenKind := entry.claimed.getD entry.token.kind

/-- A source that delivers the given tokens and then ends. -/
structure Replay where
  entries : List Replayed

namespace Replay

/-- The source that delivers some tokens and claims nothing false. -/
def ofTokens (tokens : List Token) : Replay := ⟨tokens.map fun token => ⟨token, none⟩⟩

/-- The reported kind of the next entry. -/
def peek (source : Replay) : Except StreamError (Option TokenKind) × Replay :=
  (.ok (source.entries.head?.map Replayed.kind), source)

/-- The next entry's token.  What was claimed for it plays no part. -/
def next (source : Replay) : Except StreamError Token × Replay :=
  match source.entries with
  | [] => (.error .unexpectedEnd, source)
  | entry :: rest => (.ok entry.token, ⟨rest⟩)

/-- A token that is taken is one entry less. -/
theorem length_lt_of_next {source source' : Replay} {token : Token}
    (h : source.next = (.ok token, source')) :
    source'.entries.length < source.entries.length := by
  unfold next at h
  split at h
  · cases h
  next heq =>
    cases h
    simp [heq]

instance : TokenSource Replay where
  peek := peek
  next := next
  remaining source := source.entries.length
  remaining_peek_le _ := Nat.le_refl _
  remaining_lt_of_next := length_lt_of_next

end Replay

end FieldMask
