import FieldMask.Stream.Source

namespace FieldMask

/-!
# Looking one token ahead

* `TokenProducer` — what can only hand out tokens one after the other.
* `Lookahead` — a producer with the token that was looked at and not yet taken, which makes it a
  `TokenSource`.
* `Lookahead.shows_peek`, `Lookahead.gives_next` — what looking and taking come to, by what is held
  and by what the producer says.
-/

/-- What hands out tokens one after the other, until it has none.  It cannot be looked into:
what it will hand out next is only known by taking it. -/
class TokenProducer (π : Type) where
  /-- Produces the next token; none if there are no more. -/
  produce : π → Except StreamError (Option Token) × π
  /-- A bound on the number of tokens left. -/
  remaining : π → Nat
  remaining_produce_le : ∀ producer, remaining (produce producer).2 ≤ remaining producer
  remaining_lt_of_produce : ∀ {producer producer' : π} {token : Token},
    produce producer = (.ok (some token), producer') → remaining producer' < remaining producer

/-- A producer, and the token that was looked at and not yet taken. -/
structure Lookahead (π : Type) where
  producer : π
  held : Option Token

namespace Lookahead

variable {π : Type}

/-- A producer of which no token has been looked at; every lookahead begins so. -/
def of (producer : π) : Lookahead π := ⟨producer, none⟩

/-- The number of tokens left, the held one included. -/
def remaining [TokenProducer π] (source : Lookahead π) : Nat :=
  TokenProducer.remaining source.producer + (if source.held.isSome then 1 else 0)

/-- The kind of the next token, which is held until it is taken.  A second look asks the
producer no more, unless the first one failed or found the end. -/
def peek [TokenProducer π] (source : Lookahead π) :
    Except StreamError (Option TokenKind) × Lookahead π :=
  match source.held with
  | some token => (.ok (some token.kind), source)
  | none =>
    match TokenProducer.produce source.producer with
    | (.error e, producer) => (.error e, ⟨producer, none⟩)
    | (.ok token, producer) => (.ok (token.map Token.kind), ⟨producer, token⟩)

/-- Takes the next token: the held one, or one that is produced now.  Where there is no
further token a token stream has ended too early. -/
def next [TokenProducer π] (source : Lookahead π) : Except StreamError Token × Lookahead π :=
  match source.held with
  | some token => (.ok token, ⟨source.producer, none⟩)
  | none =>
    match TokenProducer.produce source.producer with
    | (.error e, producer) => (.error e, ⟨producer, none⟩)
    | (.ok none, producer) => (.error .unexpectedEnd, ⟨producer, none⟩)
    | (.ok (some token), producer) => (.ok token, ⟨producer, none⟩)

variable [TokenProducer π]

/-! ### What the two operations come to -/

/-- What a look at the next token comes to: the held token is shown, or the producer is asked, and
what it says is shown and held. -/
inductive Shows (source : Lookahead π) : Except StreamError (Option TokenKind) × Lookahead π → Prop
    where
  | held {token : Token} (hheld : source.held = some token) :
      Shows source (.ok (some token.kind), source)
  | asked {token : Option Token} {producer : π} (hheld : source.held = none)
      (hproduce : TokenProducer.produce source.producer = (.ok token, producer)) :
      Shows source (.ok (token.map Token.kind), ⟨producer, token⟩)
  | failed {e : StreamError} {producer : π} (hheld : source.held = none)
      (hproduce : TokenProducer.produce source.producer = (.error e, producer)) :
      Shows source (.error e, ⟨producer, none⟩)

/-- What taking the next token comes to: the held token is given, or the producer is asked for one,
and that it has none is a failure. -/
inductive Gives (source : Lookahead π) : Except StreamError Token × Lookahead π → Prop where
  | held {token : Token} (hheld : source.held = some token) :
      Gives source (.ok token, ⟨source.producer, none⟩)
  | asked {token : Token} {producer : π} (hheld : source.held = none)
      (hproduce : TokenProducer.produce source.producer = (.ok (some token), producer)) :
      Gives source (.ok token, ⟨producer, none⟩)
  | ended {producer : π} (hheld : source.held = none)
      (hproduce : TokenProducer.produce source.producer = (.ok none, producer)) :
      Gives source (.error .unexpectedEnd, ⟨producer, none⟩)
  | failed {e : StreamError} {producer : π} (hheld : source.held = none)
      (hproduce : TokenProducer.produce source.producer = (.error e, producer)) :
      Gives source (.error e, ⟨producer, none⟩)

/-- A look at the next token is one of the three cases of `Shows`, which lemmas about looks
go through. -/
theorem shows_peek (source : Lookahead π) : source.Shows source.peek := by
  unfold peek
  split
  next hheld => exact .held hheld
  next hheld =>
    split
    next hproduce => exact .failed hheld hproduce
    next hproduce => exact .asked hheld hproduce

/-- Taking the next token is one of the four cases of `Gives`. -/
theorem gives_next (source : Lookahead π) : source.Gives source.next := by
  unfold next
  split
  next hheld => exact .held hheld
  next hheld =>
    split
    next hproduce => exact .failed hheld hproduce
    next hproduce => exact .ended hheld hproduce
    next hproduce => exact .asked hheld hproduce

/-! ### Tokens left -/

/-- A look leaves no more tokens than there were: what is held now was still to be produced. -/
theorem remaining_peek_le (source : Lookahead π) : source.peek.2.remaining ≤ source.remaining := by
  have hle := TokenProducer.remaining_produce_le source.producer
  have hpeek := source.shows_peek
  generalize source.peek = result at hpeek
  cases hpeek with
  | held _ => exact Nat.le_refl _
  -- A look that has asked holds the token now: it counts as one, where the producer had it before.
  | @asked token producer hheld hproduce =>
    simp only [remaining, hheld]
    rw [hproduce] at hle
    cases token with
    | none => exact hle
    | some token => exact TokenProducer.remaining_lt_of_produce hproduce
  | failed hheld hproduce =>
    simp only [remaining, hheld]
    rw [hproduce] at hle
    exact hle

/-- A token that is taken was held, and counted for that, or it has been produced now. -/
theorem remaining_lt_of_next {source source' : Lookahead π} {token : Token}
    (h : source.next = (.ok token, source')) : source'.remaining < source.remaining := by
  have hnext := source.gives_next
  rw [h] at hnext
  cases hnext with
  | held hheld => simp [remaining, hheld]
  | asked hheld hproduce =>
    simpa [remaining, hheld] using TokenProducer.remaining_lt_of_produce hproduce

instance : TokenSource (Lookahead π) where
  peek := peek
  next := next
  remaining := remaining
  remaining_peek_le := remaining_peek_le
  remaining_lt_of_next := remaining_lt_of_next

end Lookahead

end FieldMask
