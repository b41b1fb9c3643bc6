import FieldMask.Proofs.Stream.Delivery
import FieldMask.Stream.Lookahead
import FieldMask.Stream.Projection

namespace FieldMask

/-!
# What a producer hands out

* `Produces` — the tokens that a producer hands out one after the other, and what it then is.
* `exists_produces` — every producer comes to a place where it hands out no token.
* `Lookahead.Holds`, `Lookahead.faithful` — a producer looked ahead of delivers what it hands out.
* `Lookahead.peek_of_some`, `Lookahead.next_of_some`, … — one token, by what is handed out.
* `drain` — takes tokens from a source until it has none; `drain_of_produces_none`,
  `drain_of_produces_error` — what that gives.
-/

variable {π : Type} [TokenProducer π] {producer producer' final : π} {tokens : List Token}

/-- A producer hands out some tokens and then is in a given state. -/
inductive Produces : π → List Token → π → Prop where
  | nil {producer : π} : Produces producer [] producer
  | cons {producer producer' final : π} {token : Token} {tokens : List Token}
      (h : TokenProducer.produce producer = (.ok (some token), producer'))
      (hrest : Produces producer' tokens final) : Produces producer (token :: tokens) final

/-- One token more is handed out. -/
theorem Produces.concat {token : Token} (h : Produces producer tokens final)
    (hproduce : TokenProducer.produce final = (.ok (some token), producer')) :
    Produces producer (tokens ++ [token]) producer' := by
  induction h with
  | nil => exact .cons hproduce .nil
  | cons h _ ih => exact .cons h (ih hproduce)

/-- Every producer comes to a place where it hands out no token.  The induction is on the
measure of a producer, which falls with each token. -/
theorem exists_produces (producer : π) :
    ∃ tokens final, Produces producer tokens final ∧
      ∀ token producer', TokenProducer.produce final ≠ (.ok (some token), producer') := by
  induction hremaining : TokenProducer.remaining producer using Nat.strongRecOn
    generalizing producer with
  | ind n ih =>
    subst hremaining
    by_cases hmore : ∃ token producer',
        TokenProducer.produce producer = (.ok (some token), producer')
    · obtain ⟨token, producer', hproduce⟩ := hmore
      obtain ⟨tokens, final, hrest, hend⟩ :=
        ih _ (TokenProducer.remaining_lt_of_produce hproduce) producer' rfl
      exact ⟨token :: tokens, final, .cons hproduce hrest, hend⟩
    · refine ⟨[], producer, .nil, ?_⟩
      intro token producer' hproduce
      exact hmore ⟨token, producer', hproduce⟩

namespace Lookahead

/-- A source is going to deliver the token that it holds, if any, and then what its producer hands
out up to a given state. -/
def Holds (final : π) (source : Lookahead π) (tokens : List Token) : Prop :=
  ∃ ahead, tokens = source.held.toList ++ ahead ∧ Produces source.producer ahead final

theorem holds_of (h : Produces producer tokens final) :
    (Lookahead.of producer).Holds final tokens :=
  ⟨tokens, rfl, h⟩

/-- A source from which nothing is to come holds nothing. -/
theorem eq_of_holds_nil {source : Lookahead π} (h : source.Holds final []) :
    source = .of final := by
  obtain ⟨producer, held⟩ := source
  obtain ⟨ahead, htokens, hproduces⟩ := h
  obtain ⟨hheld, rfl⟩ := List.append_eq_nil_iff.1 htokens.symm
  obtain rfl : held = none := by simpa using hheld
  cases hproduces
  rfl

/-- A look at a source that holds nothing makes it hold the token that is handed out. -/
theorem peek_of_some {token : Token}
    (h : TokenProducer.produce producer = (.ok (some token), producer')) :
    TokenSource.peek (Lookahead.of producer) =
      (.ok (some token.kind), ⟨producer', some token⟩) := by
  show Lookahead.peek (Lookahead.of producer) = _
  rw [Lookahead.peek, Lookahead.of]
  dsimp only
  rw [h]
  rfl

/-- A token that is taken at once is never held. -/
theorem next_of_some {token : Token}
    (h : TokenProducer.produce producer = (.ok (some token), producer')) :
    TokenSource.next (Lookahead.of producer) = (.ok token, .of producer') := by
  show Lookahead.next (Lookahead.of producer) = _
  rw [Lookahead.next, Lookahead.of]
  dsimp only
  rw [h]
  rfl

/-- A producer looked ahead of delivers what it hands out.  In every case a token is either
held already, or has to be handed out first. -/
theorem faithful (final : π) : Faithful (Holds final) where
  peek := by
    rintro ⟨producer, held⟩ token rest ⟨ahead, htokens, hproduces⟩
    cases held with
    | some first =>
      obtain ⟨rfl, rfl⟩ := List.cons.inj htokens
      exact ⟨_, rfl, rest, rfl, hproduces⟩
    | none =>
      obtain rfl : token :: rest = ahead := htokens
      cases hproduces with
      | @cons _ behind _ _ _ hproduce hrest =>
        exact ⟨⟨behind, some token⟩, peek_of_some hproduce, rest, rfl, hrest⟩
  next := by
    rintro ⟨producer, held⟩ token rest ⟨ahead, htokens, hproduces⟩
    cases held with
    | some first =>
      obtain ⟨rfl, rfl⟩ := List.cons.inj htokens
      exact ⟨_, rfl, rest, rfl, hproduces⟩
    | none =>
      obtain rfl : token :: rest = ahead := htokens
      cases hproduces with
      | @cons _ behind _ _ _ hproduce hrest =>
        exact ⟨.of behind, next_of_some hproduce, rest, rfl, hrest⟩

/-- A look past the last token finds nothing. -/
theorem peek_of_none (h : TokenProducer.produce producer = (.ok none, producer')) :
    TokenSource.peek (Lookahead.of producer) = (.ok none, .of producer') := by
  show Lookahead.peek (Lookahead.of producer) = _
  rw [Lookahead.peek, Lookahead.of]
  dsimp only
  rw [h]
  rfl

/-- A look at a producer that fails shows the failure. -/
theorem peek_of_error {e : StreamError}
    (h : TokenProducer.produce producer = (.error e, producer')) :
    TokenSource.peek (Lookahead.of producer) = (.error e, .of producer') := by
  show Lookahead.peek (Lookahead.of producer) = _
  rw [Lookahead.peek, Lookahead.of]
  dsimp only
  rw [h]
  rfl

/-- Whoever takes a token past the last one meets the end. -/
theorem next_of_none (h : TokenProducer.produce producer = (.ok none, producer')) :
    TokenSource.next (Lookahead.of producer) = (.error .unexpectedEnd, .of producer') := by
  show Lookahead.next (Lookahead.of producer) = _
  rw [Lookahead.next, Lookahead.of]
  dsimp only
  rw [h]
  rfl

/-- Whoever takes a token of a producer that fails meets its failure. -/
theorem next_of_error {e : StreamError}
    (h : TokenProducer.produce producer = (.error e, producer')) :
    TokenSource.next (Lookahead.of producer) = (.error e, .of producer') := by
  show Lookahead.next (Lookahead.of producer) = _
  rw [Lookahead.next, Lookahead.of]
  dsimp only
  rw [h]
  rfl

/-- The token that has been handed out, if there was one. -/
def handedOut : Except StreamError (Option Token) → Option Token
  | .ok token => token
  | .error _ => none

/-- Whatever is handed out is held by a source that held nothing.  Looking at a producer
makes it produce. -/
theorem snd_peek_of (producer : π) :
    (TokenSource.peek (Lookahead.of producer)).2 =
      ⟨(TokenProducer.produce producer).2, handedOut (TokenProducer.produce producer).1⟩ := by
  match h : TokenProducer.produce producer with
  | (.error e, producer') =>
    rw [peek_of_error h]
    rfl
  | (.ok none, producer') =>
    rw [peek_of_none h]
    rfl
  | (.ok (some token), producer') =>
    rw [peek_of_some h]
    rfl

end Lookahead

/-! ### Taking all tokens -/

/-- Takes tokens from a source until it has none.  Every token is looked at before it is
taken, as a projection does. -/
def drain {σ : Type} [TokenSource σ] (source : σ) : Except StreamError (List Token) × σ :=
  match _hpeek : TokenSource.peek source with
  | (.error e, source) => (.error e, source)
  | (.ok none, source) => (.ok [], source)
  | (.ok (some _), looked) =>
    match _hnext : TokenSource.next looked with
    | (.error e, source) => (.error e, source)
    | (.ok token, behind) =>
      let (result, source) := drain behind
      (result.map (token :: ·), source)
termination_by TokenSource.remaining source
decreasing_by
  exact Nat.lt_of_lt_of_le (TokenSource.remaining_lt_of_next ‹_›) (remaining_le_of_peek ‹_›)

section Drain

variable {σ : Type} [TokenSource σ] {pending : σ → List Token → Prop} {source source' : σ}

/-- Nothing is taken from a source that has no token. -/
theorem drain_of_peek_none (h : TokenSource.peek source = (.ok none, source')) :
    drain source = (.ok [], source') := by
  rw [drain]
  split <;> rename_i heq <;> rw [h] at heq <;> cases heq
  rfl

/-- The failure of a source ends the taking. -/
theorem drain_of_peek_error {e : StreamError} (h : TokenSource.peek source = (.error e, source')) :
    drain source = (.error e, source') := by
  rw [drain]
  split <;> rename_i heq <;> rw [h] at heq <;> cases heq
  rfl

/-- A token that is delivered is the first of those taken. -/
theorem drain_cons (hfaithful : Faithful pending) {token : Token} {rest : List Token}
    (h : pending source (token :: rest)) :
    ∃ source', pending source' rest ∧
      drain source = ((drain source').1.map (token :: ·), (drain source').2) := by
  obtain ⟨looked, hpeek, h₁⟩ := hfaithful.peek h
  obtain ⟨behind, hnext, h₂⟩ := hfaithful.next h₁
  refine ⟨behind, h₂, ?_⟩
  rw [drain]
  split <;> rename_i heq <;> rw [hpeek] at heq <;> cases heq
  split <;> rename_i heq <;> rw [hnext] at heq <;> cases heq
  rfl

end Drain

/-- All tokens that are handed out are taken, and then whatever the last state gives. -/
theorem drain_of_holds {source : Lookahead π} (h : source.Holds final tokens) :
    drain source =
      ((drain (Lookahead.of final)).1.map (tokens ++ ·), (drain (Lookahead.of final)).2) := by
  induction tokens generalizing source with
  | nil =>
    rw [Lookahead.eq_of_holds_nil h]
    cases hdrain : (drain (Lookahead.of final)).1 <;> exact Prod.ext hdrain rfl
  | cons token rest ih =>
    obtain ⟨source', hrest, hdrain⟩ := drain_cons (Lookahead.faithful final) h
    rw [hdrain, ih hrest]
    cases (drain (Lookahead.of final)).1 <;> rfl

/-- If the producer then ends, all of its tokens have been taken. -/
theorem drain_of_produces_none (h : Produces producer tokens final)
    (hend : TokenProducer.produce final = (.ok none, producer')) :
    drain (Lookahead.of producer) = (.ok tokens, .of producer') := by
  rw [drain_of_holds (Lookahead.holds_of h), drain_of_peek_none (Lookahead.peek_of_none hend)]
  exact Prod.ext (congrArg Except.ok (List.append_nil tokens)) rfl

/-- If the producer then fails, so does the taking, whatever has been taken before. -/
theorem drain_of_produces_error {e : StreamError} (h : Produces producer tokens final)
    (hend : TokenProducer.produce final = (.error e, producer')) :
    drain (Lookahead.of producer) = (.error e, .of producer') := by
  rw [drain_of_holds (Lookahead.holds_of h), drain_of_peek_error (Lookahead.peek_of_error hend)]
  rfl

end FieldMask
