import FieldMask.Stream.Sink
import FieldMask.Stream.Source

namespace FieldMask

/-!
# What a source delivers and what a sink takes

A source is a state that only answers `peek` and `next`, so the tokens it is going to deliver are
a reading of that state, not a part of it.

* `Faithful` — a reading of the states of a source under which every announced kind is that of the
  token that comes, looking takes nothing and taking takes one token.  Nothing is asked of a source
  whose tokens have come to an end.
* `Replay.faithful` — replayed tokens are read off the list that is left.
* `writeAll` — some tokens handed to a sink one after the other, up to the first that it refuses.
* `writeAll_cons_eq_ok`, `writeAll_append_eq_ok` — a run of tokens is taken if each part of it is.
* `refusedAt?` — the place of the first token that is refused; `refusedAt?_eq_none_iff` — there is
  none if all tokens are taken.
-/

variable {σ κ : Type} [TokenSource σ] [TokenSink κ]

/-- A reading of a source's states as the tokens that are still to come.  This is what a
projection may rely on; nothing is said about what a source does at its end. -/
structure Faithful (pending : σ → List Token → Prop) : Prop where
  /-- The announced kind is that of the next token, and looking takes nothing. -/
  peek : ∀ {source : σ} {token : Token} {rest : List Token}, pending source (token :: rest) →
    ∃ source', TokenSource.peek source = (.ok (some token.kind), source') ∧
      pending source' (token :: rest)
  /-- Taking a token leaves those behind it. -/
  next : ∀ {source : σ} {token : Token} {rest : List Token}, pending source (token :: rest) →
    ∃ source', TokenSource.next source = (.ok token, source') ∧ pending source' rest

/-- A replayed list is delivered as it stands. -/
theorem Replay.faithful : Faithful fun (source : Replay) tokens => source = .ofTokens tokens where
  peek := by
    rintro source token rest rfl
    exact ⟨_, rfl, rfl⟩
  next := by
    rintro source token rest rfl
    exact ⟨_, rfl, rfl⟩

/-! ### Handing tokens to a sink -/

/-- Hands some tokens to a sink, up to the first that it refuses.  What the sink has become
by then comes with the result. -/
def writeAll : List Token → κ → Except StreamError Unit × κ
  | [], sink => (.ok (), sink)
  | token :: rest, sink =>
    match TokenSink.write token sink with
    | (.error e, sink) => (.error e, sink)
    | (.ok (), sink) => writeAll rest sink

@[simp] theorem writeAll_nil (sink : κ) : writeAll [] sink = (.ok (), sink) := rfl

/-- Some tokens are taken if the first one is, and then the others.  Between the two the
sink has some state, which the proofs about documents name. -/
theorem writeAll_cons_eq_ok {token : Token} {rest : List Token} {sink sink' : κ} :
    writeAll (token :: rest) sink = (.ok (), sink') ↔
      ∃ between, TokenSink.write token sink = (.ok (), between) ∧
        writeAll rest between = (.ok (), sink') := by
  rw [writeAll]
  constructor
  · intro h
    split at h
    · cases h
    next hwrite => exact ⟨_, hwrite, h⟩
  · rintro ⟨between, hwrite, hrest⟩
    rw [hwrite]
    exact hrest

/-- Tokens in two parts are taken if the first part is, and then the second.  By induction
on the tokens of the first part. -/
theorem writeAll_append_eq_ok {tokens tokens' : List Token} {sink sink' : κ} :
    writeAll (tokens ++ tokens') sink = (.ok (), sink') ↔
      ∃ between, writeAll tokens sink = (.ok (), between) ∧
        writeAll tokens' between = (.ok (), sink') := by
  induction tokens generalizing sink with
  | nil => simp
  | cons token rest ih =>
    rw [List.cons_append, writeAll_cons_eq_ok]
    constructor
    · rintro ⟨first, hwrite, hrest⟩
      obtain ⟨between, hrest, htokens'⟩ := ih.1 hrest
      exact ⟨between, writeAll_cons_eq_ok.2 ⟨first, hwrite, hrest⟩, htokens'⟩
    · rintro ⟨between, hrest, htokens'⟩
      obtain ⟨first, hwrite, hrest⟩ := writeAll_cons_eq_ok.1 hrest
      exact ⟨first, hwrite, ih.2 ⟨between, hrest, htokens'⟩⟩

/-- A sink that keeps every token refuses none. -/
theorem writeAll_collected (tokens : List Token) (sink : Collected) :
    writeAll tokens sink = (.ok (), ⟨sink.tokens ++ tokens.toArray⟩) := by
  induction tokens generalizing sink with
  | nil => simp
  | cons token rest ih =>
    rw [writeAll_cons_eq_ok]
    refine ⟨⟨sink.tokens.push token⟩, rfl, ?_⟩
    rw [ih]
    simp

/-- Nor does one that keeps none. -/
theorem writeAll_discarded (tokens : List Token) (sink : Discarded) :
    writeAll tokens sink = (.ok (), sink) := by
  induction tokens with
  | nil => rfl
  | cons token rest ih => exact writeAll_cons_eq_ok.2 ⟨sink, rfl, ih⟩

/-! ### The first token that is refused -/

/-- How many tokens a sink takes before it refuses one; none if it takes all of them.  It
tells how far two sinks go without telling what they have made of the tokens. -/
def refusedAt? : List Token → κ → Option Nat
  | [], _ => none
  | token :: rest, sink =>
    match TokenSink.write token sink with
    | (.error _, _) => some 0
    | (.ok (), sink) => (refusedAt? rest sink).map (· + 1)

/-- A token that is refused is the first to be. -/
theorem refusedAt?_cons_of_error {token : Token} {rest : List Token} {sink sink' : κ}
    {e : StreamError} (h : TokenSink.write token sink = (.error e, sink')) :
    refusedAt? (token :: rest) sink = some 0 := by
  rw [refusedAt?, h]

/-- Behind a token that is taken one more has been taken. -/
theorem refusedAt?_cons_of_ok {token : Token} {rest : List Token} {sink sink' : κ}
    (h : TokenSink.write token sink = (.ok (), sink')) :
    refusedAt? (token :: rest) sink = (refusedAt? rest sink').map (· + 1) := by
  rw [refusedAt?, h]

/-- No token is refused if, and only if, all of them are taken.  By induction on the tokens,
for any state of the sink. -/
theorem refusedAt?_eq_none_iff {tokens : List Token} {sink : κ} :
    refusedAt? tokens sink = none ↔ ∃ sink', writeAll tokens sink = (.ok (), sink') := by
  induction tokens generalizing sink with
  | nil => exact iff_of_true rfl ⟨sink, rfl⟩
  | cons token rest ih =>
    cases hwrite : TokenSink.write token sink with
    | mk result next =>
      cases result with
      | error e =>
        have hrefused : refusedAt? (token :: rest) sink = some 0 := refusedAt?_cons_of_error hwrite
        rw [hrefused, writeAll, hwrite]
        simp
      | ok done =>
        have htaken : refusedAt? (token :: rest) sink = (refusedAt? rest next).map (· + 1) :=
          refusedAt?_cons_of_ok hwrite
        rw [htaken, writeAll, hwrite, Option.map_eq_none_iff]
        exact ih

end FieldMask
