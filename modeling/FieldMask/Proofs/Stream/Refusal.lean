import FieldMask.Proofs.Stream.Delivery

namespace FieldMask

/-!
# Going on after a refusal

Whoever writes to a sink may take no notice of its refusals and hand over the next token all the
same.  What the sink makes of the tokens together is then the same as if it had only been offered
those that it took, as long as a refusal leaves no trace in it.

* `offered`, `answers`, `accepted` — a sink that has been offered some tokens, what it says to each
  of them, and those that it takes.
* `Indistinguishable` — two states of a sink that nothing written later, and no finish, tells apart.
* `Unmoved` — a sink that no refusal changes; `writeAll_accepted` — it is where the tokens that it
  has taken lead.
-/

variable {κ : Type} [TokenSink κ]

/-- A sink that has been offered some tokens, whether it took them or not. -/
def offered (tokens : List Token) (sink : κ) : κ :=
  tokens.foldl (fun sink token => (TokenSink.write token sink).2) sink

/-- What a sink says to each of some tokens. -/
def answers : List Token → κ → List (Except StreamError Unit)
  | [], _ => []
  | token :: rest, sink =>
    (TokenSink.write token sink).1 :: answers rest (TokenSink.write token sink).2

/-- Those of some tokens that a sink takes when it is offered all of them.  Those that it
refuses are left out, and the next one is offered to what has become of it. -/
def accepted : List Token → κ → List Token
  | [], _ => []
  | token :: rest, sink =>
    match TokenSink.write token sink with
    | (.error _, sink) => accepted rest sink
    | (.ok (), sink) => token :: accepted rest sink

/-- Two states of a sink, if no tokens written to both and no finish behind them tell them apart. -/
def Indistinguishable {α : Type} (finish : κ → α) (sink sink' : κ) : Prop :=
  ∀ later : List Token, answers later sink' = answers later sink ∧
    finish (offered later sink') = finish (offered later sink)

/-- A sink that no refusal changes while it is offered some tokens. -/
def Unmoved (tokens : List Token) (sink : κ) : Prop :=
  ∀ (before : List Token) (token : Token) (after : List Token) (e : StreamError) (sink' : κ),
    tokens = before ++ token :: after →
    TokenSink.write token (offered before sink) = (.error e, sink') → sink' = offered before sink

/-- The first token is offered, and the others to what comes of that. -/
@[simp] theorem offered_cons (token : Token) (rest : List Token) (sink : κ) :
    offered (token :: rest) sink = offered rest (TokenSink.write token sink).2 := rfl

/-- A sink that takes all of some tokens is led on by them in the same way. -/
theorem offered_of_writeAll {tokens : List Token} {sink sink' : κ}
    (h : writeAll tokens sink = (.ok (), sink')) : offered tokens sink = sink' := by
  induction tokens generalizing sink with
  | nil =>
    cases h
    rfl
  | cons token rest ih =>
    obtain ⟨between, hwrite, hrest⟩ := writeAll_cons_eq_ok.1 h
    rw [offered_cons, hwrite, ih hrest]

/-- A sink that no refusal changes is, one token later, again such a sink. -/
theorem Unmoved.of_cons {token : Token} {rest : List Token} {sink : κ}
    (h : Unmoved (token :: rest) sink) : Unmoved rest (TokenSink.write token sink).2 := by
  intro before next after e sink' hrest hwrite
  exact h (token :: before) next after e sink' (congrArg (token :: ·) hrest) hwrite

/-- **A sink that no refusal changes is where the tokens that it has taken lead.**  So
what it makes of many tokens, some of them refused, is what it makes of a run without
refusals. -/
theorem writeAll_accepted {tokens : List Token} {sink : κ} (h : Unmoved tokens sink) :
    writeAll (accepted tokens sink) sink = (.ok (), offered tokens sink) := by
  induction tokens generalizing sink with
  | nil => rfl
  | cons token rest ih =>
    have hrest := ih h.of_cons
    rw [accepted, offered_cons]
    cases hwrite : TokenSink.write token sink with
    | mk result next =>
      rw [hwrite] at hrest
      cases result with
      | error e =>
        -- A refused token is left out, and the sink is as it was before it.
        obtain rfl : next = sink := h [] token rest e next rfl hwrite
        exact hrest
      | ok done => exact writeAll_cons_eq_ok.2 ⟨next, hwrite, hrest⟩

end FieldMask
