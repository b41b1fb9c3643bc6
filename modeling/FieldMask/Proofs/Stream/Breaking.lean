import FieldMask.Proofs.Stream.Lockstep
import FieldMask.Proofs.Stream.Production

namespace FieldMask

/-!
# Sources that break off

A source that breaks off delivers some tokens and then fails.  Run on it, an operation does what it
would do on a source that goes on, up to the place where the tokens end, and there it fails as the
source does: what it has done before makes no difference to that.

* `Breaking` — a reading of a source's states, and the fault at the end of its tokens;
  `Breaking.eq_of_peek`, `Breaking.eq_of_next` — what is seen and taken of it;
  `Replay.breaking` — replayed tokens break off.
* `Cut` — a source is where another one is, but for the tokens that it lacks.
* `lockstep_of_breaking` — an operation fails with the fault, or does what it does on the other
  source; `project_breaks` — projection of a document that breaks off.
* `Lookahead.breaking` — a producer that stops breaks off there.
-/

variable {σ κ : Type} [TokenSource σ] [TokenSink κ] {pending : σ → List Token → Prop}
  {fault : StreamError} {more : List Token} {source : σ} {sink sink' : κ}

/-- A reading of a source's states as the tokens that are still to come, and the fault that stops
the source behind them. -/
structure Breaking (pending : σ → List Token → Prop) (fault : StreamError) : Prop
    extends Faithful pending where
  /-- At the end there is a fault to be seen, or nothing, a fault for whoever needs more. -/
  peek_end : ∀ {source : σ}, pending source [] → ∃ source',
    TokenSource.peek source = (.error fault, source') ∨
      (TokenSource.peek source = (.ok none, source') ∧ fault = .unexpectedEnd)
  /-- There is nothing to be taken. -/
  next_end : ∀ {source : σ}, pending source [] → ∃ source',
    TokenSource.next source = (.error fault, source')

/-- What is announced is the kind of a token that comes next. -/
theorem Breaking.eq_of_peek (hbreaking : Breaking pending fault) {tokens : List Token}
    (h : pending source tokens) {kind : TokenKind} {source' : σ}
    (hpeek : TokenSource.peek source = (.ok (some kind), source')) :
    ∃ token rest, token.kind = kind ∧ pending source' (token :: rest) := by
  cases tokens with
  -- At the end no kind is announced.
  | nil =>
    obtain ⟨behind, heq | ⟨heq, -⟩⟩ := hbreaking.peek_end h
    · cases hpeek.symm.trans heq
    · cases hpeek.symm.trans heq
  | cons token rest =>
    obtain ⟨behind, heq, hpending⟩ := hbreaking.peek h
    cases hpeek.symm.trans heq
    exact ⟨token, rest, rfl, hpending⟩

/-- What is taken is the token that comes next.  At its end such a source hands out no
token, so there is a next one. -/
theorem Breaking.eq_of_next (hbreaking : Breaking pending fault) {tokens : List Token}
    (h : pending source tokens) {token : Token} {source' : σ}
    (hnext : TokenSource.next source = (.ok token, source')) :
    ∃ rest, tokens = token :: rest ∧ pending source' rest := by
  cases tokens with
  | nil =>
    obtain ⟨behind, heq⟩ := hbreaking.next_end h
    cases hnext.symm.trans heq
  | cons first rest =>
    obtain ⟨behind, heq, hrest⟩ := hbreaking.next h
    cases hnext.symm.trans heq
    exact ⟨rest, rfl, hrest⟩

/-- Replayed tokens break off without a fault of their own. -/
theorem Replay.breaking :
    Breaking (fun (source : Replay) tokens => source = .ofTokens tokens) .unexpectedEnd where
  toFaithful := Replay.faithful
  peek_end := by
    rintro source rfl
    exact ⟨_, .inr ⟨rfl, rfl⟩⟩
  next_end := by
    rintro source rfl
    exact ⟨_, rfl⟩

/-- A source is where a replay is, but for some tokens that it lacks at the end. -/
def Cut (pending : σ → List Token → Prop) (more : List Token) (source : σ) (full : Replay) : Prop :=
  ∃ tokens, pending source tokens ∧ full = .ofTokens (tokens ++ more)

omit [TokenSource σ] [TokenSink κ] in
/-- What has not failed has not failed under a map. -/
theorem eq_of_map_ok {α β : Type} {f : α → β} {result : Except StreamError α × σ × κ} {b : β}
    {behind : σ × κ} (h : (result.1.map f, result.2) = (.ok b, behind)) :
    ∃ a, result = (.ok a, behind) ∧ b = f a := by
  obtain ⟨a, rfl⟩ := map_fst_eq_ok h
  cases h
  exact ⟨a, rfl, rfl⟩

/-- As long as there are tokens the full source sees and takes the same; where they end it
goes on alone.  The two are then at the end of what they share, and the fault is all that is
left to say. -/
theorem lockstep_of_breaking (hbreaking : Breaking pending fault) (more : List Token) :
    Lockstep (fun (full : Replay) (sink : κ) source sink' => Cut pending more source full ∧
      sink = sink') fun e _ _ => e = fault where
  peek := by
    rintro full sink source _ ⟨⟨tokens, hpending, rfl⟩, rfl⟩
    cases tokens with
    | nil =>
      -- The source may show its fault to a look, or show nothing and fail only when a token is
      -- taken.
      obtain ⟨source', hpeek | ⟨hpeek, rfl⟩⟩ := hbreaking.peek_end hpending
      · rw [hpeek]
        exact .inl (.stopped fault rfl)
      · exact .inr ⟨congrArg Prod.fst hpeek, rfl⟩
    | cons first rest =>
      obtain ⟨source', hpeek, hrest⟩ := hbreaking.peek hpending
      rw [hpeek]
      exact .inl (.done rfl ⟨⟨first :: rest, hrest, rfl⟩, rfl⟩)
  next := by
    rintro full sink source _ ⟨⟨tokens, hpending, rfl⟩, rfl⟩
    cases tokens with
    | nil =>
      obtain ⟨source', hnext⟩ := hbreaking.next_end hpending
      rw [hnext]
      exact .stopped fault rfl
    | cons first rest =>
      obtain ⟨source', hnext, hrest⟩ := hbreaking.next hpending
      rw [hnext]
      exact .done rfl ⟨⟨rest, hrest, rfl⟩, rfl⟩
  write := by
    rintro full sink source _ token ⟨hcut, rfl⟩
    exact .of_agree ⟨hcut, rfl⟩ _
  parted_write _ h := h

/-- **A document that breaks off fails as its source does**, whatever the mask makes of what
stands before that.  On the full source the projection succeeds and takes every token, so on
the other one it cannot have come to an end of its own. -/
theorem project_breaks (hbreaking : Breaking pending fault) (mask : Option Mask) {doc : Doc}
    {tokens : List Token} (hflatten : doc.flatten = tokens ++ more) (hmore : more ≠ [])
    (h : pending source tokens)
    (hwrite : writeAll (doc.through mask).flatten sink = (.ok (), sink')) :
    ∃ source' sink', project mask source sink = (.error fault, source', sink') := by
  have hcut : Cut pending more source (.ofTokens (tokens ++ more)) := ⟨tokens, h, rfl⟩
  have hpending : Replay.ofTokens (tokens ++ more) = .ofTokens (doc.flatten ++ []) := by
    rw [hflatten, List.append_nil]
  obtain ⟨full', hfull, rfl⟩ := project_of_writeAll Replay.faithful mask doc hpending hwrite
  have hstep := (lockstep_of_breaking hbreaking more).project mask
    (⟨hcut, rfl⟩ : Cut pending more source _ ∧ sink = sink)
  rw [hfull] at hstep
  rcases hstep.of_ok with ⟨-, -, -, -, -, ⟨tokens', -, heq⟩, -⟩ | ⟨e, source', sink', heq, rfl⟩
  · -- The full source has nothing left, so the other one cannot have come as far.
    have hnil : tokens' ++ more = [] := by
      have := congrArg Replay.entries heq
      simpa [Replay.ofTokens] using this.symm
    exact absurd (List.append_eq_nil_iff.1 hnil).2 hmore
  · exact ⟨source', sink', heq⟩

/-! ### Producers that stop -/

/-- A producer that hands out no token, and what that is for whoever needs one. -/
def Stops {π : Type} [TokenProducer π] (producer : π) (fault : StreamError) : Prop :=
  ∃ producer', TokenProducer.produce producer = (.error fault, producer') ∨
    (TokenProducer.produce producer = (.ok none, producer') ∧ fault = .unexpectedEnd)

/-- A producer that stops breaks off there, whether it fails or has nothing more.  Each way
of asking, for the kind of the next token or for the token itself, meets the end in the one
way or the other. -/
theorem Lookahead.breaking {π : Type} [TokenProducer π] {final : π} (h : Stops final fault) :
    Breaking (Lookahead.Holds final) fault where
  toFaithful := Lookahead.faithful final
  peek_end := by
    intro source hsource
    obtain rfl := Lookahead.eq_of_holds_nil hsource
    obtain ⟨producer', heq | ⟨heq, hfault⟩⟩ := h
    · exact ⟨_, .inl (Lookahead.peek_of_error heq)⟩
    · exact ⟨_, .inr ⟨Lookahead.peek_of_none heq, hfault⟩⟩
  next_end := by
    intro source hsource
    obtain rfl := Lookahead.eq_of_holds_nil hsource
    obtain ⟨producer', heq | ⟨heq, rfl⟩⟩ := h
    · exact ⟨_, Lookahead.next_of_error heq⟩
    · exact ⟨_, Lookahead.next_of_none heq⟩

end FieldMask
