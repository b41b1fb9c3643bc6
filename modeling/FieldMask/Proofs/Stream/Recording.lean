import FieldMask.Proofs.Stream.Lockstep

namespace FieldMask

/-!
# Any calls to a source

A caller may ask a source for anything in any order, and go on after a failure.  What the source
delivers meanwhile shows in no single answer, since a copy that fails keeps to itself how far it
came; so the tokens are recorded where they are taken.

* `Call`, `Answer` — what may be asked of a source, and what comes back; `performAll` — some calls
  one after the other.
* `CallInvariant` — what the source's own operations keep; `CallInvariant.performAll` — any calls
  keep it.
* `Recording` — a source with the tokens that have been taken from it, which is a source again;
  `Recording.performAll_forget` — it answers as the source alone.
-/

variable {σ κ : Type} [TokenSource σ] [TokenSink κ]

/-! ### Calls -/

/-- What may be asked of a source; every copy may go to a sink of its own.  All that a user
of a source can do comes down to a list of these. -/
inductive Call : Type 1 where
  | peek
  | next
  | skip
  | copy {κ : Type} [TokenSink κ] (sink : κ)
  /-- Asks whether everything has been read. -/
  | finish

/-- What comes back from a call. -/
inductive Answer : Type 1 where
  | peeked (result : Except StreamError (Option TokenKind))
  | taken (result : Except StreamError Token)
  | done (result : Except StreamError Unit)
  | copied {κ : Type} (result : Except StreamError Unit) (sink : κ)

/-- Does what a call asks for.  Sources differ in whether and how they can be finished.
What comes back is kept as the answer. -/
def Call.perform (finish : σ → Except StreamError Unit × σ) (source : σ) : Call → Answer × σ
  | peek =>
    let (result, source) := TokenSource.peek source
    (.peeked result, source)
  | next =>
    let (result, source) := TokenSource.next source
    (.taken result, source)
  | skip =>
    let (result, source) := skipValue source
    (.done result, source)
  | copy sink =>
    let (result, source, sink) := copyValue source sink
    (.copied result sink, source)
  | .finish =>
    let (result, source) := finish source
    (.done result, source)

/-- Makes some calls, whatever comes back from each of them.  A call that fails does not
keep the next one from being made.  By induction on the calls, each of which keeps it. -/
def performAll (finish : σ → Except StreamError Unit × σ) (source : σ) :
    List Call → List Answer × σ
  | [] => ([], source)
  | call :: calls =>
    let (answer, source) := call.perform finish source
    let (answers, source) := performAll finish source calls
    (answer :: answers, source)

/-! ### Invariants -/

/-- What holds of a source and is kept by its own operations, whether they succeed or fail. -/
structure CallInvariant (finish : σ → Except StreamError Unit × σ) (inv : σ → Prop) : Prop where
  peek : ∀ source, inv source → inv (TokenSource.peek source).2
  next : ∀ source, inv source → inv (TokenSource.next source).2
  finish : ∀ source, inv source → inv (finish source).2

namespace CallInvariant

variable {finish : σ → Except StreamError Unit × σ} {inv : σ → Prop} {source : σ}

/-- A copy keeps the invariant, to whatever sink and however it ends. -/
theorem copyFrom (h : CallInvariant finish inv) (hsource : inv source) (depth : Nat) (sink : κ) :
    inv (copyFrom depth source sink).2.1 := by
  -- A copy is one token taken after the other, and however it ends, the last one is behind it.
  fun_induction FieldMask.copyFrom depth source sink with
  | case1 _ source _ _ _ hnext => simpa only [hnext] using h.next source hsource
  | case2 _ source _ _ _ hnext => simpa only [hnext] using h.next source hsource
  | case3 _ source _ _ _ hnext => simpa only [hnext] using h.next source hsource
  | case4 _ source _ _ _ hnext => simpa only [hnext] using h.next source hsource
  | case5 _ source _ _ _ hnext _ _ _ _ _ ih =>
    exact ih (by simpa only [hnext] using h.next source hsource)

/-- Every call keeps the invariant. -/
theorem perform (h : CallInvariant finish inv) (hsource : inv source) (call : Call) :
    inv (call.perform finish source).2 := by
  cases call with
  | peek => exact h.peek source hsource
  | next => exact h.next source hsource
  | skip => exact h.copyFrom hsource 0 Discarded.mk
  | copy sink => exact h.copyFrom hsource 0 sink
  | finish => exact h.finish source hsource

/-- **Any calls keep the invariant.** -/
theorem performAll (h : CallInvariant finish inv) (hsource : inv source) (calls : List Call) :
    inv (performAll finish source calls).2 := by
  induction calls generalizing source with
  | nil => exact hsource
  | cons call calls ih => exact ih (h.perform hsource call)

end CallInvariant

/-! ### Recording -/

/-- A source, and the tokens that have been taken from it. -/
structure Recording (σ : Type) where
  source : σ
  taken : List Token

namespace Recording

/-- A source from which nothing has been taken. -/
def of (source : σ) : Recording σ := ⟨source, []⟩

/-- An operation of the source that takes no token. -/
def through {α : Type} (operation : σ → α × σ) (recording : Recording σ) : α × Recording σ :=
  let (result, source) := operation recording.source
  (result, ⟨source, recording.taken⟩)

/-- Takes the next token and records it. -/
def next (recording : Recording σ) : Except StreamError Token × Recording σ :=
  match TokenSource.next recording.source with
  | (.error e, source) => (.error e, ⟨source, recording.taken⟩)
  | (.ok token, source) => (.ok token, ⟨source, recording.taken ++ [token]⟩)

/-- A token that is taken leaves less to come, as it does in the source itself. -/
theorem remaining_lt_of_next {recording recording' : Recording σ} {token : Token}
    (h : recording.next = (.ok token, recording')) :
    TokenSource.remaining recording'.source < TokenSource.remaining recording.source := by
  unfold next at h
  split at h
  · cases h
  next hnext =>
    cases h
    exact TokenSource.remaining_lt_of_next hnext

instance : TokenSource (Recording σ) where
  peek := through TokenSource.peek
  next := next
  remaining recording := TokenSource.remaining recording.source
  remaining_peek_le recording := TokenSource.remaining_peek_le recording.source
  remaining_lt_of_next := remaining_lt_of_next

/-- A token that the source delivers is recorded. -/
theorem next_of_ok {recording : Recording σ} {token : Token} {source : σ}
    (h : TokenSource.next recording.source = (.ok token, source)) :
    TokenSource.next recording = (.ok token, ⟨source, recording.taken ++ [token]⟩) := by
  show recording.next = _
  rw [next, h]

/-- A failure leaves the record as it was. -/
theorem next_of_error {recording : Recording σ} {e : StreamError} {source : σ}
    (h : TokenSource.next recording.source = (.error e, source)) :
    TokenSource.next recording = (.error e, ⟨source, recording.taken⟩) := by
  show recording.next = _
  rw [next, h]

/-- A look takes no token. -/
theorem taken_of_peek {recording recording' : Recording σ}
    {result : Except StreamError (Option TokenKind)}
    (h : TokenSource.peek recording = (result, recording')) :
    recording'.taken = recording.taken := by
  obtain ⟨-, rfl⟩ := Prod.mk.inj h
  rfl

/-- A token that is taken is recorded as the last one. -/
theorem taken_of_next {recording recording' : Recording σ} {token : Token}
    (h : TokenSource.next recording = (.ok token, recording')) :
    recording'.taken = recording.taken ++ [token] := by
  match hnext : TokenSource.next recording.source with
  | (.error e, source) => cases h.symm.trans (next_of_error hnext)
  | (.ok first, source) =>
    cases h.symm.trans (next_of_ok hnext)
    rfl

/-! ### Forgetting the record -/

/-- Without its record a recorded source takes the same token. -/
theorem next_forget (recording : Recording σ) :
    TokenSource.next recording.source =
      ((TokenSource.next recording).1, (TokenSource.next recording).2.source) := by
  show _ = (recording.next.1, recording.next.2.source)
  rw [next]
  split
  next hnext => rw [hnext]
  next hnext => rw [hnext]

/-- A copy, too, goes on alike with and without the record; it makes no other use of its
source. -/
theorem copyFrom_forget (depth : Nat) (recording : Recording σ) (sink : κ) :
    copyFrom depth recording.source sink =
      ((copyFrom depth recording sink).1, (copyFrom depth recording sink).2.1.source,
        (copyFrom depth recording sink).2.2) :=
  ((lockstep_of_forget source (fun _ => rfl) next_forget).copyFrom depth ⟨rfl, rfl⟩).eq_forget

variable {finish : σ → Except StreamError Unit × σ}

/-- So does every call. -/
theorem perform_forget (recording : Recording σ) (call : Call) :
    call.perform finish recording.source =
      ((call.perform (through finish) recording).1,
        (call.perform (through finish) recording).2.source) := by
  cases call with
  | peek => rfl
  | next => simp only [Call.perform, next_forget]
  | skip => simp only [Call.perform, skipValue, copyValue, copyFrom_forget]
  | copy sink => simp only [Call.perform, copyValue, copyFrom_forget]
  | finish => rfl

/-- **The record changes nothing**: a recorded source answers any calls as the source alone.
So what is shown of the record is shown of the source. -/
theorem performAll_forget (recording : Recording σ) (calls : List Call) :
    performAll finish recording.source calls =
      ((performAll (through finish) recording calls).1,
        (performAll (through finish) recording calls).2.source) := by
  induction calls generalizing recording with
  | nil => rfl
  | cons call calls ih =>
    rw [performAll, perform_forget]
    dsimp only
    rw [ih]
    rfl

end Recording

end FieldMask
