import FieldMask.Proofs.Stream.Production
import FieldMask.Proofs.Stream.Recording

namespace FieldMask

/-!
# Looking is invisible

A caller that looks at the next token of a source, as often as it likes and wherever it likes, gets
the same from all other calls as one that never looks.  What it sees is what comes next: the kind of
the next token, or that there is none, or the failure that stands there.

* `Observed` — what a call gives, and the tokens that it takes; `observe` — some calls, up to the
  first failure.
* `Accords` — what is observed with looks in between, beside what is observed without them.
* `Foresees`, `Transparent` — a look that shows what comes next, and a source of which every look
  does; `observe_accords` — any calls to such a source.
* `Settles`, `Lookahead.transparent` — a producer that stays at its end may be looked ahead of.
-/

/-! ### Observations -/

/-- The failure that a call came back with. -/
def Answer.error? : Answer → Option StreamError
  | .peeked (.error e) | .taken (.error e) | .done (.error e) | .copied (.error e) _ => some e
  | .peeked (.ok _) | .taken (.ok _) | .done (.ok _) | .copied (.ok _) _ => none

/-- Whether a call is there to take tokens.  The other calls only look, but may read ahead
to do so. -/
def Call.takes : Call → Bool
  | next => true
  | skip => true
  | copy _ => true
  | peek => false
  | finish => false

/-- What has come back from a call, and the tokens that were taken meanwhile. -/
structure Observed : Type 1 where
  answer : Answer
  taken : List Token

/-- What some calls give, one after the other, the first that fails being the last.  With
each comes what has been taken of the source up to it. -/
def observe {σ : Type} [TokenSource σ] (finish : σ → Except StreamError Unit × σ) (source : σ) :
    List Call → List Observed
  | [] => []
  | call :: calls =>
    let (answer, recording) := call.perform (Recording.through finish) (Recording.of source)
    match answer.error? with
    | some _ => [⟨answer, recording.taken⟩]
    | none => ⟨answer, recording.taken⟩ :: observe finish recording.source calls

/-- A call has failed and taken nothing. -/
def Observed.FailsAtOnce (e : StreamError) (observed : Observed) : Prop :=
  observed.answer.error? = some e ∧ observed.taken = []

/-- What can be seen before a call: the kind of the token that it takes first, or none, and then it
fails for lack of one. -/
def Observed.Begins (observed : Observed) : Option TokenKind → Prop
  | some kind => ∃ token, observed.taken.head? = some token ∧ token.kind = kind
  | none => observed.FailsAtOnce .unexpectedEnd

/-- What is observed with looks in between accords with what is observed without them.  Looks aside
the same is observed, as far as nothing fails; and each look shows what is observed next. -/
inductive Accords : List Observed → List Observed → Prop where
  | nil : Accords [] []
  | both (observed : Observed) {seen plain : List Observed} (h : Accords seen plain) :
      Accords (observed :: seen) (observed :: plain)
  | look (kind : Option TokenKind) {seen plain : List Observed}
      (hkind : ∀ observed ∈ plain.head?, observed.Begins kind) (h : Accords seen plain) :
      Accords (⟨.peeked (.ok kind), []⟩ :: seen) plain
  | fault (e : StreamError) {plain : List Observed}
      (he : ∀ observed ∈ plain.head?, observed.FailsAtOnce e) :
      Accords [⟨.peeked (.error e), []⟩] plain

/-! ### Sources -/

/-- What a look gives and leaves behind, beside what is taken without one: the kind of that token,
or none where the next token is missing, and the token is still to be taken; or the same failure. -/
inductive Foresees {σ : Type} [TokenSource σ] : Except StreamError (Option TokenKind) × σ →
    Except StreamError Token × σ → Prop where
  | token {token : Token} {looked behind : σ} (h : TokenSource.next looked = (.ok token, behind)) :
      Foresees (.ok (some token.kind), looked) (.ok token, behind)
  | none {looked behind : σ} (h : TokenSource.next looked = (.error .unexpectedEnd, behind)) :
      Foresees (.ok none, looked) (.error .unexpectedEnd, behind)
  | error (e : StreamError) {looked behind : σ} : Foresees (.error e, looked) (.error e, behind)

/-- A source that may be looked at: what is seen is what comes next. -/
def Transparent (σ : Type) [TokenSource σ] : Prop :=
  ∀ source : σ, Foresees (TokenSource.peek source) (TokenSource.next source)

variable {σ κ : Type} [TokenSource σ] [TokenSink κ] {finish : σ → Except StreamError Unit × σ}
  {source source' : σ}

/-- Where the same comes next it is recorded alike. -/
theorem Recording.next_of_next_eq (h : TokenSource.next source = TokenSource.next source') :
    TokenSource.next (Recording.of source) = TokenSource.next (Recording.of source') := by
  show (Recording.of source).next = (Recording.of source').next
  rw [Recording.next, Recording.next, Recording.of, Recording.of, h]

/-- A call that takes tokens depends on nothing but the tokens that come.  Of a source it
uses `next`, and the first token is all that two sources need to share. -/
theorem Call.perform_of_next_eq {call : Call} (hcall : call.takes = true)
    (h : TokenSource.next source = TokenSource.next source') :
    call.perform (Recording.through finish) (Recording.of source) =
      call.perform (Recording.through finish) (Recording.of source') := by
  have hnext := Recording.next_of_next_eq h
  cases call with
  | next => rw [perform, perform, hnext]
  | skip => rw [perform, perform, skipValue, skipValue, copyValue, copyValue,
      copyFrom_of_next_eq hnext]
  | copy sink => rw [perform, perform, copyValue, copyValue, copyFrom_of_next_eq hnext]
  | peek | finish => cases hcall

/-- A call that takes tokens fails where there is none.  It fails with the same error, and
nothing is taken. -/
theorem Call.perform_of_next_error {call : Call} (hcall : call.takes = true) {e : StreamError}
    (h : TokenSource.next source = (.error e, source')) :
    (call.perform (Recording.through finish) (Recording.of source)).1.error? = some e ∧
      (call.perform (Recording.through finish) (Recording.of source)).2.taken = [] := by
  have hnext : TokenSource.next (Recording.of source) = (.error e, ⟨source', []⟩) :=
    Recording.next_of_error h
  cases call with
  | next =>
    rw [perform, hnext]
    exact ⟨rfl, rfl⟩
  | skip =>
    rw [perform, skipValue, copyValue, copyFrom_of_next_error hnext]
    exact ⟨rfl, rfl⟩
  | copy sink =>
    rw [perform, copyValue, copyFrom_of_next_error hnext]
    exact ⟨rfl, rfl⟩
  | peek | finish => cases hcall

/-- What is taken is never given back. -/
theorem Recording.callInvariant_prefix (tokens : List Token) :
    CallInvariant (through finish) fun recording => tokens <+: recording.taken where
  peek _ h := h
  next recording h := by
    show tokens <+: recording.next.2.taken
    unfold next
    split
    · exact h
    · exact h.trans (List.prefix_append _ _)
  finish _ h := h

/-- A copy takes the next token first.  Whatever it does after that only adds to the
record. -/
theorem copyFrom_takes {token : Token} (h : TokenSource.next source = (.ok token, source'))
    (depth : Nat) (sink : κ) :
    [token] <+: (copyFrom depth (Recording.of source) sink).2.1.taken := by
  have hnext : TokenSource.next (Recording.of source) = (.ok token, ⟨source', [token]⟩) :=
    Recording.next_of_ok h
  have hinvariant : CallInvariant (Recording.through (Prod.mk (Except.ok ())))
      fun recording : Recording σ => [token] <+: recording.taken :=
    Recording.callInvariant_prefix [token]
  -- Whether the token is refused, by the copy or by the sink, it has been taken.
  rw [copyFrom_of_next_ok hnext]
  split
  · exact List.prefix_rfl
  · split
    · exact List.prefix_rfl
    · split
      · exact List.prefix_rfl
      · exact hinvariant.copyFrom List.prefix_rfl _ _

/-- A call that takes tokens takes the next one first.  What else it takes comes behind
that. -/
theorem Call.perform_takes {call : Call} (hcall : call.takes = true) {token : Token}
    (h : TokenSource.next source = (.ok token, source')) :
    [token] <+: (call.perform (Recording.through finish) (Recording.of source)).2.taken := by
  cases call with
  | next =>
    have hnext : TokenSource.next (Recording.of source) = (.ok token, ⟨source', [token]⟩) :=
      Recording.next_of_ok h
    have htaken : (TokenSource.next (Recording.of source)).2.taken = [token] := by rw [hnext]
    exact htaken ▸ List.prefix_rfl
  | skip => exact copyFrom_takes h 0 Discarded.mk
  | copy sink => exact copyFrom_takes h 0 sink
  | peek | finish => cases hcall

/-! ### Calls -/

/-- What is observed first is what the first call gives, whether or not it fails. -/
theorem head?_observe (call : Call) (calls : List Call) :
    (observe finish source (call :: calls)).head? =
      some ⟨(call.perform (Recording.through finish) (Recording.of source)).1,
        (call.perform (Recording.through finish) (Recording.of source)).2.taken⟩ := by
  rw [observe]
  dsimp only
  split
  · rfl
  · rfl

/-- The first of some calls that take tokens takes the token that comes next. -/
theorem begins_of_next {plain : List Call} (hplain : ∀ call ∈ plain, call.takes = true)
    {token : Token} (h : TokenSource.next source = (.ok token, source')) :
    ∀ observed ∈ (observe finish source plain).head?, observed.Begins (some token.kind) := by
  intro observed hobserved
  cases plain with
  | nil => cases hobserved
  | cons call calls =>
    rw [head?_observe] at hobserved
    cases hobserved
    obtain ⟨further, htaken⟩ := Call.perform_takes (hplain call List.mem_cons_self) h
    exact ⟨token, by rw [← htaken]; rfl, rfl⟩

/-- It fails where there is none. -/
theorem failsAtOnce_of_next {plain : List Call} (hplain : ∀ call ∈ plain, call.takes = true)
    {e : StreamError} (h : TokenSource.next source = (.error e, source')) :
    ∀ observed ∈ (observe finish source plain).head?, observed.FailsAtOnce e := by
  intro observed hobserved
  cases plain with
  | nil => cases hobserved
  | cons call calls =>
    rw [head?_observe] at hobserved
    cases hobserved
    exact Call.perform_of_next_error (hplain call List.mem_cons_self) h

/-- A look takes nothing, and only one that fails is the last call.  What the calls behind
it give is what they give on the source that has been looked at. -/
theorem observe_peek {result : Except StreamError (Option TokenKind)}
    (h : TokenSource.peek source = (result, source')) (calls : List Call) :
    observe finish source (.peek :: calls) = ⟨.peeked result, []⟩ ::
      match result with
      | .error _ => []
      | .ok _ => observe finish source' calls := by
  have hlook : TokenSource.peek (Recording.of source) = (result, ⟨source', []⟩) := by
    show Recording.through TokenSource.peek (Recording.of source) = _
    rw [Recording.through, Recording.of, h]
  rw [observe, Call.perform, hlook]
  cases result with
  | error => rfl
  | ok => rfl

/-- What is observed of two sources from which the same comes next, by a call that takes tokens and
by whatever calls follow. -/
theorem accords_cons {call : Call} (hcall : call.takes = true)
    (hnext : TokenSource.next source = TokenSource.next source') {seen plain : List Call}
    (h : ∀ source, Accords (observe finish source seen) (observe finish source plain)) :
    Accords (observe finish source (call :: seen)) (observe finish source' (call :: plain)) := by
  rw [observe, observe, Call.perform_of_next_eq hcall hnext]
  dsimp only
  split
  · exact .both _ .nil
  · exact .both _ (h _)

/-- **Looks change nothing and show what comes next.**  Let some calls take tokens from a
source that may be looked at, and others only look.  Then those that take tokens give what
they give without the looks, up to the first failure.  The induction is on the calls. -/
theorem observe_accords (h : Transparent σ) {calls : List Call} (hcalls : .finish ∉ calls)
    (source : σ) :
    Accords (observe finish source calls) (observe finish source (calls.filter Call.takes)) := by
  have hplain (calls : List Call) : ∀ call ∈ calls.filter Call.takes, call.takes = true :=
    fun call hcall => (List.mem_filter.1 hcall).2
  -- A look leaves another source behind, from which the same comes next.
  suffices hlooked : ∀ source source' : σ, TokenSource.next source = TokenSource.next source' →
      Accords (observe finish source calls)
        (observe finish source' (calls.filter Call.takes)) from hlooked source source rfl
  induction calls with
  | nil => exact fun _ _ _ => .nil
  | cons call calls ih =>
    have ih := ih fun hfinish => hcalls (List.mem_cons_of_mem _ hfinish)
    intro source source' hnext
    cases call with
    -- A call that takes tokens gives the same on both sides and leaves the same source.
    | next | skip | copy => exact accords_cons rfl hnext fun source => ih source source rfl
    | finish => exact absurd List.mem_cons_self hcalls
    | peek =>
      rw [List.filter_cons_of_neg Bool.false_ne_true]
      have hforesees := h source
      rw [hnext] at hforesees
      cases hpeek : TokenSource.peek source with | mk result looked
      cases hnext' : TokenSource.next source' with | mk token behind
      -- The look goes by what the calls without looks meet next.
      rw [hpeek, hnext'] at hforesees
      rw [observe_peek hpeek]
      cases hforesees with
      | token hlooked =>
        exact .look _ (begins_of_next (hplain calls) hnext') (ih _ _ (hlooked.trans hnext'.symm))
      | none hlooked =>
        exact .look none (failsAtOnce_of_next (hplain calls) hnext')
          (ih _ _ (hlooked.trans hnext'.symm))
      | error e => exact .fault e (failsAtOnce_of_next (hplain calls) hnext')

/-! ### Looking one token ahead -/

/-- A producer that has no token stays where it is. -/
def Settles (π : Type) [TokenProducer π] : Prop :=
  ∀ producer producer' : π, TokenProducer.produce producer = (.ok none, producer') →
    TokenProducer.produce producer' = (.ok none, producer')

/-- **A producer that stays at its end may be looked ahead of.**  A token that has been
looked at is held, a failure is met again, and the end stays the end. -/
theorem Lookahead.transparent {π : Type} [TokenProducer π] (h : Settles π) :
    Transparent (Lookahead π) := by
  rintro ⟨producer, held⟩
  cases held with
  | some token => exact .token rfl
  | none =>
    change Foresees (TokenSource.peek (Lookahead.of producer))
      (TokenSource.next (Lookahead.of producer))
    match hproduce : TokenProducer.produce producer with
    | (.error e, producer') =>
      rw [peek_of_error hproduce, next_of_error hproduce]
      exact .error e
    | (.ok none, producer') =>
      rw [peek_of_none hproduce, next_of_none hproduce]
      exact .none (next_of_none (h _ _ hproduce))
    | (.ok (some token), producer') =>
      rw [peek_of_some hproduce, next_of_some hproduce]
      exact .token rfl

end FieldMask
