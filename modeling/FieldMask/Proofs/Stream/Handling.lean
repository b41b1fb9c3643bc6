import FieldMask.Stream.Projection

namespace FieldMask

/-!
# What the handling of a stream keeps

However a copy or a projection goes, it does four things only: it looks at its source, takes a
token, hands on the token that it has just taken, or lets it go.  So what is kept by each of these
is kept by every operation, whatever the mask and whatever the source announces.

* `Handling` — what holds before anything has been taken, with a token in hand, behind the token,
  and behind a failure.
* `Ends` — the outcome of an operation: what holds behind it, or behind its failure.
* `Handling.forward`, `Handling.copyFrom`, `Handling.skipValue`, `Handling.beginValue`,
  `Handling.projectMember`, `Handling.advance`, `Handling.projectScopes` — the operations.
* `Handling.project` — projection, whatever the mask.
-/

variable {ν σ κ : Type} [TokenSource σ] [TokenSink κ] {before behind : σ → κ → Prop}
  {inHand : Token → σ → κ → Prop} {failed : StreamError → σ → κ → Prop} {source : σ} {sink : κ}

/-- What holds before anything has been taken, with a token in hand, behind that token, whether it
was handed on or let go, and behind a failure.  What holds behind a token suffices to take another
one. -/
structure Handling (before behind : σ → κ → Prop) (inHand : Token → σ → κ → Prop)
    (failed : StreamError → σ → κ → Prop) : Prop where
  peek_some : ∀ {source source' : σ} {sink : κ} {kind : TokenKind}, before source sink →
    TokenSource.peek source = (.ok (some kind), source') → before source' sink
  peek_none : ∀ {source source' : σ} {sink : κ}, before source sink →
    TokenSource.peek source = (.ok none, source') → failed .unexpectedEnd source' sink
  peek_error : ∀ {source source' : σ} {sink : κ} {e : StreamError}, before source sink →
    TokenSource.peek source = (.error e, source') → failed e source' sink
  next_ok : ∀ {source source' : σ} {sink : κ} {token : Token}, before source sink →
    TokenSource.next source = (.ok token, source') → inHand token source' sink
  next_error : ∀ {source source' : σ} {sink : κ} {e : StreamError}, before source sink →
    TokenSource.next source = (.error e, source') → failed e source' sink
  write_ok : ∀ {source : σ} {sink sink' : κ} {token : Token}, inHand token source sink →
    TokenSink.write token sink = (.ok (), sink') → behind source sink'
  write_error : ∀ {source : σ} {sink sink' : κ} {token : Token} {e : StreamError},
    inHand token source sink → TokenSink.write token sink = (.error e, sink') →
      failed e source sink'
  drop : ∀ {source : σ} {sink : κ} {token : Token}, inHand token source sink → behind source sink
  refuse : ∀ {source : σ} {sink : κ} (expected : Expected) (found : TokenKind),
    before source sink → failed (.unexpectedToken expected found) source sink
  again : ∀ {source : σ} {sink : κ}, behind source sink → before source sink

/-- What holds behind an operation that succeeds, or behind its failure. -/
def Ends (behind : σ → κ → Prop) (failed : StreamError → σ → κ → Prop) {α : Type}
    (result : Except StreamError α × σ × κ) : Prop :=
  match result.1 with
  | .ok _ => behind result.2.1 result.2.2
  | .error e => failed e result.2.1 result.2.2

omit [TokenSource σ] [TokenSink κ] in
/-- What holds behind an operation does not depend on what it gives back. -/
theorem Ends.map {α β : Type} {result : Except StreamError α × σ × κ} (f : α → β)
    (h : Ends behind failed result) : Ends behind failed (result.1.map f, result.2) := by
  obtain ⟨_ | _, rest⟩ := result
  · exact h
  · exact h

namespace Handling

/-- One token is taken and handed on; either may fail. -/
theorem forward (h : Handling before behind inHand failed) (hbefore : before source sink) :
    Ends behind failed (forward source sink) := by
  unfold FieldMask.forward
  split
  next hnext => exact h.next_error hbefore hnext
  next token source' hnext =>
    cases hwrite : TokenSink.write token sink with
    | mk result sink' =>
      cases result with
      | error e => exact h.write_error (h.next_ok hbefore hnext) hwrite
      | ok => exact h.write_ok (h.next_ok hbefore hnext) hwrite

/-- A copy takes one token after the other and hands each of them on.  The cases are those
of the copy: no token, one that cannot stand there, one that the sink refuses, the last one,
and one with more behind it. -/
theorem copyFrom (h : Handling before behind inHand failed) (depth : Nat)
    (hbefore : before source sink) : Ends behind failed (copyFrom depth source sink) := by
  fun_induction FieldMask.copyFrom depth source sink with
  | case1 _ _ _ _ _ hnext => exact h.next_error hbefore hnext
  | case2 depth _ _ token _ hnext e hdepth =>
    -- Only a token that cannot stand outside of every container is refused, once it is in hand.
    obtain ⟨found, rfl⟩ : ∃ found, e = .unexpectedToken .value found := by
      unfold depthAfter at hdepth
      split at hdepth <;> cases hdepth
      exact ⟨_, rfl⟩
    exact h.refuse _ _ (h.again (h.drop (h.next_ok hbefore hnext)))
  | case3 _ _ _ _ _ hnext _ _ _ _ hwrite =>
    exact h.write_error (h.next_ok hbefore hnext) hwrite
  | case4 _ _ _ _ _ hnext _ hwrite => exact h.write_ok (h.next_ok hbefore hnext) hwrite
  | case5 _ _ _ _ _ hnext _ _ _ hwrite _ ih =>
    exact ih (h.again (h.write_ok (h.next_ok hbefore hnext) hwrite))

/-- What is skipped is let go, token by token, so nothing is asked of the sink.  So the
invariant is asked only of what may happen to a token that is dropped. -/
theorem discarding (h : Handling before behind inHand failed) (sink : κ) :
    Handling (fun source (_ : Discarded) => before source sink)
      (fun source _ => behind source sink) (fun token source _ => inHand token source sink)
      (fun e source _ => failed e source sink) where
  peek_some := h.peek_some
  peek_none := h.peek_none
  peek_error := h.peek_error
  next_ok := h.next_ok
  next_error := h.next_error
  write_ok hinHand _ := h.drop hinHand
  write_error _ hwrite := nomatch hwrite
  drop := h.drop
  refuse := h.refuse
  again := h.again

/-- What is skipped is copied to where nothing is kept. -/
theorem skipValue (h : Handling before behind inHand failed) (hbefore : before source sink) :
    Ends behind failed ((skipValue source).1, (skipValue source).2, sink) := by
  have hskipped : Ends (fun source _ => behind source sink) (fun e source _ => failed e source sink)
      (FieldMask.copyFrom 0 source Discarded.mk) := (h.discarding sink).copyFrom 0 hbefore
  exact hskipped

/-- A value is begun behind a look at its first token: the token is handed on, or the scalar
copied. -/
theorem beginValue (h : Handling before behind inHand failed) (view : ν)
    (scopes : List (Scope ν)) (hbefore : before source sink) :
    Ends behind failed (beginValue view scopes source sink) := by
  unfold FieldMask.beginValue
  split
  next hpeek => exact h.peek_error hbefore hpeek
  next hpeek => exact h.peek_none hbefore hpeek
  next hpeek =>
    have hlooked := h.peek_some hbefore hpeek
    split
    · exact (h.forward hlooked).map _
    · exact (h.forward hlooked).map _
    · exact (h.copyFrom 0 hlooked).map _
    · exact h.refuse _ _ hlooked

/-- A member is handled with its name in hand, which is let go or handed on before its
value. -/
theorem projectMember (h : Handling before behind inHand failed)
    (decide : ν → String → Action ν) (view : ν) {name : String} (scopes : List (Scope ν))
    (hname : inHand (.key name) source sink) :
    Ends behind failed (projectMember decide view name scopes source sink) := by
  unfold FieldMask.projectMember
  split
  · exact (h.skipValue (h.again (h.drop hname))).map _
  · split
    next hwrite => exact h.write_error hname hwrite
    next hwrite => exact (h.copyFrom 0 (h.again (h.write_ok hname hwrite))).map _
  · split
    next hwrite => exact h.write_error hname hwrite
    next hwrite => exact h.beginValue _ scopes (h.again (h.write_ok hname hwrite))

/-- A step looks at what comes, takes the end of a container or the name of a member, or
begins an item. -/
theorem advance (h : Handling before behind inHand failed) (decide : ν → String → Action ν)
    (scope : Scope ν) (outer : List (Scope ν)) (hbefore : before source sink) :
    Ends behind failed (advance decide scope outer source sink) := by
  unfold FieldMask.advance
  split
  next hpeek => exact h.peek_error hbefore hpeek
  next hpeek => exact h.peek_none hbefore hpeek
  next hpeek =>
    have hlooked := h.peek_some hbefore hpeek
    split
    · exact (h.forward hlooked).map _
    · exact h.beginValue _ _ hlooked
    · exact (h.forward hlooked).map _
    · split
      next hnext => exact h.next_error hlooked hnext
      next hnext => exact h.projectMember decide _ _ (h.next_ok hlooked hnext)
      next hnext => exact h.refuse _ _ (h.again (h.drop (h.next_ok hlooked hnext)))
    · exact h.refuse _ _ hlooked

/-- A run is one step after the other; what holds behind a token suffices for the next
step. -/
theorem projectScopes (h : Handling before behind inHand failed) (decide : ν → String → Action ν)
    (scopes : List (Scope ν)) (hbehind : behind source sink) :
    Ends behind failed (projectScopes decide scopes source sink) := by
  fun_induction FieldMask.projectScopes decide scopes source sink with
  | case1 => exact hbehind
  | case2 _ _ scope outer _ _ _ hadvance =>
    have hends := h.advance decide scope outer (h.again hbehind)
    rw [hadvance] at hends
    exact hends
  | case3 _ _ scope outer _ _ _ hadvance ih =>
    have hends := h.advance decide scope outer (h.again hbehind)
    rw [hadvance] at hends
    exact ih hends

/-- **What every part of the handling keeps, a projection keeps.**  Without a view the value
is copied, and otherwise it is begun and then handled to its end. -/
theorem project (h : Handling before behind inHand failed) (mask : Option Mask)
    (hbefore : before source sink) : Ends behind failed (project mask source sink) := by
  unfold FieldMask.project
  split
  · exact h.copyFrom 0 hbefore
  next view _ =>
    have hbegin := h.beginValue view [] hbefore
    unfold projectBy
    split
    next hfailed =>
      rw [hfailed] at hbegin
      exact hbegin
    next hbegun =>
      rw [hbegun] at hbegin
      exact h.projectScopes View.decide _ hbegin

end Handling

end FieldMask
