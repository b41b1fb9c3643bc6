import FieldMask.Proofs.Stream.Handling
import FieldMask.Stream.Lookahead

namespace FieldMask

/-!
# Where a failure comes from

A projection makes no failures up.  Each is one of its source or one of its sink, but for two of its
own, neither of which names a place: a token that is missing and one that cannot stand where it
does.  And as long as there is no failure, a projection only ever asks its source for tokens.

* `Vouches` — what holds of a source's states while it delivers, and of the failures when it does
  not.
* `Admits` — what holds of the failures of a sink.
* `Fares` — the outcome of an operation: the source is left in such a state, or the failure is one.
* `handling_of_vouches` — every part of the handling keeps this.
* `project_fares` — projection, whatever the mask.
* `Lookahead.vouches` — what holds of a producer holds of it with a token looked at.
-/

variable {σ κ : Type} [TokenSource σ] [TokenSink κ] {holds : σ → Prop}
  {fault : StreamError → Prop} {source : σ}

/-- What holds of the states of a source while it delivers tokens, and of its failures when it does
not.  The projector's own failures are among those, too. -/
structure Vouches (holds : σ → Prop) (fault : StreamError → Prop) : Prop where
  peek_some : ∀ {source source' : σ} {kind : TokenKind}, holds source →
    TokenSource.peek source = (.ok (some kind), source') → holds source'
  peek_error : ∀ {source source' : σ} {e : StreamError}, holds source →
    TokenSource.peek source = (.error e, source') → fault e
  next_ok : ∀ {source source' : σ} {token : Token}, holds source →
    TokenSource.next source = (.ok token, source') → holds source'
  next_error : ∀ {source source' : σ} {e : StreamError}, holds source →
    TokenSource.next source = (.error e, source') → fault e
  unexpectedEnd : fault .unexpectedEnd
  unexpectedToken : ∀ expected found, fault (.unexpectedToken expected found)

/-- What holds of the failures of a sink. -/
def Admits (κ : Type) [TokenSink κ] (fault : StreamError → Prop) : Prop :=
  ∀ {token : Token} {sink sink' : κ} {e : StreamError},
    TokenSink.write token sink = (.error e, sink') → fault e

/-- An operation leaves a source of which something holds, or it fails in a way that is known. -/
def Fares (holds : σ → Prop) (fault : StreamError → Prop) {α : Type}
    (result : Except StreamError α × σ × κ) : Prop :=
  match result.1 with
  | .ok _ => holds result.2.1
  | .error e => fault e

/-- What a source vouches for and a sink admits is kept by every part of the handling.  With
a token in hand, and behind it, the source is in a state like before. -/
theorem handling_of_vouches (hsource : Vouches holds fault) (hsink : Admits κ fault) :
    Handling (fun source (_ : κ) => holds source) (fun source _ => holds source)
      (fun _ source _ => holds source) (fun e _ _ => fault e) where
  peek_some := hsource.peek_some
  peek_none _ _ := hsource.unexpectedEnd
  peek_error := hsource.peek_error
  next_ok := hsource.next_ok
  next_error := hsource.next_error
  write_ok h _ := h
  write_error _ hwrite := hsink hwrite
  drop h := h
  refuse expected found _ := hsource.unexpectedToken expected found
  again h := h

/-- **A projection makes no failures up**: it leaves its source in a state that the source vouches
for, or it fails as the source, the sink or the projector itself may. -/
theorem project_fares (hsource : Vouches holds fault) (hsink : Admits κ fault)
    (mask : Option Mask) (h : holds source) (sink : κ) :
    Fares holds fault (project mask source sink) :=
  (handling_of_vouches hsource hsink).project mask h

/-! ### Producers -/

/-- What holds of the states of a producer while it hands out tokens, and of its failures when it
does not, holds with one token looked ahead. -/
theorem Lookahead.vouches {π : Type} [TokenProducer π] (holds : π → Prop)
    (hok : ∀ {producer producer' : π} {token : Token}, holds producer →
      TokenProducer.produce producer = (.ok (some token), producer') → holds producer')
    (herror : ∀ {producer producer' : π} {e : StreamError}, holds producer →
      TokenProducer.produce producer = (.error e, producer') → fault e)
    (hend : fault .unexpectedEnd)
    (htoken : ∀ expected found, fault (.unexpectedToken expected found)) :
    Vouches (fun source : Lookahead π => holds source.producer) fault where
  peek_some := by
    intro source source' kind h hpeek
    have hshows := source.shows_peek
    rw [show source.peek = _ from hpeek] at hshows
    -- A kind has been shown, so there is a token, held before or handed out for this look.
    generalize hresult : (Except.ok (some kind) : Except StreamError _) = result at hshows
    cases hshows with
    | held _ => exact h
    | @asked token _ _ hproduce =>
      cases token with
      | none => cases hresult
      | some token => exact hok h hproduce
    | failed _ _ => cases hresult
  peek_error := by
    intro source source' e h hpeek
    have hshows := source.shows_peek
    rw [show source.peek = _ from hpeek] at hshows
    cases hshows with
    | failed _ hproduce => exact herror h hproduce
  next_ok := by
    intro source source' token h hnext
    have hgives := source.gives_next
    rw [show source.next = _ from hnext] at hgives
    cases hgives with
    | held _ => exact h
    | asked _ hproduce => exact hok h hproduce
  next_error := by
    intro source source' e h hnext
    have hgives := source.gives_next
    rw [show source.next = _ from hnext] at hgives
    cases hgives with
    -- The end of a producer is no failure of it; that comes from whoever looks ahead.
    | ended _ _ => exact hend
    | failed _ hproduce => exact herror h hproduce
  unexpectedEnd := hend
  unexpectedToken := htoken

end FieldMask
