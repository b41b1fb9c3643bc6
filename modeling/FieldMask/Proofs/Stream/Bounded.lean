import FieldMask.Proofs.Stream.Lockstep
import FieldMask.Proofs.Stream.Recording

namespace FieldMask

/-!
# What is asked of a source and made of its tokens

A source may announce one kind of token and deliver another, or announce nothing at all.  Whatever
it announces, projection asks for a token at most once more than there are, and hands on no token
that it has not taken, none of them twice, and none before one that was taken earlier.

* `Counted` — a source that counts how often it is asked for a token; `Watched` — one that is
  recorded, too; `Watched.lockstep` — watching changes nothing.
* `Delivers` — a source that delivers given tokens and then fails; `Replay.delivers` — replayed
  tokens, whatever is claimed for them.
* `Economical` — few questions, and nothing invented; `handling_of_delivers` — every part of the
  handling keeps to it.
* `advance_takes` — each step from one item or member to the next takes a token.
* `projection_bounded` — projection, copies and skips.
-/

variable {σ κ : Type} [TokenSource σ] [TokenSink κ]

/-! ### Watching a source -/

/-- A source, and how often it was asked for a token. -/
structure Counted (σ : Type) where
  source : σ
  asked : Nat

namespace Counted

/-- The kind of the next token, without a question. -/
def peek (counted : Counted σ) : Except StreamError (Option TokenKind) × Counted σ :=
  let (result, source) := TokenSource.peek counted.source
  (result, ⟨source, counted.asked⟩)

/-- Asks for the next token. -/
def next (counted : Counted σ) : Except StreamError Token × Counted σ :=
  let (result, source) := TokenSource.next counted.source
  (result, ⟨source, counted.asked + 1⟩)

/-- A token that is taken leaves less to come, as it does in the source itself. -/
theorem remaining_lt_of_next {counted counted' : Counted σ} {token : Token}
    (h : counted.next = (.ok token, counted')) :
    TokenSource.remaining counted'.source < TokenSource.remaining counted.source := by
  obtain ⟨hresult, rfl⟩ := Prod.mk.inj h
  exact TokenSource.remaining_lt_of_next (Prod.ext hresult rfl)

instance : TokenSource (Counted σ) where
  peek := peek
  next := next
  remaining counted := TokenSource.remaining counted.source
  remaining_peek_le counted := TokenSource.remaining_peek_le counted.source
  remaining_lt_of_next := remaining_lt_of_next

end Counted

/-- A source that is counted, and the tokens that have been taken from it. -/
abbrev Watched (σ : Type) := Recording (Counted σ)

/-- A source of which nothing has been asked. -/
def watch (source : σ) : Watched σ := .of ⟨source, 0⟩

namespace Watched

variable {watched watched' : Watched σ}

/-- A look changes neither the count nor the record. -/
theorem peek_eq (watched : Watched σ) :
    TokenSource.peek watched = ((TokenSource.peek watched.source.source).1,
      ⟨⟨(TokenSource.peek watched.source.source).2, watched.source.asked⟩, watched.taken⟩) := rfl

/-- A token that is taken is counted and recorded. -/
theorem next_of_ok {token : Token} {source : σ}
    (h : TokenSource.next watched.source.source = (.ok token, source)) :
    TokenSource.next watched =
      (.ok token, ⟨⟨source, watched.source.asked + 1⟩, watched.taken ++ [token]⟩) := by
  apply Recording.next_of_ok
  show watched.source.next = _
  rw [Counted.next, h]

/-- A question without an answer is counted, and nothing is recorded. -/
theorem next_of_error {e : StreamError} {source : σ}
    (h : TokenSource.next watched.source.source = (.error e, source)) :
    TokenSource.next watched = (.error e, ⟨⟨source, watched.source.asked + 1⟩, watched.taken⟩) := by
  apply Recording.next_of_error
  show watched.source.next = _
  rw [Counted.next, h]

/-- A question is counted even if there is no answer to it. -/
theorem of_next_error {e : StreamError} (h : TokenSource.next watched = (.error e, watched')) :
    watched'.source.asked = watched.source.asked + 1 ∧ watched'.taken = watched.taken := by
  match hnext : TokenSource.next watched.source.source with
  | (.ok token, source) => cases h.symm.trans (next_of_ok hnext)
  | (.error e', source) =>
    cases h.symm.trans (next_of_error hnext)
    exact ⟨rfl, rfl⟩

/-- Watching changes nothing. -/
theorem lockstep : Lockstep (fun (watched : Watched σ) (sink : κ) source sink' =>
    watched.source.source = source ∧ sink = sink') fun _ _ _ => False := by
  refine lockstep_of_forget (fun watched : Watched σ => watched.source.source) (fun _ => rfl) ?_
  intro watched
  match hnext : TokenSource.next watched.source.source with
  | (.ok token, source) => rw [next_of_ok hnext]
  | (.error e, source) => rw [next_of_error hnext]

end Watched

/-! ### Sources that deliver given tokens -/

/-- A reading of a source's states as the tokens that it is going to deliver before it fails.  What
it announces is up to the source. -/
structure Delivers (pending : σ → List Token → Prop) : Prop where
  peek : ∀ {source : σ} {tokens : List Token}, pending source tokens →
    pending (TokenSource.peek source).2 tokens
  next_cons : ∀ {source : σ} {token : Token} {rest : List Token}, pending source (token :: rest) →
    ∃ source', TokenSource.next source = (.ok token, source') ∧ pending source' rest
  next_nil : ∀ {source : σ}, pending source [] →
    ∃ e source', TokenSource.next source = (.error e, source')

/-- Replayed tokens are delivered whatever is claimed for them. -/
theorem Replay.delivers :
    Delivers fun (source : Replay) tokens => source.entries.map Replayed.token = tokens where
  peek h := h
  next_cons := by
    rintro ⟨entries⟩ token rest h
    obtain ⟨entry, behind, rfl, rfl, rfl⟩ := List.map_eq_cons_iff.1 h
    exact ⟨_, rfl, rfl⟩
  next_nil := by
    rintro ⟨entries⟩ h
    obtain rfl := List.map_eq_nil_iff.1 h
    exact ⟨_, _, rfl⟩

/-! ### What is asked, taken and handed on -/

/-- A source with given tokens was asked at most once more than there are tokens; those that were
taken are the first ones, and those that were handed on are some of them, in their order. -/
structure Economical (tokens : List Token) (watched : Watched σ) (sink : Collected) : Prop where
  asked_le : watched.source.asked ≤ tokens.length + 1
  taken_prefix : watched.taken <+: tokens
  handed_sublist : sink.tokens.toList.Sublist watched.taken

section Handling

variable {pending : σ → List Token → Prop} {tokens : List Token} {watched watched' : Watched σ}
  {sink : Collected} {token : Token}

/-- Some of the given tokens have been taken, each asked for once, and the others are to come. -/
def Partway (pending : σ → List Token → Prop) (tokens : List Token) (watched : Watched σ) : Prop :=
  watched.source.asked = watched.taken.length ∧
    ∃ rest, tokens = watched.taken ++ rest ∧ pending watched.source.source rest

omit [TokenSource σ] in
/-- What has been taken is a first part of the given tokens. -/
theorem Partway.taken_prefix (h : Partway pending tokens watched) : watched.taken <+: tokens := by
  obtain ⟨-, rest, rfl, -⟩ := h
  exact List.prefix_append _ _

omit [TokenSource σ] in
/-- So far no more has been asked for than there is. -/
theorem Partway.asked_le (h : Partway pending tokens watched) :
    watched.source.asked ≤ tokens.length := by
  rw [h.1]
  exact h.taken_prefix.length_le

omit [TokenSource σ] in
/-- Midway nothing has been wasted, if what was handed on is among what was taken. -/
theorem Partway.economical (h : Partway pending tokens watched)
    (hsublist : sink.tokens.toList.Sublist watched.taken) : Economical tokens watched sink :=
  ⟨Nat.le_succ_of_le h.asked_le, h.taken_prefix, hsublist⟩

/-- A look takes nothing. -/
theorem Partway.peek (hdelivers : Delivers pending) (h : Partway pending tokens watched)
    {result : Except StreamError (Option TokenKind)}
    (hpeek : TokenSource.peek watched = (result, watched')) :
    Partway pending tokens watched' ∧ watched'.taken = watched.taken := by
  obtain ⟨hasked, rest, htokens, hpending⟩ := h
  rw [Watched.peek_eq] at hpeek
  cases hpeek
  exact ⟨⟨hasked, rest, htokens, hdelivers.peek hpending⟩, rfl⟩

/-- A token that is taken is the next one.  It is added to the record, and a token less is
still to come. -/
theorem Partway.next (hdelivers : Delivers pending) (h : Partway pending tokens watched)
    (hnext : TokenSource.next watched = (.ok token, watched')) :
    Partway pending tokens watched' ∧ watched'.taken = watched.taken ++ [token] := by
  obtain ⟨hasked, rest, rfl, hpending⟩ := h
  cases rest with
  | nil =>
    obtain ⟨e, source', hfailed⟩ := hdelivers.next_nil hpending
    cases hnext.symm.trans (Watched.next_of_error hfailed)
  | cons first rest =>
    obtain ⟨source', htaken, hrest⟩ := hdelivers.next_cons hpending
    cases hnext.symm.trans (Watched.next_of_ok htaken)
    refine ⟨⟨?_, rest, ?_, hrest⟩, rfl⟩
    · simp [hasked]
    · simp

/-- **Every part of the handling keeps to what there is.**  Before a token is taken those handed on
are among those taken; with one in hand they are among the earlier ones, so it may be handed on or
let go. -/
theorem handling_of_delivers (hdelivers : Delivers pending) (tokens : List Token) :
    Handling
      (fun watched (sink : Collected) => Partway pending tokens watched ∧
        sink.tokens.toList.Sublist watched.taken)
      (fun watched sink => Partway pending tokens watched ∧
        sink.tokens.toList.Sublist watched.taken)
      (fun token watched sink => Partway pending tokens watched ∧
        ∃ earlier, watched.taken = earlier ++ [token] ∧ sink.tokens.toList.Sublist earlier)
      (fun _ watched sink => Economical tokens watched sink) where
  peek_some := by
    rintro watched watched' sink kind ⟨hpartway, hsublist⟩ hpeek
    obtain ⟨hpartway, htaken⟩ := hpartway.peek hdelivers hpeek
    exact ⟨hpartway, htaken ▸ hsublist⟩
  peek_none := by
    rintro watched watched' sink ⟨hpartway, hsublist⟩ hpeek
    obtain ⟨hpartway, htaken⟩ := hpartway.peek hdelivers hpeek
    exact hpartway.economical (htaken ▸ hsublist)
  peek_error := by
    rintro watched watched' sink e ⟨hpartway, hsublist⟩ hpeek
    obtain ⟨hpartway, htaken⟩ := hpartway.peek hdelivers hpeek
    exact hpartway.economical (htaken ▸ hsublist)
  next_ok := by
    rintro watched watched' sink token ⟨hpartway, hsublist⟩ hnext
    obtain ⟨hpartway', htaken⟩ := hpartway.next hdelivers hnext
    exact ⟨hpartway', watched.taken, htaken, hsublist⟩
  next_error := by
    rintro watched watched' sink e ⟨hpartway, hsublist⟩ hnext
    -- This is the one question that there may be no token for; whoever asks it fails.
    obtain ⟨hasked, htaken⟩ := Watched.of_next_error hnext
    refine ⟨?_, ?_, htaken ▸ hsublist⟩
    · rw [hasked]
      exact Nat.succ_le_succ hpartway.asked_le
    · rw [htaken]
      exact hpartway.taken_prefix
  write_ok := by
    rintro watched sink _ token ⟨hpartway, earlier, htaken, hsublist⟩ ⟨⟩
    refine ⟨hpartway, ?_⟩
    rw [htaken, Array.toList_push]
    exact hsublist.append_right [token]
  write_error _ hwrite := nomatch hwrite
  drop := by
    rintro watched sink token ⟨hpartway, earlier, htaken, hsublist⟩
    refine ⟨hpartway, ?_⟩
    rw [htaken]
    exact hsublist.trans (List.sublist_append_left earlier [token])
  refuse _ _ h := h.1.economical h.2
  again h := h

omit [TokenSource σ] in
/-- However it ends, what has come of the handling is economical. -/
theorem economical_of_ends {α : Type} {result : Except StreamError α × Watched σ × Collected}
    (h : Ends (fun watched (sink : Collected) => Partway pending tokens watched ∧
      sink.tokens.toList.Sublist watched.taken)
      (fun _ watched sink => Economical tokens watched sink) result) :
    Economical tokens result.2.1 result.2.2 := by
  obtain ⟨_ | _, watched, sink⟩ := result
  · exact h
  · exact h.1.economical h.2

end Handling

/-! ### Steps -/

/-- What holds of a recording once a token more has been taken than at the start. -/
def TakenMore (start : List Token) (recording : Recording σ) : Prop :=
  ∃ token more, recording.taken = start ++ token :: more

/-- Everything that goes on behind a token leaves it taken. -/
theorem handling_of_taken (start : List Token) :
    Handling (fun recording (_ : κ) => start <+: recording.taken)
      (fun recording _ => TakenMore start recording)
      (fun _ recording _ => TakenMore start recording) (fun _ (_ : Recording σ) _ => True) where
  peek_some := by
    intro recording recording' sink kind h hpeek
    rwa [Recording.taken_of_peek hpeek]
  peek_none _ _ := trivial
  peek_error _ _ := trivial
  next_ok := by
    rintro recording recording' sink token ⟨more, htaken⟩ hnext
    -- What has been taken since the start, if anything, is more than nothing with this token.
    rw [TakenMore, Recording.taken_of_next hnext, ← htaken, List.append_assoc]
    cases more with
    | nil => exact ⟨token, [], rfl⟩
    | cons first more => exact ⟨first, more ++ [token], rfl⟩
  next_error _ _ := trivial
  write_ok h _ := h
  write_error _ _ := trivial
  drop h := h
  refuse _ _ _ := trivial
  again := by
    rintro recording sink ⟨token, more, htaken⟩
    rw [htaken]
    exact List.prefix_append _ _

/-- **Each step of a projection takes a token, or is the last one.**  So a run has no more
steps than there are tokens. -/
theorem advance_takes {ν : Type} {decide : ν → String → Action ν} {scope : Scope ν}
    {outer scopes : List (Scope ν)} {recording recording' : Recording σ} {sink sink' : κ}
    (h : advance decide scope outer recording sink = (.ok scopes, recording', sink')) :
    ∃ token more, recording'.taken = recording.taken ++ token :: more := by
  have hends : Ends (fun recording' _ => TakenMore recording.taken recording') (fun _ _ _ => True)
      (advance decide scope outer recording sink) :=
    (handling_of_taken recording.taken).advance decide scope outer (List.prefix_refl _)
  rw [h] at hends
  exact hends

/-! ### Projection -/

/-- **Projection comes to an end and invents nothing, whatever its source announces.**  Let a
source deliver some tokens and then fail, and announce whatever it likes.  Then projection through
any mask, or without one, copying a value and skipping a value ask for a token at most once more
than there are.  What they hand on are tokens that they have taken, in their order and each at most
once, whether they succeed or fail.  And each step of a projection takes a token, or is the last
one. -/
theorem projection_bounded {pending : σ → List Token → Prop} (hdelivers : Delivers pending)
    {source : σ} {tokens : List Token} (h : pending source tokens) (mask : Option Mask) :
    (∃ result watched sink, project mask (watch source) Collected.empty = (result, watched, sink) ∧
      project mask source Collected.empty = (result, watched.source.source, sink) ∧
      Economical tokens watched sink) ∧
    (∃ result watched sink, copyValue (watch source) Collected.empty = (result, watched, sink) ∧
      copyValue source Collected.empty = (result, watched.source.source, sink) ∧
      Economical tokens watched sink) ∧
    (∃ result watched, skipValue (watch source) = (result, watched) ∧
      skipValue source = (result, watched.source.source) ∧
      Economical tokens watched Collected.empty) ∧
    ∀ (scope : Scope View) outer scopes (watched watched' : Watched σ) (sink sink' : Collected),
      advance View.decide scope outer watched sink = (.ok scopes, watched', sink') →
        ∃ token more, watched'.taken = watched.taken ++ token :: more := by
  -- What is said of the watched source carries over to the bare one, which it goes in step with.
  have hhandling := handling_of_delivers hdelivers tokens
  have hstart : Partway pending tokens (watch source) ∧
      Collected.empty.tokens.toList.Sublist (watch source).taken :=
    ⟨⟨rfl, tokens, rfl, h⟩, List.Sublist.refl []⟩
  have hagree {κ : Type} (sink : κ) : (watch source).source.source = source ∧ sink = sink :=
    ⟨rfl, rfl⟩
  refine ⟨⟨_, _, _, rfl, ?_, ?_⟩, ⟨_, _, _, rfl, ?_, ?_⟩, ⟨_, _, rfl, ?_, ?_⟩, ?_⟩
  · exact (Watched.lockstep.project mask (hagree _)).eq_forget
  · exact economical_of_ends (hhandling.project mask hstart)
  · exact (Watched.lockstep.copyFrom 0 (hagree _)).eq_forget
  · exact economical_of_ends (hhandling.copyFrom 0 hstart)
  · have hcopy := (Watched.lockstep.copyFrom 0 (hagree Discarded.mk)).eq_forget
    exact congrArg (fun result => (result.1, result.2.1)) hcopy
  · exact economical_of_ends (hhandling.skipValue hstart)
  · exact fun _ _ _ _ _ _ _ hadvance => advance_takes hadvance

/-- An object that is announced as an array, and its end as a scalar. -/
theorem projection_bounded_claimed :
    let mask : Mask := Mask.empty.put "a" ⟨.included, none⟩
    let source : Replay := ⟨[⟨.beginObject, some .beginArray⟩, ⟨.endObject, some .scalar⟩]⟩
    ∃ result watched sink,
      project (some mask) (watch source) Collected.empty = (result, watched, sink) ∧
      project (some mask) source Collected.empty = (result, watched.source.source, sink) ∧
      Economical [.beginObject, .endObject] watched sink := by
  intro mask source
  have htokens : source.entries.map Replayed.token = [.beginObject, .endObject] := rfl
  exact (projection_bounded Replay.delivers htokens (some mask)).1

end FieldMask
