import FieldMask.Mask.View
import FieldMask.Stream.Copy

namespace FieldMask

/-!
# Projecting a stream

The tokens of one value go from a source to a sink; on the way every member of an object is kept,
dropped or projected in its turn.  Open containers are held in a list, each with the view that its
members are judged by, so the depth of a document costs no recursion.  An array has its container's
view, and so has each of its items.

* `Scope` — an open container and its view.
* `beginValue` — the first token of a value, or all of it if it is a scalar.
* `advance` — one item, one member or the end of the innermost container.
* `projectBy` — projection under any rule of decision; `project` — under a mask.
-/

variable {ν σ κ : Type} [TokenSource σ] [TokenSink κ]

/-- An open container and the view that its members are judged by. -/
structure Scope (ν : Type) where
  container : Container
  view : ν

/-- Moves one token from a source to a sink.  A token that the sink refuses is lost to the
source. -/
def forward (source : σ) (sink : κ) : Except StreamError Unit × σ × κ :=
  match TokenSource.next source with
  | (.error e, source) => (.error e, source, sink)
  | (.ok token, source) =>
    let (result, sink) := TokenSink.write token sink
    (result, source, sink)

/-- Begins a value: a container is opened, a scalar moved whole.  The scopes are those open
after it; the kind that the source announces decides what is done, and the token itself is
not asked again. -/
def beginValue (view : ν) (scopes : List (Scope ν)) (source : σ) (sink : κ) :
    Except StreamError (List (Scope ν)) × σ × κ :=
  match TokenSource.peek source with
  | (.error e, source) => (.error e, source, sink)
  | (.ok none, source) => (.error .unexpectedEnd, source, sink)
  | (.ok (some kind), source) =>
    match kind with
    | .beginObject =>
      let (result, source, sink) := forward source sink
      (result.map fun _ => ⟨.object, view⟩ :: scopes, source, sink)
    | .beginArray =>
      let (result, source, sink) := forward source sink
      (result.map fun _ => ⟨.array, view⟩ :: scopes, source, sink)
    | .scalar =>
      let (result, source, sink) := copyValue source sink
      (result.map fun _ => scopes, source, sink)
    | kind => (.error (.unexpectedToken .value kind), source, sink)

/-- Handles a member whose name has been taken.  A member that is dropped is read over; of
one that is kept the name is written first, and the value copied whole or begun under the
view below. -/
def projectMember (decide : ν → String → Action ν) (view : ν) (name : String)
    (scopes : List (Scope ν)) (source : σ) (sink : κ) :
    Except StreamError (List (Scope ν)) × σ × κ :=
  match decide view name with
  | .skip =>
    let (result, source) := skipValue source
    (result.map fun _ => scopes, source, sink)
  | .copy =>
    match TokenSink.write (.key name) sink with
    | (.error e, sink) => (.error e, source, sink)
    | (.ok (), sink) =>
      let (result, source, sink) := copyValue source sink
      (result.map fun _ => scopes, source, sink)
  | .descend view =>
    match TokenSink.write (.key name) sink with
    | (.error e, sink) => (.error e, source, sink)
    | (.ok (), sink) => beginValue view scopes source sink

/-- Handles the next item or member of the innermost container, or its end.  A value that
begins in it opens a scope of its own, and what is skipped or copied whole is passed in this
one step. -/
def advance (decide : ν → String → Action ν) (scope : Scope ν) (outer : List (Scope ν))
    (source : σ) (sink : κ) : Except StreamError (List (Scope ν)) × σ × κ :=
  match TokenSource.peek source with
  | (.error e, source) => (.error e, source, sink)
  | (.ok none, source) => (.error .unexpectedEnd, source, sink)
  | (.ok (some kind), source) =>
    match scope.container, kind with
    | .array, .endArray =>
      let (result, source, sink) := forward source sink
      (result.map fun _ => outer, source, sink)
    | .array, _ => beginValue scope.view (scope :: outer) source sink
    | .object, .endObject =>
      let (result, source, sink) := forward source sink
      (result.map fun _ => outer, source, sink)
    | .object, .key =>
      -- A source may announce a key and deliver something else.
      match TokenSource.next source with
      | (.error e, source) => (.error e, source, sink)
      | (.ok (.key name), source) =>
        projectMember decide scope.view name (scope :: outer) source sink
      | (.ok token, source) => (.error (.unexpectedToken .key token.kind), source, sink)
    | .object, kind => (.error (.unexpectedToken .keyOrEndObject kind), source, sink)

/-! ### Every part of a value takes a token -/

/-- A token that has been moved has been taken. -/
theorem remaining_lt_of_forward {source source' : σ} {sink sink' : κ}
    (h : forward source sink = (.ok (), source', sink')) :
    TokenSource.remaining source' < TokenSource.remaining source := by
  unfold forward at h
  split at h
  · cases h
  next hnext =>
    simp only [Prod.mk.injEq] at h
    exact h.2.1 ▸ TokenSource.remaining_lt_of_next hnext

/-- The field of `TokenSource` about looks, for a look whose outcome has a name. -/
theorem remaining_le_of_peek {source source' : σ} {result : Except StreamError (Option TokenKind)}
    (h : TokenSource.peek source = (result, source')) :
    TokenSource.remaining source' ≤ TokenSource.remaining source := by
  have := TokenSource.remaining_peek_le source
  rwa [h] at this

/-- What an operation that may fail leaves behind, if it has not failed. -/
theorem map_fst_eq_ok {α β γ : Type} {f : α → β} {p : Except StreamError α × γ} {b : β} {c : γ}
    (h : (p.1.map f, p.2) = (.ok b, c)) : ∃ a, p = (.ok a, c) := by
  obtain ⟨result, rest⟩ := p
  cases result with
  | error => simp [Except.map] at h
  | ok a =>
    simp only [Except.map, Prod.mk.injEq] at h
    exact ⟨a, by rw [h.2]⟩

/-- A value that has begun has taken its first token at least. -/
theorem remaining_lt_of_beginValue {view : ν} {scopes scopes' : List (Scope ν)}
    {source source' : σ} {sink sink' : κ}
    (h : beginValue view scopes source sink = (.ok scopes', source', sink')) :
    TokenSource.remaining source' < TokenSource.remaining source := by
  unfold beginValue at h
  split at h
  · cases h
  · cases h
  next hpeek =>
    -- The look takes nothing, so only what follows it has to be counted.
    refine Nat.lt_of_lt_of_le ?_ (remaining_le_of_peek hpeek)
    split at h
    · obtain ⟨_, hforward⟩ := map_fst_eq_ok h
      exact remaining_lt_of_forward hforward
    · obtain ⟨_, hforward⟩ := map_fst_eq_ok h
      exact remaining_lt_of_forward hforward
    · obtain ⟨_, hcopy⟩ := map_fst_eq_ok h
      exact remaining_lt_of_copyFrom hcopy
    · cases h

/-- A member that has been handled has taken a token behind its name, also where its value
has only begun. -/
theorem remaining_lt_of_projectMember {decide : ν → String → Action ν} {view : ν} {name : String}
    {scopes scopes' : List (Scope ν)} {source source' : σ} {sink sink' : κ}
    (h : projectMember decide view name scopes source sink = (.ok scopes', source', sink')) :
    TokenSource.remaining source' < TokenSource.remaining source := by
  unfold projectMember at h
  split at h
  · -- The member is dropped.
    generalize hskip : skipValue source = result at h
    obtain ⟨result, source''⟩ := result
    cases result with
    | error => simp [Except.map] at h
    | ok =>
      simp only [Except.map, Prod.mk.injEq] at h
      exact h.2.1 ▸ remaining_lt_of_skipValue hskip
  · -- The member is copied whole.
    split at h
    · cases h
    · obtain ⟨_, hcopy⟩ := map_fst_eq_ok h
      exact remaining_lt_of_copyFrom hcopy
  · -- Its value begins under the view below.
    split at h
    · cases h
    · exact remaining_lt_of_beginValue h

/-- A step in the innermost container takes a token, so that `projectScopes`, which takes
one step after the other, comes to an end. -/
theorem remaining_lt_of_advance {decide : ν → String → Action ν} {scope : Scope ν}
    {outer scopes : List (Scope ν)} {source source' : σ} {sink sink' : κ}
    (h : advance decide scope outer source sink = (.ok scopes, source', sink')) :
    TokenSource.remaining source' < TokenSource.remaining source := by
  unfold advance at h
  split at h
  · cases h
  · cases h
  next hpeek =>
    refine Nat.lt_of_lt_of_le ?_ (remaining_le_of_peek hpeek)
    -- The end of an array, an item of it, the end of an object, a member, and a token that no
    -- object can have there.
    split at h
    · obtain ⟨_, hforward⟩ := map_fst_eq_ok h
      exact remaining_lt_of_forward hforward
    · exact remaining_lt_of_beginValue h
    · obtain ⟨_, hforward⟩ := map_fst_eq_ok h
      exact remaining_lt_of_forward hforward
    · split at h
      · cases h
      next hnext =>
        exact Nat.lt_trans (remaining_lt_of_projectMember h)
          (TokenSource.remaining_lt_of_next hnext)
      · cases h
    · cases h

/-- Handles open containers to their end, innermost first.  Each step may close the
innermost, or open another inside it. -/
def projectScopes (decide : ν → String → Action ν) (scopes : List (Scope ν)) (source : σ)
    (sink : κ) : Except StreamError Unit × σ × κ :=
  match scopes with
  | [] => (.ok (), source, sink)
  | scope :: outer =>
    match _h : advance decide scope outer source sink with
    | (.error e, source, sink) => (.error e, source, sink)
    | (.ok scopes, source', sink) => projectScopes decide scopes source' sink
termination_by TokenSource.remaining source
decreasing_by exact remaining_lt_of_advance ‹_›

/-- Projects one value under a rule of decision, beginning with a view of its own. -/
def projectBy (decide : ν → String → Action ν) (view : ν) (source : σ) (sink : κ) :
    Except StreamError Unit × σ × κ :=
  match beginValue view [] source sink with
  | (.error e, source, sink) => (.error e, source, sink)
  | (.ok scopes, source, sink) => projectScopes decide scopes source sink

/-- Projects one value through a mask.  Without a mask, or with one that says nothing, the value is
copied. -/
def project (mask : Option Mask) (source : σ) (sink : κ) : Except StreamError Unit × σ × κ :=
  match View.ofMask? mask with
  | none => copyValue source sink
  | some view => projectBy View.decide view source sink

end FieldMask
