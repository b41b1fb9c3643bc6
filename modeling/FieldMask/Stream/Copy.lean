import FieldMask.Stream.Sink
import FieldMask.Stream.Source

namespace FieldMask

/-!
# Copying and skipping values

* `depthAfter` — how many containers are open after a token; a token that cannot stand outside of
  every container is refused there.
* `copyFrom` — takes tokens until as many containers are closed as were open; `copyValue` — copies
  one value; `skipValue` — takes one value and keeps nothing of it.
* `remaining_lt_of_copyFrom` — a copy that succeeds has taken a token.
-/

variable {σ κ : Type} [TokenSource σ] [TokenSink κ]

/-- The number of open containers after a token.  Outside of every container a name or a
closing bracket is refused. -/
def depthAfter (depth : Nat) (token : Token) : Except StreamError Nat :=
  match token.kind, depth with
  | .beginObject, depth => .ok (depth + 1)
  | .beginArray, depth => .ok (depth + 1)
  | .scalar, depth => .ok depth
  | .key, depth + 1 => .ok (depth + 1)
  | .endObject, depth + 1 => .ok depth
  | .endArray, depth + 1 => .ok depth
  | kind, 0 => .error (.unexpectedToken .value kind)

/-- Moves tokens from a source to a sink until no container is open.  A token that is
refused, here or by the sink, has been taken from the source. -/
def copyFrom (depth : Nat) (source : σ) (sink : κ) : Except StreamError Unit × σ × κ :=
  match _h : TokenSource.next source with
  | (.error e, source) => (.error e, source, sink)
  | (.ok token, source') =>
    match depthAfter depth token with
    | .error e => (.error e, source', sink)
    | .ok depth =>
      match TokenSink.write token sink with
      | (.error e, sink) => (.error e, source', sink)
      | (.ok (), sink) =>
        if depth = 0 then (.ok (), source', sink) else copyFrom depth source' sink
termination_by TokenSource.remaining source
decreasing_by exact TokenSource.remaining_lt_of_next ‹_›

/-- Moves one value from a source to a sink. -/
def copyValue (source : σ) (sink : κ) : Except StreamError Unit × σ × κ := copyFrom 0 source sink

/-- Takes one value from a source. -/
def skipValue (source : σ) : Except StreamError Unit × σ :=
  let (result, source, _) := copyValue source Discarded.mk
  (result, source)

/-- A copy that succeeds has taken at least one token, however many containers were open.
This is what lets a projection that copies values come to an end. -/
theorem remaining_lt_of_copyFrom {depth : Nat} {source source' : σ} {sink sink' : κ}
    (h : copyFrom depth source sink = (.ok (), source', sink')) :
    TokenSource.remaining source' < TokenSource.remaining source := by
  fun_induction copyFrom depth source sink with
  -- The three ways to fail: the source has no token, no value can have it there, the sink does not
  -- take it.
  | case1 => cases h
  | case2 => cases h
  | case3 => cases h
  | case4 _ _ _ _ _ hnext =>
    cases h
    exact TokenSource.remaining_lt_of_next hnext
  | case5 _ _ _ _ _ hnext _ _ _ _ _ ih =>
    exact Nat.lt_trans (ih h) (TokenSource.remaining_lt_of_next hnext)

/-- So has a value that is skipped, since skipping is copying to a sink that keeps
nothing. -/
theorem remaining_lt_of_skipValue {source source' : σ}
    (h : skipValue source = (.ok (), source')) :
    TokenSource.remaining source' < TokenSource.remaining source := by
  unfold skipValue at h
  generalize hcopy : copyValue source Discarded.mk = result at h
  obtain ⟨result, source'', sink⟩ := result
  cases h
  exact remaining_lt_of_copyFrom hcopy

end FieldMask
