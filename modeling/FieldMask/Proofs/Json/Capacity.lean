import FieldMask.Json.Projection
import FieldMask.Proofs.Json.Writer
import FieldMask.Proofs.Stream.Lockstep

namespace FieldMask

/-!
# Devices that fill up

A device that takes so many bytes receives the first ones of what a device without bounds receives,
and a projection whose output does not fit fails with the reason that the device gives.

* `JsonWriter.within` — a writer on a device that takes so many bytes in all.
* `JsonWriter.Cuts` — two outcomes of a step: what was written fits, or the device has stopped it.
* `JsonWriter.Capped` — a step does the same on both devices until one is full; `Capped.put`,
  `Capped.andThen`, … — the parts of a step; `JsonWriter.capped_write` — one token.
* `projectBytes_limited` — projection of a text onto a device that fills up.
-/

variable {total : Nat} {reason : String}

namespace JsonWriter

/-- A writer that has written some bytes to a device that takes `total` bytes and then fails. -/
def within (total : Nat) (reason : String) (bytes : List UInt8) (begun : List Begun)
    (complete : Bool) : JsonWriter :=
  ⟨⟨bytes.toArray, .limited (total - bytes.length) reason⟩, begun, complete⟩

/-- The failures that carry the reason of a device. -/
def Carries (reason : String) (e : StreamError) : Prop := e = .io reason ∨ e = .encoding reason

/-- Two writers have written the same, to a device without bounds and to one that takes `total`
bytes, and everything has fit so far. -/
def Fits (total : Nat) (reason : String) (whole cut : JsonWriter) : Prop :=
  ∃ bytes begun complete, bytes.length ≤ total ∧ whole = written bytes begun complete ∧
    cut = within total reason bytes begun complete

/-- A device has been filled: it holds the first of the bytes that a device without bounds holds. -/
def Filled (total : Nat) (whole cut : JsonWriter) : Prop :=
  ∃ bytes begun complete, whole = written bytes begun complete ∧ total < bytes.length ∧
    cut.device.received.toList = bytes.take total

/-- What a step comes to on a device without bounds, and on one that takes `total` bytes:
either all that has been written fits and both come to the same, or the device has stopped
the second one.  The writer without bounds may still fail by itself, or go on. -/
inductive Cuts (total : Nat) (reason : String) :
    Except StreamError Unit × JsonWriter → Except StreamError Unit × JsonWriter → Prop where
  | fits (result : Except StreamError Unit) {whole cut : JsonWriter}
      (h : Fits total reason whole cut) : Cuts total reason (result, whole) (result, cut)
  | full (result : Except StreamError Unit) {e : StreamError} {whole cut : JsonWriter}
      (he : Carries reason e) (h : Filled total whole cut) :
      Cuts total reason (result, whole) (.error e, cut)

/-- A step writes the same to both devices, until the second one is full.  Steps of this
kind can be done one after the other, and tokens are written by such steps. -/
structure Capped (total : Nat) (reason : String)
    (step : JsonWriter → Except StreamError Unit × JsonWriter) : Prop where
  /-- What has been written stays. -/
  grows : ∀ bytes begun complete, ∃ result more begun' complete',
    step (written bytes begun complete) = (result, written (bytes ++ more) begun' complete')
  cuts : ∀ {whole cut : JsonWriter}, Fits total reason whole cut →
    Cuts total reason (step whole) (step cut)

namespace Capped

variable {step more : JsonWriter → Except StreamError Unit × JsonWriter} {whole cut : JsonWriter}

/-- What is written later does not change what a filled device holds. -/
theorem filled (h : Capped total reason step) (hfilled : Filled total whole cut) :
    Filled total (step whole).2 cut := by
  obtain ⟨bytes, begun, complete, rfl, hlt, hcut⟩ := hfilled
  obtain ⟨result, further, begun', complete', hstep⟩ := h.grows bytes begun complete
  rw [hstep]
  refine ⟨bytes ++ further, begun', complete', rfl, ?_, ?_⟩
  · rw [List.length_append]
    exact Nat.lt_add_right _ hlt
  · rw [hcut, List.take_append_of_le_length hlt.le]

/-- A step that leaves the device alone, and asks only what has been begun and whether the
document is complete, is the same on both. -/
theorem of_state (f : List Begun → Bool → Except StreamError Unit × List Begun × Bool)
    (h : ∀ device begun complete, step ⟨device, begun, complete⟩ =
      ((f begun complete).1, ⟨device, (f begun complete).2.1, (f begun complete).2.2⟩)) :
    Capped total reason step where
  grows bytes begun complete := by
    refine ⟨(f begun complete).1, [], (f begun complete).2.1, (f begun complete).2.2, ?_⟩
    rw [List.append_nil]
    exact h _ begun complete
  cuts := by
    rintro _ _ ⟨bytes, begun, complete, hbytes, rfl, rfl⟩
    rw [written, within, h, h]
    exact .fits _ ⟨bytes, _, _, hbytes, rfl, rfl⟩

/-- A step may depend on what has been begun, since both writers have begun the same.  So a
step that looks at it first may be taken apart by what it finds. -/
theorem of_begun (h : ∀ begun, ∃ step', Capped total reason step' ∧
    ∀ device complete, step ⟨device, begun, complete⟩ = step' ⟨device, begun, complete⟩) :
    Capped total reason step where
  grows bytes begun complete := by
    obtain ⟨step', hcapped, heq⟩ := h begun
    rw [written, heq]
    exact hcapped.grows bytes begun complete
  cuts := by
    rintro _ _ ⟨bytes, begun, complete, hbytes, rfl, rfl⟩
    obtain ⟨step', hcapped, heq⟩ := h begun
    rw [written, within, heq, heq]
    exact hcapped.cuts ⟨bytes, begun, complete, hbytes, rfl, rfl⟩

/-- Some characters fit, or as many of their bytes are taken as there is room for. -/
theorem put {wrap : String → StreamError} (hwrap : Carries reason (wrap reason)) (cs : List Char) :
    Capped total reason (put cs wrap) where
  grows bytes begun complete := ⟨_, _, _, _, put_written cs wrap⟩
  cuts := by
    rintro _ _ ⟨bytes, begun, complete, hbytes, rfl, rfl⟩
    rw [put_written]
    by_cases hroom : (utf8Bytes cs).length ≤ total - bytes.length
    · -- The bytes fit, and so many the less will.
      have hlength : (bytes ++ utf8Bytes cs).length ≤ total := by
        rw [List.length_append]
        omega
      have hput : JsonWriter.put cs wrap (within total reason bytes begun complete) =
          (.ok (), within total reason (bytes ++ utf8Bytes cs) begun complete) := by
        simp [JsonWriter.put, within, Device.write, hroom, List.take_of_length_le hroom,
          Except.mapError, Nat.sub_sub]
      rw [hput]
      exact .fits _ ⟨_, begun, complete, hlength, rfl, rfl⟩
    · -- As many are taken as there is room for.
      have hlength : total < (bytes ++ utf8Bytes cs).length := by
        rw [List.length_append]
        omega
      have hput : JsonWriter.put cs wrap (within total reason bytes begun complete) =
          (.error (wrap reason), ⟨⟨(bytes ++ utf8Bytes cs).take total |>.toArray,
            .limited (total - bytes.length - (utf8Bytes cs).length) reason⟩, begun, complete⟩) := by
        simp [JsonWriter.put, within, Device.write, hroom, Except.mapError, List.take_append,
          List.take_of_length_le hbytes]
      rw [hput]
      exact .full _ hwrap ⟨_, begun, complete, rfl, hlength, rfl⟩

/-- Two steps one behind the other: the second one is taken by both writers, or by the one
without bounds alone. -/
theorem andThen (hstep : Capped total reason step) (hmore : Capped total reason more) :
    Capped total reason fun writer => andThen (step writer) more where
  grows bytes begun complete := by
    obtain ⟨result, further, begun', complete', heq⟩ := hstep.grows bytes begun complete
    rw [heq]
    cases result with
    | error e => exact ⟨.error e, further, begun', complete', rfl⟩
    | ok =>
      obtain ⟨result, behind, begun'', complete'', heq⟩ :=
        hmore.grows (bytes ++ further) begun' complete'
      refine ⟨result, further ++ behind, begun'', complete'', ?_⟩
      rw [← List.append_assoc]
      exact heq
  cuts {whole cut} hfits := by
    have hcuts := hstep.cuts hfits
    generalize step whole = done at hcuts ⊢
    generalize step cut = done' at hcuts ⊢
    cases hcuts with
    | fits result hfits =>
      cases result with
      | error e => exact .fits (.error e) hfits
      | ok => exact hmore.cuts hfits
    | full result he hfilled =>
      -- Only the writer without bounds goes on, if it does.
      cases result with
      | error e => exact .full (.error e) he hfilled
      | ok => exact .full _ he (hmore.filled hfilled)

end Capped

/-- As long as everything fits, both writers finish alike. -/
theorem Fits.finish_eq {whole cut : JsonWriter} (h : Fits total reason whole cut) :
    cut.finish = whole.finish := by
  obtain ⟨bytes, begun, complete, -, rfl, rfl⟩ := h
  rfl

/-! ### One token -/

/-- A device that fails where something is to be written reports its reason. -/
theorem carries_io : Carries reason (.io reason) := .inl rfl

/-- So it does where something is to be encoded. -/
theorem carries_encoding : Carries reason (.encoding reason) := .inr rfl

/-- And so it does for any scalar. -/
theorem carries_scalarFailure (value : Scalar) :
    Carries reason (scalarFailure value reason) := by
  cases value with
  | null | bool | number => exact carries_io
  | string => exact carries_encoding

/-- A token that is refused changes nothing. -/
theorem capped_refuse (e : StreamError) : Capped total reason fun writer => (.error e, writer) :=
  .of_state (fun begun complete => (.error e, begun, complete)) fun _ _ _ => rfl

/-- To begin something is the same on both devices. -/
theorem capped_rebegin (begun : List Begun) :
    Capped total reason fun writer => (.ok (), { writer with begun }) :=
  .of_state (fun _ complete => (.ok (), begun, complete)) fun _ _ _ => rfl

/-- So is to enter a container. -/
theorem capped_enter (container : Begun) : Capped total reason (enter container) :=
  .of_state (fun begun complete => (.ok (), container :: begun, complete)) fun _ _ _ => rfl

/-- So is to end a value. -/
theorem capped_endValue : Capped total reason endValue :=
  .of_state (fun begun complete => (.ok (), begun, complete || begun.isEmpty)) fun _ _ _ => rfl

/-- Making room for a value writes a comma at most. -/
theorem capped_beginValue (kind : TokenKind) : Capped total reason (beginValue kind) := by
  apply Capped.of_begun
  intro begun
  -- What has been begun tells which of the steps it is.
  match begun with
  | [] =>
    let result (complete : Bool) : Except StreamError Unit :=
      if complete then .error (.unexpectedToken .endOfDocument kind) else .ok ()
    have hchecked : Capped total reason fun writer => (result writer.complete, writer) :=
      .of_state (fun begun complete => (result complete, begun, complete)) fun _ _ _ => rfl
    refine ⟨_, hchecked, ?_⟩
    rintro device (_ | _) <;> rfl
  | .array true :: outer => exact ⟨_, capped_rebegin (.array false :: outer), fun _ _ => rfl⟩
  | .array false :: _ => exact ⟨_, .put carries_io [','], fun _ _ => rfl⟩
  | .object fresh true :: outer =>
    exact ⟨_, capped_rebegin (.object fresh false :: outer), fun _ _ => rfl⟩
  | .object _ false :: _ => exact ⟨_, capped_refuse (.unexpectedToken .key kind), fun _ _ => rfl⟩

/-- A name and its colon are written to both devices until the second one is full. -/
theorem capped_putName (name : String) : Capped total reason (putName name) :=
  .andThen (.put carries_encoding _) (.put carries_io [':'])

/-- Both devices receive the bytes of a token, until the second one is full.  Each token is
made of the steps above. -/
theorem capped_write (token : Token) : Capped total reason (write token) := by
  cases token with
  | beginObject =>
    exact .andThen (.andThen (capped_beginValue _) (.put carries_io ['{'])) (capped_enter _)
  | beginArray =>
    exact .andThen (.andThen (capped_beginValue _) (.put carries_io ['['])) (capped_enter _)
  | scalar value =>
    exact .andThen (.andThen (capped_beginValue _) (.put (carries_scalarFailure value) value.chars))
      capped_endValue
  | key name =>
    -- Both writers have begun the same, so they write the same bytes or refuse the token alike.
    apply Capped.of_begun
    intro begun
    match begun with
    | .object true false :: outer =>
      exact ⟨_, .andThen (capped_rebegin (.object false true :: outer)) (capped_putName name),
        fun _ _ => rfl⟩
    | .object false false :: outer =>
      exact ⟨_, .andThen (.put carries_io [','])
        (.andThen (capped_rebegin (.object false true :: outer)) (capped_putName name)),
        fun _ _ => rfl⟩
    | [] | .array _ :: _ | .object true true :: _ | .object false true :: _ =>
      exact ⟨_, capped_refuse (.unexpectedToken .value .key), fun _ _ => rfl⟩
  | endObject =>
    apply Capped.of_begun
    intro begun
    match begun with
    | .object _ false :: outer =>
      exact ⟨_, .andThen (.andThen (capped_rebegin outer) (.put carries_io ['}'])) capped_endValue,
        fun _ _ => rfl⟩
    | [] | .array _ :: _ | .object _ true :: _ =>
      exact ⟨_, capped_refuse (.unexpectedToken .value .endObject), fun _ _ => rfl⟩
  | endArray =>
    apply Capped.of_begun
    intro begun
    match begun with
    | .array _ :: outer =>
      exact ⟨_, .andThen (.andThen (capped_rebegin outer) (.put carries_io [']'])) capped_endValue,
        fun _ _ => rfl⟩
    | [] | .object _ _ :: _ =>
      exact ⟨_, capped_refuse (.unexpectedToken .value .endArray), fun _ _ => rfl⟩

end JsonWriter

/-! ### Projection -/

open JsonWriter

/-- Two projections of one source, one onto a device without bounds and one onto a device
that fills up, do the same until that is full.  The source is the same for both, so only
handing on has to be compared. -/
theorem lockstep_of_capacity (σ : Type) [TokenSource σ] (total : Nat) (reason : String) :
    Lockstep (fun (source : σ) whole source' cut => source = source' ∧ Fits total reason whole cut)
      fun e whole cut => Carries reason e ∧ Filled total whole cut where
  peek := by
    rintro source whole _ cut ⟨rfl, hfits⟩
    exact .inl (.of_agree ⟨rfl, hfits⟩ _)
  next := by
    rintro source whole _ cut ⟨rfl, hfits⟩
    exact .of_agree ⟨rfl, hfits⟩ _
  write := by
    rintro source whole _ cut token ⟨rfl, hfits⟩
    have hcuts : Cuts total reason (TokenSink.write token whole) (TokenSink.write token cut) :=
      (capped_write token).cuts hfits
    generalize TokenSink.write token whole = done at hcuts ⊢
    generalize TokenSink.write token cut = done' at hcuts ⊢
    cases hcuts with
    | fits result hfits => exact .of_agree ⟨rfl, hfits⟩ result
    | full result he hfilled => exact .stopped _ ⟨he, hfilled⟩
  parted_write token h := by
    have hwrite : Capped total reason (JsonWriter.write token) := capped_write token
    exact ⟨h.1, hwrite.filled h.2⟩

/-- What comes of a projection onto a device without bounds, and onto one that takes `total` bytes:
this receives the first ones; if all of them fit, the result is the same, and if not, it is the
failure of the device. -/
structure Limited (total : Nat) (reason : String) (whole cut : Except StreamError Unit × Device) :
    Prop where
  received : cut.2.received.toList = whole.2.received.toList.take total
  result_of_le : whole.2.received.size ≤ total → cut.1 = whole.1
  result_of_lt : total < whole.2.received.size →
    cut.1 = .error (.io reason) ∨ cut.1 = .error (.encoding reason)

/-- Where everything has fit, both devices have received the same, and the results agree. -/
theorem JsonWriter.Fits.limited {whole cut : JsonWriter} (h : Fits total reason whole cut)
    (result : Except StreamError Unit) :
    Limited total reason (result, whole.device) (result, cut.device) := by
  obtain ⟨bytes, begun, complete, hbytes, rfl, rfl⟩ := h
  refine ⟨(List.take_of_length_le hbytes).symm, fun _ => rfl, ?_⟩
  intro hlt
  exact absurd hlt (Nat.not_lt.2 hbytes)

/-- Where the device has been filled, it holds the first bytes and its reason is the
failure. -/
theorem JsonWriter.Filled.limited {whole cut : JsonWriter} {e : StreamError}
    (h : Filled total whole cut) (he : Carries reason e) (result : Except StreamError Unit) :
    Limited total reason (result, whole.device) (.error e, cut.device) := by
  obtain ⟨bytes, begun, complete, rfl, hlt, hcut⟩ := h
  refine ⟨hcut, ?_, fun _ => he.imp (congrArg _) (congrArg _)⟩
  intro hle
  exact absurd hlt (Nat.not_lt.2 hle)

/-- **A full device never passes for success.**  Whatever the mask and the text, a device that takes
`total` bytes receives the first ones of those that a device without bounds receives.  If all of
them fit, the result is the same; if not, projection fails for the reason that the device gives. -/
theorem projectBytes_limited (mask : Option Mask) (bytes : List UInt8) (ending : Ending)
    (total : Nat) (reason : String) :
    Limited total reason (projectBytes mask bytes ending (.empty .unlimited))
      (projectBytes mask bytes ending (.empty (.limited total reason))) := by
  have hfits : Fits total reason (ofDevice (.empty .unlimited))
      (ofDevice (.empty (.limited total reason))) :=
    ⟨[], [], false, Nat.zero_le total, rfl, rfl⟩
  unfold projectBytes
  dsimp only
  -- Nothing is needed of the source but that it is the same on both sides.
  generalize Lookahead.of (JsonReader.ofBytes bytes ending) = source
  have hagree : source = source ∧ Fits total reason _ _ := ⟨rfl, hfits⟩
  have hstep := (lockstep_of_capacity (Lookahead JsonReader) total reason).project mask hagree
  generalize project mask source (ofDevice (.empty .unlimited)) = whole at hstep ⊢
  generalize project mask source (ofDevice (.empty (.limited total reason))) = cut at hstep ⊢
  cases hstep with
  | @done _ _ source whole _ cut _ h =>
    obtain ⟨rfl, hfits⟩ := h
    have hfinish : cut.finish = whole.finish := hfits.finish_eq
    dsimp only
    rw [hfinish]
    split
    · exact hfits.limited _
    · exact hfits.limited _
  | failed e h => exact h.2.limited _
  -- The device has stopped the second projection, whatever becomes of the first.
  | @stopped result e source whole _ cut h =>
    obtain ⟨he, hfilled⟩ := h
    match result with
    | .error e' => exact hfilled.limited he _
    | .ok () =>
      dsimp only
      split
      · exact hfilled.limited he _
      · exact hfilled.limited he _

end FieldMask
