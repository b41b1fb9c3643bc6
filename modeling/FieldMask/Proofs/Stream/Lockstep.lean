import FieldMask.Proofs.Stream.Handling
import FieldMask.Proofs.Stream.Projection
import Mathlib.Data.List.Forall2

namespace FieldMask

/-!
# Two runs in step

Two runs of the same operation may differ in everything: in the rule of decision, in the source and
in the sink.  As long as both decide alike, see the same tokens and are answered alike, they go the
same way.  The second run may be stopped before the first: its source or its sink fails where the
other one goes on.  Then the two part, and only the sinks are compared from there on.

* `Action.Rel`, `DecideAlike` — the same action, rules that decide alike; `Scope.Rel` — the same
  container under related views.
* `InStep` — two outcomes: both runs have come to the same, or the second one has been stopped.
* `Lockstep` — what a comparison of sources and sinks has to keep.
* `Lockstep.alone` — behind the place where the runs part the first one goes on alone.
* `Lockstep.forward`, `Lockstep.copyFrom`, …, `Lockstep.projectBy`, `Lockstep.project` — the
  operations stay in step.
* `lockstep_of_forget`, `InStep.eq_forget` — with the same sink and the same source, but for what is
  known of one and not of the other, they end alike.
-/

variable {ν ν' σ σ' κ κ' α β γ δ : Type}

/-! ### Rules -/

/-- Two actions are the same, and the views that they go on with are related. -/
inductive Action.Rel (related : ν → ν' → Prop) : Action ν → Action ν' → Prop where
  | skip : Rel related .skip .skip
  | copy : Rel related .copy .copy
  | descend {view : ν} {view' : ν'} (h : related view view') :
      Rel related (.descend view) (.descend view')

/-- Related views decide alike on every name. -/
def DecideAlike (related : ν → ν' → Prop) (decide : ν → String → Action ν)
    (decide' : ν' → String → Action ν') : Prop :=
  ∀ view view' name, related view view' → (decide view name).Rel related (decide' view' name)

/-- Every rule decides as it does itself. -/
theorem decideAlike_refl (decide : ν → String → Action ν) : DecideAlike Eq decide decide := by
  rintro view _ name rfl
  cases decide view name with
  | skip => exact .skip
  | copy => exact .copy
  | descend inner => exact .descend rfl

/-- Two containers of the same kind under related views. -/
structure Scope.Rel (related : ν → ν' → Prop) (scope : Scope ν) (scope' : Scope ν') : Prop where
  container_eq : scope.container = scope'.container
  view : related scope.view scope'.view

/-! ### Outcomes -/

/-- Two runs have come to related results and agree, or they have failed alike and agree, or the
second one has been stopped, by a failure of its own. -/
inductive InStep (related : α → β → Prop) (agree : σ → κ → σ' → κ' → Prop)
    (parted : StreamError → κ → κ' → Prop) :
    Except StreamError α × σ × κ → Except StreamError β × σ' × κ' → Prop where
  | done {a : α} {b : β} {source : σ} {sink : κ} {source' : σ'} {sink' : κ'} (hresult : related a b)
      (h : agree source sink source' sink') :
      InStep related agree parted (.ok a, source, sink) (.ok b, source', sink')
  | failed (e : StreamError) {source : σ} {sink : κ} {source' : σ'} {sink' : κ'}
      (h : agree source sink source' sink') :
      InStep related agree parted (.error e, source, sink) (.error e, source', sink')
  | stopped {result : Except StreamError α} (e : StreamError) {source : σ} {sink : κ} {source' : σ'}
      {sink' : κ'} (h : parted e sink sink') :
      InStep related agree parted (result, source, sink) (.error e, source', sink')

section Outcomes

variable {related : α → β → Prop} {related' : γ → δ → Prop} {agree : σ → κ → σ' → κ' → Prop}
  {parted : StreamError → κ → κ' → Prop} {source : σ} {sink : κ}
  {first : Except StreamError α × σ × κ} {second : Except StreamError β × σ' × κ'}

/-- Results that are related stay so when both are worked on alike. -/
theorem InStep.map {f : α → γ} {g : β → δ} (hfg : ∀ a b, related a b → related' (f a) (g b))
    (h : InStep related agree parted first second) :
    InStep related' agree parted (first.1.map f, first.2) (second.1.map g, second.2) := by
  cases h with
  | done hresult h => exact .done (hfg _ _ hresult) h
  | failed e h => exact .failed e h
  | stopped e h => exact .stopped e h

/-- What has come to the same result stays in step. -/
theorem InStep.of_agree {source' : σ'} {sink' : κ'} (h : agree source sink source' sink')
    (result : Except StreamError α) :
    InStep Eq agree parted (result, source, sink) (result, source', sink') := by
  cases result with
  | error e => exact .failed e h
  | ok a => exact .done rfl h

/-- Two runs are in step with other sinks, too, as far as the comparison carries over to these. -/
theorem InStep.exchange {κ₁ κ₁' : Type} {agree₁ : σ → κ₁ → σ' → κ₁' → Prop}
    {parted₁ : StreamError → κ₁ → κ₁' → Prop} {sink₁ : κ₁} {sink₁' : κ₁'}
    (h : InStep related agree parted first second)
    (hagree : ∀ source source', agree source first.2.2 source' second.2.2 →
      agree₁ source sink₁ source' sink₁')
    (hparted : ∀ e, parted e first.2.2 second.2.2 → parted₁ e sink₁ sink₁') :
    InStep related agree₁ parted₁ (first.1, first.2.1, sink₁) (second.1, second.2.1, sink₁') := by
  cases h with
  | done hresult h => exact .done hresult (hagree _ _ h)
  | failed e h => exact .failed e (hagree _ _ h)
  | stopped e h => exact .stopped e (hparted e h)

/-- Where the first run comes to a result, so does the second one, if it is not stopped. -/
theorem InStep.of_ok {a : α} (h : InStep related agree parted (.ok a, source, sink) second) :
    (∃ b source' sink', second = (.ok b, source', sink') ∧ related a b ∧
      agree source sink source' sink') ∨
    ∃ e source' sink', second = (.error e, source', sink') ∧ parted e sink sink' := by
  cases h with
  | done hresult h => exact .inl ⟨_, _, _, rfl, hresult, h⟩
  | stopped e h => exact .inr ⟨e, _, _, rfl, h⟩

/-- Where the first run fails, so does the second one. -/
theorem InStep.of_error {e : StreamError}
    (h : InStep related agree parted (.error e, source, sink) second) :
    (∃ source' sink', second = (.error e, source', sink') ∧ agree source sink source' sink') ∨
    ∃ e' source' sink', second = (.error e', source', sink') ∧ parted e' sink sink' := by
  cases h with
  | failed e h => exact .inl ⟨_, _, rfl, h⟩
  | stopped e' h => exact .inr ⟨e', _, _, rfl, h⟩

end Outcomes

/-- What holds of the sink behind an operation, whether it has succeeded or failed. -/
theorem Ends.sink {holds : κ → Prop} {result : Except StreamError α × σ × κ}
    (h : Ends (fun _ sink => holds sink) (fun _ _ sink => holds sink) result) :
    holds result.2.2 := by
  obtain ⟨_ | _, source, sink⟩ := result
  · exact h
  · exact h

/-! ### Operations -/

variable [TokenSource σ] [TokenSource σ'] [TokenSink κ] [TokenSink κ']

/-- A comparison of two sources and two sinks that is kept by looking, by taking and by
handing on, and one of the sinks alone that holds once the second run has been stopped,
whatever the first one writes from there on.  From these four conditions everything below
follows for every operation. -/
structure Lockstep (agree : σ → κ → σ' → κ' → Prop) (parted : StreamError → κ → κ' → Prop) :
    Prop where
  /-- Where the first run sees something, the second one may see nothing, which stops it. -/
  peek : ∀ {source : σ} {sink : κ} {source' : σ'} {sink' : κ'}, agree source sink source' sink' →
    InStep Eq agree parted ((TokenSource.peek source).1, (TokenSource.peek source).2, sink)
      ((TokenSource.peek source').1, (TokenSource.peek source').2, sink') ∨
    ((TokenSource.peek source').1 = .ok none ∧ parted .unexpectedEnd sink sink')
  next : ∀ {source : σ} {sink : κ} {source' : σ'} {sink' : κ'}, agree source sink source' sink' →
    InStep Eq agree parted ((TokenSource.next source).1, (TokenSource.next source).2, sink)
      ((TokenSource.next source').1, (TokenSource.next source').2, sink')
  write : ∀ {source : σ} {sink : κ} {source' : σ'} {sink' : κ'} (token : Token),
    agree source sink source' sink' →
    InStep Eq agree parted ((TokenSink.write token sink).1, source, (TokenSink.write token sink).2)
      ((TokenSink.write token sink').1, source', (TokenSink.write token sink').2)
  parted_write : ∀ {e : StreamError} {sink : κ} {sink' : κ'} (token : Token),
    parted e sink sink' → parted e (TokenSink.write token sink).2 sink'

namespace Lockstep

variable {agree : σ → κ → σ' → κ' → Prop} {parted : StreamError → κ → κ' → Prop} {source : σ}
  {sink : κ} {source' : σ'} {sink' : κ'} {e : StreamError}

/-- The sinks that are compared once the runs have parted stay so behind a token of the
first run. -/
theorem parted_of_write (h : Lockstep agree parted) {token : Token} {written : κ}
    {result : Except StreamError Unit} (hparted : parted e sink sink')
    (hwrite : TokenSink.write token sink = (result, written)) : parted e written sink' := by
  have hkept := h.parted_write token hparted
  rwa [hwrite] at hkept

/-- Whatever the first run does when the second one has been stopped, the sinks stay
comparable.  The second one stays as it was left. -/
theorem alone (h : Lockstep agree parted) (e : StreamError) (sink' : κ') :
    Handling (fun (_ : σ) sink => parted e sink sink') (fun _ sink => parted e sink sink')
      (fun _ _ sink => parted e sink sink') (fun _ _ sink => parted e sink sink') where
  peek_some hparted _ := hparted
  peek_none hparted _ := hparted
  peek_error hparted _ := hparted
  next_ok hparted _ := hparted
  next_error hparted _ := hparted
  write_ok hparted hwrite := h.parted_of_write hparted hwrite
  write_error hparted hwrite := h.parted_of_write hparted hwrite
  drop hparted := hparted
  refuse _ _ hparted := hparted
  again hparted := hparted

/-- A token that is moved stays in step, or stops the second run where it is taken or handed
on. -/
theorem forward (h : Lockstep agree parted) (hagree : agree source sink source' sink') :
    InStep Eq agree parted (forward source sink) (forward source' sink') := by
  have hnext := h.next hagree
  unfold FieldMask.forward
  generalize TokenSource.next source = taken at hnext
  generalize TokenSource.next source' = taken' at hnext
  obtain ⟨result, behind⟩ := taken
  obtain ⟨result', behind'⟩ := taken'
  cases hnext with
  | done hresult hagree =>
    obtain rfl := hresult
    exact h.write _ hagree
  | failed e hagree => exact .failed e hagree
  -- The second run has no token; the first one may still hand its own on.
  | stopped e hparted =>
    cases result with
    | error => exact .stopped e hparted
    | ok token => exact .stopped e (h.parted_write token hparted)

/-! ### What is taken and handed on -/

/-- Where the first run takes a token, the second one takes the same or is stopped.  The
latter is a failure that only the second source has. -/
theorem next_of_ok (h : Lockstep agree parted) (hagree : agree source sink source' sink')
    {token : Token} {behind : σ} (hnext : TokenSource.next source = (.ok token, behind)) :
    (∃ behind', TokenSource.next source' = (.ok token, behind') ∧
      agree behind sink behind' sink') ∨
    ∃ e behind', TokenSource.next source' = (.error e, behind') ∧ parted e sink sink' := by
  have hstep := h.next hagree
  rw [hnext] at hstep
  generalize TokenSource.next source' = taken' at hstep
  obtain ⟨result', behind'⟩ := taken'
  cases hstep with
  | done hresult hagree => exact .inl ⟨behind', by rw [hresult], hagree⟩
  | stopped e hparted => exact .inr ⟨e, behind', rfl, hparted⟩

/-- Where the first run takes none, neither does the second one.  The two need not fail
alike once they have parted. -/
theorem next_of_error (h : Lockstep agree parted) (hagree : agree source sink source' sink')
    {behind : σ} (hnext : TokenSource.next source = (.error e, behind)) :
    (∃ behind', TokenSource.next source' = (.error e, behind') ∧
      agree behind sink behind' sink') ∨
    ∃ e' behind', TokenSource.next source' = (.error e', behind') ∧ parted e' sink sink' := by
  have hstep := h.next hagree
  rw [hnext] at hstep
  generalize TokenSource.next source' = taken' at hstep
  obtain ⟨result', behind'⟩ := taken'
  cases hstep with
  | failed _ hagree => exact .inl ⟨behind', rfl, hagree⟩
  | stopped e' hparted => exact .inr ⟨e', behind', rfl, hparted⟩

/-- Both see the same, or the second one sees a failure, or nothing, and is stopped by
that. -/
theorem peek_cases (h : Lockstep agree parted) (hagree : agree source sink source' sink') :
    (∃ seen looked looked', TokenSource.peek source = (seen, looked) ∧
      TokenSource.peek source' = (seen, looked') ∧ agree looked sink looked' sink') ∨
    ∃ e looked', (TokenSource.peek source' = (.error e, looked') ∨
      TokenSource.peek source' = (.ok none, looked') ∧ e = .unexpectedEnd) ∧
      parted e sink sink' := by
  rcases hpeek : TokenSource.peek source with ⟨seen, looked⟩
  rcases hpeek' : TokenSource.peek source' with ⟨seen', looked'⟩
  have hstep := h.peek hagree
  rw [hpeek, hpeek'] at hstep
  rcases hstep with hstep | ⟨rfl, hparted⟩
  · cases hstep with
    | done hresult hagree => exact .inl ⟨_, _, _, rfl, by rw [hresult], hagree⟩
    | failed e hagree => exact .inl ⟨_, _, _, rfl, rfl, hagree⟩
    | stopped e hparted => exact .inr ⟨e, looked', .inl rfl, hparted⟩
  · exact .inr ⟨_, looked', .inr ⟨rfl, rfl⟩, hparted⟩

/-- Where the first run hands a token on, so does the second one, or it is stopped.  The
latter is a failure that only the second sink has. -/
theorem write_of_ok (h : Lockstep agree parted) (hagree : agree source sink source' sink')
    {token : Token} {written : κ} (hwrite : TokenSink.write token sink = (.ok (), written)) :
    (∃ written', TokenSink.write token sink' = (.ok (), written') ∧
      agree source written source' written') ∨
    ∃ e written', TokenSink.write token sink' = (.error e, written') ∧
      parted e written written' := by
  have hstep := h.write token hagree
  rw [hwrite] at hstep
  generalize TokenSink.write token sink' = handed' at hstep
  obtain ⟨result', written'⟩ := handed'
  cases hstep with
  | done _ hagree => exact .inl ⟨written', rfl, hagree⟩
  | stopped e hparted => exact .inr ⟨e, written', rfl, hparted⟩

/-- Where the first run is refused a token, so is the second one.  The two need not fail
alike once they have parted. -/
theorem write_of_error (h : Lockstep agree parted) (hagree : agree source sink source' sink')
    {token : Token} {written : κ} (hwrite : TokenSink.write token sink = (.error e, written)) :
    (∃ written', TokenSink.write token sink' = (.error e, written') ∧
      agree source written source' written') ∨
    ∃ e' written', TokenSink.write token sink' = (.error e', written') ∧
      parted e' written written' := by
  have hstep := h.write token hagree
  rw [hwrite] at hstep
  generalize TokenSink.write token sink' = handed' at hstep
  obtain ⟨result', written'⟩ := handed'
  cases hstep with
  | failed _ hagree => exact .inl ⟨written', rfl, hagree⟩
  | stopped e' hparted => exact .inr ⟨e', written', rfl, hparted⟩

/-- What follows a token that is handed on stays in step, if it does so behind the token;
and the first run may follow it alone. -/
theorem write_then (h : Lockstep agree parted) {joined : α → β → Prop} (token : Token)
    {more : κ → Except StreamError α × σ × κ} {more' : κ' → Except StreamError β × σ' × κ'}
    (hmore : ∀ sink sink', agree source sink source' sink' →
      InStep joined agree parted (more sink) (more' sink'))
    (halone : ∀ e sink sink', parted e sink sink' → parted e (more sink).2.2 sink')
    (hagree : agree source sink source' sink') :
    InStep joined agree parted
      (match TokenSink.write token sink with
        | (.error e, sink) => (.error e, source, sink)
        | (.ok (), sink) => more sink)
      (match TokenSink.write token sink' with
        | (.error e, sink') => (.error e, source', sink')
        | (.ok (), sink') => more' sink') := by
  have hwrite := h.write token hagree
  generalize TokenSink.write token sink = handed at hwrite ⊢
  generalize TokenSink.write token sink' = handed' at hwrite ⊢
  obtain ⟨result, written⟩ := handed
  obtain ⟨result', written'⟩ := handed'
  cases hwrite with
  | done _ hagree => exact hmore written written' hagree
  | failed e hagree => exact .failed e hagree
  | stopped e hparted =>
    cases result with
    | error => exact .stopped e hparted
    -- The first run goes on behind the token, and its sink stays comparable.
    | ok => exact .stopped e (halone e written written' hparted)

/-- **Copying stays in step.**  The cases are those of one token: it is not there, it can
stand in no value, it is refused, it ends the value, or there are more.  In each of them the
second run does the same, or has been stopped by its source or its sink. -/
theorem copyFrom (h : Lockstep agree parted) (depth : Nat)
    (hagree : agree source sink source' sink') :
    InStep Eq agree parted (copyFrom depth source sink) (copyFrom depth source' sink') := by
  -- Along the first copy: each token that it takes is one of the second copy, or stops that.
  fun_induction FieldMask.copyFrom depth source sink generalizing source' sink' with
  | case1 _ _ _ _ _ hnext =>
    rcases h.next_of_error hagree hnext with ⟨_, hnext', hagree⟩ | ⟨e', _, hnext', hparted⟩
    · rw [copyFrom_of_next_error hnext']
      exact .failed _ hagree
    · rw [copyFrom_of_next_error hnext']
      exact .stopped e' hparted
  -- A token that no value can have there ends both copies.
  | case2 _ _ _ _ _ hnext _ hdepth =>
    rcases h.next_of_ok hagree hnext with ⟨_, hnext', hagree⟩ | ⟨e', _, hnext', hparted⟩
    · simp only [copyFrom_of_next_ok hnext', hdepth]
      exact .failed _ hagree
    · rw [copyFrom_of_next_error hnext']
      exact .stopped e' hparted
  -- The token is there, and the first sink refuses it.
  | case3 _ _ _ _ _ hnext _ hdepth _ _ hwrite =>
    rcases h.next_of_ok hagree hnext with ⟨_, hnext', hagree⟩ | ⟨e', _, hnext', hparted⟩
    · rcases h.write_of_error hagree hwrite with ⟨_, hwrite', hagree⟩ | ⟨e', _, hwrite', hparted⟩
      · simp only [copyFrom_of_next_ok hnext', hdepth, hwrite']
        exact .failed _ hagree
      · simp only [copyFrom_of_next_ok hnext', hdepth, hwrite']
        exact .stopped e' hparted
    · rw [copyFrom_of_next_error hnext']
      exact .stopped e' (h.parted_of_write hparted hwrite)
  -- The token closes the value that is copied.
  | case4 _ _ _ _ _ hnext _ hwrite hdepth =>
    rcases h.next_of_ok hagree hnext with ⟨_, hnext', hagree⟩ | ⟨e', _, hnext', hparted⟩
    · rcases h.write_of_ok hagree hwrite with ⟨_, hwrite', hagree⟩ | ⟨e', _, hwrite', hparted⟩
      · rw [copyFrom_of_next hnext' hdepth hwrite', if_pos rfl]
        exact .done rfl hagree
      · simp only [copyFrom_of_next_ok hnext', hdepth, hwrite']
        exact .stopped e' hparted
    · rw [copyFrom_of_next_error hnext']
      exact .stopped e' (h.parted_of_write hparted hwrite)
  -- The value goes on, and so do both copies.
  | case5 _ _ _ _ _ hnext depth hdepth _ hwrite hopen ih =>
    rcases h.next_of_ok hagree hnext with ⟨_, hnext', hagree⟩ | ⟨e', _, hnext', hparted⟩
    · rcases h.write_of_ok hagree hwrite with ⟨_, hwrite', hagree⟩ | ⟨e', _, hwrite', hparted⟩
      · rw [copyFrom_of_next hnext' hdepth hwrite', if_neg hopen]
        exact ih hagree
      · simp only [copyFrom_of_next_ok hnext', hdepth, hwrite']
        exact .stopped e' ((h.alone e' _).copyFrom depth hparted).sink
    · rw [copyFrom_of_next_error hnext']
      exact .stopped e' ((h.alone e' _).copyFrom depth (h.parted_of_write hparted hwrite)).sink

/-- What is skipped is kept by no sink, and the sinks around it are as they were. -/
theorem discarding (h : Lockstep agree parted) (sink : κ) (sink' : κ') :
    Lockstep (fun source (_ : Discarded) source' (_ : Discarded) => agree source sink source' sink')
      (fun e _ _ => parted e sink sink') where
  peek hagree :=
    (h.peek hagree).imp_left fun hstep => hstep.exchange (fun _ _ h => h) fun _ h => h
  next hagree := (h.next hagree).exchange (fun _ _ h => h) fun _ h => h
  write _ hagree := .done rfl hagree
  parted_write _ hparted := hparted

/-- A value that is skipped is copied to a sink that keeps nothing, so the sinks around it
stay as they were. -/
theorem skipValue (h : Lockstep agree parted) (hagree : agree source sink source' sink') :
    InStep Eq agree parted ((skipValue source).1, (skipValue source).2, sink)
      ((skipValue source').1, (skipValue source').2, sink') := by
  have hskipped : InStep Eq (fun source (_ : Discarded) source' (_ : Discarded) =>
      agree source sink source' sink') (fun e _ _ => parted e sink sink')
      (FieldMask.copyFrom 0 source Discarded.mk) (FieldMask.copyFrom 0 source' Discarded.mk) :=
    (h.discarding sink sink').copyFrom 0 hagree
  exact hskipped.exchange (fun _ _ h => h) fun _ h => h

/-! ### Values and members -/

variable {related : ν → ν' → Prop} {scopes : List (Scope ν)} {scopes' : List (Scope ν')}

/-- A value begins alike in both runs: it is told by what both see, and a container is
opened under related views. -/
theorem beginValue (h : Lockstep agree parted) {view : ν} {view' : ν'}
    (hview : related view view') (hscopes : scopes.Forall₂ (Scope.Rel related) scopes')
    (hagree : agree source sink source' sink') :
    InStep (List.Forall₂ (Scope.Rel related)) agree parted (beginValue view scopes source sink)
      (beginValue view' scopes' source' sink') := by
  have hopen (container : Container) :
      (⟨container, view⟩ :: scopes).Forall₂ (Scope.Rel related) (⟨container, view'⟩ :: scopes') :=
    .cons ⟨rfl, hview⟩ hscopes
  rcases h.peek_cases hagree with ⟨seen, looked, looked', hpeek, hpeek', hagree⟩ |
    ⟨e, looked', hpeek', hparted⟩
  · rw [FieldMask.beginValue, FieldMask.beginValue, hpeek, hpeek']
    rcases seen with e | _ | kind
    · exact .failed e hagree
    · exact .failed _ hagree
    · cases kind with
      | beginObject => exact (h.forward hagree).map fun _ _ _ => hopen .object
      | beginArray => exact (h.forward hagree).map fun _ _ _ => hopen .array
      | scalar => exact (h.copyFrom 0 hagree).map fun _ _ _ => hscopes
      | key | endObject | endArray => exact .failed _ hagree
  · -- What the second run sees stops it; the first one begins its value alone.
    have halone : parted e (FieldMask.beginValue view scopes source sink).2.2 sink' :=
      ((h.alone e sink').beginValue view scopes hparted).sink
    have hstopped : FieldMask.beginValue view' scopes' source' sink' =
        (.error e, looked', sink') := by
      rcases hpeek' with hpeek' | ⟨hpeek', rfl⟩
      · rw [FieldMask.beginValue, hpeek']
      · rw [FieldMask.beginValue, hpeek']
    rw [hstopped]
    exact .stopped e halone

variable {decide : ν → String → Action ν} {decide' : ν' → String → Action ν'}

/-- **A member is handled alike**, as the rules decide alike on its name: it is dropped,
copied or gone into in both runs. -/
theorem projectMember (h : Lockstep agree parted) (halike : DecideAlike related decide decide')
    {view : ν} {view' : ν'} (hview : related view view') (name : String)
    (hscopes : scopes.Forall₂ (Scope.Rel related) scopes')
    (hagree : agree source sink source' sink') :
    InStep (List.Forall₂ (Scope.Rel related)) agree parted
      (projectMember decide view name scopes source sink)
      (projectMember decide' view' name scopes' source' sink') := by
  have haction := halike view view' name hview
  unfold FieldMask.projectMember
  revert haction
  generalize decide view name = action
  generalize decide' view' name = action'
  intro haction
  -- In the last two cases the second run may be stopped at the name, and then only the sinks count.
  cases haction with
  | skip => exact (h.skipValue hagree).map fun _ _ _ => hscopes
  | copy =>
    apply h.write_then (.key name) _ _ hagree
    · intro sink sink' hagree
      exact (h.copyFrom 0 hagree).map fun _ _ _ => hscopes
    · intro e sink sink' hparted
      exact ((h.alone e sink').copyFrom 0 hparted).sink
  | descend hbelow =>
    apply h.write_then (.key name) _ _ hagree
    · intro sink sink' hagree
      exact h.beginValue hbelow hscopes hagree
    · intro e sink sink' hparted
      exact ((h.alone e sink').beginValue _ scopes hparted).sink

/-- **A step inside of a container is the same in both runs.**  The second one is
stopped where it sees nothing, where it takes no token, or further inside of the member
or the item. -/
theorem advance (h : Lockstep agree parted) (halike : DecideAlike related decide decide')
    {scope : Scope ν} {scope' : Scope ν'} (hscope : scope.Rel related scope')
    (hscopes : scopes.Forall₂ (Scope.Rel related) scopes')
    (hagree : agree source sink source' sink') :
    InStep (List.Forall₂ (Scope.Rel related)) agree parted
      (advance decide scope scopes source sink)
      (advance decide' scope' scopes' source' sink') := by
  rcases h.peek_cases hagree with ⟨seen, looked, looked', hpeek, hpeek', hagree⟩ |
    ⟨e, looked', hpeek', hparted⟩
  · -- Both see the same, so both are at the same case of the definition.
    have hinner := List.Forall₂.cons hscope hscopes
    rw [FieldMask.advance, FieldMask.advance, hpeek, hpeek', hscope.container_eq]
    rcases seen with e | _ | kind
    · exact .failed e hagree
    · exact .failed _ hagree
    · dsimp only
      split
      · exact (h.forward hagree).map fun _ _ _ => hscopes
      · exact h.beginValue hscope.view hinner hagree
      · exact (h.forward hagree).map fun _ _ _ => hscopes
      · have hnext := h.next hagree
        generalize TokenSource.next looked = taken at hnext ⊢
        generalize TokenSource.next looked' = taken' at hnext ⊢
        obtain ⟨result, behind⟩ := taken
        obtain ⟨result', behind'⟩ := taken'
        cases hnext with
        | @done token _ _ _ _ _ hresult hagree =>
          obtain rfl := hresult
          cases token with
          | key name => exact h.projectMember halike hscope.view name hinner hagree
          | _ => exact .failed _ hagree
        | failed e hagree => exact .failed e hagree
        -- The second run misses the name, and the first one handles the member alone.
        | stopped e hparted =>
          cases result with
          | error => exact .stopped e hparted
          | ok token =>
            cases token with
            | key name =>
              exact .stopped e ((h.alone e sink').projectMember decide scope.view
                (scope :: scopes) hparted).sink
            | _ => exact .stopped e hparted
      · exact .failed _ hagree
  · -- The second run sees nothing to go on with.
    have halone : parted e (FieldMask.advance decide scope scopes source sink).2.2 sink' :=
      ((h.alone e sink').advance decide scope scopes hparted).sink
    have hstopped : FieldMask.advance decide' scope' scopes' source' sink' =
        (.error e, looked', sink') := by
      rcases hpeek' with hpeek' | ⟨hpeek', rfl⟩
      · rw [FieldMask.advance, hpeek']
      · rw [FieldMask.advance, hpeek']
    rw [hstopped]
    exact .stopped e halone

/-! ### Projection -/

/-- Open containers are handled alike to their end. -/
theorem projectScopes (h : Lockstep agree parted) (halike : DecideAlike related decide decide')
    (hscopes : scopes.Forall₂ (Scope.Rel related) scopes')
    (hagree : agree source sink source' sink') :
    InStep Eq agree parted (projectScopes decide scopes source sink)
      (projectScopes decide' scopes' source' sink') := by
  -- Along the first run; a step that the second one does not survive leaves the first one alone.
  fun_induction FieldMask.projectScopes decide scopes source sink
    generalizing scopes' source' sink' with
  | case1 =>
    cases hscopes
    rw [projectScopes_nil]
    exact .done rfl hagree
  | case2 _ _ _ _ _ _ _ hadvance =>
    obtain _ | ⟨hscope, houter⟩ := hscopes
    have hstep := h.advance halike hscope houter hagree
    rw [hadvance] at hstep
    rw [projectScopes_cons]
    rcases hstep.of_error with ⟨_, _, heq, hagree⟩ | ⟨e, _, _, heq, hparted⟩
    · rw [heq, resume]
      exact .failed _ hagree
    · rw [heq, resume]
      exact .stopped e hparted
  | case3 _ _ _ _ scopes _ _ hadvance ih =>
    obtain _ | ⟨hscope, houter⟩ := hscopes
    have hstep := h.advance halike hscope houter hagree
    rw [hadvance] at hstep
    rw [projectScopes_cons]
    rcases hstep.of_ok with ⟨_, _, _, heq, hscopes, hagree⟩ | ⟨e, _, sink', heq, hparted⟩
    · rw [heq, resume]
      exact ih hscopes hagree
    · rw [heq, resume]
      exact .stopped e ((h.alone e sink').projectScopes decide scopes hparted).sink

/-- **Under rules that decide alike two projections stay in step**, until the second one is
stopped. -/
theorem projectBy (h : Lockstep agree parted) (halike : DecideAlike related decide decide')
    {view : ν} {view' : ν'} (hview : related view view')
    (hagree : agree source sink source' sink') :
    InStep Eq agree parted (projectBy decide view source sink)
      (projectBy decide' view' source' sink') := by
  have hbegin := h.beginValue hview .nil hagree
  rw [projectBy_eq_resume, projectBy_eq_resume]
  generalize FieldMask.beginValue view [] source sink = begun at hbegin ⊢
  generalize FieldMask.beginValue view' [] source' sink' = begun' at hbegin ⊢
  obtain ⟨result, between, written⟩ := begun
  cases hbegin with
  | done hscopes hagree => exact h.projectScopes halike hscopes hagree
  | failed e hagree => exact .failed e hagree
  -- The second run has not even begun; the first one goes through the document alone.
  | stopped e hparted =>
    cases result with
    | error => exact .stopped e hparted
    | ok scopes => exact .stopped e ((h.alone e _).projectScopes decide scopes hparted).sink

/-- So do two projections through one mask. -/
theorem project (h : Lockstep agree parted) (mask : Option Mask)
    (hagree : agree source sink source' sink') :
    InStep Eq agree parted (project mask source sink) (project mask source' sink') := by
  unfold FieldMask.project
  split
  · exact h.copyFrom 0 hagree
  next view _ => exact h.projectBy (decideAlike_refl View.decide) rfl hagree

end Lockstep

/-! ### The same source and the same sink -/

/-- A source that answers as another one does, of which more is known, never stops a run:
nothing is ever parted. -/
theorem lockstep_of_forget (forget : σ → σ')
    (hpeek : ∀ source, TokenSource.peek (forget source) =
      ((TokenSource.peek source).1, forget (TokenSource.peek source).2))
    (hnext : ∀ source, TokenSource.next (forget source) =
      ((TokenSource.next source).1, forget (TokenSource.next source).2)) :
    Lockstep (fun source (sink : κ) source' sink' => forget source = source' ∧ sink = sink')
      fun _ _ _ => False where
  peek := by
    rintro source sink _ _ ⟨rfl, rfl⟩
    rw [hpeek]
    exact .inl (.of_agree ⟨rfl, rfl⟩ _)
  next := by
    rintro source sink _ _ ⟨rfl, rfl⟩
    rw [hnext]
    exact .of_agree ⟨rfl, rfl⟩ _
  write := by
    rintro source sink _ _ token ⟨rfl, rfl⟩
    exact .of_agree ⟨rfl, rfl⟩ _
  parted_write _ h := h

omit [TokenSource σ] [TokenSource σ'] [TokenSink κ] in
/-- Runs that stay in step with the same sink, and the same source but for what is forgotten, end
alike. -/
theorem InStep.eq_forget {forget : σ → σ'} {first : Except StreamError α × σ × κ}
    {second : Except StreamError α × σ' × κ}
    (h : InStep Eq (fun source sink source' sink' => forget source = source' ∧ sink = sink')
      (fun _ _ _ => False) first second) :
    second = (first.1, forget first.2.1, first.2.2) := by
  cases h with
  | done hresult h =>
    obtain ⟨rfl, rfl⟩ := h
    rw [hresult]
  | failed e h =>
    obtain ⟨rfl, rfl⟩ := h
    rfl
  | stopped e h => exact h.elim

end FieldMask
