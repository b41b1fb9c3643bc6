import FieldMask.Document.Basic
import FieldMask.Proofs.Stream.Delivery
import FieldMask.Stream.Copy

namespace FieldMask

/-!
# Copying a document

A copy counts the open containers and knows nothing else of the tree.  On the tokens of a document
that is enough: it takes all of them and none of what follows.

* `copyFrom_of_next_ok`, `copyFrom_of_next_error` — one step of a copy, from what the source
  delivers; `copyFrom_of_next` — the step where the sink takes it; `copyFrom_of_next_eq` — a copy
  looks at nothing else.
* `copyFrom_enclosed` — a container, from what stands between its brackets.
* `copyFrom_flatten` — a whole document, at any depth.
* `copyValue_flatten`, `skipValue_flatten` — the same of the two operations.
-/

variable {σ κ : Type} [TokenSource σ] [TokenSink κ] {pending : σ → List Token → Prop}

/-- What comes of a token that is taken: it is counted, then handed on, and the copy ends or
goes on. -/
theorem copyFrom_of_next_ok {depth : Nat} {token : Token} {source source' : σ} {sink : κ}
    (hnext : TokenSource.next source = (.ok token, source')) :
    copyFrom depth source sink =
      match depthAfter depth token with
      | .error e => (.error e, source', sink)
      | .ok depth =>
        match TokenSink.write token sink with
        | (.error e, sink) => (.error e, source', sink)
        | (.ok (), sink) =>
          if depth = 0 then (.ok (), source', sink) else copyFrom depth source' sink := by
  rw [copyFrom]
  split <;> rename_i heq <;> rw [hnext] at heq <;> cases heq
  rfl

/-- Where no token is taken the copy fails. -/
theorem copyFrom_of_next_error {depth : Nat} {e : StreamError} {source source' : σ} {sink : κ}
    (hnext : TokenSource.next source = (.error e, source')) :
    copyFrom depth source sink = (.error e, source', sink) := by
  rw [copyFrom]
  split <;> rename_i heq <;> rw [hnext] at heq <;> cases heq
  rfl

/-- A copy looks at nothing but the tokens that it takes. -/
theorem copyFrom_of_next_eq {depth : Nat} {source source' : σ} {sink : κ}
    (h : TokenSource.next source = TokenSource.next source') :
    copyFrom depth source sink = copyFrom depth source' sink := by
  cases hnext : TokenSource.next source' with
  | mk result behind =>
    cases result with
    | error e => rw [copyFrom_of_next_error (h.trans hnext), copyFrom_of_next_error hnext]
    | ok token => rw [copyFrom_of_next_ok (h.trans hnext), copyFrom_of_next_ok hnext]

/-- One token is taken, counted and handed on. -/
theorem copyFrom_of_next {depth depth' : Nat} {token : Token} {source source' : σ} {sink sink' : κ}
    (hnext : TokenSource.next source = (.ok token, source'))
    (hdepth : depthAfter depth token = .ok depth')
    (hwrite : TokenSink.write token sink = (.ok (), sink')) :
    copyFrom depth source sink =
      if depth' = 0 then (.ok (), source', sink') else copyFrom depth' source' sink' := by
  simp only [copyFrom_of_next_ok hnext, hdepth, hwrite]

/-- A container is copied as one value if what stands between its brackets is.  Its first
bracket counts one level up and its last one back. -/
theorem copyFrom_enclosed (hfaithful : Faithful pending) {first last : Token} {body : List Token}
    {depth : Nat} (hfirst : depthAfter depth first = .ok (depth + 1))
    (hlast : depthAfter (depth + 1) last = .ok depth)
    (hbody : ∀ {rest : List Token} {source : σ} {sink sink' : κ}, pending source (body ++ rest) →
      writeAll body sink = (.ok (), sink') →
      ∃ source', pending source' rest ∧
        copyFrom (depth + 1) source sink = copyFrom (depth + 1) source' sink')
    {rest : List Token} {source : σ} {sink sink' : κ}
    (h : pending source (first :: (body ++ [last]) ++ rest))
    (hwrite : writeAll (first :: (body ++ [last])) sink = (.ok (), sink')) :
    ∃ source', pending source' rest ∧
      copyFrom depth source sink =
        if depth = 0 then (.ok (), source', sink') else copyFrom depth source' sink' := by
  rw [List.cons_append, List.append_assoc] at h
  -- First bracket, parts, last bracket: each is taken from the source and by the sink.
  obtain ⟨inside, hnext, hinside⟩ := hfaithful.next h
  obtain ⟨sink₁, hwrite₁, hwrite⟩ := writeAll_cons_eq_ok.1 hwrite
  obtain ⟨sink₂, hwrite₂, hwrite⟩ := writeAll_append_eq_ok.1 hwrite
  obtain ⟨sink₃, hwrite₃, hnil⟩ := writeAll_cons_eq_ok.1 hwrite
  cases hnil
  obtain ⟨behind, hbehind, hcopy⟩ := hbody hinside hwrite₂
  obtain ⟨source', hnext', hrest⟩ := hfaithful.next hbehind
  refine ⟨source', hrest, ?_⟩
  rw [copyFrom_of_next hnext hfirst hwrite₁, if_neg (Nat.succ_ne_zero depth), hcopy,
    copyFrom_of_next hnext' hlast hwrite₃]

mutual

/-- Outside of every container a copy ends behind the document; inside of some it goes on
there.  The induction is on the document, at all depths at once, since what is inside is one
level deeper. -/
theorem copyFrom_flatten (hfaithful : Faithful pending) (doc : Doc) (depth : Nat)
    {rest : List Token} {source : σ} {sink sink' : κ} (h : pending source (doc.flatten ++ rest))
    (hwrite : writeAll doc.flatten sink = (.ok (), sink')) :
    ∃ source', pending source' rest ∧
      copyFrom depth source sink =
        if depth = 0 then (.ok (), source', sink') else copyFrom depth source' sink' := by
  cases doc with
  | scalar value =>
    obtain ⟨source', hnext, hrest⟩ := hfaithful.next h
    obtain ⟨_, hwrite, hnil⟩ := writeAll_cons_eq_ok.1 hwrite
    cases hnil
    exact ⟨source', hrest, copyFrom_of_next hnext rfl hwrite⟩
  | array items =>
    exact copyFrom_enclosed hfaithful rfl rfl (copyFrom_flattenItems hfaithful items depth) h hwrite
  | object members =>
    exact copyFrom_enclosed hfaithful rfl rfl (copyFrom_flattenMembers hfaithful members depth) h
      hwrite

/-- Inside of a container a copy goes on behind the items that come next.  By induction on
the items: the copy stays inside of the container until its end comes. -/
theorem copyFrom_flattenItems (hfaithful : Faithful pending) (items : List Doc) (depth : Nat)
    {rest : List Token} {source : σ} {sink sink' : κ}
    (h : pending source (Doc.flattenItems items ++ rest))
    (hwrite : writeAll (Doc.flattenItems items) sink = (.ok (), sink')) :
    ∃ source', pending source' rest ∧
      copyFrom (depth + 1) source sink = copyFrom (depth + 1) source' sink' := by
  cases items with
  | nil =>
    cases hwrite
    exact ⟨source, h, rfl⟩
  | cons item items =>
    rw [Doc.flattenItems] at h hwrite
    rw [List.append_assoc] at h
    obtain ⟨between, hitem, hitems⟩ := writeAll_append_eq_ok.1 hwrite
    obtain ⟨source₁, h₁, hcopy₁⟩ := copyFrom_flatten hfaithful item (depth + 1) h hitem
    obtain ⟨source₂, h₂, hcopy₂⟩ := copyFrom_flattenItems hfaithful items depth h₁ hitems
    refine ⟨source₂, h₂, ?_⟩
    rw [hcopy₁, if_neg (Nat.succ_ne_zero depth), hcopy₂]

/-- Inside of a container a copy goes on behind the members that come next.  By induction on
the members; of each the name is copied, and then its value. -/
theorem copyFrom_flattenMembers (hfaithful : Faithful pending) (members : List (String × Doc))
    (depth : Nat) {rest : List Token} {source : σ} {sink sink' : κ}
    (h : pending source (Doc.flattenMembers members ++ rest))
    (hwrite : writeAll (Doc.flattenMembers members) sink = (.ok (), sink')) :
    ∃ source', pending source' rest ∧
      copyFrom (depth + 1) source sink = copyFrom (depth + 1) source' sink' := by
  match members with
  | [] =>
    cases hwrite
    exact ⟨source, h, rfl⟩
  | (name, value) :: members =>
    rw [Doc.flattenMembers] at h hwrite
    rw [List.cons_append, List.append_assoc] at h
    obtain ⟨source₁, hnext, h₁⟩ := hfaithful.next h
    obtain ⟨sink₁, hkey, hwrite⟩ := writeAll_cons_eq_ok.1 hwrite
    obtain ⟨sink₂, hvalue, hmembers⟩ := writeAll_append_eq_ok.1 hwrite
    obtain ⟨source₂, h₂, hcopy₂⟩ := copyFrom_flatten hfaithful value (depth + 1) h₁ hvalue
    obtain ⟨source₃, h₃, hcopy₃⟩ := copyFrom_flattenMembers hfaithful members depth h₂ hmembers
    refine ⟨source₃, h₃, ?_⟩
    rw [copyFrom_of_next hnext rfl hkey, if_neg (Nat.succ_ne_zero depth), hcopy₂,
      if_neg (Nat.succ_ne_zero depth), hcopy₃]

end

/-- A document is copied whole, and what follows it stays in the source. -/
theorem copyValue_flatten (hfaithful : Faithful pending) (doc : Doc) {rest : List Token}
    {source : σ} {sink sink' : κ} (h : pending source (doc.flatten ++ rest))
    (hwrite : writeAll doc.flatten sink = (.ok (), sink')) :
    ∃ source', copyValue source sink = (.ok (), source', sink') ∧ pending source' rest := by
  obtain ⟨source', hrest, hcopy⟩ := copyFrom_flatten hfaithful doc 0 h hwrite
  exact ⟨source', hcopy, hrest⟩

/-- A document is skipped whole, since what takes skipped tokens refuses none. -/
theorem skipValue_flatten (hfaithful : Faithful pending) (doc : Doc) {rest : List Token}
    {source : σ} (h : pending source (doc.flatten ++ rest)) :
    ∃ source', skipValue source = (.ok (), source') ∧ pending source' rest := by
  obtain ⟨source', hcopy, hrest⟩ :=
    copyValue_flatten hfaithful doc h (writeAll_discarded doc.flatten Discarded.mk)
  refine ⟨source', ?_, hrest⟩
  rw [skipValue, hcopy]

end FieldMask
