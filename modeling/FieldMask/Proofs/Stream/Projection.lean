import FieldMask.Proofs.Document.Projection
import FieldMask.Proofs.Stream.Copy
import FieldMask.Stream.Projection

namespace FieldMask

/-!
# Projecting the stream of a document

Projection by scopes and projection by recursion on the tree say the same: the tokens of a document
come out as those of the projected document, and what follows it is left in the source.  A value is
handled under any scopes, which are still open when it ends, so one induction on the tree covers
every stack that the projector can hold.

* `resume` — what becomes of a value or a step: the first failure, or the scopes left open handled
  to their end.
* `beginValue_array`, `advance_item`, `advance_key`, … — the steps, from what the source delivers.
* `resume_beginValue_flatten` — a value; `projectScopes_flattenItems`,
  `projectScopes_flattenMembers` — the rest of a container.
* `ProjectsTo` — what projection makes of some tokens, from any source.
* `project_flatten` — a document through a mask.
-/

variable {ν σ κ : Type} [TokenSource σ] [TokenSink κ] {pending : σ → List Token → Prop}

/-! ### Steps -/

/-- Goes on from a step: with its failure, or with the scopes that it has left open. -/
def resume (decide : ν → String → Action ν) :
    Except StreamError (List (Scope ν)) × σ × κ → Except StreamError Unit × σ × κ
  | (.error e, source, sink) => (.error e, source, sink)
  | (.ok scopes, source, sink) => projectScopes decide scopes source sink

/-- As long as a container is open, projection takes a step in the innermost one. -/
theorem projectScopes_cons (decide : ν → String → Action ν) (scope : Scope ν)
    (outer : List (Scope ν)) (source : σ) (sink : κ) :
    projectScopes decide (scope :: outer) source sink =
      resume decide (advance decide scope outer source sink) := by
  rw [projectScopes]
  split <;> rename_i heq <;> rw [heq] <;> rfl

/-- Where none is open projection is at its end. -/
theorem projectScopes_nil (decide : ν → String → Action ν) (source : σ) (sink : κ) :
    projectScopes decide [] source sink = (.ok (), source, sink) := by
  rw [projectScopes]

/-- A projection is a value that begins outside of all containers. -/
theorem projectBy_eq_resume (decide : ν → String → Action ν) (view : ν) (source : σ) (sink : κ) :
    projectBy decide view source sink = resume decide (beginValue view [] source sink) := by
  rw [projectBy]
  split <;> rename_i heq <;> rw [heq] <;> rfl

/-- A token that the source delivers and the sink takes is handed on. -/
theorem forward_of_next {token : Token} {source source' : σ} {sink sink' : κ}
    (hnext : TokenSource.next source = (.ok token, source'))
    (hwrite : TokenSink.write token sink = (.ok (), sink')) :
    forward source sink = (.ok (), source', sink') := by
  rw [forward, hnext]
  dsimp only
  rw [hwrite]

/-- The token before the parts of a container. -/
def Container.first : Container → Token
  | array => .beginArray
  | object => .beginObject

/-- The token behind the parts of a container. -/
def Container.last : Container → Token
  | array => .endArray
  | object => .endObject

/-- The first token of a container opens a scope, whose view is that of the value.  The
token is looked at, taken and handed on as it is. -/
theorem beginValue_first (hfaithful : Faithful pending) (container : Container) (view : ν)
    (scopes : List (Scope ν)) {rest : List Token} {source : σ} {sink sink' : κ}
    (h : pending source (container.first :: rest))
    (hwrite : TokenSink.write container.first sink = (.ok (), sink')) :
    ∃ source', pending source' rest ∧
      beginValue view scopes source sink = (.ok (⟨container, view⟩ :: scopes), source', sink') := by
  obtain ⟨source₁, hpeek, h₁⟩ := hfaithful.peek h
  obtain ⟨source₂, hnext, h₂⟩ := hfaithful.next h₁
  have hforward := forward_of_next hnext hwrite
  refine ⟨source₂, h₂, ?_⟩
  rw [beginValue, hpeek]
  cases container with
  | array =>
    show ((forward source₁ sink).1.map _, (forward source₁ sink).2) = _
    rw [hforward]
    rfl
  | object =>
    show ((forward source₁ sink).1.map _, (forward source₁ sink).2) = _
    rw [hforward]
    rfl

/-- A scalar is a value of its own and opens nothing. -/
theorem beginValue_scalar (hfaithful : Faithful pending) (value : Scalar) (view : ν)
    (scopes : List (Scope ν)) {rest : List Token} {source : σ} {sink sink' : κ}
    (h : pending source (.scalar value :: rest))
    (hwrite : TokenSink.write (.scalar value) sink = (.ok (), sink')) :
    ∃ source', pending source' rest ∧
      beginValue view scopes source sink = (.ok scopes, source', sink') := by
  obtain ⟨source₁, hpeek, h₁⟩ := hfaithful.peek h
  -- The projector copies a scalar as it copies any value.
  have hall : writeAll (Doc.scalar value).flatten sink = (.ok (), sink') :=
    writeAll_cons_eq_ok.2 ⟨sink', hwrite, rfl⟩
  obtain ⟨source₂, hcopy, h₂⟩ := copyValue_flatten hfaithful (.scalar value) h₁ hall
  refine ⟨source₂, h₂, ?_⟩
  rw [beginValue, hpeek]
  show ((copyValue source₁ sink).1.map _, (copyValue source₁ sink).2) = _
  rw [hcopy]
  rfl

/-- The last token of a container closes its scope. -/
theorem advance_last (hfaithful : Faithful pending) (decide : ν → String → Action ν)
    (scope : Scope ν) (outer : List (Scope ν)) {rest : List Token} {source : σ} {sink sink' : κ}
    (h : pending source (scope.container.last :: rest))
    (hwrite : TokenSink.write scope.container.last sink = (.ok (), sink')) :
    ∃ source', pending source' rest ∧
      advance decide scope outer source sink = (.ok outer, source', sink') := by
  obtain ⟨source₁, hpeek, h₁⟩ := hfaithful.peek h
  obtain ⟨source₂, hnext, h₂⟩ := hfaithful.next h₁
  have hforward := forward_of_next hnext hwrite
  refine ⟨source₂, h₂, ?_⟩
  obtain ⟨container, view⟩ := scope
  rw [advance, hpeek]
  -- An array may end wherever an item may begin, an object wherever a name may come.
  cases container with
  | array =>
    show ((forward source₁ sink).1.map _, (forward source₁ sink).2) = _
    rw [hforward]
    rfl
  | object =>
    show ((forward source₁ sink).1.map _, (forward source₁ sink).2) = _
    rw [hforward]
    rfl

/-- Any other token of an array begins an item, which has the view of the array. -/
theorem advance_item (hfaithful : Faithful pending) (decide : ν → String → Action ν) (view : ν)
    (outer : List (Scope ν)) {token : Token} (hkind : token.kind ≠ .endArray)
    {rest : List Token} {source : σ} (sink : κ) (h : pending source (token :: rest)) :
    ∃ source', pending source' (token :: rest) ∧
      advance decide ⟨.array, view⟩ outer source sink =
        beginValue view (⟨.array, view⟩ :: outer) source' sink := by
  obtain ⟨source₁, hpeek, h₁⟩ := hfaithful.peek h
  refine ⟨source₁, h₁, ?_⟩
  rw [advance, hpeek]
  -- Nothing of the token is looked at but its kind.
  generalize token.kind = kind at hkind
  cases kind with
  | endArray => exact absurd rfl hkind
  | _ => rfl

/-- A name in an object begins a member.  It is taken from the source, and whether it is
handed on is left to the member. -/
theorem advance_key (hfaithful : Faithful pending) (decide : ν → String → Action ν) (view : ν)
    (outer : List (Scope ν)) {name : String} {rest : List Token} {source : σ} (sink : κ)
    (h : pending source (.key name :: rest)) :
    ∃ source', pending source' rest ∧
      advance decide ⟨.object, view⟩ outer source sink =
        projectMember decide view name (⟨.object, view⟩ :: outer) source' sink := by
  obtain ⟨source₁, hpeek, h₁⟩ := hfaithful.peek h
  obtain ⟨source₂, hnext, h₂⟩ := hfaithful.next h₁
  refine ⟨source₂, h₂, ?_⟩
  rw [advance, hpeek]
  dsimp only [Token.kind]
  rw [hnext]

/-- No document begins with the end of an array. -/
theorem Doc.flatten_head (doc : Doc) :
    ∃ token rest, doc.flatten = token :: rest ∧ token.kind ≠ .endArray := by
  cases doc with
  | scalar value => exact ⟨_, _, rfl, TokenKind.noConfusion⟩
  | array items => exact ⟨_, _, rfl, TokenKind.noConfusion⟩
  | object members => exact ⟨_, _, rfl, TokenKind.noConfusion⟩

/-! ### Values and the rest of containers -/

variable {decide : ν → String → Action ν}

/-- A container is handled to its end if what stands between its brackets is, whatever
is written for that.  The body that is read and the one that is written need not be the
same. -/
theorem resume_beginValue_enclosed (hfaithful : Faithful pending) (container : Container)
    (view : ν) (scopes : List (Scope ν)) {body body' : List Token}
    (hbody : ∀ {rest : List Token} {source : σ} {sink sink' : κ}, pending source (body ++ rest) →
      writeAll body' sink = (.ok (), sink') →
      ∃ source', pending source' rest ∧
        projectScopes decide (⟨container, view⟩ :: scopes) source sink =
          projectScopes decide (⟨container, view⟩ :: scopes) source' sink')
    {rest : List Token} {source : σ} {sink sink' : κ}
    (h : pending source (container.first :: (body ++ [container.last]) ++ rest))
    (hwrite : writeAll (container.first :: (body' ++ [container.last])) sink = (.ok (), sink')) :
    ∃ source', pending source' rest ∧
      resume decide (beginValue view scopes source sink) =
        projectScopes decide scopes source' sink' := by
  rw [List.cons_append, List.append_assoc] at h
  obtain ⟨sink₁, hwrite₁, hwrite⟩ := writeAll_cons_eq_ok.1 hwrite
  obtain ⟨sink₂, hwrite₂, hwrite⟩ := writeAll_append_eq_ok.1 hwrite
  obtain ⟨sink₃, hwrite₃, hnil⟩ := writeAll_cons_eq_ok.1 hwrite
  cases hnil
  -- The first bracket opens the scope, the parts leave it open, the last bracket closes it.
  obtain ⟨inside, hinside, hbegin⟩ := beginValue_first hfaithful container view scopes h hwrite₁
  obtain ⟨behind, hbehind, hparts⟩ := hbody hinside hwrite₂
  obtain ⟨source', hrest, hadvance⟩ :=
    advance_last hfaithful decide ⟨container, view⟩ scopes hbehind hwrite₃
  refine ⟨source', hrest, ?_⟩
  rw [hbegin, resume, hparts, projectScopes_cons, hadvance, resume]

/-- A member is handled as the rule decides, if its value can be projected under every view; the
members behind it are then written in the same way whatever has become of it. -/
theorem resume_projectMember (hfaithful : Faithful pending) (name : String) (value : Doc) (view : ν)
    (scopes : List (Scope ν)) (members : List (String × Doc))
    (hvalue : ∀ (inner : ν) {rest : List Token} {source : σ} {sink sink' : κ},
      pending source (value.flatten ++ rest) →
      writeAll (value.project decide inner).flatten sink = (.ok (), sink') →
      ∃ source', pending source' rest ∧
        resume decide (beginValue inner scopes source sink) =
          projectScopes decide scopes source' sink')
    {rest : List Token} {source : σ} {sink sink' : κ} (h : pending source (value.flatten ++ rest))
    (hwrite : writeAll (Doc.flattenMembers
      (Doc.projectMembers decide view ((name, value) :: members))) sink = (.ok (), sink')) :
    ∃ source' between, pending source' rest ∧
      writeAll (Doc.flattenMembers (Doc.projectMembers decide view members)) between =
        (.ok (), sink') ∧
      resume decide (projectMember decide view name scopes source sink) =
        projectScopes decide scopes source' between := by
  -- What has to be written depends on the decision, which is the same on both sides.
  rw [Doc.projectMembers] at hwrite
  rw [projectMember]
  cases haction : decide view name with
  | skip =>
    -- The name was taken by the object, and the value goes where nothing is written.
    rw [haction] at hwrite
    obtain ⟨source', hskip, hrest⟩ := skipValue_flatten hfaithful value h
    refine ⟨source', sink, hrest, hwrite, ?_⟩
    dsimp only
    rw [hskip]
    rfl
  | copy =>
    rw [haction] at hwrite
    obtain ⟨sink₁, hkey, hwrite⟩ := writeAll_cons_eq_ok.1 hwrite
    obtain ⟨sink₂, hcopied, hwrite⟩ := writeAll_append_eq_ok.1 hwrite
    obtain ⟨source', hcopy, hrest⟩ := copyValue_flatten hfaithful value h hcopied
    refine ⟨source', sink₂, hrest, hwrite, ?_⟩
    dsimp only
    rw [hkey]
    dsimp only
    rw [hcopy]
    rfl
  | descend inner =>
    rw [haction] at hwrite
    obtain ⟨sink₁, hkey, hwrite⟩ := writeAll_cons_eq_ok.1 hwrite
    obtain ⟨sink₂, hprojected, hwrite⟩ := writeAll_append_eq_ok.1 hwrite
    obtain ⟨source', hrest, hresume⟩ := hvalue inner h hprojected
    refine ⟨source', sink₂, hrest, hwrite, ?_⟩
    dsimp only
    rw [hkey]
    exact hresume

mutual

/-- A value is written as it is projected, and the scopes around it are then handled
further.  The induction is on the document, for any stack of scopes and any view. -/
theorem resume_beginValue_flatten (hfaithful : Faithful pending) (doc : Doc) (view : ν)
    (scopes : List (Scope ν)) {rest : List Token} {source : σ} {sink sink' : κ}
    (h : pending source (doc.flatten ++ rest))
    (hwrite : writeAll (doc.project decide view).flatten sink = (.ok (), sink')) :
    ∃ source', pending source' rest ∧
      resume decide (beginValue view scopes source sink) =
        projectScopes decide scopes source' sink' := by
  -- An array hands its view on to its items; an object asks the rule about each member.
  cases doc with
  | scalar value =>
    rw [Doc.project] at hwrite
    obtain ⟨_, hwrite, hnil⟩ := writeAll_cons_eq_ok.1 hwrite
    cases hnil
    obtain ⟨source', hrest, hbegin⟩ := beginValue_scalar hfaithful value view scopes h hwrite
    exact ⟨source', hrest, by rw [hbegin, resume]⟩
  | array items =>
    rw [Doc.project] at hwrite
    exact resume_beginValue_enclosed hfaithful .array view scopes
      (projectScopes_flattenItems hfaithful items view scopes) h hwrite
  | object members =>
    rw [Doc.project] at hwrite
    exact resume_beginValue_enclosed hfaithful .object view scopes
      (projectScopes_flattenMembers hfaithful members view scopes) h hwrite

/-- An array goes on behind the items that come next. -/
theorem projectScopes_flattenItems (hfaithful : Faithful pending) (items : List Doc) (view : ν)
    (outer : List (Scope ν)) {rest : List Token} {source : σ} {sink sink' : κ}
    (h : pending source (Doc.flattenItems items ++ rest))
    (hwrite : writeAll (Doc.flattenItems (Doc.projectItems decide view items)) sink =
      (.ok (), sink')) :
    ∃ source', pending source' rest ∧
      projectScopes decide (⟨.array, view⟩ :: outer) source sink =
        projectScopes decide (⟨.array, view⟩ :: outer) source' sink' := by
  cases items with
  | nil =>
    cases hwrite
    exact ⟨source, h, rfl⟩
  | cons item items =>
    rw [Doc.flattenItems, List.append_assoc] at h
    rw [Doc.projectItems, Doc.flattenItems] at hwrite
    obtain ⟨between, hitem, hitems⟩ := writeAll_append_eq_ok.1 hwrite
    obtain ⟨token, tail, hflatten, hkind⟩ := item.flatten_head
    -- The item's first token is looked at twice: by the array, then by the value that it begins.
    have htoken : pending source (token :: (tail ++ (Doc.flattenItems items ++ rest))) := by
      rw [hflatten] at h
      exact h
    obtain ⟨source₁, h₁, hadvance⟩ := advance_item hfaithful decide view outer hkind sink htoken
    have hvalue : pending source₁ (item.flatten ++ (Doc.flattenItems items ++ rest)) := by
      rw [hflatten]
      exact h₁
    obtain ⟨source₂, h₂, hresume⟩ :=
      resume_beginValue_flatten hfaithful item view (⟨.array, view⟩ :: outer) hvalue hitem
    obtain ⟨source₃, h₃, hrest⟩ := projectScopes_flattenItems hfaithful items view outer h₂ hitems
    refine ⟨source₃, h₃, ?_⟩
    rw [projectScopes_cons, hadvance, hresume, hrest]

/-- An object goes on behind the members that come next.  By induction on the members; what
the view makes of each is one step, or a value with a scope of its own. -/
theorem projectScopes_flattenMembers (hfaithful : Faithful pending)
    (members : List (String × Doc)) (view : ν) (outer : List (Scope ν)) {rest : List Token}
    {source : σ} {sink sink' : κ} (h : pending source (Doc.flattenMembers members ++ rest))
    (hwrite : writeAll (Doc.flattenMembers (Doc.projectMembers decide view members)) sink =
      (.ok (), sink')) :
    ∃ source', pending source' rest ∧
      projectScopes decide (⟨.object, view⟩ :: outer) source sink =
        projectScopes decide (⟨.object, view⟩ :: outer) source' sink' := by
  match members with
  | [] =>
    cases hwrite
    exact ⟨source, h, rfl⟩
  | (name, value) :: members =>
    rw [Doc.flattenMembers, List.cons_append, List.append_assoc] at h
    obtain ⟨source₁, h₁, hadvance⟩ := advance_key hfaithful decide view outer sink h
    obtain ⟨source₂, sink₂, h₂, hwrite₂, hmember⟩ :=
      resume_projectMember hfaithful name value view (⟨.object, view⟩ :: outer) members
        (fun inner => resume_beginValue_flatten hfaithful value inner (⟨.object, view⟩ :: outer))
        h₁ hwrite
    obtain ⟨source₃, h₃, hrest⟩ :=
      projectScopes_flattenMembers hfaithful members view outer h₂ hwrite₂
    refine ⟨source₃, h₃, ?_⟩
    rw [projectScopes_cons, hadvance, hmember, hrest]

end

/-! ### Documents through a mask -/

/-- On any sink that takes the projected document, projection ends well and has written just
that.  Without a mask the document is copied, and with one it is projected under the mask's
view. -/
theorem project_of_writeAll (hfaithful : Faithful pending) (mask : Option Mask) (doc : Doc)
    {rest : List Token} {source : σ} {sink sink' : κ} (h : pending source (doc.flatten ++ rest))
    (hwrite : writeAll (doc.through mask).flatten sink = (.ok (), sink')) :
    ∃ source', project mask source sink = (.ok (), source', sink') ∧ pending source' rest := by
  rw [Doc.through] at hwrite
  rw [project]
  cases hview : View.ofMask? mask with
  | none =>
    rw [hview] at hwrite
    exact copyValue_flatten hfaithful doc h hwrite
  | some view =>
    rw [hview] at hwrite
    obtain ⟨source', hrest, hresume⟩ := resume_beginValue_flatten hfaithful doc view [] h hwrite
    refine ⟨source', ?_, hrest⟩
    dsimp only
    rw [projectBy_eq_resume, hresume, projectScopes_nil]

/-- What projection makes of some tokens, whatever source delivers them and whatever the sink has
taken before; the tokens behind them stay in the source. -/
def ProjectsTo (mask : Option Mask) (tokens projected : List Token) : Prop :=
  ∀ (σ : Type) [TokenSource σ] (pending : σ → List Token → Prop), Faithful pending →
    ∀ (rest : List Token) (source : σ) (sink : Collected), pending source (tokens ++ rest) →
      ∃ source', project mask source sink =
          (.ok (), source', ⟨sink.tokens ++ projected.toArray⟩) ∧ pending source' rest

/-- The tokens of a document are projected to those of the document through the mask. -/
theorem projectsTo_flatten (mask : Option Mask) (doc : Doc) :
    ProjectsTo mask doc.flatten (doc.through mask).flatten := by
  intro σ _ pending hfaithful rest source sink h
  exact project_of_writeAll hfaithful mask doc h (writeAll_collected _ sink)

/-- **Streaming is projecting the tree.**  Whatever a source delivers behind a document, projection
writes the tokens of the document through the mask and leaves the rest in the source. -/
theorem project_flatten (hfaithful : Faithful pending) (mask : Option Mask) (doc : Doc)
    (rest : List Token) (source : σ) (sink : Collected)
    (h : pending source (doc.flatten ++ rest)) :
    ∃ source', project mask source sink =
        (.ok (), source', ⟨sink.tokens ++ (doc.through mask).flatten.toArray⟩) ∧
      pending source' rest :=
  project_of_writeAll hfaithful mask doc h (writeAll_collected _ sink)

/-- An excluded field with an included one below it, met inside of an array.  The other
members are dropped, and the array is kept. -/
theorem project_flatten_override :
    ∃ source', project
        (some ⟨⟨.included, .subtree "z" .excluded .excluded (.leaf "x" .included .nil) .nil⟩,
          by decide⟩)
        (Replay.ofTokens [.beginArray, .beginObject, .key "b", .scalar .null, .key "z",
          .beginObject, .key "x", .scalar (.bool true), .key "y", .scalar .null, .endObject,
          .endObject, .endArray, .endArray])
        Collected.empty =
        (.ok (), source', ⟨#[.beginArray, .beginObject, .key "z", .beginObject, .key "x",
          .scalar (.bool true), .endObject, .endObject, .endArray]⟩) ∧
      source' = .ofTokens [.endArray] :=
  project_flatten Replay.faithful _
    (.array [.object [("b", .scalar .null),
      ("z", .object [("x", .scalar (.bool true)), ("y", .scalar .null)])]])
    [.endArray] _ _ rfl

end FieldMask
