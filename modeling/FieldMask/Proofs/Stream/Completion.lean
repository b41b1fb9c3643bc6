import FieldMask.Proofs.Document.Draft
import FieldMask.Proofs.Stream.Breaking

namespace FieldMask

/-!
# Projecting any tokens

The tokens of a source need not be those of a document.  A copy counts brackets and does not compare
them, and what is skipped is not looked at otherwise; so a projection can succeed on tokens that are
ill-formed.  But the sink compares: it goes along with a document in part, in which the same
containers are open as the projector has scopes for, and so the end of the projection is the end of
a document.

* `Token.drop_nest` — a copy counts the containers that its tokens open and close.
* `copyFrom_eq_ok` — what a copy that succeeds has taken, from whatever source.
* `Keeps` — the containers of the projector's scopes are those that are open in the sink's draft.
* `beginValue_keeps`, `projectMember_keeps`, `advance_keeps`, `projectScopes_keeps` — the steps.
* `exists_whole_of_project` — behind a projection that succeeds the sink has a whole document.
-/

variable {ν σ κ : Type} [TokenSource σ] [TokenSink κ] {pending : σ → List Token → Prop}
  {fault : StreamError} {source source' : σ} {sink sink' : κ} {tokens : List Token}

/-! ### What is taken -/

/-- A token opens and closes as many containers as a copy counts for it. -/
theorem Token.drop_nest {depth depth' : Nat} {token : Token}
    (h : depthAfter depth token = .ok depth') (opened : List Container) :
    (token.nest opened).drop depth' = opened.drop depth := by
  cases token with
  | beginObject | beginArray | scalar =>
    cases h
    rfl
  | key | endObject | endArray =>
    -- Outside of every container these are refused.
    cases depth with
    | zero => cases h
    | succ depth =>
      cases h
      simp [nest]

/-- A copy that succeeds has handed on what it has taken: one token at least, and as many
ends of containers, beyond their beginnings, as it was inside of.  The induction follows the
copy from token to token; all that the source gives away is the token that it delivers. -/
theorem copyFrom_eq_ok (hbreaking : Breaking pending fault) {depth : Nat}
    (h : pending source tokens)
    (hcopy : copyFrom depth source sink = (.ok (), source', sink')) :
    ∃ taken rest, tokens = taken ++ rest ∧ pending source' rest ∧ taken ≠ [] ∧
      writeAll taken sink = (.ok (), sink') ∧
      ∀ opened, taken.foldl Token.nest opened = opened.drop depth := by
  fun_induction copyFrom depth source sink generalizing tokens with
  | case1 => cases hcopy
  | case2 => cases hcopy
  | case3 => cases hcopy
  -- The token that brings the count back to zero is the last one.
  | case4 _ _ _ token _ hnext _ hwrite hdepth =>
    cases hcopy
    obtain ⟨rest, rfl, hrest⟩ := hbreaking.eq_of_next h hnext
    refine ⟨[token], rest, rfl, hrest, List.cons_ne_nil _ _,
      writeAll_cons_eq_ok.2 ⟨_, hwrite, rfl⟩, fun opened => ?_⟩
    exact Token.drop_nest hdepth opened
  | case5 _ _ _ token _ hnext _ hdepth _ hwrite _ ih =>
    obtain ⟨behind, rfl, hbehind⟩ := hbreaking.eq_of_next h hnext
    obtain ⟨taken, rest, rfl, hrest, -, hall, hnest⟩ := ih hbehind hcopy
    refine ⟨token :: taken, rest, rfl, hrest, List.cons_ne_nil _ _,
      writeAll_cons_eq_ok.2 ⟨_, hwrite, hall⟩, fun opened => ?_⟩
    rw [List.foldl_cons, hnest, Token.drop_nest hdepth]

omit [TokenSink κ] in
/-- What is skipped leaves some tokens, too; which ones have gone shows nowhere. -/
theorem skipValue_eq_ok (hbreaking : Breaking pending fault) (h : pending source tokens)
    (hskip : skipValue source = (.ok (), source')) : ∃ rest, pending source' rest := by
  rw [skipValue] at hskip
  generalize hcopy : copyValue source Discarded.mk = result at hskip
  obtain ⟨result, behind, discarded⟩ := result
  cases hskip
  obtain ⟨taken, rest, -, hrest, -⟩ := copyFrom_eq_ok hbreaking h hcopy
  exact ⟨rest, hrest⟩

/-- A token that is handed on is the next one of the source, and the sink has taken it. -/
theorem forward_eq_ok (hbreaking : Breaking pending fault) {token : Token} {rest : List Token}
    (h : pending source (token :: rest))
    (hforward : forward source sink = (.ok (), source', sink')) :
    TokenSink.write token sink = (.ok (), sink') ∧ pending source' rest := by
  obtain ⟨behind, hnext, hrest⟩ := hbreaking.next h
  rw [forward, hnext] at hforward
  obtain ⟨hwrite, hbehind⟩ := Prod.mk.inj hforward
  obtain ⟨rfl, rfl⟩ := Prod.mk.inj hbehind
  exact ⟨Prod.ext hwrite rfl, hrest⟩

/-! ### The projector and the sink stay in step -/

/-- The source has some tokens left, and the sink goes along with a draft that has begun and in
which the containers of the scopes are open. -/
structure Keeps (pending : σ → List Token → Prop) (guides : Draft → κ → Prop)
    (scopes : List (Scope ν)) (source : σ) (sink : κ) : Prop where
  left : ∃ tokens, pending source tokens
  draft : ∃ draft, guides draft sink ∧ draft.tokens ≠ [] ∧
    draft.containers = scopes.map Scope.container

section Steps

variable {guides : Draft → κ → Prop} {draft : Draft} {scopes scopes' : List (Scope ν)}

omit [TokenSource σ] in
/-- Tokens that are written open and close the containers of the draft. -/
theorem Keeps.of_writeAll (hguides : Draft.Guides guides) (hleft : ∃ tokens, pending source tokens)
    (hdraft : guides draft sink) {taken : List Token} (hne : taken ≠ [])
    (hwrite : writeAll taken sink = (.ok (), sink'))
    (hscopes : taken.foldl Token.nest draft.containers = scopes.map Scope.container) :
    Keeps pending guides scopes source sink' := by
  obtain ⟨draft', hadd, hdraft'⟩ := hguides.exists_addAll? hdraft hwrite
  refine ⟨hleft, draft', hdraft', ?_, ?_⟩
  · rw [Draft.tokens_of_addAll? hadd]
    exact fun hnil => hne (List.append_eq_nil_iff.1 hnil).2
  · rw [Draft.containers_of_addAll? hadd, hscopes]

omit [TokenSource σ] in
/-- A single token that is written does the same. -/
theorem Keeps.of_write (hguides : Draft.Guides guides) (hleft : ∃ tokens, pending source tokens)
    (hdraft : guides draft sink) {token : Token}
    (hwrite : TokenSink.write token sink = (.ok (), sink'))
    (hscopes : token.nest draft.containers = scopes.map Scope.container) :
    Keeps pending guides scopes source sink' :=
  .of_writeAll hguides hleft hdraft (List.cons_ne_nil token [])
    (writeAll_cons_eq_ok.2 ⟨sink', hwrite, rfl⟩) hscopes

/-- A copied value leaves the containers around it open. -/
theorem copyValue_keeps (hguides : Draft.Guides guides) (hbreaking : Breaking pending fault)
    (h : pending source tokens) (hdraft : guides draft sink)
    (hscopes : draft.containers = scopes.map Scope.container)
    (hcopy : copyValue source sink = (.ok (), source', sink')) :
    Keeps pending guides scopes source' sink' := by
  obtain ⟨taken, rest, -, hrest, hne, hwrite, hnest⟩ := copyFrom_eq_ok hbreaking h hcopy
  refine .of_writeAll hguides ⟨rest, hrest⟩ hdraft hne hwrite ?_
  rw [hnest, List.drop_zero, hscopes]

/-- A value that begins opens its scope with its container, and a scalar opens neither. -/
theorem beginValue_keeps (hguides : Draft.Guides guides) (hbreaking : Breaking pending fault)
    (h : pending source tokens) (hdraft : guides draft sink)
    (hscopes : draft.containers = scopes.map Scope.container) {view : ν}
    (hbegin : beginValue view scopes source sink = (.ok scopes', source', sink')) :
    Keeps pending guides scopes' source' sink' := by
  unfold beginValue at hbegin
  split at hbegin
  · cases hbegin
  · cases hbegin
  next kind behind hpeek =>
    obtain ⟨token, rest, rfl, hpending⟩ := hbreaking.eq_of_peek h hpeek
    -- What is announced as the beginning of a container is one.
    cases token with
    | beginObject =>
      obtain ⟨_, hforward, rfl⟩ := eq_of_map_ok hbegin
      obtain ⟨hwrite, hrest⟩ := forward_eq_ok hbreaking hpending hforward
      exact .of_write hguides ⟨rest, hrest⟩ hdraft hwrite (congrArg (Container.object :: ·) hscopes)
    | beginArray =>
      obtain ⟨_, hforward, rfl⟩ := eq_of_map_ok hbegin
      obtain ⟨hwrite, hrest⟩ := forward_eq_ok hbreaking hpending hforward
      exact .of_write hguides ⟨rest, hrest⟩ hdraft hwrite (congrArg (Container.array :: ·) hscopes)
    | scalar =>
      obtain ⟨_, hcopy, rfl⟩ := eq_of_map_ok hbegin
      exact copyValue_keeps hguides hbreaking hpending hdraft hscopes hcopy
    | key | endObject | endArray => cases hbegin

/-- A member leaves open what its value leaves open.  Its name changes nothing about the
containers, and a member that is left out does not show in the sink at all. -/
theorem projectMember_keeps (hguides : Draft.Guides guides) (hbreaking : Breaking pending fault)
    (h : Keeps pending guides scopes source sink) {decide : ν → String → Action ν} {view : ν}
    {name : String}
    (hmember : projectMember decide view name scopes source sink = (.ok scopes', source', sink')) :
    Keeps pending guides scopes' source' sink' := by
  obtain ⟨⟨tokens, hpending⟩, draft, hdraft, hbegun, hscopes⟩ := h
  -- The name of a member that is kept is written before its value, whichever way that goes.
  have hname {sink' : κ} (hwrite : TokenSink.write (.key name) sink = (.ok (), sink')) :
      ∃ draft', guides draft' sink' ∧ draft'.containers = scopes.map Scope.container := by
    obtain ⟨draft', hadd, hdraft'⟩ := hguides.exists_add? hdraft hwrite
    exact ⟨draft', hdraft', (Draft.containers_of_add? hadd).trans hscopes⟩
  -- The three ways in which a rule may decide: left out, copied, entered.
  unfold projectMember at hmember
  split at hmember
  · generalize hskip : skipValue source = result at hmember
    obtain ⟨result, behind⟩ := result
    cases result with
    | error => cases hmember
    | ok =>
      cases hmember
      exact ⟨skipValue_eq_ok hbreaking hpending hskip, draft, hdraft, hbegun, hscopes⟩
  · split at hmember
    · cases hmember
    next hwrite =>
      obtain ⟨draft', hdraft', hscopes'⟩ := hname hwrite
      obtain ⟨_, hcopy, rfl⟩ := eq_of_map_ok hmember
      exact copyValue_keeps hguides hbreaking hpending hdraft' hscopes' hcopy
  · split at hmember
    · cases hmember
    next hwrite =>
      obtain ⟨draft', hdraft', hscopes'⟩ := hname hwrite
      exact beginValue_keeps hguides hbreaking hpending hdraft' hscopes' hmember

/-- A step inside a container leaves its scope open as long as the sink has its container
open, and closes both with the same token. -/
theorem advance_keeps (hguides : Draft.Guides guides) (hbreaking : Breaking pending fault)
    {scope : Scope ν} {outer : List (Scope ν)}
    (h : Keeps pending guides (scope :: outer) source sink) {decide : ν → String → Action ν}
    (hadvance : advance decide scope outer source sink = (.ok scopes', source', sink')) :
    Keeps pending guides scopes' source' sink' := by
  obtain ⟨⟨tokens, hpending⟩, draft, hdraft, hbegun, hscopes⟩ := h
  -- What is open once the innermost container has been closed.
  have hclosed : draft.containers.tail = outer.map Scope.container := congrArg List.tail hscopes
  unfold advance at hadvance
  split at hadvance
  · cases hadvance
  · cases hadvance
  next kind behind hpeek =>
    obtain ⟨token, rest, hkind, hpending⟩ := hbreaking.eq_of_peek hpending hpeek
    -- By the container and by what comes in it: the end or an item of an array, the end or a name
    -- of an object.  Anything else is refused.
    split at hadvance
    · obtain rfl : token = .endArray := by cases token <;> cases hkind; rfl
      obtain ⟨_, hforward, rfl⟩ := eq_of_map_ok hadvance
      obtain ⟨hwrite, hrest⟩ := forward_eq_ok hbreaking hpending hforward
      exact .of_write hguides ⟨rest, hrest⟩ hdraft hwrite hclosed
    · exact beginValue_keeps hguides hbreaking hpending hdraft hscopes hadvance
    · obtain rfl : token = .endObject := by cases token <;> cases hkind; rfl
      obtain ⟨_, hforward, rfl⟩ := eq_of_map_ok hadvance
      obtain ⟨hwrite, hrest⟩ := forward_eq_ok hbreaking hpending hforward
      exact .of_write hguides ⟨rest, hrest⟩ hdraft hwrite hclosed
    · split at hadvance
      · cases hadvance
      next hnext =>
        obtain ⟨rest', -, hrest⟩ := hbreaking.eq_of_next hpending hnext
        have hkeeps : Keeps pending guides (scope :: outer) _ sink :=
          ⟨⟨rest', hrest⟩, draft, hdraft, hbegun, hscopes⟩
        exact projectMember_keeps hguides hbreaking hkeeps hadvance
      · cases hadvance
    · cases hadvance

/-- So does a whole run: behind it no scope is open, and therefore no container in the
sink. -/
theorem projectScopes_keeps (hguides : Draft.Guides guides) (hbreaking : Breaking pending fault)
    (h : Keeps pending guides scopes source sink) {decide : ν → String → Action ν}
    (hproject : projectScopes decide scopes source sink = (.ok (), source', sink')) :
    Keeps pending guides ([] : List (Scope ν)) source' sink' := by
  fun_induction projectScopes decide scopes source sink with
  | case1 =>
    cases hproject
    exact h
  | case2 => cases hproject
  | case3 _ _ _ _ _ _ _ hadvance ih =>
    exact ih (advance_keeps hguides hbreaking h hadvance) hproject

end Steps

/-- **Behind a projection that succeeds the sink has a whole document**, whatever tokens the
source had.  The draft has begun, and nothing in it is open; such a draft is whole. -/
theorem exists_whole_of_project {guides : Draft → κ → Prop} (hguides : Draft.Guides guides)
    (hbreaking : Breaking pending fault) {mask : Option Mask} (h : pending source tokens)
    (hempty : guides .empty sink)
    (hproject : project mask source sink = (.ok (), source', sink')) :
    ∃ doc, guides (.whole doc) sink' := by
  have hkeeps : Keeps pending guides ([] : List (Scope View)) source' sink' := by
    unfold project at hproject
    split at hproject
    · exact copyValue_keeps hguides hbreaking h hempty rfl hproject
    · rw [projectBy_eq_resume] at hproject
      generalize hbegin : beginValue _ [] source sink = result at hproject
      obtain ⟨_ | scopes, between, middle⟩ := result
      · cases hproject
      · have hbegun := beginValue_keeps hguides hbreaking h hempty rfl hbegin
        exact projectScopes_keeps hguides hbreaking hbegun hproject
  obtain ⟨-, draft, hdraft, hbegun, hcontainers⟩ := hkeeps
  obtain ⟨doc, rfl⟩ := Draft.exists_eq_whole hcontainers hbegun
  exact ⟨doc, hdraft⟩

end FieldMask
