import FieldMask.Proofs.Datum.Denotes
import FieldMask.Proofs.Stream.Alike

namespace FieldMask

/-!
# The levels that a projection reaches

A rule of decision is asked about the views of open containers and about nothing else.  So a rule
may be replaced by any other that says the same of these, and what holds of the first view and is
handed down from view to view holds wherever the rule is asked.

* `Scope.Leads` — what one step makes of the open containers; `advance_leads` — a step makes nothing
  else of them.
* `Underway` — the states of a projection between its steps; `Underway.forall_scope` — what holds of
  every view in them.
* `projectBy_congr` — streams under rules that agree where they are asked.
* `Datum.scopes` — the containers in a datum with their views; `Datum.forall_scopes`,
  `Datum.projectBy_congr` — the same of data.
-/

variable {ν : Type}

/-! ### Streams -/

/-- What one step inside a container makes of the open ones, innermost first.  Nothing else
can happen to the open containers, and each case says where the new view comes from. -/
inductive Scope.Leads (decide : ν → String → Action ν) (scope : Scope ν) (outer : List (Scope ν)) :
    List (Scope ν) → Prop where
  /-- The container has ended. -/
  | closed : Leads decide scope outer outer
  /-- Something in it has been handled whole. -/
  | kept : Leads decide scope outer (scope :: outer)
  /-- An item has begun, which has the view of its array. -/
  | item (container : Container) (h : scope.container = .array) :
      Leads decide scope outer (⟨container, scope.view⟩ :: scope :: outer)
  /-- The value of a member has begun. -/
  | member (container : Container) {name : String} {below : ν}
      (h : decide scope.view name = .descend below) :
      Leads decide scope outer (⟨container, below⟩ :: scope :: outer)

section Streams

variable {σ κ : Type} [TokenSource σ] [TokenSink κ] {decide decide' : ν → String → Action ν}
  {view : ν} {scope : Scope ν} {outer scopes scopes' : List (Scope ν)} {source source' : σ}
  {sink sink' : κ}

/-- An operation that does not fail leaves open what it was to leave open. -/
theorem eq_of_map_eq_ok {α β γ : Type} {opened left : β} {result : Except StreamError α}
    {rest rest' : γ} (h : (result.map fun _ => opened, rest) = (.ok left, rest')) :
    left = opened := by
  cases result with
  | error => cases h
  | ok =>
    cases h
    rfl

/-- What a value leaves open besides what was open before: itself, if it is a container. -/
theorem beginValue_opens (h : beginValue view scopes source sink = (.ok scopes', source', sink')) :
    scopes' = scopes ∨ ∃ container, scopes' = ⟨container, view⟩ :: scopes := by
  unfold beginValue at h
  split at h
  · cases h
  · cases h
  · split at h
    · exact .inr ⟨.object, eq_of_map_eq_ok h⟩
    · exact .inr ⟨.array, eq_of_map_eq_ok h⟩
    · exact .inl (eq_of_map_eq_ok h)
    · cases h

/-- So does the value of a member that is entered; any other member leaves nothing open.  A
member that is skipped or copied is passed as a whole. -/
theorem projectMember_opens {name : String}
    (h : projectMember decide view name scopes source sink = (.ok scopes', source', sink')) :
    scopes' = scopes ∨ ∃ container below, decide view name = .descend below ∧
      scopes' = ⟨container, below⟩ :: scopes := by
  unfold projectMember at h
  split at h
  · exact .inl (eq_of_map_eq_ok h)
  · split at h
    · cases h
    · exact .inl (eq_of_map_eq_ok h)
  next below hdecide =>
    split at h
    · cases h
    · rcases beginValue_opens h with rfl | ⟨container, rfl⟩
      · exact .inl rfl
      · exact .inr ⟨container, below, hdecide, rfl⟩

/-- **What a step can do**: it closes the innermost container, or leaves it open, or opens
one more in it, under a view that comes from there. -/
theorem advance_leads (h : advance decide scope outer source sink = (.ok scopes, source', sink')) :
    scope.Leads decide outer scopes := by
  unfold advance at h
  split at h
  · cases h
  · cases h
  · split at h
    · exact eq_of_map_eq_ok h ▸ .closed
    next hcontainer _ _ =>
      rcases beginValue_opens h with rfl | ⟨container, rfl⟩
      · exact .kept
      · exact .item container hcontainer
    · exact eq_of_map_eq_ok h ▸ .closed
    · split at h
      · cases h
      · rcases projectMember_opens h with rfl | ⟨container, below, hdecide, rfl⟩
        · exact .kept
        · exact .member container hdecide
      · cases h
    · cases h

/-- What a projection has come to between two steps: the containers that are open, what is left of
the source, and the sink. -/
inductive Underway (decide : ν → String → Action ν) (view : ν) (source : σ) (sink : κ) :
    List (Scope ν) → σ → κ → Prop where
  /-- The value has begun. -/
  | begun {scopes : List (Scope ν)} {source' : σ} {sink' : κ}
      (h : beginValue view [] source sink = (.ok scopes, source', sink')) :
      Underway decide view source sink scopes source' sink'
  /-- A step has been taken inside the innermost container. -/
  | advanced {scope : Scope ν} {outer scopes : List (Scope ν)} {source₁ source₂ : σ}
      {sink₁ sink₂ : κ}
      (h : Underway decide view source sink (scope :: outer) source₁ sink₁)
      (hadvance : advance decide scope outer source₁ sink₁ = (.ok scopes, source₂, sink₂)) :
      Underway decide view source sink scopes source₂ sink₂

/-- **What holds of the first view and is handed down holds at every level that is
reached.**  By induction on the run: at each step the open containers are those before it,
one less or one more. -/
theorem Underway.forall_scope {holds : ν → Prop} (hview : holds view)
    (hbelow : ∀ view name below, holds view → decide view name = .descend below → holds below)
    (h : Underway decide view source sink scopes source' sink') :
    ∀ scope ∈ scopes, holds scope.view := by
  induction h with
  | begun h =>
    rcases beginValue_opens h with rfl | ⟨container, rfl⟩
    · exact List.forall_mem_nil _
    · exact List.forall_mem_singleton.2 hview
  | advanced _ hadvance ih =>
    -- A step opens at most one container, under the view around it or one handed down by that.
    have hscope := ih _ List.mem_cons_self
    cases advance_leads hadvance with
    | closed => exact (List.forall_mem_cons.1 ih).2
    | kept => exact ih
    | item container _ => exact List.forall_mem_cons.2 ⟨hscope, ih⟩
    | member container hdecide =>
      exact List.forall_mem_cons.2 ⟨hbelow _ _ _ hscope hdecide, ih⟩

/-- In one step a rule is asked about the view of the innermost container only. -/
theorem advance_congr (h : decide scope.view = decide' scope.view) :
    advance decide scope outer source sink = advance decide' scope outer source sink := by
  simp only [advance, projectMember, h]

/-- What is left of a projection is the same under a rule that agrees wherever this one is still
asked. -/
theorem Underway.projectScopes_congr
    (hagree : ∀ scopes (source' : σ) (sink' : κ),
      Underway decide view source sink scopes source' sink' →
        ∀ scope ∈ scopes, decide scope.view = decide' scope.view)
    (h : Underway decide view source sink scopes source' sink') :
    projectScopes decide scopes source' sink' = projectScopes decide' scopes source' sink' := by
  -- Along the run, in which every state is again one that the projection comes to.
  fun_induction projectScopes decide scopes source' sink' with
  | case1 => rw [projectScopes_nil]
  -- The step gives the same under both rules, so both fail or both go on.
  | case2 _ _ _ _ _ _ _ hadvance =>
    have hscope := hagree _ _ _ h _ List.mem_cons_self
    rw [projectScopes_cons, ← advance_congr hscope, hadvance, resume]
  | case3 _ _ _ _ _ _ _ hadvance ih =>
    have hscope := hagree _ _ _ h _ List.mem_cons_self
    rw [projectScopes_cons, ← advance_congr hscope, hadvance, resume]
    exact ih (h.advanced hadvance)

/-- **Streams are projected alike under rules that agree wherever the first one is asked.**
Nothing is asked of the second rule anywhere else, so it may be any rule there. -/
theorem projectBy_congr
    (hagree : ∀ scopes (source' : σ) (sink' : κ),
      Underway decide view source sink scopes source' sink' →
        ∀ scope ∈ scopes, decide scope.view = decide' scope.view) :
    projectBy decide view source sink = projectBy decide' view source sink := by
  rw [projectBy, projectBy]
  split
  · rfl
  next hbegin => exact Underway.projectScopes_congr hagree (.begun hbegin)

end Streams

/-! ### Data -/

mutual

/-- The containers in a datum, each with the view that its parts are judged by, as far as views
reach: also those behind a fault, which a reader never gets to. -/
def Datum.scopes (decide : ν → String → Action ν) (view : Option ν) : Datum → List (Scope ν)
  | .present value => Datum.scopes decide view value
  | .sequence items => (view.map (Scope.mk .array)).toList ++ Items.scopes decide view items
  | .map entries => (view.map (Scope.mk .object)).toList ++ Entries.scopes decide view entries
  | _ => []

/-- The containers in some items. -/
def Items.scopes (decide : ν → String → Action ν) (view : Option ν) : Items → List (Scope ν)
  | .item value rest => Datum.scopes decide view value ++ Items.scopes decide view rest
  | _ => []

/-- The containers in some entries.  In an entry that is skipped there is none, as it is not
looked into. -/
def Entries.scopes (decide : ν → String → Action ν) (view : Option ν) : Entries → List (Scope ν)
  | .entry key value rest =>
    (match memberView? decide view key with
    | none => []
    | some inner => Datum.scopes decide inner value) ++ Entries.scopes decide view rest
  | _ => []

end

section Data

variable {decide decide' : ν → String → Action ν} {holds : ν → Prop}

/-- A container has the view that it is read under, if there is one. -/
theorem forall_scope_toList {container : Container} {view : Option ν} :
    (∀ scope ∈ (view.map (Scope.mk container)).toList, holds scope.view) ↔ ∀ v ∈ view, holds v := by
  cases view <;> simp

/-- What is handed down holds of the view of a member that is kept. -/
theorem memberView?_forall {view inner : Option ν} {name : String}
    (hbelow : ∀ view name below, holds view → decide view name = .descend below → holds below)
    (hview : ∀ v ∈ view, holds v) (h : memberView? decide view name = some inner) :
    ∀ v ∈ inner, holds v := by
  cases view with
  | none =>
    cases h
    nofun
  | some v =>
    have hv := hview v rfl
    rw [memberView?, Option.map_some, Option.getD_some] at h
    -- Only a member that is gone into hands a view down; a copied one has none.
    cases hdecide : decide v name with
    | skip => simp [hdecide] at h
    | copy =>
      simp only [hdecide, Option.some.injEq] at h
      subst h
      nofun
    | descend below =>
      simp only [hdecide, Option.some.injEq] at h
      subst h
      intro v' hv'
      cases hv'
      exact hbelow v name below hv hdecide

mutual

/-- **What holds of the first view and is handed down holds at every level in a datum.**  By
induction on the datum. -/
theorem Datum.forall_scopes {view : Option ν} (datum : Datum)
    (hbelow : ∀ view name below, holds view → decide view name = .descend below → holds below)
    (hview : ∀ v ∈ view, holds v) : ∀ scope ∈ datum.scopes decide view, holds scope.view := by
  match datum with
  | .present value => exact Datum.forall_scopes value hbelow hview
  | .sequence items =>
    exact List.forall_mem_append.2
      ⟨forall_scope_toList.2 hview, Items.forall_scopes items hbelow hview⟩
  | .map entries =>
    exact List.forall_mem_append.2
      ⟨forall_scope_toList.2 hview, Entries.forall_scopes entries hbelow hview⟩
  | .null | .absent | .bool _ | .integer _ | .wide _ | .float _ | .numeral _ | .text _ | .bytes _
  | .tooDeep _ | .broken _ => exact List.forall_mem_nil _

/-- Items are read under the view of their sequence. -/
theorem Items.forall_scopes {view : Option ν} (items : Items)
    (hbelow : ∀ view name below, holds view → decide view name = .descend below → holds below)
    (hview : ∀ v ∈ view, holds v) : ∀ scope ∈ items.scopes decide view, holds scope.view := by
  match items with
  | .item value rest =>
    exact List.forall_mem_append.2
      ⟨Datum.forall_scopes value hbelow hview, Items.forall_scopes rest hbelow hview⟩
  | .done | .broken _ => exact List.forall_mem_nil _

/-- The value of an entry is read under the view that is handed down to it, if any. -/
theorem Entries.forall_scopes {view : Option ν} (entries : Entries)
    (hbelow : ∀ view name below, holds view → decide view name = .descend below → holds below)
    (hview : ∀ v ∈ view, holds v) : ∀ scope ∈ entries.scopes decide view, holds scope.view := by
  match entries with
  | .entry key value rest =>
    refine List.forall_mem_append.2 ⟨?_, Entries.forall_scopes rest hbelow hview⟩
    cases hinner : memberView? decide view key with
    | none => exact List.forall_mem_nil _
    | some inner =>
      exact Datum.forall_scopes value hbelow (memberView?_forall hbelow hview hinner)
  | .done | .broken .. => exact List.forall_mem_nil _

end

variable {κ : Type} [TokenSink κ] {origin : Origin}

mutual

/-- **Data are projected alike under rules that agree wherever the first one is asked.**
The induction is on the datum, in step with the one that gathers its containers. -/
theorem Datum.projectBy_congr {view : Option ν} (sink : κ) (datum : Datum)
    (hagree : ∀ scope ∈ datum.scopes decide view, decide scope.view = decide' scope.view) :
    Datum.projectBy decide origin view sink datum =
      Datum.projectBy decide' origin view sink datum := by
  match datum with
  | .present value =>
    rw [Datum.projectBy, Datum.projectBy]
    exact Datum.projectBy_congr sink value hagree
  | .sequence items =>
    rw [Datum.projectBy, Datum.projectBy]
    apply followedBy_congr
    intro sink
    exact Items.projectBy_congr sink items (List.forall_mem_append.1 hagree).2
  | .map (.entry key value rest) =>
    rw [Datum.projectBy, Datum.projectBy]
    by_cases hkey : key = numberKey
    · -- A number is written without asking.
      rw [if_pos hkey, if_pos hkey]
    · rw [if_neg hkey, if_neg hkey]
      apply followedBy_congr
      intro sink
      obtain ⟨hself, hinside⟩ := List.forall_mem_append.1 hagree
      have hview : ∀ v ∈ view, decide v = decide' v := forall_scope_toList.1 hself
      have hentries := Entries.projectBy_congr sink (.entry key value rest) hview hinside
      rwa [Entries.projectBy, Entries.projectBy] at hentries
  | .null | .absent | .bool _ | .integer _ | .wide _ | .float _ | .numeral _ | .text _ | .bytes _
  | .map .done | .map (.broken ..) | .tooDeep _ | .broken _ =>
    rw [Datum.projectBy, Datum.projectBy]

/-- So are the items of a sequence.  By induction on the items, each of which has its own
part in the containers of all. -/
theorem Items.projectBy_congr {view : Option ν} (sink : κ) (items : Items)
    (hagree : ∀ scope ∈ items.scopes decide view, decide scope.view = decide' scope.view) :
    Items.projectBy decide origin view sink items =
      Items.projectBy decide' origin view sink items := by
  match items with
  | .done | .broken _ => rw [Items.projectBy, Items.projectBy]
  | .item value rest =>
    obtain ⟨hvalue, hrest⟩ := List.forall_mem_append.1 hagree
    rw [Items.projectBy, Items.projectBy, Datum.projectBy_congr sink value hvalue]
    apply followedBy_congr
    intro sink
    exact Items.projectBy_congr sink rest hrest

/-- So are the entries of a map, about each of which the rule is asked under the view of the
map. -/
theorem Entries.projectBy_congr {view : Option ν} (sink : κ) (entries : Entries)
    (hview : ∀ v ∈ view, decide v = decide' v)
    (hagree : ∀ scope ∈ entries.scopes decide view, decide scope.view = decide' scope.view) :
    Entries.projectBy decide origin view sink entries =
      Entries.projectBy decide' origin view sink entries := by
  match entries with
  | .done | .broken .. => rw [Entries.projectBy, Entries.projectBy]
  | .entry key value rest =>
    obtain ⟨hvalue, hrest⟩ := List.forall_mem_append.1 hagree
    have hmore (sink : κ) := Entries.projectBy_congr sink rest hview hrest
    have haction : view.map (decide · key) = view.map (decide' · key) :=
      Option.map_congr fun v hv => congrFun (hview v hv) key
    rw [Entries.projectBy, Entries.projectBy, followedBy_congr hmore, ← haction]
    -- What the value is read under is what its containers were gathered under.
    rw [memberView?] at hvalue
    congr 1
    revert hvalue
    generalize (view.map (decide · key)).getD .copy = action
    intro hvalue
    cases action with
    | skip => rfl
    | copy =>
      apply followedBy_congr
      intro sink
      exact Datum.projectBy_congr sink value hvalue
    | descend below =>
      apply followedBy_congr
      intro sink
      exact Datum.projectBy_congr sink value hvalue

end

end Data

end FieldMask
