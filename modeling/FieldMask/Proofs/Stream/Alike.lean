import FieldMask.Datum.Projection
import FieldMask.Proofs.Stream.Lockstep

namespace FieldMask

/-!
# Rules that decide alike

Two rules of decision may look at different views and still decide alike on every member.  Then they
project alike: every source is left at the same place, every sink with the same tokens, and failures
are the same.

* `projectBy_of_alike` — streams are projected alike.
* `Datum.projectBy_of_alike` — data are projected alike.
-/

variable {ν ν' : Type}

/-! ### Streams -/

/-- **Rules that decide alike project streams alike.**  Related views decide alike and hand
down related views, so the two runs never come apart. -/
theorem projectBy_of_alike {σ κ : Type} [TokenSource σ] [TokenSink κ] {related : ν → ν' → Prop}
    {decide : ν → String → Action ν} {decide' : ν' → String → Action ν'}
    (halike : DecideAlike related decide decide') {view : ν} {view' : ν'}
    (hview : related view view') (source : σ) (sink : κ) :
    projectBy decide view source sink = projectBy decide' view' source sink :=
  ((lockstep_of_forget id (fun _ => rfl) fun _ => rfl).projectBy halike hview
    ⟨rfl, rfl⟩).eq_forget.symm

/-! ### Data -/

section Data

variable {κ : Type} {related : ν → ν' → Prop} {decide : ν → String → Action ν}
  {decide' : ν' → String → Action ν'}

/-- Without a view everything is copied, under related views members are treated alike. -/
theorem Action.rel_getD (halike : DecideAlike related decide decide') {view : Option ν}
    {view' : Option ν'} (hview : Option.Rel related view view') (name : String) :
    ((view.map (decide · name)).getD .copy).Rel related
      ((view'.map (decide' · name)).getD .copy) := by
  cases hview with
  | none => exact .copy
  | some h => exact halike _ _ name h

/-- A step is followed alike by what goes on alike. -/
theorem followedBy_congr {done : Except ReadError Unit × κ}
    {more more' : κ → Except ReadError Unit × κ} (h : ∀ sink, more sink = more' sink) :
    followedBy done more = followedBy done more' :=
  congrArg (followedBy done) (funext h)

variable [TokenSink κ] {origin : Origin}

mutual

/-- **Rules that decide alike project data alike.**  The induction is on the datum; the
views of its parts stay related because the rules say the same of every member. -/
theorem Datum.projectBy_of_alike (halike : DecideAlike related decide decide')
    {view : Option ν} {view' : Option ν'} (hview : Option.Rel related view view') (sink : κ)
    (datum : Datum) :
    Datum.projectBy decide origin view sink datum =
      Datum.projectBy decide' origin view' sink datum := by
  match datum with
  | .present value =>
    rw [Datum.projectBy, Datum.projectBy]
    exact Datum.projectBy_of_alike halike hview sink value
  | .sequence items =>
    rw [Datum.projectBy, Datum.projectBy]
    apply followedBy_congr
    intro sink
    exact Items.projectBy_of_alike halike hview sink items
  | .map (.entry key value rest) =>
    rw [Datum.projectBy, Datum.projectBy]
    by_cases hkey : key = numberKey
    · -- A number is written in the same way under every view.
      rw [if_pos hkey, if_pos hkey]
    · rw [if_neg hkey, if_neg hkey]
      apply followedBy_congr
      intro sink
      have hentries := Entries.projectBy_of_alike halike hview sink (.entry key value rest)
      rwa [Entries.projectBy, Entries.projectBy] at hentries
  | .null | .absent | .bool _ | .integer _ | .wide _ | .float _ | .numeral _ | .text _ | .bytes _
  | .map .done | .map (.broken ..) | .tooDeep _ | .broken _ =>
    rw [Datum.projectBy, Datum.projectBy]

/-- Items are projected under the view of their sequence, so theirs are related as well.  By
induction on the items. -/
theorem Items.projectBy_of_alike (halike : DecideAlike related decide decide')
    {view : Option ν} {view' : Option ν'} (hview : Option.Rel related view view') (sink : κ)
    (items : Items) :
    Items.projectBy decide origin view sink items =
      Items.projectBy decide' origin view' sink items := by
  match items with
  | .done | .broken _ => rw [Items.projectBy, Items.projectBy]
  | .item value rest =>
    rw [Items.projectBy, Items.projectBy, Datum.projectBy_of_alike halike hview sink value]
    apply followedBy_congr
    intro sink
    exact Items.projectBy_of_alike halike hview sink rest

/-- Each entry is decided upon alike, and what is entered is entered under related views. -/
theorem Entries.projectBy_of_alike (halike : DecideAlike related decide decide')
    {view : Option ν} {view' : Option ν'} (hview : Option.Rel related view view') (sink : κ)
    (entries : Entries) :
    Entries.projectBy decide origin view sink entries =
      Entries.projectBy decide' origin view' sink entries := by
  match entries with
  | .done | .broken .. => rw [Entries.projectBy, Entries.projectBy]
  | .entry key value rest =>
    have haction := Action.rel_getD halike hview key
    have hrest (sink : κ) := Entries.projectBy_of_alike halike hview sink rest
    rw [Entries.projectBy, Entries.projectBy, followedBy_congr hrest]
    congr 1
    -- From here only the two actions count, not the views that they come from.
    revert haction
    generalize (view.map (decide · key)).getD .copy = action
    generalize (view'.map (decide' · key)).getD .copy = action'
    intro haction
    cases haction with
    | skip => rfl
    | copy =>
      apply followedBy_congr
      intro sink
      exact Datum.projectBy_of_alike halike .none sink value
    | descend hbelow =>
      apply followedBy_congr
      intro sink
      exact Datum.projectBy_of_alike halike (.some hbelow) sink value

end

end Data

end FieldMask
