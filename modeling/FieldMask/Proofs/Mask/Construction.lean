import FieldMask.Datum.Mask
import FieldMask.Proofs.Expression.Soundness
import FieldMask.Proofs.Mask.Modes

namespace FieldMask

/-!
# Every way to a mask

A program gets its masks from expressions, from data and from masks that it has already.  Only a
mode that was set on purpose can differ from the one that the fields of a level derive.

* `Node.From` — a node that is made of masks at hand.
* `Makes` — what one operation makes of masks at hand, a clause for each operation but
  `Mask.withMode`; `Obtained` — what a program has after any number of operations.
* `Mask.derived_ofEntries?`, `Mask.derived_ofEntries`, `Mask.derived_ofJson`,
  `Mask.derived_overlayAll` — the operations that take many steps.
* `Makes.derived`, `Obtained.throughout` — one operation, and a whole run.
* `obtained_modes` — every mode is the derived one, unless modes are set.
-/

/-! ### Operations -/

/-- The child mask of a node, if it has one, is at hand. -/
def Node.From (masks : List Mask) (node : Node Mask) : Prop :=
  ∀ child, node.children = some child → child ∈ masks

/-- What one operation makes of the masks at hand, where no mode is set.  Every way to come
by a mask is here, but the one that sets a mode. -/
inductive Makes (masks : List Mask) : Mask → Prop where
  | empty : Makes masks .empty
  | ofEntries {entries : List (String × Node Mask)} {mask : Mask}
      (hnodes : ∀ entry ∈ entries, entry.2.From masks) (h : Mask.ofEntries? entries = .ok mask) :
      Makes masks mask
  | insert {base mask : Mask} {name : String} {node : Node Mask} (hbase : base ∈ masks)
      (hnode : node.From masks) (h : base.insert? name node = .ok mask) : Makes masks mask
  | parse {limit : Option Nat} {text : String} {mask : Mask}
      (h : Expression.parse limit text = .ok mask) : Makes masks mask
  | ofJson {bytes : List UInt8} {mask : Mask} (h : Mask.ofJson bytes = .ok mask) : Makes masks mask
  | ofDatum {origin : Origin} {datum : Datum} {mask : Mask}
      (h : Mask.ofDatum origin datum = .ok mask) : Makes masks mask
  | overlay {base other : Mask} (hbase : base ∈ masks) (hother : other ∈ masks) :
      Makes masks (base.overlay other)
  | overlayAll {layers : List Mask} (h : ∀ layer ∈ layers, layer ∈ masks) :
      Makes masks (.overlayAll layers)
  | overlayPresent {base other : Option Mask} (hbase : ∀ mask, base = some mask → mask ∈ masks)
      (hother : ∀ mask, other = some mask → mask ∈ masks) :
      Makes masks (.overlayPresent base other)

/-- The masks that a program has after some operations, the last one first; `forcing` if modes may
be set. -/
inductive Obtained (forcing : Bool) : List Mask → Prop where
  | start : Obtained forcing []
  | make {masks : List Mask} {mask : Mask} (h : Obtained forcing masks) (hmask : Makes masks mask) :
      Obtained forcing (mask :: masks)
  | force {masks : List Mask} {mask : Mask} (h : Obtained forcing masks) (hforcing : forcing = true)
      (hmask : mask ∈ masks) (mode : Polarity) : Obtained forcing (mask.withMode mode :: masks)

/-! ### What the operations keep -/

/-- A success behind a function is the function of a success. -/
theorem exists_of_map_eq_ok {ε α β : Type} {f : α → β} {result : Except ε α} {b : β}
    (h : result.map f = .ok b) : ∃ a, result = .ok a ∧ f a = b := by
  cases result with
  | error _ => cases h
  | ok a => exact ⟨a, rfl, Except.ok.inj h⟩

section Rule

variable {rule : Level → Prop}

/-- What a sign makes has no level below it. -/
theorem Node.throughout_ofSign (negative : Bool) : (Node.ofSign negative).raw.Throughout rule :=
  throughout_leaf _

/-- Nor has what a decimal makes, if it makes anything. -/
theorem Node.throughout_ofDecimal {text : String} {node : Node Mask}
    (h : Node.ofDecimal text = .ok node) : node.raw.Throughout rule := by
  rw [ofDecimal] at h
  split at h
  · cases h
    exact throughout_ofSign _
  · cases h

/-- A node over a mask of which a rule holds. -/
theorem Node.throughout_raw {node : Node Mask}
    (h : ∀ child, node.children = some child → child.toLevel.Throughout rule) :
    node.raw.Throughout rule := by
  intro level hlevel
  obtain ⟨child, hchild, rfl⟩ := Option.map_eq_some_iff.1 hlevel
  exact h child hchild

namespace Mask

/-- Inserting a field is putting it, or fails because the name is taken. -/
theorem derived_insert? {base mask : Mask} {name : String} {node : Node Mask}
    (hbase : base.fields.Throughout rule) (hnode : node.raw.Throughout rule)
    (h : base.insert? name node = .ok mask) : mask.Derived rule := by
  rw [insert?] at h
  split at h
  · cases h
  · cases h
    exact derived_put hbase name hnode

/-- Entries are put in place one after the other.  The induction is on the entries, from any
mask of which the rule holds already. -/
theorem derived_foldlM_insert? {entries : List (String × Node Mask)} {before mask : Mask}
    (hbefore : before.Derived rule) (hnodes : ∀ entry ∈ entries, entry.2.raw.Throughout rule)
    (h : entries.foldlM (fun mask (name, node) => mask.insert? name node) before = .ok mask) :
    mask.Derived rule := by
  induction entries generalizing before with
  | nil =>
    cases h
    exact hbefore
  | cons entry rest ih =>
    obtain ⟨name, node⟩ := entry
    obtain ⟨hnode, hrest⟩ := List.forall_mem_cons.1 hnodes
    rw [List.foldlM_cons] at h
    dsimp only at h
    cases hinsert : before.insert? name node with
    | error e =>
      rw [hinsert] at h
      cases h
    | ok next =>
      rw [hinsert] at h
      exact ih (derived_insert? hbefore.below hnode hinsert) hrest h

/-- So entries make a mask of which the rule holds, beginning with the empty one. -/
theorem derived_ofEntries? {entries : List (String × Node Mask)} {mask : Mask}
    (hnodes : ∀ entry ∈ entries, entry.2.raw.Throughout rule)
    (h : ofEntries? entries = .ok mask) : mask.Derived rule :=
  derived_foldlM_insert? derived_empty hnodes h

end Mask

mutual

/-- What a datum says about a name has no level below it that breaks the rule.  A map makes
a level, entry by entry; every other datum makes a plain decision or is refused. -/
theorem Node.throughout_ofDatum
    (hrule : ∀ fields : Fields, rule ⟨fields.derivedMode, fields⟩) {origin : Origin}
    (datum : Datum) {node : Node Mask} (h : Node.ofDatum origin datum = .ok node) :
    node.raw.Throughout rule := by
  match datum with
  | .bool value | .integer value | .float value =>
    rw [Node.ofDatum] at h
    cases h
    exact Node.throughout_leaf _
  | .numeral text =>
    rw [Node.ofDatum] at h
    exact Node.throughout_ofDecimal h
  | .map .done =>
    rw [Node.ofDatum] at h
    cases h
    exact Node.throughout_subtree.2 (Mask.derived_empty.throughout hrule)
  | .map (.entry key value rest) =>
    rw [Node.ofDatum] at h
    split at h
    · -- The entry stands for a number, as its key says, which is reserved for that.
      split at h
      · cases h
      · split at h
        · cases h
        next number hnumber =>
          obtain ⟨-, -, rfl⟩ := exists_of_map_eq_ok h
          exact Node.throughout_ofDecimal hnumber
    · split at h
      · cases h
      next first hfirst =>
        obtain ⟨children, hchildren, rfl⟩ := exists_of_map_eq_ok h
        have hput := Mask.derived_put Mask.derived_empty.below key
          (Node.throughout_ofDatum hrule value hfirst)
        have hderived := Mask.derived_ofEntries hrule rest hput hchildren
        exact Node.throughout_subtree.2 (hderived.throughout hrule)
  | .map (.broken ..) | .tooDeep _ | .broken _ | .wide _ | .null | .absent | .present _ | .text _
  | .bytes _ | .sequence _ =>
    rw [Node.ofDatum] at h
    cases h

/-- Entries that are read one after the other keep the rule.  By induction on the entries,
along with the nodes that they are read as. -/
theorem Mask.derived_ofEntries
    (hrule : ∀ fields : Fields, rule ⟨fields.derivedMode, fields⟩) {origin : Origin}
    (entries : Entries) {before mask : Mask} (hbefore : before.Derived rule)
    (h : Mask.ofEntries origin before entries = .ok mask) :
    mask.Derived rule := by
  match entries with
  | .done =>
    rw [Mask.ofEntries] at h
    cases h
    exact hbefore
  | .entry key value rest =>
    rw [Mask.ofEntries] at h
    split at h
    · cases h
    · split at h
      · cases h
      next node hnode =>
        have hput := Mask.derived_put hbefore.below key (Node.throughout_ofDatum hrule value hnode)
        exact Mask.derived_ofEntries hrule rest hput h
  | .broken .. =>
    rw [Mask.ofEntries] at h
    cases h

end

variable (hrule : ∀ fields : Fields, rule ⟨fields.derivedMode, fields⟩)
include hrule

namespace Mask

/-- A map makes a mask whose mode is derived; nothing else makes one. -/
theorem derived_ofDatum {origin : Origin} {datum : Datum} {mask : Mask}
    (h : ofDatum origin datum = .ok mask) : mask.Derived rule := by
  unfold ofDatum at h
  split at h
  · exact derived_ofEntries hrule _ derived_empty h
  · cases h

/-- A JSON text is read as data are, and then it must be at its end. -/
theorem derived_ofJson {bytes : List UInt8} {mask : Mask} (h : ofJson bytes = .ok mask) :
    mask.Derived rule := by
  rw [ofJson] at h
  split at h
  · cases h
  next read hread =>
    obtain ⟨-, -, rfl⟩ := exists_of_map_eq_ok h
    exact derived_ofDatum hrule hread

/-- Any number of layers, from the empty mask on. -/
theorem derived_overlayAll {layers : List Mask}
    (h : ∀ layer ∈ layers, layer.fields.Throughout rule) : (overlayAll layers).Derived rule := by
  refine List.foldlRecOn layers overlay derived_empty ?_
  intro mask hmask layer hlayer
  exact derived_overlay hrule hmask.below (h layer hlayer)

end Mask

/-! ### Runs -/

variable {masks : List Mask}

/-- **What one operation makes of masks that keep a rule of derived modes** has a derived mode at
its root and keeps the rule below. -/
theorem Makes.derived {mask : Mask} (h : Makes masks mask)
    (hmasks : ∀ mask ∈ masks, mask.toLevel.Throughout rule) : mask.Derived rule := by
  -- The masks that a node is made of are at hand, so the rule holds below it.
  have hfrom {node : Node Mask} (hnode : node.From masks) : node.raw.Throughout rule :=
    Node.throughout_raw fun child hchild => hmasks child (hnode child hchild)
  -- One case for each operation; only the root may have come with another mode, and no operation
  -- looks at that.
  cases h with
  | empty => exact Mask.derived_empty
  | ofEntries hnodes h =>
    exact Mask.derived_ofEntries? (fun entry hentry => hfrom (hnodes entry hentry)) h
  | insert hbase hnode h => exact Mask.derived_insert? (hmasks _ hbase).2 (hfrom hnode) h
  | parse h => exact (Expression.denotes_of_parse h).wellFormed.derived hrule
  | ofJson h => exact Mask.derived_ofJson hrule h
  | ofDatum h => exact Mask.derived_ofDatum hrule h
  | overlay hbase hother => exact Mask.derived_overlay hrule (hmasks _ hbase).2 (hmasks _ hother).2
  | overlayAll h =>
    exact Mask.derived_overlayAll hrule fun layer hlayer => (hmasks layer (h layer hlayer)).2
  | overlayPresent hbase hother =>
    rw [Mask.overlayPresent_eq_overlayAll]
    apply Mask.derived_overlayAll hrule
    intro layer hlayer
    rcases List.mem_append.1 hlayer with hlayer | hlayer
    · exact (hmasks layer (hbase layer (Option.mem_toList.1 hlayer))).2
    · exact (hmasks layer (hother layer (Option.mem_toList.1 hlayer))).2

/-- A rule of derived modes holds of every level of every mask, if no mode is ever set. -/
theorem Obtained.throughout (h : Obtained false masks) :
    ∀ mask ∈ masks, mask.toLevel.Throughout rule := by
  induction h with
  | start => exact nofun
  | make _ hmask ih =>
    rw [List.forall_mem_cons]
    exact ⟨(hmask.derived hrule ih).throughout hrule, ih⟩
  | force _ hforcing _ _ _ => cases hforcing

end Rule

/-- **The modes of a mask are derived however it was come by.**  Let a program build masks in any
number of operations, of entries, expressions, data and the masks that it has already.  If it sets
no mode, then at the root of every mask and at every level below, an empty one too, the mode is
`excluded` exactly if the level has fields and all of them are excluded.  Even if it sets modes, any
other operation next makes a mask that follows this rule at its root. -/
theorem obtained_modes {forcing : Bool} {masks : List Mask} (h : Obtained forcing masks) :
    (forcing = false → ∀ mask ∈ masks, mask.toLevel.Throughout Level.FollowsFields) ∧
      ∀ mask, Makes masks mask → mask.toLevel.FollowsFields := by
  constructor
  · rintro rfl
    exact h.throughout Fields.followsFields_derivedMode
  · intro mask hmask
    have hany (mask : Mask) (_ : mask ∈ masks) : mask.toLevel.Throughout fun _ => True :=
      ⟨trivial, mask.fields.throughout_true⟩
    have hderived := hmask.derived (fun _ => trivial) hany
    exact hderived.root.obeys Fields.followsFields_derivedMode

/-- A mask of one entry has the derived mode everywhere.  Put below a name after another mode was
set for it, it keeps that mode, and the root above has the derived one again. -/
theorem obtained_modes_forced :
    let child : Mask := ⟨⟨.excluded, .leaf "x" .excluded .nil⟩, by decide⟩
    let forced : Mask := child.withMode .included
    let mask : Mask := ⟨⟨.excluded,
      .subtree "a" .excluded .included (.leaf "x" .excluded .nil) .nil⟩, by decide⟩
    child.toLevel.Throughout Level.FollowsFields ∧ Makes [forced, child] mask ∧
      mask.toLevel.FollowsFields ∧ ¬mask.toLevel.Throughout Level.FollowsFields := by
  intro child forced mask
  have hchild (masks : List Mask) : Makes masks child :=
    @Makes.ofEntries _ [("x", ⟨.excluded, none⟩)] _ (by simp [Node.From]) (by decide)
  have hplain : Obtained false [child] := .make .start (hchild [])
  have hforced : Obtained true [forced, child] :=
    .force (.make .start (hchild [])) rfl List.mem_cons_self .included
  have hmask : Makes [forced, child] mask :=
    @Makes.ofEntries _ [("a", ⟨.excluded, some forced⟩)] _ (by simp [Node.From]) (by decide)
  refine ⟨(obtained_modes hplain).1 rfl child List.mem_cons_self, hmask,
    (obtained_modes hforced).2 mask hmask, ?_⟩
  -- The level below keeps nothing that it does not list, and lists only what it excludes.
  rintro ⟨-, ⟨hbelow, -⟩, -⟩
  have hexcluded : Polarity.included = Polarity.excluded := hbelow.2 ⟨rfl, by simp [Fields.entries]⟩
  cases hexcluded

end FieldMask
