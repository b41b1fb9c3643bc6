import FieldMask.Proofs.Expression.Depth
import FieldMask.Proofs.Expression.RoundTrip

namespace FieldMask

/-!
# Layers of masks that were parsed

* `Fields.WellFormed.overlay`, `Mask.WellFormed.overlayAll` — layers of masks that expressions can
  denote come to such a mask.
* `Expression.parse_overlayAll_text` — what layers come to is read back from its text, with the
  limit with which they were read.
-/

/-- **Layered fields are well-formed** if both layers are: names keep the polarity under which they
were given, no level below is empty, and where two levels meet the mode is derived. -/
theorem Fields.WellFormed.overlay {base other : Fields} (hbase : base.Ordered)
    (hother : other.Ordered) (hbaseWell : base.WellFormed) (hotherWell : other.WellFormed) :
    (base.overlay other).WellFormed := by
  induction base using belowInduction generalizing other with
  | step base ih =>
    apply wellFormed_of_find? (ordered_overlay hbase hother)
    intro name node hfind
    -- What is said about a name comes from one side, or both sides have a say.
    rcases find?_overlay_cases hother hfind with
      hupper | hlower | ⟨upper, lower, hupper, hlower, rfl⟩
    · exact hbaseWell.node hupper
    · exact hotherWell.node hlower
    · have hupperWell := hbaseWell.node hupper
      have hlowerWell := hotherWell.node hlower
      refine Node.overlay_cases (motive := Node.WellFormed name) ?_ ?_ ?_
      · intro _
        exact hupperWell
      · -- The upper node is a plain decision: it keeps its polarity, under which its name may
        -- stand, and takes the level of the lower one.
        intro level _ hlevel
        refine ⟨hupperWell.plain, ?_⟩
        rintro _ ⟨⟩
        exact hlowerWell.below level (Node.subLevel?_eq_some_iff.1 hlevel).1
      · intro level level' hlevel hlevel'
        obtain ⟨hchildren, hnonempty⟩ := Node.subLevel?_eq_some_iff.1 hlevel
        have hordered := ordered_of_subLevel? (ordered_of_find? hbase hupper) hlevel
        have hordered' := ordered_of_subLevel? (ordered_of_find? hother hlower) hlevel'
        obtain ⟨-, -, hwell⟩ := hupperWell.below level hchildren
        obtain ⟨-, -, hwell'⟩ := hlowerWell.below level' (Node.subLevel?_eq_some_iff.1 hlevel').1
        have hjoined := ih name upper level hupper hchildren hordered hordered' hwell hwell'
        refine ⟨hupperWell.plain, ?_⟩
        rintro _ ⟨⟩
        refine ⟨?_, rfl, hjoined⟩
        -- The names of the upper level are all still there.
        intro hnil
        have hjoinedNonempty := isEmpty_overlay hordered' hnonempty
        rw [show level.fields.overlay level'.fields = nil from hnil] at hjoinedNonempty
        cases hjoinedNonempty

/-- So are any number of layers. -/
theorem Mask.WellFormed.overlayAll {masks : List Mask} (h : ∀ mask ∈ masks, mask.WellFormed) :
    (overlayAll masks).WellFormed := by
  have hempty : Mask.empty.WellFormed := ⟨rfl, trivial⟩
  refine List.foldlRecOn masks Mask.overlay (motive := Mask.WellFormed) hempty ?_
  intro base hbase mask hmask
  exact ⟨rfl, Fields.WellFormed.overlay base.ordered mask.ordered hbase.2 (h mask hmask).2⟩

/-- **What layers come to is read back from its canonical text**, with any limit with which the
layers themselves were read. -/
theorem Expression.parse_overlayAll_text {limit : Option Nat} {masks : List Mask}
    (h : ∀ mask ∈ masks, ∃ text, parse limit text = .ok mask) :
    parse limit (Mask.overlayAll masks).text = .ok (Mask.overlayAll masks) := by
  have hwell : ∀ mask ∈ masks, mask.WellFormed := by
    intro mask hmask
    obtain ⟨text, htext⟩ := h mask hmask
    exact (denotes_of_parse htext).wellFormed
  have hlayers := Mask.WellFormed.overlayAll hwell
  rw [parse_eq_ok_iff_nesting_le]
  refine ⟨parse_of_denotes (Mask.denotes_text hlayers), ?_⟩
  -- Every layer keeps the limit, having been read with it, and layering goes no deeper.
  intro n hn
  apply Mask.nesting_overlayAll_le
  intro mask hmask
  obtain ⟨text, htext⟩ := h mask hmask
  exact ((parse_eq_ok_iff_nesting_le limit text mask).1 htext).2 n hn

end FieldMask
