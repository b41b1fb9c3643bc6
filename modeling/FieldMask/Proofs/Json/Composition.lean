import FieldMask.Proofs.Json.RoundTrip
import FieldMask.Proofs.Mask.Survival

namespace FieldMask

open JsonText JsonReader

/-!
# Projecting what has been projected

The decision on a member depends on its path alone, and a projection leaves the paths of the members
that it keeps as they are.  So a second projection drops the same members whether it comes before
the first or after it.

* `Doc.exists_through_eq_prune` — any projection is a pruning.
* `Doc.through_comm`, `Doc.through_self` — the order of two projections, and one projection twice.
* `projectText_bind_of_denotes`, `projectText_bind_of_readAll_error` — one text after the other.
* `project_commutes` — the same of tokens from any source and of any text.
-/

namespace Doc

/-- Whatever the mask, some paths are wanted and the others are not: without a mask all of
them are, with one its view tells. -/
theorem exists_through_eq_prune (mask : Option Mask) :
    ∃ keep : List String → Bool, ∀ doc : Doc, doc.through mask = doc.prune keep := by
  cases hview : View.ofMask? mask with
  | none =>
    refine ⟨fun _ => true, ?_⟩
    intro doc
    rw [through, hview, prune_true]
  | some view =>
    refine ⟨view.keeps, ?_⟩
    intro doc
    rw [through, hview]
    exact project_eq_prune view doc

/-- Two projections may change places, as two prunings may: together they keep the paths
that both want. -/
theorem through_comm (mask mask' : Option Mask) (doc : Doc) :
    (doc.through mask').through mask = (doc.through mask).through mask' := by
  obtain ⟨keep, hkeep⟩ := exists_through_eq_prune mask
  obtain ⟨keep', hkeep'⟩ := exists_through_eq_prune mask'
  have hswap : (fun path => keep' path && keep path) = fun path => keep path && keep' path := by
    funext path
    exact Bool.and_comm ..
  rw [hkeep, hkeep, hkeep', hkeep', prune_prune, prune_prune, hswap]

/-- A second projection through the same mask finds nothing left to drop. -/
theorem through_self (mask : Option Mask) (doc : Doc) :
    (doc.through mask).through mask = doc.through mask := by
  obtain ⟨keep, hkeep⟩ := exists_through_eq_prune mask
  have hsame : (fun path => keep path && keep path) = keep := by
    funext path
    exact Bool.and_self _
  rw [hkeep, hkeep, prune_prune, hsame]

end Doc

/-! ### One text after the other -/

variable {text : String} {doc : Doc}

/-- A text of the grammar comes out of two projections as its document comes out of them. -/
theorem projectText_bind_of_denotes (mask mask' : Option Mask)
    (h : Denotes text.toUTF8.toList doc) :
    (projectText mask text >>= projectText mask') =
      .ok ((doc.through mask).through mask').text := by
  rw [projectText_of_denotes mask h]
  exact projectText_of_denotes mask' (denotes_text (doc.through mask))

/-- A text that is rejected is rejected by the first of them. -/
theorem projectText_bind_of_readAll_error (mask mask' : Option Mask) {e : StreamError}
    (h : readAll text.toUTF8.toList = .error e) :
    (projectText mask text >>= projectText mask') = .error e := by
  rw [projectText_of_readAll_error mask h]
  rfl

/-- Two projections of a text may change places, also where it is rejected. -/
theorem projectText_comm (mask mask' : Option Mask) (text : String) :
    (projectText mask' text >>= projectText mask) =
      (projectText mask text >>= projectText mask') := by
  rcases readAll_error_or_denotes text.toUTF8.toList with ⟨e, hread⟩ | ⟨doc, hdenotes⟩
  · rw [projectText_bind_of_readAll_error mask' mask hread,
      projectText_bind_of_readAll_error mask mask' hread]
  · rw [projectText_bind_of_denotes mask' mask hdenotes,
      projectText_bind_of_denotes mask mask' hdenotes, Doc.through_comm]

/-- A second projection of a text through the same mask changes nothing. -/
theorem projectText_self (mask : Option Mask) (text : String) :
    (projectText mask text >>= projectText mask) = projectText mask text := by
  rcases readAll_error_or_denotes text.toUTF8.toList with ⟨e, hread⟩ | ⟨doc, hdenotes⟩
  · rw [projectText_bind_of_readAll_error mask mask hread, projectText_of_readAll_error mask hread]
  · rw [projectText_bind_of_denotes mask mask hdenotes, projectText_of_denotes mask hdenotes,
      Doc.through_self]

/-- What the first projection accepts the second one accepts as well, as what comes out of
the first is a text of the grammar. -/
theorem exists_projectText_bind_iff (mask mask' : Option Mask) (text : String) :
    (∃ out, (projectText mask' text >>= projectText mask) = .ok out) ↔
      ∃ out, projectText none text = .ok out := by
  rcases readAll_error_or_denotes text.toUTF8.toList with ⟨e, hread⟩ | ⟨doc, hdenotes⟩
  · rw [projectText_bind_of_readAll_error mask' mask hread, projectText_of_readAll_error none hread]
  · rw [projectText_bind_of_denotes mask' mask hdenotes, projectText_of_denotes none hdenotes]
    exact iff_of_true ⟨_, rfl⟩ ⟨_, rfl⟩

/-- **Projections commute and are idempotent.**  Through two masks a document comes out the same in
either order, and through one mask twice as it does once, token by token; so does a text, byte for
byte, and a text that is accepted at all comes out of both projections. -/
theorem project_commutes (mask mask' : Option Mask) (doc : Doc) (text : String) :
    (∃ once once' twice, ProjectsTo mask' doc.flatten once ∧ ProjectsTo mask once twice ∧
        ProjectsTo mask doc.flatten once' ∧ ProjectsTo mask' once' twice) ∧
      (∃ once, ProjectsTo mask doc.flatten once ∧ ProjectsTo mask once once) ∧
      (projectText mask' text >>= projectText mask) =
        (projectText mask text >>= projectText mask') ∧
      (projectText mask text >>= projectText mask) = projectText mask text ∧
      ((∃ out, (projectText mask' text >>= projectText mask) = .ok out) ↔
        ∃ out, projectText none text = .ok out) := by
  refine ⟨?_, ?_, projectText_comm mask mask' text, projectText_self mask text,
    exists_projectText_bind_iff mask mask' text⟩
  · -- The document in the middle is projected again, in both orders.
    have hfirst := projectsTo_flatten mask (doc.through mask')
    have hsecond := projectsTo_flatten mask' (doc.through mask)
    rw [← Doc.through_comm] at hsecond
    exact ⟨_, _, _, projectsTo_flatten mask' doc, hfirst, projectsTo_flatten mask doc, hsecond⟩
  · have hagain := projectsTo_flatten mask (doc.through mask)
    rw [Doc.through_self] at hagain
    exact ⟨_, projectsTo_flatten mask doc, hagain⟩

end FieldMask
