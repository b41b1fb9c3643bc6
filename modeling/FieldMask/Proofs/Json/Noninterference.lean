import FieldMask.Proofs.Document.Agreement
import FieldMask.Proofs.Json.RoundTrip

namespace FieldMask

open JsonText

/-!
# Nothing of what is dropped shows

Two documents that agree on what the mask's view of them sees are projected to the same tokens and
the same text, whatever else they hold.

* `Doc.through_eq_of_agree` — the same of the documents themselves.
* `project_noninterference` — of tokens from any two sources and of any two texts.
-/

/-- Documents that agree on what the mask sees are the same document through it. -/
theorem Doc.through_eq_of_agree {mask : Mask} (hmask : mask.isEmpty = false) {doc doc' : Doc}
    (h : Doc.Agree View.decide ⟨mask.toLevel, false⟩ doc doc') :
    doc.through (some mask) = doc'.through (some mask) := by
  rw [through_of_some hmask, through_of_some hmask]
  exact agree_iff_project_eq.1 h

/-- **What is dropped has no influence on what comes out.**  Through a mask that says something, two
documents that differ only in members that it skips are written with the same tokens, and all texts
of the two are projected to one text. -/
theorem project_noninterference {mask : Mask} (hmask : mask.isEmpty = false) {doc doc' : Doc}
    (h : Doc.Agree View.decide ⟨mask.toLevel, false⟩ doc doc') :
    (∃ projected, ProjectsTo (some mask) doc.flatten projected ∧
        ProjectsTo (some mask) doc'.flatten projected) ∧
      ∀ text text' : String, Denotes text.toUTF8.toList doc → Denotes text'.toUTF8.toList doc' →
        ∃ out, projectText (some mask) text = .ok out ∧ projectText (some mask) text' = .ok out := by
  have hthrough := Doc.through_eq_of_agree hmask h
  constructor
  · refine ⟨(doc.through (some mask)).flatten, projectsTo_flatten (some mask) doc, ?_⟩
    rw [hthrough]
    exact projectsTo_flatten (some mask) doc'
  · intro text text' htext htext'
    refine ⟨(doc.through (some mask)).text, projectText_of_denotes (some mask) htext, ?_⟩
    rw [hthrough]
    exact projectText_of_denotes (some mask) htext'

/-- Below an excluded field one name is seen: two objects that share it and nothing else. -/
theorem project_noninterference_override :
    let mask : Mask := ⟨⟨.included, .subtree "z" .excluded .excluded (.leaf "x" .included .nil)
      .nil⟩, by decide⟩
    let doc : Doc := .object [("b", .array []), ("z", .object [("x", .scalar .null)])]
    let doc' : Doc := .object [("z", .object [("y", .array []), ("x", .scalar .null)]),
      ("c", .scalar .null)]
    mask.isEmpty = false ∧ Doc.Agree View.decide ⟨mask.toLevel, false⟩ doc doc' ∧
      (∃ projected source source', project (some mask) (Replay.ofTokens doc.flatten)
          Collected.empty = (.ok (), source, ⟨projected⟩) ∧
        project (some mask) (Replay.ofTokens doc'.flatten) Collected.empty =
          (.ok (), source', ⟨projected⟩)) ∧
      ∃ out, projectText (some mask) "\x7b\"b\":[],\"z\":\x7b\"x\":null\x7d\x7d" = .ok out ∧
        projectText (some mask) "\x7b\"z\":\x7b\"y\":[],\"x\":null\x7d,\"c\":null\x7d" = .ok out := by
  intro mask doc doc'
  have hmask : mask.isEmpty = false := rfl
  have hvalue : Doc.Agree View.decide ⟨⟨.included, .leaf "x" .included .nil⟩, true⟩
      (.object [("x", .scalar .null)])
      (.object [("y", .array []), ("x", .scalar .null)]) := .object (.copy rfl .nil)
  -- The members `b` and `c` are skipped, and `y` is below the override.
  have hagree : Doc.Agree View.decide ⟨mask.toLevel, false⟩ doc doc' :=
    .object (.descend rfl hvalue .nil)
  obtain ⟨⟨projected, htokens, htokens'⟩, htexts⟩ := project_noninterference hmask hagree
  obtain ⟨source, hproject, -⟩ := htokens Replay _ Replay.faithful [] _ Collected.empty rfl
  obtain ⟨source', hproject', -⟩ := htokens' Replay _ Replay.faithful [] _ Collected.empty rfl
  have htext : Denotes "\x7b\"b\":[],\"z\":\x7b\"x\":null\x7d\x7d".toUTF8.toList doc := by
    rw [toList_toUTF8]
    exact denotes_chars doc
  have htext' :
      Denotes "\x7b\"z\":\x7b\"y\":[],\"x\":null\x7d,\"c\":null\x7d".toUTF8.toList doc' := by
    rw [toList_toUTF8]
    exact denotes_chars doc'
  exact ⟨hmask, hagree, ⟨_, source, source', hproject, hproject'⟩, htexts _ _ htext htext'⟩

end FieldMask
