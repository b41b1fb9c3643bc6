import FieldMask.CommandLine.Run
import FieldMask.Proofs.Expression.Layers

namespace FieldMask.CommandLine

/-!
# Merging masks on the command line

* `ReadAs` — the expressions of a command and the masks that they are read as.
* `ReadAs.mapM_readMask`, `ReadAs.readLayers` — what a command makes of its expressions.
* `merge_keeps_masks` — the line that a merge prints stands for all the masks that were merged.
-/

/-- To merge is to read every expression and to print what their layers come to. -/
theorem task_merge (limit : Option Nat) (expressions : List String) :
    Invocation.task ⟨limit, .merge expressions⟩ =
      (expressions.mapM (readMask limit)).map fun masks =>
        .print (Mask.overlayAll masks).text := rfl

/-- To project is to read every expression and to project through what their layers come
to. -/
theorem task_project (limit : Option Nat) (expressions : List String) (byLine : Bool)
    (file : Option String) :
    Invocation.task ⟨limit, .project expressions byLine file⟩ =
      (readLayers limit expressions).map fun mask => .project mask byLine file := rfl

/-- Some expressions are read as some masks, under a limit on nesting. -/
abbrev ReadAs (limit : Option Nat) : List String → List Mask → Prop :=
  List.Forall₂ fun expression mask => Expression.parse limit expression = .ok mask

namespace ReadAs

variable {limit : Option Nat} {expressions : List String} {masks : List Mask}

/-- Expressions that can be read one by one can be read as a list. -/
theorem mapM_readMask (h : ReadAs limit expressions masks) :
    expressions.mapM (readMask limit) = .ok masks := by
  induction h with
  | nil => rfl
  | @cons expression mask expressions masks hmask _ ih =>
    have hread : readMask limit expression = .ok mask := by
      rw [readMask, hmask]
      rfl
    rw [List.mapM_cons, hread, ih]
    rfl

/-- Expressions come to one mask, if there are any.  A command without expressions has no
mask at all, which is something else than an empty mask. -/
theorem readLayers (h : ReadAs limit expressions masks) (hne : expressions ≠ []) :
    CommandLine.readLayers limit expressions = .ok (some (Mask.overlayAll masks)) := by
  have hmasks : masks.isEmpty = false := by
    cases h with
    | nil => exact absurd rfl hne
    | cons _ _ => rfl
  rw [CommandLine.readLayers, h.mapM_readMask]
  show Except.ok (if masks.isEmpty then none else some (Mask.overlayAll masks)) = _
  rw [hmasks, if_neg Bool.false_ne_true]

/-- Each of the masks was read from some expression. -/
theorem exists_parse (h : ReadAs limit expressions masks) :
    ∀ mask ∈ masks, ∃ text, Expression.parse limit text = .ok mask := by
  induction h with
  | nil => simp
  | @cons expression mask expressions masks hmask _ ih =>
    intro other hother
    rcases List.mem_cons.1 hother with rfl | hother
    · exact ⟨expression, hmask⟩
    · exact ih other hother

end ReadAs

/-- One layer alone is what it was, if its mode is derived.  Layers are put on top of an
empty mask, which is left out here. -/
theorem overlayAll_singleton {mask : Mask} (h : mask.HasDerivedMode) :
    Mask.overlayAll [mask] = mask :=
  (Mask.empty_overlay mask).trans (Mask.overlay_empty h)

section Merge

variable {m : Type → Type} [Monad m] {limit : Option Nat} {expressions : List String}
  {masks : List Mask}

/-- **Merging masks and printing the result loses nothing.**  Let some expressions be read with a
limit on nesting, or without one.  The text that a merge prints for them is read, with the same
limit, as the mask that their layers come to; so a projection through this text alone runs as one
through all the expressions, on every input, as a whole or by lines. -/
theorem merge_keeps_masks (hne : expressions ≠ []) (hmasks : ReadAs limit expressions masks)
    (read : Option String → m Input) :
    let text := (Mask.overlayAll masks).text
    Invocation.run read ⟨limit, .merge expressions⟩ = pure ⟨lineBytes text, .ok ()⟩ ∧
      Expression.parse limit text = .ok (Mask.overlayAll masks) ∧
      ∀ byLine file, Invocation.run read ⟨limit, .project [text] byLine file⟩ =
        Invocation.run read ⟨limit, .project expressions byLine file⟩ := by
  intro text
  have hparse : Expression.parse limit text = .ok (Mask.overlayAll masks) :=
    Expression.parse_overlayAll_text hmasks.exists_parse
  refine ⟨?_, hparse, ?_⟩
  · have htask : Invocation.task ⟨limit, .merge expressions⟩ = .ok (.print text) := by
      rw [task_merge, hmasks.mapM_readMask]
      rfl
    rw [Invocation.run, htask]
  · intro byLine file
    -- Both commands come to the same task, as the text alone is one layer.
    have htext : ReadAs limit [text] [Mask.overlayAll masks] := .cons hparse .nil
    have hlayers := htext.readLayers (List.cons_ne_nil _ _)
    rw [overlayAll_singleton (Mask.hasDerivedMode_overlayAll masks)] at hlayers
    have htask : Invocation.task ⟨limit, .project [text] byLine file⟩ =
        Invocation.task ⟨limit, .project expressions byLine file⟩ := by
      rw [task_project, task_project, hlayers, hmasks.readLayers hne]
    rw [Invocation.run, Invocation.run, htask]

end Merge

/-- Under a limit that leaves no room for more, two expressions that meet below `a` and one that
excludes a name are merged. -/
theorem merge_keeps_masks_limit :
    let read : Option String → Id Input := fun _ =>
      .content "\x7b\"a\":\x7b\"x\":1,\"y\":2\x7d,\"c\":3\x7d".toUTF8.toList .closed
    Invocation.run read ⟨some 1, .merge ["b,a:(x)", "-a:(-y), -c"]⟩ =
        pure ⟨lineBytes "a:(x,-y),b,-c", .ok ()⟩ ∧
      Invocation.run read ⟨some 1, .project ["a:(x,-y),b,-c"] true none⟩ =
        Invocation.run read ⟨some 1, .project ["b,a:(x)", "-a:(-y), -c"] true none⟩ := by
  intro read
  let x : Mask := Mask.empty.put "x" ⟨.included, none⟩
  let y : Mask := Mask.empty.put "y" ⟨.excluded, none⟩
  let first : Mask := (Mask.empty.put "b" ⟨.included, none⟩).put "a" ⟨.included, some x⟩
  let second : Mask := (Mask.empty.put "a" ⟨.excluded, some y⟩).put "c" ⟨.excluded, none⟩
  have hfirst : Expression.parse (some 1) "b,a:(x)" = .ok first :=
    Expression.parse_of_runFor 20 rfl rfl
  have hsecond : Expression.parse (some 1) "-a:(-y), -c" = .ok second :=
    Expression.parse_of_runFor 20 rfl rfl
  have hmasks : ReadAs (some 1) ["b,a:(x)", "-a:(-y), -c"] [first, second] :=
    .cons hfirst (.cons hsecond .nil)
  have htext : (Mask.overlayAll [first, second]).text = "a:(x,-y),b,-c" := by decide
  obtain ⟨hmerge, -, hproject⟩ := merge_keeps_masks (List.cons_ne_nil _ _) hmasks read
  rw [htext] at hmerge hproject
  exact ⟨hmerge, hproject true none⟩

end FieldMask.CommandLine
