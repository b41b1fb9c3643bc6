import FieldMask.Proofs.Expression.Soundness

namespace FieldMask

/-!
# What a step builds

A level grows by finished entries.  The name of an entry is compared with those of its level when it
is read, but the entry is put in place only when it is finished, and that is behind a whole subtree
if it has one.  The level has no field of that name even then.

* `Mask.insert?_eq_ok_iff` — a field can be inserted where there is none of its name.
* `Reading.Builds` — what a step does to the levels; `Reads.builds` — every step does so.
-/

/-- A field is inserted where there is none of its name, and then it is put there. -/
theorem Mask.insert?_eq_ok_iff {mask mask' : Mask} {name : String} {node : Node Mask} :
    mask.insert? name node = .ok mask' ↔
      mask.find? name = none ∧ mask.put name node = mask' := by
  rw [insert?, contains_eq_isSome_find?]
  cases mask.find? name <;> simp

namespace Expression

/-- What a step does to the levels: it leaves them as they are, opens an empty one behind a
parenthesis for which there is room, or inserts a finished entry, a plain one or a subtree, into a
level that has no field of its name. -/
inductive Reading.Builds (limit : Option Nat) (reading reading' : Reading) : Prop where
  | keeps (hlevel : reading'.level = reading.level)
      (henclosing : reading'.enclosing = reading.enclosing)
  | opens {name : String} {polarity : Polarity} (hphase : reading.phase = .opening name polarity)
      (hroom : limit.filter (· ≤ reading.depth) = none)
      (henclosing : reading'.enclosing = ⟨name, polarity, reading.level⟩ :: reading.enclosing)
      (hlevel : reading'.level = .empty)
  | plain {name : String} {polarity : Polarity} (hphase : reading.phase = .afterName name polarity)
      (henclosing : reading'.enclosing = reading.enclosing)
      (hinsert : reading.level.insert? name ⟨polarity, none⟩ = .ok reading'.level)
  | nested {subtree : OpenSubtree} (hphase : reading.phase = .closing)
      (henclosing : reading.enclosing = subtree :: reading'.enclosing)
      (hinsert : subtree.outer.insert? subtree.name ⟨subtree.polarity, some reading.level⟩ =
        .ok reading'.level)

/-- Every step builds on what it finds and replaces nothing.  That follows from what has
been read: a name that was new when it was read is still new when its entry is finished. -/
theorem Reads.builds {limit : Option Nat} {cs : List Char} {reading reading' : Reading}
    (h : Reads cs reading) (hstep : reading.step limit = .next reading') :
    reading.Builds limit reading' := by
  obtain ⟨-, hopened, hpassed⟩ := h
  rw [Reading.step] at hstep
  cases hphase : reading.phase with
  | entry =>
    rw [hphase] at hstep
    obtain ⟨_, _, _, _, _, -, -, -, -, -, -, rfl⟩ := Reading.readEntry_eq_next hstep
    exact .keeps rfl rfl
  | afterName name polarity =>
    -- The name was new when its end was reached, and the level has stayed as it was.
    rw [hphase] at hstep hpassed
    obtain ⟨-, -, hname⟩ := hpassed
    have hinsert : reading.level.insert? name ⟨polarity, none⟩ =
        .ok (reading.level.put name ⟨polarity, none⟩) := Mask.insert?_eq_ok_iff.2 ⟨hname, rfl⟩
    rcases Reading.readAfterName_eq_next hstep with ⟨-, rfl⟩ | ⟨-, rfl⟩ | ⟨-, rfl⟩
    · exact .keeps rfl rfl
    · exact .plain hphase rfl hinsert
    · exact .plain hphase rfl hinsert
  | opening name polarity =>
    rw [hphase] at hstep
    obtain ⟨-, hroom, _, rfl⟩ := Reading.readOpening_eq_next hstep
    exact .opens hphase hroom rfl rfl
  | closing =>
    rw [hphase] at hstep
    rcases Reading.readClosing_eq_next hstep with
      ⟨-, rfl⟩ | ⟨-, subtree, enclosing, _, henclosing, rfl⟩
    · exact .keeps rfl rfl
    · -- While the subtree was read, the level around it has stayed as it was at its name.
      rw [henclosing] at hopened
      obtain _ | ⟨-, ⟨-, -, hname⟩, -, -⟩ := hopened
      exact .nested hphase henclosing (Mask.insert?_eq_ok_iff.2 ⟨hname, rfl⟩)
  | comma =>
    rw [hphase] at hstep
    obtain ⟨-, rfl⟩ := Reading.readComma_eq_next hstep
    exact .keeps rfl rfl

end Expression

end FieldMask
