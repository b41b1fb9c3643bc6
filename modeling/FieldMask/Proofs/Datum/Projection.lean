import FieldMask.Proofs.Datum.Denotes
import FieldMask.Proofs.Datum.Visit
import FieldMask.Proofs.Json.Integer

namespace FieldMask

/-!
# Projecting what has been seen

What a visit has seen of a document goes to a sink as the tokens of the projected document, whatever
the sink, as long as it takes them.

* `JsonText.ofNumeral_text` — both ways in which a number is seen lead back to it.
* `JsonText.denotes_seen` — what has been seen of a document stands for it.
* `JsonText.project_seen` — so it is projected, through a mask, as the document is.
-/

/-! ### Numbers -/

/-- The text of a number is read as that number. -/
theorem Number.ofText?_text (n : Number) : Number.ofText? n.text = some n := by
  have h := Number.ofText?_eq_some_iff.2 (JsonText.numberText_text n)
  rwa [String.ofList_toList] at h

/-- The text of a number is read as that number, wherever the numeral came from. -/
theorem readNumeral_text (origin : Origin) (n : Number) :
    FieldMask.readNumeral origin n.text = .ok n := by
  rw [FieldMask.readNumeral, Number.read, n.ofText?_text]

namespace JsonText

/-- A number is seen as the integer that it is, or by its text. -/
theorem ofNumeral_text (n : Number) :
    (∃ value, ofNumeral n.text.toList = .integer value ∧ Number.ofInt value = n) ∨
      ofNumeral n.text.toList = .numeral n.text := by
  rw [ofNumeral]
  split
  next value hvalue =>
    split
    · exact .inl ⟨value, rfl, Number.ofInt_eq_of_integer? hvalue⟩
    · exact .inr (by rw [String.ofList_toList])
  · exact .inr (by rw [String.ofList_toList])

/-! ### Documents -/

section Project

variable {ν κ : Type} [TokenSink κ] {decide : ν → String → Action ν} {view : Option ν}
  {sink sink' : κ}

/-- A scalar stands for itself, whether a number is seen as an integer or by its text.  An
integer and a numeral stand for the same number, so the two cases come to one. -/
theorem denotes_seenScalar (value : Scalar) :
    (seenScalar value).Denotes decide .json view (.scalar value) := by
  match value with
  | .null => exact .null
  | .bool value => exact .bool value
  | .string value => exact .text value
  | .number n =>
    rw [seenScalar]
    rcases ofNumeral_text n with ⟨value, hseen, hvalue⟩ | hseen
    · rw [hseen, ← hvalue]
      exact .integer value
    · rw [hseen]
      exact .numeral (readNumeral_text .json n)

/-- No first member stands for a number. -/
theorem firstKey?_seenEntries {members : List (String × Doc)}
    (h : Doc.MembersAvoid numberKey members) :
    (seenEntries members).firstKey? ≠ some numberKey := by
  match members, h with
  | [], _ => nofun
  | (name, value) :: rest, h =>
    intro hkey
    exact h.1 (Option.some.inj hkey)

mutual

/-- **What has been seen of a document stands for it**, under any view.  By induction on the
document, and for a member by what the view makes of it. -/
theorem denotes_seen {ν : Type} {decide : ν → String → Action ν} (doc : Doc) (view : Option ν)
    (havoids : doc.Avoids numberKey) : (seen doc).Denotes decide .json view doc := by
  cases doc with
  | scalar value => exact denotes_seenScalar value
  | array items => exact .sequence (denotes_seenItems items view havoids)
  | object members =>
    exact .map (firstKey?_seenEntries havoids) (denotes_seenEntries members view havoids)

/-- What has been seen of some items stands for them, one by one. -/
theorem denotes_seenItems {ν : Type} {decide : ν → String → Action ν} (items : List Doc)
    (view : Option ν) (havoids : Doc.ItemsAvoid numberKey items) :
    (seenItems items).Denotes decide .json view items := by
  cases items with
  | nil => exact .done
  | cons item rest =>
    obtain ⟨hitem, hrest⟩ := havoids
    exact .item (denotes_seen item view hitem) (denotes_seenItems rest view hrest)

/-- What has been seen of some members stands for them. -/
theorem denotes_seenEntries {ν : Type} {decide : ν → String → Action ν}
    (members : List (String × Doc)) (view : Option ν)
    (havoids : Doc.MembersAvoid numberKey members) :
    (seenEntries members).Denotes decide .json view members := by
  match members with
  | [] => exact .done
  | (name, value) :: rest =>
    obtain ⟨-, hvalue, hrest⟩ := havoids
    have hentries : (seenEntries rest).Denotes decide .json view rest :=
      denotes_seenEntries rest view hrest
    -- Of a member that is skipped nothing is asked, so its own value will do.
    cases haction : memberView? decide view name with
    | none => exact .skipped haction value hentries
    | some inner => exact .kept haction (denotes_seen value inner hvalue) hentries

end

/-- Through a mask it is projected as the document is. -/
theorem project_seen (mask : Option Mask) {doc : Doc} (havoids : doc.Avoids numberKey)
    (hwrite : writeAll (doc.through mask).flatten sink = (.ok (), sink')) :
    (seen doc).project .json mask sink = (.ok (), sink') := by
  rw [Doc.through_eq_under] at hwrite
  exact (seen doc).projectBy_of_denotes (denotes_seen doc _ havoids) hwrite

end Project

end JsonText

end FieldMask
