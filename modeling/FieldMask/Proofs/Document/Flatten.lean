import FieldMask.Document.Basic

namespace FieldMask.Doc

/-!
# Documents from their tokens

* `flatten_append_inj` — no document's tokens begin with those of another one.
* `flatten_injective` — two documents with the same tokens are the same.
-/

mutual

/-- No document's tokens begin with those of another one.  The first token tells which kind
of document it is, and brackets tell where it ends. -/
theorem flatten_append_inj {doc doc' : Doc} {rest rest' : List Token}
    (h : doc.flatten ++ rest = doc'.flatten ++ rest') : doc = doc' ∧ rest = rest' := by
  match doc, doc' with
  | .scalar value, .scalar value' =>
    cases h
    exact ⟨rfl, rfl⟩
  | .array items, .array items' =>
    simp only [flatten, List.cons_append, List.append_assoc, List.cons.injEq,
      true_and] at h
    obtain ⟨rfl, rfl⟩ := flattenItems_append_inj h
    exact ⟨rfl, rfl⟩
  | .object members, .object members' =>
    simp only [flatten, List.cons_append, List.append_assoc, List.cons.injEq,
      true_and] at h
    obtain ⟨rfl, rfl⟩ := flattenMembers_append_inj h
    exact ⟨rfl, rfl⟩
  | .scalar _, .array _ | .scalar _, .object _ | .array _, .scalar _ | .array _, .object _
  | .object _, .scalar _ | .object _, .array _ => cases h

/-- The end of an array tells how many items come before it. -/
theorem flattenItems_append_inj {items items' : List Doc} {rest rest' : List Token}
    (h : flattenItems items ++ .endArray :: rest = flattenItems items' ++ .endArray :: rest') :
    items = items' ∧ rest = rest' := by
  -- No item begins with the token that ends the array.
  have hend (item : Doc) (more more' : List Token) : .endArray :: more ≠ item.flatten ++ more' := by
    cases item <;> nofun
  -- Both arrays go on with an item, or both end here.
  match items, items' with
  | [], [] =>
    cases h
    exact ⟨rfl, rfl⟩
  | item :: items, item' :: items' =>
    rw [flattenItems, flattenItems, List.append_assoc, List.append_assoc] at h
    obtain ⟨hitem, hitems⟩ := flatten_append_inj h
    obtain ⟨rfl, hrest⟩ := flattenItems_append_inj hitems
    exact ⟨by rw [hitem], hrest⟩
  | [], item :: _ =>
    rw [flattenItems, flattenItems, List.append_assoc] at h
    exact absurd h (hend item _ _)
  | item :: _, [] =>
    rw [flattenItems, flattenItems, List.append_assoc] at h
    exact absurd h.symm (hend item _ _)

/-- The end of an object tells how many members come before it.  A member begins with its
name, which the end of an object is not. -/
theorem flattenMembers_append_inj {members members' : List (String × Doc)}
    {rest rest' : List Token}
    (h : flattenMembers members ++ .endObject :: rest =
      flattenMembers members' ++ .endObject :: rest') :
    members = members' ∧ rest = rest' := by
  match members, members' with
  | [], [] =>
    cases h
    exact ⟨rfl, rfl⟩
  | (name, value) :: members, (name', value') :: members' =>
    simp only [flattenMembers, List.cons_append, List.append_assoc, List.cons.injEq,
      Token.key.injEq] at h
    obtain ⟨hname, h⟩ := h
    obtain ⟨hvalue, hmembers⟩ := flatten_append_inj h
    obtain ⟨rfl, hrest⟩ := flattenMembers_append_inj hmembers
    exact ⟨by rw [hname, hvalue], hrest⟩
  | [], _ :: _ => cases h
  | _ :: _, [] => cases h

end

/-- Two documents with the same tokens are the same. -/
theorem flatten_injective {doc doc' : Doc} (h : doc.flatten = doc'.flatten) : doc = doc' := by
  have happend : doc.flatten ++ [] = doc'.flatten ++ [] := by rw [h]
  exact (flatten_append_inj happend).1

end FieldMask.Doc
