import FieldMask.Proofs.Datum.Skip
import FieldMask.Proofs.Document.Bounds
import FieldMask.Proofs.Json.Writer

namespace FieldMask.JsonText

/-!
# Visiting values of the grammar

* `seen` — what a visit sees of a document in a text.
* `Visited.Sees` — a visit comes to its end; `Visited.Sees.map` — so does one around it.
* `visit_scalar`, `visit_array`, `visitItems_comma`, … — the branches of a visit, from the bytes
  that decide on them.
* `visit_valueText` — a value that is not nested too deep is seen whole.
-/

/-! ### What is seen -/

/-- What a visit sees of a scalar. -/
def seenScalar : Scalar → Datum
  | .null => .null
  | .bool value => .bool value
  | .number n => ofNumeral n.text.toList
  | .string s => .text s

mutual

/-- What a visit sees of a document. -/
def seen : Doc → Datum
  | .scalar value => seenScalar value
  | .array items => .sequence (seenItems items)
  | .object members => .map (seenEntries members)

/-- What a visit sees of the items of an array. -/
def seenItems : List Doc → Items
  | [] => .done
  | item :: rest => .item (seen item) (seenItems rest)

/-- What a visit sees of the members of an object. -/
def seenEntries : List (String × Doc) → Entries
  | [] => .done
  | (name, value) :: rest => .entry name (seen value) (seenEntries rest)

end

/-- A visit has seen something, and some bytes follow it. -/
def Visited.Sees {α : Type} {bytes : List UInt8} (visited : Visited α bytes) (seen : α)
    (rest : List UInt8) : Prop :=
  visited.seen = seen ∧ ∃ h, visited.after = .ok ⟨rest, h⟩

/-- A visit of a part of the bytes that comes to its end makes the visit of all of them come
to its end, with what is made of the part. -/
theorem Visited.Sees.map {α β : Type} {bytes part rest : List UInt8} {visited : Visited α part}
    {seen : α} (h : visited.Sees seen rest) (hle : part.length ≤ bytes.length) (f : α → β) :
    (visited.map hle f).Sees (f seen) rest := by
  obtain ⟨hseen, hrest, hafter⟩ := h
  refine ⟨congrArg f hseen, Nat.lt_of_lt_of_le hrest hle, ?_⟩
  rw [Visited.map, hafter]
  rfl

variable {bytes first rest : List UInt8} {b : UInt8} {depth : Nat}

/-! ### Scalars -/

/-- A numeral is seen as the number that it stands for. -/
theorem ofNumeral_of_numberText {cs : List Char} {n : Number} (h : NumberText cs n) :
    ofNumeral cs = ofNumeral n.text.toList := by
  rw [h.text_eq]
  split
  next hzero =>
    -- Both ways to write zero fit into 64 bits.
    have hneg : integer? ['-', '0'] = some 0 := by decide
    have hpos : integer? ['0'] = some 0 := by decide
    have hfits : fitsWord 0 true = true ∧ fitsWord 0 false = true := by decide
    rw [hzero, ofNumeral, ofNumeral, hneg, hpos]
    exact (if_pos hfits.1).trans (if_pos hfits.2).symm
  · rfl

/-- Behind a quotation mark a string literal is read, and its text or the reader's fault is
seen. -/
theorem visitScalar_quote : visitScalar Quoted.quote rest =
    match Quoted.readString rest with
    | .ok (value, _) => .text value
    | .error fault => .broken fault := rfl

/-- Behind a minus or a digit a numeral is read, from this first byte on. -/
theorem visitScalar_numeral (hb : Char.ofUInt8 b = '-' ∨ (Char.ofUInt8 b).isDigit = true) :
    visitScalar b rest =
      match readNumeral .truncated (b :: rest) with
      | .ok (cs, _) => ofNumeral cs
      | .error fault => .broken fault := by
  rw [visitScalar]
  split
  -- The branches above the numerals are words and the quotation mark, none of which begins one.
  all_goals first
    | exact if_pos hb
    | simp_all

/-- A scalar of the grammar is seen.  Whether a numeral ends here depends on the byte behind
it, so for numbers that byte must not go on with the numeral. -/
theorem visitScalar_of_scalarText {value : Scalar} (h : ScalarText (b :: bytes) value rest)
    (hends : ∀ n, value = .number n → EndsNumeral rest) :
    visitScalar b bytes = seenScalar value := by
  have hword (word : List Char) (datum : Datum) (hascii : ∀ c ∈ word, c.toNat < 0x80) :
      ofWord word (utf8Bytes word ++ rest) datum = datum := by
    rw [ofWord, dropWord_of_ascii word hascii]
  generalize hbytes : b :: bytes = all at h
  cases h with
  | null =>
    cases hbytes
    exact hword "ull".toList .null (by simp)
  | true =>
    cases hbytes
    exact hword "rue".toList (.bool .true) (by simp)
  | false =>
    cases hbytes
    exact hword "alse".toList (.bool .false) (by simp)
  | number h =>
    -- A numeral has a first byte, which decides on the branch and is read once more with the rest.
    have hread := readNumeral_of_numeralText .truncated h.numeral (hends _ rfl)
    have hseen := ofNumeral_of_numberText h
    obtain ⟨c, cs, rfl, hc⟩ := head_numeralText h.numeral
    have hlt := h.numeral.toNat_lt c List.mem_cons_self
    rw [utf8Bytes_cons, utf8EncodeChar_of_ascii hlt, List.singleton_append,
      List.cons_append] at hbytes hread
    cases hbytes
    rw [visitScalar_numeral ((ofUInt8_toUInt8 hlt).symm ▸ hc), hread]
    exact hseen
  | string h =>
    cases h with
    | mk h =>
      cases hbytes
      refine visitScalar_quote.trans ?_
      rw [Quoted.readString_eq_ok_iff.2 h]
      rfl

/-- What skipping a value leaves is shorter than the bytes, as the result of `skipValue`
records. -/
theorem skipValue_of_skip (h : skip bytes = .ok rest) :
    ∃ hrest, skipValue bytes = .ok ⟨rest, hrest⟩ := by
  refine ⟨Skipping.length_lt_of_run (.inl rfl) h, ?_⟩
  rw [skipValue]
  split <;> rename_i heq <;> rw [h] at heq <;> cases heq
  rfl

/-! ### Branches -/

/-- What begins no container is seen as a scalar, and skipped to find what follows it. -/
theorem visit_scalar (hspaces : Spaces bytes (b :: rest)) (hspace : JsonByte.isSpace b = false)
    (harray : Char.ofUInt8 b ≠ '[') (hobject : Char.ofUInt8 b ≠ '{') :
    visit depth bytes = ⟨visitScalar b rest, skipValue bytes⟩ := by
  have hdrop : dropSpaces bytes = b :: rest := hspaces.dropWhile_cons hspace
  rw [visit]
  split <;> rename_i heq <;> rw [hdrop] at heq <;> cases heq
  -- Each of the brackets has two cases, with levels left and without.
  split
  · contradiction
  · contradiction
  · contradiction
  · contradiction
  · rfl

/-- With a level left, an array is seen as the sequence of its items. -/
theorem visit_array (depth : Nat) (hspaces : Spaces bytes (0x5B :: rest)) :
    ∃ hle, visit (depth + 1) bytes = (visitItems true depth rest).map hle .sequence := by
  have hdrop : dropSpaces bytes = 0x5B :: rest := hspaces.dropWhile_cons rfl
  refine ⟨Nat.le_of_lt (length_le_of_dropSpaces hdrop), ?_⟩
  rw [visit]
  split <;> rename_i heq <;> rw [hdrop] at heq <;> cases heq
  rfl

/-- With a level left, an object is seen as the map of its entries. -/
theorem visit_object (depth : Nat) (hspaces : Spaces bytes (0x7B :: rest)) :
    ∃ hle, visit (depth + 1) bytes = (visitEntries true depth rest).map hle .map := by
  have hdrop : dropSpaces bytes = 0x7B :: rest := hspaces.dropWhile_cons rfl
  refine ⟨Nat.le_of_lt (length_le_of_dropSpaces hdrop), ?_⟩
  rw [visit]
  split <;> rename_i heq <;> rw [hdrop] at heq <;> cases heq
  rfl

/-- A closing bracket ends the items, be it in front of the first or behind one. -/
theorem visitItems_close (isFirst : Bool) (hspaces : Spaces bytes (0x5D :: rest)) :
    (visitItems isFirst depth bytes).Sees .done rest := by
  have hdrop : dropSpaces bytes = 0x5D :: rest := hspaces.dropWhile_cons rfl
  rw [visitItems]
  split <;> rename_i heq <;> rw [hdrop] at heq <;> cases heq
  rw [if_pos (by decide)]
  exact ⟨rfl, length_le_of_dropSpaces hdrop, rfl⟩

/-- The first item is visited without a comma in front of it. -/
theorem visitItems_first (depth : Nat) (hspaces : Spaces bytes (b :: rest))
    (hspace : JsonByte.isSpace b = false) (hclose : b ≠ 0x5D) :
    ∃ hle, visitItems true depth bytes = (visitItem depth (b :: rest)).map hle id := by
  have hdrop : dropSpaces bytes = b :: rest := hspaces.dropWhile_cons hspace
  have hle : (b :: rest).length ≤ bytes.length := length_le_of_dropSpaces hdrop
  refine ⟨hle, ?_⟩
  rw [visitItems]
  split <;> rename_i heq <;> rw [hdrop] at heq <;> cases heq
  rw [if_neg fun hb => hclose (eq_toUInt8_of_ofUInt8_eq hb)]
  rfl

/-- A comma leads to one more item, which must not be a closing bracket.  The comma and the
spaces on either side are passed first. -/
theorem visitItems_comma (depth : Nat) {behind : List UInt8}
    (hcomma : Spaces bytes (0x2C :: behind)) (hspaces : Spaces behind (b :: rest))
    (hspace : JsonByte.isSpace b = false) (hclose : b ≠ 0x5D) :
    ∃ hle, visitItems false depth bytes = (visitItem depth (b :: rest)).map hle id := by
  have hdrop : dropSpaces bytes = 0x2C :: behind := hcomma.dropWhile_cons rfl
  have hdrop' : dropSpaces behind = b :: rest := hspaces.dropWhile_cons hspace
  have hle : (b :: rest).length ≤ bytes.length := by
    have := length_le_of_dropSpaces hdrop
    have := length_le_of_dropSpaces hdrop'
    simp only [List.length_cons]
    omega
  refine ⟨hle, ?_⟩
  rw [visitItems]
  split <;> rename_i heq <;> rw [hdrop] at heq <;> cases heq
  rw [if_neg (by decide), if_neg (by decide), if_pos rfl]
  split <;> rename_i heq <;> rw [hdrop'] at heq <;> cases heq
  rw [if_neg fun hb => hclose (eq_toUInt8_of_ofUInt8_eq hb)]

/-- An item is seen, and those behind it are. -/
theorem visitItem_of_visit {value : Datum} {items : Items} {more : List UInt8}
    (hvalue : (visit depth bytes).Sees value more)
    (hitems : (visitItems false depth more).Sees items rest) :
    (visitItem depth bytes).Sees (.item value items) rest := by
  obtain ⟨rfl, hmore, hafter⟩ := hvalue
  rw [visitItem]
  split <;> rename_i heq <;> rw [heq] at hafter <;> cases hafter
  rw [heq]
  exact hitems.map _ _

/-- A closing brace ends the entries, be it in front of the first or behind one. -/
theorem visitEntries_close (isFirst : Bool) (hspaces : Spaces bytes (0x7D :: rest)) :
    (visitEntries isFirst depth bytes).Sees .done rest := by
  have hdrop : dropSpaces bytes = 0x7D :: rest := hspaces.dropWhile_cons rfl
  rw [visitEntries]
  split <;> rename_i heq <;> rw [hdrop] at heq <;> cases heq
  rw [if_pos (by decide)]
  exact ⟨rfl, length_le_of_dropSpaces hdrop, rfl⟩

/-- The first entry is visited without a comma in front of it. -/
theorem visitEntries_first (depth : Nat) (hspaces : Spaces bytes (b :: rest))
    (hspace : JsonByte.isSpace b = false) (hclose : b ≠ 0x7D) :
    ∃ hle, visitEntries true depth bytes = (visitEntry false depth (b :: rest)).map hle id := by
  have hdrop : dropSpaces bytes = b :: rest := hspaces.dropWhile_cons hspace
  have hle : (b :: rest).length ≤ bytes.length := length_le_of_dropSpaces hdrop
  refine ⟨hle, ?_⟩
  rw [visitEntries]
  split <;> rename_i heq <;> rw [hdrop] at heq <;> cases heq
  rw [if_neg fun hb => hclose (eq_toUInt8_of_ofUInt8_eq hb)]
  rfl

/-- A comma leads to one more entry.  That an entry begins there, and no brace, is found out
by the visit of the entry itself. -/
theorem visitEntries_comma (depth : Nat) {behind : List UInt8}
    (hcomma : Spaces bytes (0x2C :: behind)) (hspaces : Spaces behind (b :: rest))
    (hspace : JsonByte.isSpace b = false) :
    ∃ hle, visitEntries false depth bytes = (visitEntry true depth (b :: rest)).map hle id := by
  have hdrop : dropSpaces bytes = 0x2C :: behind := hcomma.dropWhile_cons rfl
  have hdrop' : dropSpaces behind = b :: rest := hspaces.dropWhile_cons hspace
  have hle : (b :: rest).length ≤ bytes.length := by
    have := length_le_of_dropSpaces hdrop
    have := length_le_of_dropSpaces hdrop'
    simp only [List.length_cons]
    omega
  refine ⟨hle, ?_⟩
  rw [visitEntries]
  split <;> rename_i heq <;> rw [hdrop] at heq <;> cases heq
  rw [if_neg (by decide), if_neg (by decide), if_pos rfl]
  split <;> rename_i heq <;> rw [hdrop'] at heq <;> cases heq
  rfl

/-- A member is seen if its value is, and those behind it are.  The name, the colon and the
value are each found where the grammar has them. -/
theorem visitEntry_of_visit {name : String} {value : Datum} {entries : Entries} (behindComma : Bool)
    {behind more after : List UInt8} (hname : LiteralText bytes name behind)
    (hcolon : Spaces behind (0x3A :: more)) (hvalue : (visit depth more).Sees value after)
    (hentries : (visitEntries false depth after).Sees entries rest) :
    (visitEntry behindComma depth bytes).Sees (.entry name value entries) rest := by
  obtain ⟨hchars⟩ := hname
  have hread := Quoted.readString_eq_ok_iff.2 hchars
  have hdrop : dropSpaces behind = 0x3A :: more := hcolon.dropWhile_cons rfl
  obtain ⟨rfl, hafter, hok⟩ := hvalue
  rw [visitEntry]
  dsimp only
  rw [if_pos (by decide)]
  split <;> rename_i heq <;> rw [hread] at heq <;> cases heq
  split <;> rename_i heq <;> rw [hdrop] at heq <;> cases heq
  rw [if_pos rfl]
  split <;> rename_i heq <;> rw [heq] at hok <;> cases hok
  rw [heq]
  exact hentries.map _ _

/-! ### Values -/

mutual

/-- **A value is seen whole** if it is not nested too deep, and skipping leads to what
follows it.  The induction is on the document, and its text is taken apart along with it;
the depth that is left falls by one at every container. -/
theorem visit_valueText (doc : Doc) {depth : Nat} {bytes first rest : List UInt8}
    (hdepth : doc.depth ≤ depth) (hspaces : Spaces bytes first) (h : ValueText first doc rest)
    (hends : EndsNumeral rest) : (visit depth bytes).Sees (seen doc) rest := by
  cases doc with
  | scalar value =>
    -- What follows a scalar is found by skipping it, whatever it is seen as.
    have hskip := skip_of_valueText hspaces h hends
    cases h with
    | scalar h =>
      obtain ⟨b, more, rfl, hspace, harray, hobject⟩ := head_scalarText h
      rw [visit_scalar hspaces hspace harray hobject]
      exact ⟨visitScalar_of_scalarText h fun _ _ => hends, skipValue_of_skip hskip⟩
  | array items =>
    cases h with
    | array h =>
      -- An array has depth at least one, so there is a level left to enter it.
      obtain ⟨depth, rfl⟩ := Nat.exists_eq_succ_of_ne_zero (Nat.ne_zero_of_lt hdepth)
      obtain ⟨hle, hvisit⟩ := visit_array depth hspaces
      rw [hvisit]
      exact (visitItems_itemsText items (Nat.le_of_succ_le_succ hdepth) h).map hle Datum.sequence
  | object members =>
    cases h with
    | object h =>
      obtain ⟨depth, rfl⟩ := Nat.exists_eq_succ_of_ne_zero (Nat.ne_zero_of_lt hdepth)
      obtain ⟨hle, hvisit⟩ := visit_object depth hspaces
      rw [hvisit]
      exact (visitEntries_membersText members (Nat.le_of_succ_le_succ hdepth) h).map hle Datum.map

/-- The items of an array are seen from its bracket on.  The depth that is left for an item
is that of the array's inside. -/
theorem visitItems_itemsText (items : List Doc) {depth : Nat} {bytes rest : List UInt8}
    (hdepth : Doc.itemsDepth items ≤ depth) (h : ItemsText bytes items rest) :
    (visitItems true depth bytes).Sees (seenItems items) rest := by
  cases items with
  | nil =>
    cases h with
    | none hspaces => exact visitItems_close true hspaces
  | cons item items =>
    obtain ⟨hitemDepth, hitemsDepth⟩ := Nat.max_le.1 hdepth
    cases h with
    | some hspaces hitem hitems =>
      obtain ⟨b, more, rfl, hspace, hclose, -⟩ := head_valueText hitem
      obtain ⟨hle, hvisit⟩ := visitItems_first depth hspaces hspace hclose
      rw [hvisit]
      exact (visitItem_of_visit
        (visit_valueText item hitemDepth (.refl _) hitem hitems.endsNumeral)
        (visitItems_moreItemsText items hitemsDepth hitems)).map hle id

/-- The items behind the first ones are seen, each behind its comma.  The induction on the
items goes from one to the next here. -/
theorem visitItems_moreItemsText (items : List Doc) {depth : Nat} {bytes rest : List UInt8}
    (hdepth : Doc.itemsDepth items ≤ depth) (h : MoreItemsText bytes items rest) :
    (visitItems false depth bytes).Sees (seenItems items) rest := by
  cases items with
  | nil =>
    cases h with
    | none hspaces => exact visitItems_close false hspaces
  | cons item items =>
    obtain ⟨hitemDepth, hitemsDepth⟩ := Nat.max_le.1 hdepth
    cases h with
    | some hcomma hspaces hitem hitems =>
      obtain ⟨b, more, rfl, hspace, hclose, -⟩ := head_valueText hitem
      obtain ⟨hle, hvisit⟩ := visitItems_comma depth hcomma hspaces hspace hclose
      rw [hvisit]
      exact (visitItem_of_visit
        (visit_valueText item hitemDepth (.refl _) hitem hitems.endsNumeral)
        (visitItems_moreItemsText items hitemsDepth hitems)).map hle id

/-- The members of an object are seen from its brace on.  The first name is read by the
visit of the entry, so the text of the member is taken apart there. -/
theorem visitEntries_membersText (members : List (String × Doc)) {depth : Nat}
    {bytes rest : List UInt8} (hdepth : Doc.membersDepth members ≤ depth)
    (h : MembersText bytes members rest) :
    (visitEntries true depth bytes).Sees (seenEntries members) rest := by
  match members with
  | [] =>
    cases h with
    | none hspaces => exact visitEntries_close true hspaces
  | (name, value) :: members =>
    obtain ⟨hvalueDepth, hmembersDepth⟩ := Nat.max_le.1 hdepth
    cases h with
    | some hspaces hmember hmembers =>
      obtain ⟨b, more, rfl, hspace, -, hclose⟩ := head_memberText hmember
      obtain ⟨hle, hvisit⟩ := visitEntries_first depth hspaces hspace hclose
      obtain ⟨hname, hcolon, hspaces', hvalue⟩ := hmember
      rw [hvisit]
      exact (visitEntry_of_visit false hname hcolon
        (visit_valueText value hvalueDepth hspaces' hvalue hmembers.endsNumeral)
        (visitEntries_moreMembersText members hmembersDepth hmembers)).map hle id

/-- The members behind the first ones are seen, each behind its comma.  Here the visit of an
entry remembers that a comma stands in front of it. -/
theorem visitEntries_moreMembersText (members : List (String × Doc)) {depth : Nat}
    {bytes rest : List UInt8} (hdepth : Doc.membersDepth members ≤ depth)
    (h : MoreMembersText bytes members rest) :
    (visitEntries false depth bytes).Sees (seenEntries members) rest := by
  match members with
  | [] =>
    cases h with
    | none hspaces => exact visitEntries_close false hspaces
  | (name, value) :: members =>
    obtain ⟨hvalueDepth, hmembersDepth⟩ := Nat.max_le.1 hdepth
    cases h with
    | some hcomma hspaces hmember hmembers =>
      obtain ⟨b, more, rfl, hspace, -, -⟩ := head_memberText hmember
      obtain ⟨hle, hvisit⟩ := visitEntries_comma depth hcomma hspaces hspace
      obtain ⟨hname, hcolon, hspaces', hvalue⟩ := hmember
      rw [hvisit]
      exact (visitEntry_of_visit true hname hcolon
        (visit_valueText value hvalueDepth hspaces' hvalue hmembers.endsNumeral)
        (visitEntries_moreMembersText members hmembersDepth hmembers)).map hle id

end

end FieldMask.JsonText
