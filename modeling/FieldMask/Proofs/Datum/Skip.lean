import FieldMask.Datum.Json
import FieldMask.Proofs.Json.Step

namespace FieldMask

/-!
# Skipping values of the grammar

Skipping knows which containers are open and what may stand next, as the grammar does token by
token, so one token of the grammar is one step of skipping, or two where a container could end.

* `Quoted.skip_of_charsText` — a string literal is passed over.
* `JsonText.readNumeral_of_numeralText`, `JsonText.skipScalar_of_scalarText` — so is a scalar.
* `JsonText.Skipping.of` — skipping at a position; `JsonText.Skipping.run_element`,
  `JsonText.Skipping.run_first`, … — its steps.
* `JsonText.Skipping.run_value` — a value at any depth; `JsonText.skip_of_valueText` — a value on
  its own.
-/

/-! ### String literals -/

namespace Quoted

open JsonText

/-- An escape that is passed over leaves the literal to be skipped behind it. -/
theorem skip_backslash {behind rest : List UInt8} (h : skipEscape behind = .ok rest) :
    skip (backslash :: behind) = skip rest := by
  rw [skip, if_neg (by decide), if_pos rfl]
  split <;> rename_i heq <;> rw [h] at heq <;> cases heq
  rfl

/-- Bytes that are neither a quotation mark nor a backslash nor a control byte are passed
over one by one. -/
theorem skip_append {tail : List UInt8}
    (h : ∀ b ∈ tail, b ≠ quote ∧ b ≠ backslash ∧ ¬b < 0x20) (behind : List UInt8) :
    skip (tail ++ behind) = skip behind := by
  induction tail with
  | nil => rfl
  | cons b tail ih =>
    obtain ⟨hquote, hbackslash, hcontrol⟩ := h b List.mem_cons_self
    rw [List.cons_append, skip, if_neg hquote, if_neg hbackslash, if_neg hcontrol]
    exact ih fun d hd => h d (List.mem_cons_of_mem b hd)

/-- An escape by the four digits of a unit is passed over, whatever unit it is: skipping
does not ask whether the unit is one half of a pair. -/
theorem skipEscape_unit {digits : List UInt8} {unit : Nat} (h : UnitText digits unit)
    (behind : List UInt8) : skipEscape (0x75 :: (digits ++ behind)) = .ok behind := by
  -- The letter `u` stands for no character by itself, so its branch is the one of the units.
  rw [skipEscape, show letterEscape? 0x75 = none from rfl]
  dsimp only
  rw [if_pos rfl, readUnit_eq_ok_iff.2 ⟨digits, h, rfl⟩]

/-- A character is passed over; the two units of a pair are two escapes.  Skipping does not
know that they belong together, and need not. -/
theorem skip_of_charText {bytes : List UInt8} {c : Char} (h : CharText bytes c)
    (behind : List UInt8) : skip (bytes ++ behind) = skip behind := by
  cases h with
  | plain hcontrol hquote hbackslash =>
    exact skip_append (plain_bytes hcontrol hquote hbackslash) behind
  | escape hescape =>
    cases hescape with
    | @letter l _ h =>
      obtain ⟨out, hletter, -⟩ := letterEscape?_of_mem h
      refine skip_backslash ?_
      show skipEscape (l.toUInt8 :: behind) = _
      rw [skipEscape, hletter]
    | unit h _ => exact skip_backslash (skipEscape_unit h behind)
    | @pair digits digits' _ _ h h' _ _ =>
      have hsecond : skip (0x5C :: 0x75 :: (digits' ++ behind)) = skip behind :=
        skip_backslash (skipEscape_unit h' behind)
      rw [← hsecond]
      simp only [List.cons_append, List.append_assoc]
      exact skip_backslash (skipEscape_unit h _)

/-- The rest of a literal is passed over. -/
theorem skip_of_charsText {bytes rest : List UInt8} {cs : List Char}
    (h : CharsText bytes cs rest) : skip bytes = .ok rest := by
  induction h with
  | close =>
    rw [skip]
    exact if_pos rfl
  | char hchar _ ih => rw [skip_of_charText hchar, ih]

end Quoted

namespace JsonText

variable {position position' : Position} {containers : List Container}
  {bytes first rest : List UInt8} {b : UInt8} {token : Token}

/-! ### Scalars -/

/-- The rest of a word is passed over if it stands there letter by letter. -/
theorem dropWord_of_ascii (word : List Char) (h : ∀ c ∈ word, c.toNat < 0x80)
    (rest : List UInt8) : dropWord word (utf8Bytes word ++ rest) = .ok rest := by
  induction word with
  | nil => rw [utf8Bytes_nil, List.nil_append, dropWord]
  | cons c word ih =>
    have hc := h c List.mem_cons_self
    rw [utf8Bytes_cons, utf8EncodeChar_of_ascii hc, List.singleton_append, List.cons_append,
      dropWord, if_pos (ofUInt8_toUInt8 hc)]
    exact ih fun d hd => h d (List.mem_cons_of_mem c hd)

/-- A numeral is read whole, and no more than it, if the byte behind it cannot go on with
it. -/
theorem readNumeral_of_numeralText {cs : List Char} (atEnd : TextFault) (h : NumeralText cs)
    (hends : EndsNumeral rest) : readNumeral atEnd (utf8Bytes cs ++ rest) = .ok (cs, rest) := by
  have hmap := map_ofUInt8_utf8Bytes h.toNat_lt
  rw [readNumeral, h.takeWhile hends, h.dropWhile hends, hmap, Numeral.drop_eq_ok_nil_iff.2 h]
  simp [hmap]

/-- What begins a scalar begins no container.  So the two brackets are told from it by its
first byte. -/
theorem head_scalarText {value : Scalar} (h : ScalarText bytes value rest) :
    ∃ b more, bytes = b :: more ∧ JsonByte.isSpace b = false ∧ Char.ofUInt8 b ≠ '[' ∧
      Char.ofUInt8 b ≠ '{' := by
  obtain ⟨b, more, rfl, hspace, -, -⟩ := head_element (@Element.scalar [] _ _ _ h)
  refine ⟨b, more, rfl, hspace, ?_⟩
  generalize hbytes : b :: more = bytes at h
  cases h with
  | null | true | false =>
    cases hbytes
    decide
  | number h =>
    obtain ⟨c, cs, rfl, hc⟩ := head_numeralText h.numeral
    have hlt := h.numeral.toNat_lt c List.mem_cons_self
    rw [utf8Bytes_cons, utf8EncodeChar_of_ascii hlt] at hbytes
    cases hbytes
    rw [ofUInt8_toUInt8 hlt]
    constructor <;> rintro rfl <;> simp at hc
  | string h =>
    cases h
    cases hbytes
    decide

/-- Behind a minus or a digit a numeral is read and dropped. -/
theorem skipScalar_numeral (hb : Char.ofUInt8 b = '-' ∨ (Char.ofUInt8 b).isDigit = true) :
    skipScalar b rest = (readNumeral .malformed (b :: rest)).map (·.2) := by
  rw [skipScalar]
  split
  all_goals first
    | exact if_pos hb
    | simp_all

/-- A scalar of the grammar is passed over, up to what follows it. -/
theorem skipScalar_of_scalarText {value : Scalar} (h : ScalarText (b :: bytes) value rest)
    (hends : ∀ n, value = .number n → EndsNumeral rest) : skipScalar b bytes = .ok rest := by
  generalize hbytes : b :: bytes = all at h
  cases h with
  | null =>
    cases hbytes
    exact dropWord_of_ascii "ull".toList (by simp) rest
  | true =>
    cases hbytes
    exact dropWord_of_ascii "rue".toList (by simp) rest
  | false =>
    cases hbytes
    exact dropWord_of_ascii "alse".toList (by simp) rest
  | number h =>
    -- A numeral is told by its first byte, and read with it.
    have hread := readNumeral_of_numeralText .malformed h.numeral (hends _ rfl)
    obtain ⟨c, cs, rfl, hc⟩ := head_numeralText h.numeral
    have hlt := h.numeral.toNat_lt c List.mem_cons_self
    rw [utf8Bytes_cons, utf8EncodeChar_of_ascii hlt] at hbytes hread
    cases hbytes
    rw [skipScalar_numeral ((ofUInt8_toUInt8 hlt).symm ▸ hc)]
    exact congrArg (Except.map _) hread
  | string h =>
    cases h with
    | mk h =>
      cases hbytes
      exact Quoted.skip_of_charsText h

/-! ### Steps -/

namespace Skipping

variable {state state' : Skipping} {container : Container} {outer : List Container}

/-- Where skipping is at a position. -/
def of : Position → List UInt8 → Skipping
  | .value containers, rest => ⟨.value, containers, rest⟩
  | .first container outer, rest => ⟨.first container, container :: outer, rest⟩
  | .name outer, rest => ⟨.name, .object :: outer, rest⟩
  | .behind containers, rest => ⟨.after, containers, rest⟩

/-- The start of a part of a container is what the container's kind of part begins with. -/
theorem of_part (container : Container) (outer : List Container) (bytes : List UInt8) :
    of (.part container outer) bytes = ⟨.part container, container :: outer, bytes⟩ := by
  cases container <;> rfl

/-- A step that goes on does not change where the run leads. -/
theorem run_of_next (h : state.step = .ok (.next state')) : state.run = state'.run := by
  rw [run]
  split <;> rename_i heq <;> rw [h] at heq <;> cases heq
  rfl

/-- A step that is the last one gives the result of the run. -/
theorem run_of_done (h : state.step = .ok (.done rest)) : state.run = .ok rest := by
  rw [run]
  split <;> rename_i heq <;> rw [h] at heq <;> cases heq
  rfl

/-- The byte of a container's end is the one of the character that ends it. -/
theorem ofUInt8_closing (container : Container) :
    Char.ofUInt8 container.closing = JsonText.closing container := by
  cases container <;> decide

/-- An element is passed over. -/
theorem run_element (hspaces : Spaces bytes first)
    (h : Element position first token position' rest)
    (hends : ∀ n, token = .scalar (.number n) → EndsNumeral rest) :
    (of position bytes).run = (of position' rest).run := by
  obtain ⟨b, more, rfl, hspace, -, -⟩ := head_element h
  have hdrop : dropSpaces bytes = b :: more := hspaces.dropWhile_cons hspace
  refine run_of_next ?_
  -- A scalar and the beginning of a container are passed over where a value may stand, a name where
  -- a name may stand; in the last case the colon goes with it.
  cases h with
  | @scalar containers _ _ value h =>
    have hskip : skipScalar b more = .ok rest := by
      refine skipScalar_of_scalarText h ?_
      rintro n rfl
      exact hends n rfl
    -- No bracket begins the scalar, so the step comes to where scalars are skipped.
    obtain ⟨_, _, heq, -, harray, hobject⟩ := head_scalarText h
    cases heq
    simp only [of, step, hdrop, stepAtValue, hskip]
    rfl
  | @enter container =>
    simp only [of, step, hdrop]
    cases container <;> rfl
  | name hname hcolon =>
    obtain ⟨hchars⟩ := hname
    have hcolon' : dropSpaces _ = 0x3A :: rest := hcolon.dropWhile_cons rfl
    have hquote : (0x22 : UInt8) = Quoted.quote := rfl
    simp only [of, step, hdrop]
    rw [stepAtName, if_pos hquote, Quoted.skip_of_charsText hchars]
    dsimp only
    rw [hcolon']
    rfl

/-- The first part of a container is told from the container's end before it is passed over.
Neither bracket begins a part, so the byte that stands there decides. -/
theorem run_first (hspaces : Spaces bytes (b :: rest)) (hspace : JsonByte.isSpace b = false)
    (harray : b ≠ 0x5D) (hobject : b ≠ 0x7D) :
    (of (.first container outer) bytes).run = (of (.part container outer) (b :: rest)).run := by
  have hdrop : dropSpaces bytes = b :: rest := hspaces.dropWhile_cons hspace
  have hclosing : Char.ofUInt8 b ≠ JsonText.closing container := by
    intro hb
    cases container with
    | array => exact harray (eq_toUInt8_of_ofUInt8_eq hb)
    | object => exact hobject (eq_toUInt8_of_ofUInt8_eq hb)
  refine run_of_next ?_
  rw [of_part]
  simp only [of, step, hdrop]
  rw [stepAtFirst, if_neg hclosing]

/-- A comma is passed over. -/
theorem run_comma (hcomma : Spaces bytes (0x2C :: rest)) :
    (of (.behind (container :: outer)) bytes).run = (of (.part container outer) rest).run := by
  have hdrop : dropSpaces bytes = 0x2C :: rest := hcomma.dropWhile_cons rfl
  refine run_of_next ?_
  rw [of_part]
  simp only [of, step, hdrop]
  rw [stepAfter, if_pos rfl]
  rfl

/-- The end of an empty container is passed over. -/
theorem run_empty (container : Container) (hspaces : Spaces bytes (container.closing :: rest)) :
    (of (.first container outer) bytes).run = (of (.behind outer) rest).run := by
  have hdrop : dropSpaces bytes = container.closing :: rest :=
    hspaces.dropWhile_cons container.isSpace_closing
  refine run_of_next ?_
  simp only [of, step, hdrop]
  rw [stepAtFirst, if_pos (ofUInt8_closing container), List.tail_cons]

/-- The end of a container is passed over. -/
theorem run_close (container : Container) (hspaces : Spaces bytes (container.closing :: rest)) :
    (of (.behind (container :: outer)) bytes).run = (of (.behind outer) rest).run := by
  have hdrop : dropSpaces bytes = container.closing :: rest :=
    hspaces.dropWhile_cons container.isSpace_closing
  have hcomma : container.closing ≠ 0x2C := by cases container <;> decide
  refine run_of_next ?_
  simp only [of, step, hdrop]
  rw [stepAfter, if_neg hcomma, if_pos (ofUInt8_closing container)]
  rfl

/-! ### Values -/

mutual

/-- A value is passed over, whatever containers are open around it.  Any containers can be
open around it, since the inner values are passed over with one more of them open. -/
theorem run_value (doc : Doc) (containers : List Container) {bytes first rest : List UInt8}
    (hspaces : Spaces bytes first) (h : ValueText first doc rest) (hends : EndsNumeral rest) :
    (of (.value containers) bytes).run = (of (.behind containers) rest).run := by
  -- The induction is on the document, and its text is taken apart along with it.
  cases doc with
  | scalar value =>
    cases h with
    | scalar h => exact run_element hspaces (.scalar h) fun _ _ => hends
  | array items =>
    cases h with
    | array h =>
      exact (run_element hspaces (.enter .array) nofun).trans (run_items items h)
  | object members =>
    cases h with
    | object h =>
      exact (run_element hspaces (.enter .object) nofun).trans
        (run_members members h)

/-- The items of an array are passed over from its bracket on, and then its end is.  The
first one has no comma in front of it. -/
theorem run_items (items : List Doc) {outer : List Container} {bytes rest : List UInt8}
    (h : ItemsText bytes items rest) :
    (of (.first .array outer) bytes).run = (of (.behind outer) rest).run := by
  cases items with
  | nil =>
    cases h with
    | none hspaces => exact run_empty .array hspaces
  | cons item items =>
    cases h with
    | some hspaces hitem hitems =>
      obtain ⟨b, more, rfl, hspace, harray, hobject⟩ := head_valueText hitem
      calc (of (.first .array outer) bytes).run
        _ = (of (.value (.array :: outer)) (b :: more)).run :=
          run_first hspaces hspace harray hobject
        _ = (of (.behind (.array :: outer)) _).run :=
          run_value item _ (.refl _) hitem hitems.endsNumeral
        _ = (of (.behind outer) rest).run := run_moreItems items hitems

/-- The items behind the first ones are passed over, and then the end of the array is.  Each
has a comma in front of it. -/
theorem run_moreItems (items : List Doc) {outer : List Container} {bytes rest : List UInt8}
    (h : MoreItemsText bytes items rest) :
    (of (.behind (.array :: outer)) bytes).run = (of (.behind outer) rest).run := by
  cases items with
  | nil =>
    cases h with
    | none hspaces => exact run_close .array hspaces
  | cons item items =>
    cases h with
    | @some _ behind _ _ _ _ _ hcomma hspaces hitem hitems =>
      calc (of (.behind (.array :: outer)) bytes).run
        _ = (of (.value (.array :: outer)) behind).run := run_comma hcomma
        _ = (of (.behind (.array :: outer)) _).run :=
          run_value item _ hspaces hitem hitems.endsNumeral
        _ = (of (.behind outer) rest).run := run_moreItems items hitems

/-- The members of an object are passed over from its brace on, and then its end is.  In
front of each value there is its name with the colon, which is an element of its own. -/
theorem run_members (members : List (String × Doc)) {outer : List Container}
    {bytes rest : List UInt8} (h : MembersText bytes members rest) :
    (of (.first .object outer) bytes).run = (of (.behind outer) rest).run := by
  match members with
  | [] =>
    cases h with
    | none hspaces => exact run_empty .object hspaces
  | (name, value) :: members =>
    cases h with
    | some hspaces hmember hmembers =>
      obtain ⟨b, more, rfl, hspace, harray, hobject⟩ := head_memberText hmember
      obtain ⟨hname, hcolon, hspaces', hvalue⟩ := hmember
      calc (of (.first .object outer) bytes).run
        _ = (of (.name outer) (b :: more)).run := run_first hspaces hspace harray hobject
        _ = (of (.value (.object :: outer)) _).run :=
          run_element (.refl _) (.name hname hcolon) nofun
        _ = (of (.behind (.object :: outer)) _).run :=
          run_value value _ hspaces' hvalue hmembers.endsNumeral
        _ = (of (.behind outer) rest).run := run_moreMembers members hmembers

/-- The members behind the first ones are passed over, and then the end of the object is.  A
comma leads to each of them. -/
theorem run_moreMembers (members : List (String × Doc)) {outer : List Container}
    {bytes rest : List UInt8} (h : MoreMembersText bytes members rest) :
    (of (.behind (.object :: outer)) bytes).run = (of (.behind outer) rest).run := by
  match members with
  | [] =>
    cases h with
    | none hspaces => exact run_close .object hspaces
  | (name, value) :: members =>
    cases h with
    | @some _ behind _ _ _ _ _ _ hcomma hspaces hmember hmembers =>
      obtain ⟨hname, hcolon, hspaces', hvalue⟩ := hmember
      calc (of (.behind (.object :: outer)) bytes).run
        _ = (of (.name outer) behind).run := run_comma hcomma
        _ = (of (.value (.object :: outer)) _).run :=
          run_element hspaces (.name hname hcolon) nofun
        _ = (of (.behind (.object :: outer)) _).run :=
          run_value value _ hspaces' hvalue hmembers.endsNumeral
        _ = (of (.behind outer) rest).run := run_moreMembers members hmembers

end

end Skipping

/-- **A value of the grammar is skipped** up to what follows it.  This is the value at the
top, with no container open around it. -/
theorem skip_of_valueText {doc : Doc} (hspaces : Spaces bytes first)
    (h : ValueText first doc rest) (hends : EndsNumeral rest) : skip bytes = .ok rest :=
  (Skipping.run_value doc [] hspaces h hends).trans (Skipping.run_of_done rfl)

end JsonText

end FieldMask
