import FieldMask.Proofs.Document.Flatten
import FieldMask.Proofs.Json.Step

namespace FieldMask.JsonText

/-!
# Tokens by their own bytes

What follows a token has no part in it: its bytes are that token whatever stands behind them.  The
last of them is no space, so the spaces at the end of a text belong to none of its tokens.

* `EndsToken` — some bytes end with one that is no space.
* `Element.frame`, `Step.frame` — the bytes of a token are one whatever follows them.
* `due_append_spaces_iff`, `denotes_append_spaces_iff` — spaces at the end change nothing.
-/

variable {position position' : Position} {bytes first rest spaces : List UInt8} {token : Token}
  {tokens : List Token}

/-! ### Spaces at the end -/

/-- Bytes are all spaces if each of them is one. -/
theorem spaces_nil_iff : Spaces bytes [] ↔ ∀ b ∈ bytes, b ∈ [0x20, 0x09, 0x0A, 0x0D] := by
  constructor
  · rintro ⟨spaces, rfl, hspaces⟩
    rwa [List.append_nil]
  · exact fun h => ⟨bytes, (List.append_nil bytes).symm, h⟩

/-- Two parts are all spaces if each of them is. -/
theorem spaces_append_iff : Spaces (bytes ++ rest) [] ↔ Spaces bytes [] ∧ Spaces rest [] := by
  simp only [spaces_nil_iff, List.mem_append, or_imp, forall_and]

/-! ### Bytes of tokens -/

/-- Some bytes end with one that is no space. -/
def EndsToken (piece : List UInt8) : Prop :=
  ∃ front b, piece = front ++ [b] ∧ JsonByte.isSpace b = false

namespace EndsToken

/-- The last byte is the same with more bytes in front. -/
theorem of_append (before : List UInt8) {piece : List UInt8} (h : EndsToken piece) :
    EndsToken (before ++ piece) := by
  obtain ⟨front, b, rfl, hb⟩ := h
  exact ⟨before ++ front, b, (List.append_assoc ..).symm, hb⟩

/-- The spaces at the end of some bytes stand behind every token in them: a token ends with
a byte that is none. -/
theorem exists_rest {piece : List UInt8} (h : EndsToken piece) (hspaces : Spaces spaces [])
    (heq : bytes ++ spaces = piece ++ rest) :
    ∃ more, bytes = piece ++ more ∧ rest = more ++ spaces := by
  obtain ⟨front, b, rfl, hb⟩ := h
  rcases List.append_eq_append_iff.1 heq with ⟨between, hpiece, rfl⟩ | ⟨more, rfl, rfl⟩
  · -- The last byte of the token would be a space.
    rcases List.eq_nil_or_concat between with rfl | ⟨between, c, rfl⟩
    · exact ⟨[], by simpa using hpiece.symm, rfl⟩
    · rw [List.concat_eq_append, ← List.append_assoc] at hpiece
      obtain rfl := List.singleton_inj.1 (List.append_inj_right' hpiece rfl)
      have hspace := isSpace_iff.2 (spaces_nil_iff.1 hspaces b (by simp))
      rw [hb] at hspace
      cases hspace
  · exact ⟨more, rfl, rfl⟩

end EndsToken

/-- The characters of a literal end with its closing quote. -/
theorem CharsText.exists_front {cs : List Char} (h : CharsText bytes cs rest) :
    ∃ front, bytes = front ++ 0x22 :: rest := by
  induction h with
  | close => exact ⟨[], rfl⟩
  | @char bytes _ _ _ _ _ _ ih =>
    obtain ⟨front, rfl⟩ := ih
    exact ⟨bytes ++ front, (List.append_assoc ..).symm⟩

/-- So does the literal, and a quote is no space. -/
theorem LiteralText.endsToken {literal : List UInt8} {s : String}
    (h : LiteralText (literal ++ rest) s rest) : EndsToken literal := by
  generalize hall : literal ++ rest = all at h
  obtain ⟨h⟩ := h
  obtain ⟨front, rfl⟩ := h.exists_front
  refine ⟨0x22 :: front, 0x22, List.append_cancel_right (hall.trans ?_), rfl⟩
  simp

/-- The last byte of a numeral is one that a numeral consists of, and so no space.  So
spaces behind it are not taken for a part of it. -/
theorem NumeralText.endsToken {cs : List Char} (h : NumeralText cs) :
    EndsToken (utf8Bytes cs) := by
  obtain ⟨c, more, rfl, -⟩ := head_numeralText h
  have hb := h.inNumeral
  rcases List.eq_nil_or_concat (utf8Bytes (c :: more)) with hnil | ⟨front, b, hconcat⟩
  · simp [String.utf8EncodeChar_ne_nil] at hnil
  · rw [List.concat_eq_append] at hconcat
    refine ⟨front, b, hconcat, ?_⟩
    have hnumeral := hb b (by simp [hconcat])
    rw [Bool.eq_false_iff, ne_eq, isSpace_iff]
    intro hspace
    simp only [List.mem_cons, List.not_mem_nil, or_false] at hspace
    rcases hspace with rfl | rfl | rfl | rfl <;> contradiction

/-- The last byte of a scalar is a letter, a digit or a quote.  So spaces behind it are not
taken for a part of it. -/
theorem ScalarText.endsToken {scalar : List UInt8} {value : Scalar}
    (h : ScalarText (scalar ++ rest) value rest) : EndsToken scalar := by
  generalize hall : scalar ++ rest = all at h
  cases h with
  | null =>
    obtain rfl := List.append_cancel_right hall
    exact ⟨utf8Bytes "nul".toList, 0x6C, rfl, rfl⟩
  | true =>
    obtain rfl := List.append_cancel_right hall
    exact ⟨utf8Bytes "tru".toList, 0x65, rfl, rfl⟩
  | false =>
    obtain rfl := List.append_cancel_right hall
    exact ⟨utf8Bytes "fals".toList, 0x65, rfl, rfl⟩
  | number h =>
    obtain rfl := List.append_cancel_right hall
    exact h.numeral.endsToken
  | string h => exact (hall ▸ h).endsToken

/-- The bytes of an element are one whatever follows them, and they end with no space. -/
theorem Element.frame (h : Element position first token position' rest) :
    ∃ piece, first = piece ++ rest ∧ EndsToken piece ∧
      ∀ rest', Element position (piece ++ rest') token position' rest' := by
  cases h with
  | scalar h =>
    obtain ⟨scalar, rfl, hframe⟩ := h.frame
    exact ⟨scalar, rfl, h.endsToken, fun rest' => .scalar (hframe rest')⟩
  -- A bracket is one byte; a name ends with its colon.
  | @enter container =>
    have hbracket : JsonByte.isSpace container.opening = false := by cases container <;> rfl
    exact ⟨[container.opening], rfl, ⟨[], _, rfl, hbracket⟩, fun _ => .enter container⟩
  | name hname hcolon =>
    obtain ⟨literal, rfl, hliteral⟩ := hname.frame
    obtain ⟨spaces, rfl, hspaces⟩ := hcolon.frame
    refine ⟨literal ++ (spaces ++ [0x3A]), by simp, ⟨literal ++ spaces, 0x3A, by simp, rfl⟩, ?_⟩
    intro rest'
    rw [List.append_assoc, List.append_assoc]
    exact .name (hliteral _) (hspaces _)

/-- **A token is one whatever follows it**, and so the bytes behind it may be replaced.  The
spaces and the comma before it are among its bytes. -/
theorem Step.frame (h : Step position bytes token position' rest) :
    ∃ piece, bytes = piece ++ rest ∧ EndsToken piece ∧
      ∀ rest', Step position (piece ++ rest') token position' rest' := by
  have hbracket (container : Container) : EndsToken [container.closing] := by
    cases container
    · exact ⟨[], 0x7D, rfl, rfl⟩
    · exact ⟨[], 0x5D, rfl, rfl⟩
  -- A token has spaces in front of it in every case, and behind a comma there are spaces twice.
  cases h with
  | element hspaces h =>
    obtain ⟨piece, rfl, hends, hframe⟩ := h.frame
    obtain ⟨spaces, rfl, hgap⟩ := hspaces.frame
    refine ⟨spaces ++ piece, (List.append_assoc ..).symm, hends.of_append spaces, fun rest' => ?_⟩
    rw [List.append_assoc]
    exact .element (hgap _) (hframe rest')
  | part hspaces h =>
    obtain ⟨piece, rfl, hends, hframe⟩ := h.frame
    obtain ⟨spaces, rfl, hgap⟩ := hspaces.frame
    refine ⟨spaces ++ piece, (List.append_assoc ..).symm, hends.of_append spaces, fun rest' => ?_⟩
    rw [List.append_assoc]
    exact .part (hgap _) (hframe rest')
  | @empty container _ _ _ hspaces =>
    obtain ⟨spaces, rfl, hgap⟩ := hspaces.frame
    refine ⟨spaces ++ [container.closing], by simp, (hbracket container).of_append spaces, ?_⟩
    intro rest'
    rw [List.append_assoc]
    exact .empty (hgap _)
  | more hcomma hspaces h =>
    obtain ⟨piece, rfl, hends, hframe⟩ := h.frame
    obtain ⟨spaces, rfl, hgap⟩ := hspaces.frame
    obtain ⟨before, rfl, hbefore⟩ := hcomma.frame
    refine ⟨before ++ 0x2C :: (spaces ++ piece), by simp,
      (hends.of_append (0x2C :: spaces)).of_append before, fun rest' => ?_⟩
    rw [List.append_assoc, List.cons_append, List.append_assoc]
    exact .more (hbefore _) (hgap _) (hframe rest')
  | @close container _ _ _ hspaces =>
    obtain ⟨spaces, rfl, hgap⟩ := hspaces.frame
    refine ⟨spaces ++ [container.closing], by simp, (hbracket container).of_append spaces, ?_⟩
    intro rest'
    rw [List.append_assoc]
    exact .close (hgap _)

/-! ### Spaces at the end of what is due -/

/-- What is due behind a token makes, with the token, what is due before it. -/
theorem Step.due_cons (h : Step position bytes token position' rest)
    (hdue : Due position' rest tokens) : Due position bytes (token :: tokens) := by
  obtain ⟨piece, rfl, hcons⟩ := h.due
  exact hcons hdue

/-- Spaces at the end of what is due are due with it, and may be missing.  The induction is
on the tokens; behind the last of them all that is due are spaces. -/
theorem due_append_spaces_iff (hspaces : Spaces spaces []) :
    Due position (bytes ++ spaces) tokens ↔ Due position bytes tokens := by
  induction tokens generalizing position bytes with
  | nil =>
    constructor
    · intro h
      obtain ⟨rfl, hall⟩ := h.of_nil
      exact ⟨(spaces_append_iff.1 hall).1, rfl⟩
    · intro h
      obtain ⟨rfl, hbytes⟩ := h.of_nil
      exact ⟨spaces_append_iff.2 ⟨hbytes, hspaces⟩, rfl⟩
  | cons token tokens ih =>
    constructor
    · intro h
      obtain ⟨_, rest, hstep, hdue⟩ := h.exists_step
      -- The token does not end with a space, so it is there without those at the end.
      obtain ⟨piece, hbytes, hends, hframe⟩ := hstep.frame
      obtain ⟨rest', rfl, rfl⟩ := hends.exists_rest hspaces hbytes
      exact (hframe rest').due_cons (ih.1 hdue)
    · intro h
      obtain ⟨_, rest, hstep, hdue⟩ := h.exists_step
      obtain ⟨piece, rfl, -, hframe⟩ := hstep.frame
      rw [List.append_assoc]
      exact (hframe (rest ++ spaces)).due_cons (ih.2 hdue)

/-- **Spaces at the end of a text change nothing.**  They are told from the document, whose
last byte is no space. -/
theorem denotes_append_spaces_iff (hspaces : Spaces spaces []) {doc : Doc} :
    Denotes (bytes ++ spaces) doc ↔ Denotes bytes doc := by
  -- What a text denotes is what is due at its start, as the tokens tell the document.
  have hdue (bytes : List UInt8) : Denotes bytes doc ↔ Due (.value []) bytes doc.flatten := by
    rw [due_start_iff]
    constructor
    · exact fun h => ⟨doc, h, rfl⟩
    · rintro ⟨doc', h, hflatten⟩
      exact Doc.flatten_injective hflatten ▸ h
  rw [hdue, hdue, due_append_spaces_iff hspaces]

end FieldMask.JsonText
