import FieldMask.Json.Byte
import FieldMask.Proofs.Json.Grammar
import FieldMask.Proofs.Text.Utf8

namespace FieldMask

/-!
# Numerals

* `Numeral.drop_eq_ok_nil_iff`, `isNumeral_iff` — a text is taken whole exactly if it is a numeral
  of the grammar.
* `Number.ofText?_eq_some_iff` — a text is read as the number that it stands for.
* `JsonText.NumeralText.inNumeral` — a numeral consists of the bytes that a reader takes for one;
  `JsonText.EndsNumeral` — what may stand behind it.
-/

namespace Numeral

open JsonText

variable {taken : Bool} {cs rest : List Char}

/-! ### Parts of a numeral -/

/-- What is taken as digits are digits, one at least.  The text is cut behind them. -/
theorem dropDigits_eq_ok (h : dropDigits taken cs = .ok rest) :
    ∃ digits, Digits digits ∧ cs = digits ++ rest := by
  unfold dropDigits at h
  split at h
  · cases h
  next c more =>
    split at h
    next hc =>
      cases h
      refine ⟨c :: more.takeWhile Char.isDigit, ⟨List.cons_ne_nil _ _, ?_⟩, ?_⟩
      · intro d hd
        rcases List.mem_cons.1 hd with rfl | hd
        · exact hc
        · exact List.all_eq_true.1 List.all_takeWhile d hd
      · rw [List.cons_append, List.takeWhile_append_dropWhile]
    · cases h

/-- What is taken as an integer part is one of the grammar. -/
theorem dropWhole_eq_ok (h : dropWhole taken cs = .ok rest) :
    ∃ whole, WholeText whole ∧ cs = whole ++ rest := by
  unfold dropWhole at h
  split at h
  · cases h
    exact ⟨['0'], .zero, rfl⟩
  next c more =>
    split at h
    · cases h
    · cases h
      exact ⟨['0'], .zero, rfl⟩
  -- No zero stands in front.
  next hzero hmore =>
    obtain ⟨digits, hdigits, rfl⟩ := dropDigits_eq_ok h
    refine ⟨digits, .digits hdigits ?_, rfl⟩
    -- A zero in front would have been taken by one of the cases before.
    intro hhead
    obtain ⟨digits, rfl⟩ := List.head?_eq_some_iff.1 hhead
    cases htail : digits ++ rest with
    | nil => exact hzero (by rw [List.cons_append, htail])
    | cons c more => exact hmore c more (by rw [List.cons_append, htail])

/-- What is taken as a fraction is one, or there is none. -/
theorem dropFraction_eq_ok (h : dropFraction cs = .ok rest) :
    ∃ fraction, FractionText fraction ∧ cs = fraction ++ rest := by
  unfold dropFraction at h
  split at h
  · obtain ⟨digits, hdigits, rfl⟩ := dropDigits_eq_ok h
    exact ⟨'.' :: digits, .point hdigits, rfl⟩
  · cases h
    exact ⟨[], .none, rfl⟩

/-- What is taken as a sign is one, or nothing is taken. -/
theorem dropSign_append (cs : List Char) :
    ∃ sign ∈ [[], ['+'], ['-']], cs = sign ++ dropSign cs := by
  unfold dropSign
  split
  · exact ⟨['+'], by simp, rfl⟩
  · exact ⟨['-'], by simp, rfl⟩
  · exact ⟨[], by simp, rfl⟩

/-- What is taken as an exponent is one, or there is none.  Both marks are read alike. -/
theorem dropExponent_eq_ok (h : dropExponent cs = .ok rest) :
    ∃ exponent, ExponentText exponent ∧ cs = exponent ++ rest := by
  have hmark {c : Char} {more : List Char} (hc : c = 'e' ∨ c = 'E')
      (h : dropDigits true (dropSign more) = .ok rest) :
      ∃ exponent, ExponentText exponent ∧ c :: more = exponent ++ rest := by
    obtain ⟨digits, hdigits, heq⟩ := dropDigits_eq_ok h
    obtain ⟨sign, hsign, hmore⟩ := dropSign_append more
    refine ⟨c :: (sign ++ digits), .mark hc hsign hdigits, ?_⟩
    rw [hmore, heq, List.cons_append, List.append_assoc]
  unfold dropExponent at h
  split at h
  · exact hmark (.inl rfl) h
  · exact hmark (.inr rfl) h
  · cases h
    exact ⟨[], .none, rfl⟩

/-- What is taken as a minus is one, or nothing is taken. -/
theorem dropMinus_append (cs : List Char) : ∃ minus ∈ [[], ['-']], cs = minus ++ dropMinus cs := by
  unfold dropMinus
  split
  · exact ⟨['-'], by simp, rfl⟩
  · exact ⟨[], by simp, rfl⟩

/-- What is taken as a numeral is one of the grammar: its four parts, in their order. -/
theorem drop_eq_ok (h : drop cs = .ok rest) : ∃ numeral, NumeralText numeral ∧
    cs = numeral ++ rest := by
  obtain ⟨minus, hminus, hcs⟩ := dropMinus_append cs
  unfold drop at h
  cases hwhole : dropWhole (cs.head? == some '-') (dropMinus cs) with
  | error => rw [hwhole] at h; cases h
  | ok cs₁ =>
    rw [hwhole] at h
    cases hfraction : dropFraction cs₁ with
    | error => simp [bind, Except.bind, hfraction] at h
    | ok cs₂ =>
      simp only [bind, Except.bind, hfraction] at h
      -- None of the parts has failed, so each is what the grammar says.
      obtain ⟨whole, hw, hcs'⟩ := dropWhole_eq_ok hwhole
      obtain ⟨fraction, hf, rfl⟩ := dropFraction_eq_ok hfraction
      obtain ⟨exponent, he, rfl⟩ := dropExponent_eq_ok h
      refine ⟨_, .mk hminus hw hf he, ?_⟩
      rw [hcs, hcs']
      simp only [List.append_assoc]

/-! ### Whole numerals -/

/-- No digit comes next. -/
def EndsDigits (cs : List Char) : Prop := ∀ c, cs.head? = some c → c.isDigit = false

/-- Digits are taken to their end, where no digit follows. -/
theorem dropDigits_append {digits : List Char} (h : Digits digits) (hrest : EndsDigits rest) :
    dropDigits taken (digits ++ rest) = .ok rest := by
  obtain ⟨hne, hdigits⟩ := h
  obtain ⟨c, digits, rfl⟩ := List.exists_cons_of_ne_nil hne
  rw [List.cons_append, dropDigits, if_pos (hdigits c List.mem_cons_self)]
  have hmore : ∀ d ∈ digits, d.isDigit = true := fun d hd =>
    hdigits d (List.mem_cons_of_mem c hd)
  rw [List.dropWhile_append_of_pos hmore]
  cases rest with
  | nil => rfl
  | cons d rest => rw [List.dropWhile_cons_of_neg (Bool.eq_false_iff.1 (hrest d rfl))]

/-- An integer part is taken whole, where no digit follows. -/
theorem dropWhole_append {whole : List Char} (h : WholeText whole) (hrest : EndsDigits rest) :
    dropWhole taken (whole ++ rest) = .ok rest := by
  cases h with
  -- A zero by itself, which a digit behind it would make a mistake.
  | zero =>
    cases rest with
    | nil => rfl
    | cons c rest =>
      show (if c.isDigit then _ else _) = _
      rw [if_neg (Bool.eq_false_iff.1 (hrest c rfl))]
  | digits hdigits hhead =>
    rw [dropWhole]
    · exact dropDigits_append hdigits hrest
    · intro heq
      obtain ⟨c, digits, rfl⟩ := List.exists_cons_of_ne_nil hdigits.1
      exact hhead (congrArg List.head? heq)
    · intro c more heq
      obtain ⟨d, digits, rfl⟩ := List.exists_cons_of_ne_nil hdigits.1
      exact hhead (by simpa using congrArg List.head? heq)

/-- A fraction is taken whole, where neither a digit nor, if there is none, a point
follows. -/
theorem dropFraction_append {fraction : List Char} (h : FractionText fraction)
    (hdigits : EndsDigits rest) (hpoint : rest.head? ≠ some '.') :
    dropFraction (fraction ++ rest) = .ok rest := by
  cases h with
  | none =>
    rw [List.nil_append, dropFraction]
    intro more heq
    exact hpoint (by rw [heq]; rfl)
  | point hcs => exact dropDigits_append hcs hdigits

/-- A sign is taken off digits, which have no sign of their own. -/
theorem dropSign_append_digits {sign digits : List Char} (hsign : sign ∈ [[], ['+'], ['-']])
    (h : Digits digits) : dropSign (sign ++ digits) = digits := by
  simp only [List.mem_cons, List.not_mem_nil, or_false] at hsign
  rcases hsign with rfl | rfl | rfl
  · rw [List.nil_append, dropSign]
    · intro more heq
      exact absurd (h.2 '+' (by rw [heq]; exact List.mem_cons_self)) (by decide)
    · intro more heq
      exact absurd (h.2 '-' (by rw [heq]; exact List.mem_cons_self)) (by decide)
  · rfl
  · rfl

/-- An exponent is taken whole; it is the last part of a numeral.  Its sign and its digits
are read up to the end. -/
theorem dropExponent_self {exponent : List Char} (h : ExponentText exponent) :
    dropExponent exponent = .ok [] := by
  cases h with
  | none => rfl
  | @mark c sign digits hc hsign hcs =>
    have hdrop : dropDigits true (dropSign (sign ++ digits)) = .ok [] := by
      have hend : EndsDigits [] := by simp [EndsDigits]
      rw [dropSign_append_digits hsign hcs]
      simpa using dropDigits_append hcs hend
    rcases hc with rfl | rfl
    · exact hdrop
    · exact hdrop

/-- A minus is taken off an integer part, which does not begin with one.  Without one in
front nothing is taken off. -/
theorem dropMinus_append_whole {minus whole : List Char} (hminus : minus ∈ [[], ['-']])
    (h : WholeText whole) (rest : List Char) :
    dropMinus (minus ++ (whole ++ rest)) = whole ++ rest := by
  simp only [List.mem_cons, List.not_mem_nil, or_false] at hminus
  rcases hminus with rfl | rfl
  · rw [List.nil_append, dropMinus]
    intro more heq
    cases h with
    | zero => cases heq
    | digits hcs _ =>
      obtain ⟨c, digits, rfl⟩ := List.exists_cons_of_ne_nil hcs.1
      cases heq
      exact absurd (hcs.2 '-' List.mem_cons_self) (by decide)
  · rfl

/-- A text is taken whole exactly if it is a numeral.  From the grammar to the reader it has
to be seen that no part takes something from the next one. -/
theorem drop_eq_ok_nil_iff : drop cs = .ok [] ↔ NumeralText cs := by
  constructor
  · intro h
    obtain ⟨numeral, hnumeral, rfl⟩ := drop_eq_ok h
    rwa [List.append_nil]
  · rintro @⟨minus, whole, fraction, exponent, hminus, hwhole, hfraction, hexponent⟩
    -- No part goes on with what begins the next one.
    have hend : EndsDigits exponent ∧ exponent.head? ≠ some '.' := by
      cases hexponent with
      | none => simp [EndsDigits]
      | mark hc => rcases hc with rfl | rfl <;> simp [EndsDigits]
    have hbehind : EndsDigits (fraction ++ exponent) := by
      cases hfraction with
      | none => exact hend.1
      | point _ => simp [EndsDigits]
    rw [drop, dropMinus_append_whole hminus hwhole, dropWhole_append hwhole hbehind]
    simp only [bind, Except.bind, dropFraction_append hfraction hend.1 hend.2]
    exact dropExponent_self hexponent

end Numeral

/-- The check for a numeral agrees with the grammar. -/
theorem isNumeral_iff {cs : List Char} : isNumeral cs = true ↔ JsonText.NumeralText cs := by
  rw [← Numeral.drop_eq_ok_nil_iff, isNumeral]
  constructor
  · intro h
    split at h
    · assumption
    · cases h
  · intro h
    rw [h]

namespace Number

/-- Numbers with the same characters are the same. -/
theorem eq_of_toList_text {n n' : Number} (h : n.text.toList = n'.text.toList) : n = n' := by
  cases n
  cases n'
  simpa [String.toList_inj] using h

/-- A text is read as the number that it stands for, and no other text is read as a number.
Negative zero stands out on both sides. -/
theorem ofText?_eq_some_iff {cs : List Char} {n : Number} :
    ofText? (String.ofList cs) = some n ↔ JsonText.NumberText cs n := by
  have hzero : String.ofList cs = "-0" ↔ cs = ['-', '0'] := by
    rw [← String.toList_inj, String.toList_ofList]
    rfl
  rw [ofText?]
  constructor
  · intro h
    split at h
    -- The text is negative zero, and so the number is zero.
    next hneg =>
      cases h
      have hcs := hzero.1 hneg
      refine ⟨?_, by rw [if_pos hcs]; rfl⟩
      rw [hcs, ← isNumeral_iff]
      rfl
    next hneg =>
      split at h
      next hnumeral =>
        cases h
        rw [String.toList_ofList, isNumeral_iff] at hnumeral
        exact ⟨hnumeral, by rw [if_neg (hzero.not.1 hneg), String.toList_ofList]⟩
      · cases h
  · rintro ⟨hnumeral, htext⟩
    split
    next hneg =>
      rw [if_pos (hzero.1 hneg)] at htext
      exact congrArg some (eq_of_toList_text htext.symm)
    next hneg =>
      rw [if_neg (hzero.not.1 hneg)] at htext
      have hnumeral' : FieldMask.isNumeral (String.ofList cs).toList = true := by
        rwa [String.toList_ofList, isNumeral_iff]
      rw [dif_pos hnumeral']
      refine congrArg some (eq_of_toList_text ?_)
      rw [htext]
      exact String.toList_ofList

end Number

namespace JsonText

/-! ### The bytes of a numeral -/

/-- The bytes that a reader takes for part of a numeral. -/
theorem inNumeral_iff {b : UInt8} : JsonByte.inNumeral b = true ↔
    Char.ofUInt8 b ∈ ['-', '+', '.', 'e', 'E'] ∨ (Char.ofUInt8 b).isDigit = true := by
  rw [JsonByte.inNumeral]
  split
  all_goals simp_all

/-- Digits are characters below 128. -/
theorem toNat_lt_of_isDigit {c : Char} (h : c.isDigit = true) : c.toNat < 0x80 := by
  simp only [Char.isDigit, Bool.and_eq_true, decide_eq_true_eq] at h
  have := UInt32.le_iff_toNat_le.1 h.2
  exact Nat.lt_of_le_of_lt this (by decide)

/-- The characters that a numeral consists of: digits, a point, the marks of an exponent and
signs. -/
theorem NumeralText.mem {cs : List Char} (h : NumeralText cs) :
    ∀ c ∈ cs, c ∈ ['-', '+', '.', 'e', 'E'] ∨ c.isDigit = true := by
  obtain ⟨hminus, hwhole, hfraction, hexponent⟩ := h
  intro c hc
  simp only [List.mem_append] at hc
  -- The minus, the integer part, the fraction and the exponent.
  rcases hc with hc | hc | hc | hc
  · simp only [List.mem_cons, List.not_mem_nil, or_false] at hminus
    rcases hminus with rfl | rfl <;> simp_all
  · cases hwhole with
    | zero => simp_all
    | digits hcs _ => exact .inr (hcs.2 c hc)
  · cases hfraction with
    | none => cases hc
    | point hcs =>
      rcases List.mem_cons.1 hc with rfl | hc
      · exact .inl (by simp)
      · exact .inr (hcs.2 c hc)
  · cases hexponent with
    | none => cases hc
    | mark hmark hsign hcs =>
      simp only [List.mem_cons, List.mem_append, List.not_mem_nil, or_false] at hc hsign
      rcases hc with rfl | hc | hc
      · rcases hmark with rfl | rfl <;> simp
      · rcases hsign with rfl | rfl | rfl <;> simp_all
      · exact .inr (hcs.2 c hc)

/-- A numeral begins with a minus or a digit, which tells it from every other value.  An
integer part has a digit at least. -/
theorem head_numeralText {cs : List Char} (h : NumeralText cs) :
    ∃ c more, cs = c :: more ∧ (c = '-' ∨ c.isDigit = true) := by
  have hwhole {whole : List Char} (h : WholeText whole) :
      ∃ c more, whole = c :: more ∧ c.isDigit = true := by
    cases h with
    | zero => exact ⟨'0', [], rfl, rfl⟩
    | digits hdigits =>
      obtain ⟨c, more, rfl⟩ := List.exists_cons_of_ne_nil hdigits.1
      exact ⟨c, more, rfl, hdigits.2 c List.mem_cons_self⟩
  obtain ⟨hminus, hwhole', -, -⟩ := h
  obtain ⟨c, more, rfl, hc⟩ := hwhole hwhole'
  simp only [List.mem_cons, List.not_mem_nil, or_false] at hminus
  rcases hminus with rfl | rfl
  · exact ⟨c, _, rfl, .inr hc⟩
  · exact ⟨'-', _, rfl, .inl rfl⟩

/-- The characters of a numeral are below 128, so each of them is one byte. -/
theorem NumeralText.toNat_lt {cs : List Char} (h : NumeralText cs) : ∀ c ∈ cs, c.toNat < 0x80 := by
  intro c hc
  rcases h.mem c hc with hmem | hdigit
  · simp only [List.mem_cons, List.not_mem_nil, or_false] at hmem
    rcases hmem with rfl | rfl | rfl | rfl | rfl <;> decide
  · exact toNat_lt_of_isDigit hdigit

/-- So are the bytes that a reader takes for part of one. -/
theorem toNat_lt_of_inNumeral {b : UInt8} (h : JsonByte.inNumeral b = true) : b.toNat < 0x80 := by
  show (Char.ofUInt8 b).toNat < 0x80
  rcases inNumeral_iff.1 h with hmem | hdigit
  · simp only [List.mem_cons, List.not_mem_nil, or_false] at hmem
    rcases hmem with heq | heq | heq | heq | heq <;> rw [heq] <;> decide
  · exact toNat_lt_of_isDigit hdigit

/-- Every byte of a numeral is taken for part of one. -/
theorem NumeralText.inNumeral {cs : List Char} (h : NumeralText cs) :
    ∀ b ∈ utf8Bytes cs, JsonByte.inNumeral b = true := by
  intro b hb
  obtain ⟨c, hc, hb⟩ := List.mem_flatMap.1 hb
  rw [utf8EncodeChar_of_ascii (h.toNat_lt c hc), List.mem_singleton] at hb
  rw [inNumeral_iff, hb, ofUInt8_toUInt8 (h.toNat_lt c hc)]
  exact h.mem c hc

/-- What may stand behind a numeral: nothing that could be part of it. -/
def EndsNumeral (rest : List UInt8) : Prop :=
  ∀ b, rest.head? = some b → JsonByte.inNumeral b = false

/-- A numeral goes on as far as it can: what is taken for it is the numeral and no more, if
nothing follows that could be part of one. -/
theorem NumeralText.takeWhile {cs : List Char} {rest : List UInt8} (h : NumeralText cs)
    (hrest : EndsNumeral rest) :
    (utf8Bytes cs ++ rest).takeWhile JsonByte.inNumeral = utf8Bytes cs := by
  rw [List.takeWhile_append_of_pos h.inNumeral]
  cases rest with
  | nil => rw [List.takeWhile_nil, List.append_nil]
  | cons b rest =>
    rw [List.takeWhile_cons_of_neg (Bool.eq_false_iff.1 (hrest b rfl)), List.append_nil]

/-- The same of what is left behind it. -/
theorem NumeralText.dropWhile {cs : List Char} {rest : List UInt8} (h : NumeralText cs)
    (hrest : EndsNumeral rest) :
    (utf8Bytes cs ++ rest).dropWhile JsonByte.inNumeral = rest := by
  rw [List.dropWhile_append_of_pos h.inNumeral]
  cases rest with
  | nil => rfl
  | cons b rest => exact List.dropWhile_cons_of_neg (Bool.eq_false_iff.1 (hrest b rfl))

end JsonText

end FieldMask
