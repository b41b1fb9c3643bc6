import FieldMask.Proofs.Binary64.Sign
import FieldMask.Proofs.Datum.Shape
import Mathlib.Tactic.FieldSimp
import Mathlib.Tactic.Linarith

namespace FieldMask

open JsonText Numeral

/-!
# Weights

A number in the structural form excludes its field if it is less than zero, as far as the reader
can tell.  An integer of 64 bits is compared as it is.  Any other numeral is rounded to a value
first, and one that is too small is rounded to a zero.

* `ExponentValue`, `FractionValue`, `NumeralValue` — the numbers that a numeral and its parts
  denote.
* `NumeralValue.exists_read` — which numerals are read as values less than zero.
* `NumeralValue.eq_of_integer?` — the integers among them.
* `NumeralValue.ofDatum` — the decision that a numeral stands for.
* `ofJson_weight` — the mask of an object with one number in it.
-/

/-! ### Numerals and numbers -/

/-- An exponent and the integer that it denotes.  The mark may be of either case, and the
sign may be left out. -/
inductive ExponentValue : List Char → ℤ → Prop where
  | none : ExponentValue [] 0
  | mark {c : Char} {sign digits : List Char} (hc : c = 'e' ∨ c = 'E')
      (hsign : sign ∈ [[], ['+'], ['-']]) (hdigits : Digits digits) :
      ExponentValue (c :: (sign ++ digits))
        (if sign = ['-'] then -digitsValue digits else digitsValue digits)

/-- A fraction and the number that it denotes. -/
inductive FractionValue : List Char → ℚ → Prop where
  | none : FractionValue [] 0
  | point {digits : List Char} (hdigits : Digits digits) :
      FractionValue ('.' :: digits) (digitsValue digits / 10 ^ digits.length)

/-- A numeral and the number that it denotes: what stands around the point, times ten to the
exponent, behind the sign. -/
inductive NumeralValue : List Char → ℚ → Prop where
  | mk {minus whole fraction exponent : List Char} {part : ℚ} {e : ℤ}
      (hminus : minus ∈ [[], ['-']]) (hwhole : WholeText whole)
      (hfraction : FractionValue fraction part) (hexponent : ExponentValue exponent e) :
      NumeralValue (minus ++ (whole ++ (fraction ++ exponent)))
        ((if minus = ['-'] then -1 else 1) * ((digitsValue whole + part) * 10 ^ e))

variable {cs exponent fraction : List Char} {value part : ℚ} {e : ℤ}

/-- Only an exponent of the grammar denotes an integer. -/
theorem ExponentValue.exponentText (h : ExponentValue exponent e) : ExponentText exponent := by
  cases h with
  | none => exact .none
  | mark hc hsign hdigits => exact .mark hc hsign hdigits

/-- Only a fraction of the grammar denotes a number. -/
theorem FractionValue.fractionText (h : FractionValue fraction part) : FractionText fraction := by
  cases h with
  | none => exact .none
  | point hdigits => exact .point hdigits

/-- Only a numeral of the grammar denotes a number. -/
theorem NumeralValue.numeralText (h : NumeralValue cs value) : NumeralText cs := by
  obtain ⟨hminus, hwhole, hfraction, hexponent⟩ := h
  exact .mk hminus hwhole hfraction.fractionText hexponent.exponentText

/-- A numeral denotes a number.  Its parts denote their numbers, and the number of the whole
is made of them. -/
theorem JsonText.NumeralText.exists_value (h : NumeralText cs) :
    ∃ value, NumeralValue cs value := by
  obtain @⟨minus, whole, fraction, exponent, hminus, hwhole, hfraction, hexponent⟩ := h
  obtain ⟨part, hpart⟩ : ∃ part, FractionValue fraction part := by
    cases hfraction with
    | none => exact ⟨_, .none⟩
    | point hdigits => exact ⟨_, .point hdigits⟩
  obtain ⟨e, he⟩ : ∃ e, ExponentValue exponent e := by
    cases hexponent with
    | none => exact ⟨_, .none⟩
    | mark hc hsign hdigits => exact ⟨_, .mark hc hsign hdigits⟩
  exact ⟨_, .mk hminus hwhole hpart he⟩

/-- A numeral stands for a number of a document. -/
theorem JsonText.NumeralText.exists_number (h : NumeralText cs) : ∃ n, NumberText cs n := by
  by_cases hzero : cs = ['-', '0']
  · exact ⟨.zero, h, by rw [if_pos hzero]; rfl⟩
  · have hlist : (String.ofList cs).toList = cs := String.toList_ofList
    have hne : String.ofList cs ≠ "-0" := by
      intro heq
      rw [heq] at hlist
      exact hzero hlist.symm
    exact ⟨⟨String.ofList cs, by rwa [hlist, isNumeral_iff], hne⟩, h, by rw [if_neg hzero, hlist]⟩

/-! ### Rounding -/

/-- The exponent that is read is the one that is denoted.  Without a sign the digits begin
at once, and a digit is taken for no sign. -/
theorem ExponentValue.readExponent (h : ExponentValue exponent e) :
    Binary64.readExponent exponent = some e := by
  cases h with
  | none => rfl
  | @mark c sign digits hc hsign hdigits =>
    have hread : Binary64.readSign (sign ++ digits) = (sign == ['-'], digits) := by
      obtain ⟨d, more, rfl⟩ := List.exists_cons_of_ne_nil hdigits.1
      have hd := hdigits.2 d List.mem_cons_self
      simp only [List.mem_cons, List.not_mem_nil, or_false] at hsign
      rcases hsign with rfl | rfl | rfl
      · exact Binary64.readSign_of_isDigit hd more
      · rfl
      · rfl
    have hall : digits.all Char.isDigit = true := List.all_eq_true.2 hdigits.2
    rw [Binary64.readExponent, if_pos hc, hread]
    dsimp only
    rw [if_neg (by simp [hdigits.1, hall])]
    simp only [beq_iff_eq]

/-- The point moves behind the digits of the fraction when the exponent is less by their number. -/
theorem FractionValue.digitsValue_mul (h : FractionValue fraction part) (whole : List Char) :
    (digitsValue (whole ++ fraction.drop 1) : ℚ) * 10 ^ (e - (fraction.drop 1).length) =
      (digitsValue whole + part) * 10 ^ e := by
  cases h with
  | none => simp
  | @point digits =>
    have hten : (10 : ℚ) ^ digits.length ≠ 0 := pow_ne_zero _ (by norm_num)
    show (digitsValue (whole ++ digits) : ℚ) * 10 ^ (e - digits.length) = _
    rw [digitsValue_append, zpow_sub₀ (by norm_num), zpow_natCast, Nat.pow_eq]
    push_cast
    field_simp

/-- **Which numerals are read as values less than zero**: those of numbers that are less
than zero by more than one half of the smallest size.  A numeral without a minus is read as
a value that is not negative; with one it is negative unless its size is rounded to zero. -/
theorem NumeralValue.exists_read (h : NumeralValue cs value) :
    ∃ x, Binary64.read (String.ofList cs) = .ok x ∧
      (x.isNegative = true ↔ value < -Binary64.halfUnit) := by
  obtain @⟨minus, whole, fraction, exponent, part, e, hminus, hwhole, hfraction, hexponent⟩ := h
  obtain ⟨e', he', hread⟩ := Binary64.read_of_numeral hminus hwhole hfraction.fractionText
    hexponent.exponentText
  obtain rfl : e = e' := Option.some.inj (hexponent.readExponent.symm.trans he')
  refine ⟨_, hread, ?_⟩
  rw [← hfraction.digitsValue_mul whole]
  generalize digitsValue (whole ++ fraction.drop 1) = digits
  generalize e - ((fraction.drop 1).length : ℤ) = shifted
  have hsize : (0 : ℚ) ≤ digits * 10 ^ shifted := by positivity
  simp only [List.mem_cons, List.not_mem_nil, or_false] at hminus
  -- Without a minus neither side can hold; with one, both speak of the size behind it.
  rcases hminus with rfl | rfl
  · have hzero := Binary64.halfUnit_pos
    refine iff_of_false ?_ ?_
    · intro hnegative
      cases Binary64.isNegative_ofDecimal hnegative
    · rw [if_neg (by simp)]
      linarith
  · show (Binary64.ofDecimal true digits shifted).isNegative = true ↔ _
    rw [Binary64.isNegative_ofDecimal_iff, if_pos rfl, neg_one_mul, neg_lt_neg_iff]

/-! ### Integers -/

/-- An integer that a numeral denotes without fraction and exponent is its number.  Then it
has no fraction and no exponent, since a point and a mark are no digits. -/
theorem NumeralValue.eq_of_integer? (h : NumeralValue cs value) {n : ℤ}
    (hn : integer? cs = some n) : value = n := by
  obtain @⟨minus, whole, fraction, exponent, part, e, hminus, hwhole, hfraction, hexponent⟩ := h
  rw [integer?_eq_some_iff hminus (hwhole.head?_append _), List.forall_mem_append,
    List.forall_mem_append] at hn
  obtain ⟨⟨-, hfractionDigits, hexponentDigits⟩, rfl⟩ := hn
  obtain rfl := hfraction.fractionText.eq_nil hfractionDigits
  obtain rfl := hexponent.exponentText.eq_nil hexponentDigits
  cases hfraction with
  | none =>
    cases hexponent with
    | none => split <;> simp

/-! ### Decisions -/

/-- **A numeral excludes its field** if its number is less than zero by more than one half
of the smallest size of a value.  An integer of 64 bits is compared as it is, and below zero
it is at most minus one, which is below the bound; any other numeral is compared as the
value that it is rounded to. -/
theorem NumeralValue.ofDatum (h : NumeralValue cs value) :
    Node.ofDatum .json (ofNumeral cs) =
      .ok ⟨if value < -Binary64.halfUnit then .excluded else .included, none⟩ := by
  have hdecimal : Node.ofDecimal (String.ofList cs) =
      .ok ⟨if value < -Binary64.halfUnit then .excluded else .included, none⟩ := by
    obtain ⟨x, hread, hnegative⟩ := h.exists_read
    rw [Node.ofDecimal, hread]
    simp only [Node.ofSign, hnegative]
  rw [ofNumeral]
  split
  next n hn =>
    split
    · have hvalue := h.eq_of_integer? hn
      have hsign : n < 0 ↔ value < -Binary64.halfUnit := by
        have hpos := Binary64.halfUnit_pos
        have hone := Binary64.halfUnit_lt_one
        rw [hvalue]
        constructor
        · intro hneg
          have : (n : ℚ) ≤ -1 := by exact_mod_cast Int.le_sub_one_of_lt hneg
          linarith
        · intro hneg
          have : (n : ℚ) < 0 := by linarith
          exact_mod_cast this
      simp only [Node.ofDatum, Node.ofSign, hsign, decide_eq_true_eq]
    · exact hdecimal
  · exact hdecimal

/-- The text of an object with one number in it. -/
def weightText (name : String) (cs : List Char) : List UInt8 :=
  utf8Bytes ('{' :: (Quoted.encode name ++ ':' :: ' ' :: (cs ++ ['}'])))

/-- The text of an object with one number denotes that object. -/
theorem denotes_weightText (name : String) {n : Number} (h : NumberText cs n) :
    Denotes (weightText name cs) (.object [(name, .scalar (.number n))]) := by
  -- From the inside out: the number, the space in front of it, and the member with its name.
  have hvalue : ValueText (utf8Bytes (cs ++ ['}'])) (.scalar (.number n)) (utf8Bytes ['}']) := by
    rw [utf8Bytes_append]
    exact .scalar (.number h)
  have hspace : Spaces (utf8Bytes (' ' :: (cs ++ ['}']))) (utf8Bytes (cs ++ ['}'])) :=
    ⟨[0x20], rfl, by simp⟩
  have hmember : MemberText (utf8Bytes (Quoted.encode name ++ ':' :: ' ' :: (cs ++ ['}']))) name
      (.scalar (.number n)) (utf8Bytes ['}']) := by
    rw [utf8Bytes_append]
    exact .mk (literalText_encode name _) (.refl _) hspace hvalue
  exact .mk (.refl _) (.object (.some (.refl _) hmember (.none (.refl _)))) (.refl [])

/-- The mask of such an object has one plain field.  The text denotes that object, and
reading puts its one entry into an empty mask. -/
theorem NumeralValue.exists_mask (h : NumeralValue cs value) (name : String) :
    ∃ mask, Mask.ofJson (weightText name cs) = .ok mask ∧
      mask.fields =
        .leaf name (if value < -Binary64.halfUnit then .excluded else .included) .nil := by
  obtain ⟨n, hn⟩ := h.numeralText.exists_number
  have hnode := h.ofDatum
  rw [ofNumeral_of_numberText hn] at hnode
  generalize (if value < -Binary64.halfUnit then Polarity.excluded else .included) = polarity
    at hnode ⊢
  have hdepth : (Doc.object [(name, .scalar (.number n))]).depth ≤ maxDepth :=
    show 1 ≤ 127 by decide
  refine ⟨Mask.empty.put name ⟨polarity, none⟩, ?_, rfl⟩
  refine (ofJson_eq_ok_iff (denotes_weightText name hn) hdepth _).2 ⟨_, rfl, ?_⟩
  rw [seenEntries, seen, seenScalar, Mask.ofEntries, hnode]
  rfl

/-- **A number excludes its field if it is less than zero**, unless it is too small for a value.  A
mask is read of an object with one number in it, whatever the numeral.  Its field is plain, and it
is excluded exactly if the number that the numeral denotes is below zero by more than one half of
the smallest size. -/
theorem ofJson_weight (name : String) (cs : List Char) (h : NumeralText cs) :
    (∃ value, NumeralValue cs value) ∧
      ∀ value, NumeralValue cs value →
        ∃ mask, Mask.ofJson (weightText name cs) = .ok mask ∧
          mask.fields =
            .leaf name (if value < -Binary64.halfUnit then .excluded else .included) .nil :=
  ⟨h.exists_value, fun _ hvalue => hvalue.exists_mask name⟩

/-- A negative integer of more than 64 bits excludes its field. -/
theorem ofJson_weight_wide :
    NumeralText "-18446744073709551616".toList ∧
      ∃ mask, Mask.ofJson "\x7b\"f\": -18446744073709551616\x7d".toUTF8.toList = .ok mask ∧
        mask.fields = .leaf "f" .excluded .nil := by
  have hnumeral : NumeralText "-18446744073709551616".toList := isNumeral_iff.1 rfl
  obtain ⟨⟨value, hvalue⟩, hmask⟩ := ofJson_weight "f" _ hnumeral
  obtain ⟨mask, hread, hfields⟩ := hmask value hvalue
  have hinteger : integer? "-18446744073709551616".toList = some (-18446744073709551616) := rfl
  -- The integer is far below the bound, which is more than minus one.
  have hnegative : value < -Binary64.halfUnit := by
    have hone := Binary64.halfUnit_lt_one
    have heq := hvalue.eq_of_integer? hinteger
    push_cast at heq
    linarith
  have hbytes : "\x7b\"f\": -18446744073709551616\x7d".toUTF8.toList =
      weightText "f" "-18446744073709551616".toList := by
    rw [toList_toUTF8]
    rfl
  rw [if_pos hnegative] at hfields
  exact ⟨hnumeral, mask, by rw [hbytes, hread], hfields⟩

/-- A number that is less than zero, but too small for a value, does not exclude its field. -/
theorem ofJson_weight_underflow :
    ∃ value < 0, NumeralValue "-1e-400".toList value ∧
      ∃ mask, Mask.ofJson "\x7b\"f\": -1e-400\x7d".toUTF8.toList = .ok mask ∧
        mask.fields = .leaf "f" .included .nil := by
  have hdigits (c : Char) (cs : List Char) (h : (c :: cs).all Char.isDigit = true) :
      Digits (c :: cs) := ⟨List.cons_ne_nil c cs, List.all_eq_true.1 h⟩
  -- The numeral has no fraction, so its number is minus one times the power.
  have hvalue : NumeralValue "-1e-400".toList (-10 ^ (-400 : ℤ)) := by
    have hminus : ['-'] ∈ [[], ['-']] := by decide
    have hsign : ['-'] ∈ [[], ['+'], ['-']] := by decide
    have h := NumeralValue.mk hminus (.digits (hdigits '1' [] rfl) (by decide)) .none
      (.mark (.inl rfl) hsign (hdigits '4' ['0', '0'] rfl))
    have hone : digitsValue ['1'] = 1 := rfl
    have hexponent : digitsValue ['4', '0', '0'] = 400 := rfl
    rw [if_pos rfl, if_pos rfl, hone, hexponent, Nat.cast_one, add_zero, one_mul,
      neg_one_mul] at h
    exact h
  have hsmall : ¬(-10 ^ (-400 : ℤ) : ℚ) < -Binary64.halfUnit := by
    rw [neg_lt_neg_iff, not_lt]
    exact Binary64.ten_zpow_le_halfUnit (le_refl _)
  have hbytes : "\x7b\"f\": -1e-400\x7d".toUTF8.toList = weightText "f" "-1e-400".toList := by
    rw [toList_toUTF8]
    rfl
  obtain ⟨mask, hread, hfields⟩ := hvalue.exists_mask "f"
  rw [if_neg hsmall] at hfields
  refine ⟨_, ?_, hvalue, mask, by rw [hbytes, hread], hfields⟩
  rw [neg_lt_zero]
  positivity

end FieldMask
