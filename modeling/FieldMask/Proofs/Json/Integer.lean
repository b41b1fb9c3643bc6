import FieldMask.Datum.Json
import FieldMask.Proofs.Json.Writer
import FieldMask.Text.Digits

namespace FieldMask

/-!
# Integers as numbers

A numeral without fraction and exponent is read as an integer and written in decimal again.  Nothing
is lost by that: such a numeral has no leading zeros, and negative zero is not among the numbers.

* `toDigits_digitsValue` — digits that do not begin with zero are those of their value.
* `JsonText.integer?_eq_some_iff` — which numerals denote an integer, and which one.
* `Number.ofInt_eq_of_integer?` — the integer that a number's text denotes is that number.
-/

/-! ### Digits -/

/-- A digit is written for its value, which is below ten. -/
theorem digitChar_of_isDigit {c : Char} (h : c.isDigit = true) :
    c.toNat - '0'.toNat < 10 ∧ (c.toNat - '0'.toNat).digitChar = c := by
  have hzero : '0'.toNat = 48 := rfl
  have hbounds : 48 ≤ c.toNat ∧ c.toNat ≤ 57 := by
    simp only [Char.isDigit, Bool.and_eq_true, decide_eq_true_eq] at h
    exact ⟨UInt32.le_iff_toNat_le.1 h.1, UInt32.le_iff_toNat_le.1 h.2⟩
  have hlt : c.toNat - '0'.toNat < 10 := by omega
  refine ⟨hlt, Char.toNat_inj.1 ?_⟩
  have hall : ∀ n < 10, n.digitChar.toNat = 48 + n := by decide
  rw [hall _ hlt]
  omega

/-- Digits that are pushed on behind a positive number stand behind its digits.  Behind zero
they would not, since a leading zero is not written. -/
theorem toDigits_foldl_pushDigit {n : Nat} {cs : List Char} (hn : 0 < n)
    (hcs : ∀ c ∈ cs, c.isDigit = true) :
    Nat.toDigits 10 (cs.foldl pushDigit n) = Nat.toDigits 10 n ++ cs := by
  induction cs generalizing n with
  | nil => rw [List.foldl_nil, List.append_nil]
  | cons c cs ih =>
    obtain ⟨hlt, hchar⟩ := digitChar_of_isDigit (hcs c List.mem_cons_self)
    have hpush : Nat.toDigits 10 (pushDigit n c) = Nat.toDigits 10 n ++ [c] := by
      rw [pushDigit, ← Nat.toDigits_append_toDigits (by decide) hn hlt,
        Nat.toDigits_of_lt_base hlt, hchar]
    have hpos : 0 < pushDigit n c := by
      rw [pushDigit]
      omega
    rw [List.foldl_cons, ih hpos fun d hd => hcs d (List.mem_cons_of_mem _ hd), hpush,
      List.append_assoc, List.singleton_append]

/-- Digits that do not begin with zero are those of their value, which is positive. -/
theorem toDigits_digitsValue {cs : List Char} (h : JsonText.Digits cs)
    (hhead : cs.head? ≠ some '0') :
    0 < digitsValue cs ∧ Nat.toDigits 10 (digitsValue cs) = cs := by
  obtain ⟨c, cs, rfl⟩ := List.exists_cons_of_ne_nil h.1
  obtain ⟨hlt, hchar⟩ := digitChar_of_isDigit (h.2 c List.mem_cons_self)
  -- The first digit is not zero, so there is a positive number before any other is pushed on.
  have hpos : 0 < pushDigit 0 c := by
    rw [pushDigit]
    by_contra hzero
    have : c.toNat - '0'.toNat = 0 := by omega
    rw [this] at hchar
    exact hhead (congrArg some hchar.symm)
  have hdigits : Nat.toDigits 10 (digitsValue (c :: cs)) = c :: cs := by
    rw [digitsValue_eq_foldl, List.foldl_cons,
      toDigits_foldl_pushDigit hpos fun d hd => h.2 d (List.mem_cons_of_mem _ hd), pushDigit,
      Nat.mul_zero, Nat.zero_add, Nat.toDigits_of_lt_base hlt, hchar]
    rfl
  refine ⟨?_, hdigits⟩
  rw [Nat.pos_iff_ne_zero]
  intro hzero
  rw [hzero] at hdigits
  cases hdigits
  exact hhead rfl

/-! ### Numerals of integers -/

namespace JsonText

/-- An integer part does not begin with a minus. -/
theorem WholeText.head?_append {whole : List Char} (h : WholeText whole) (rest : List Char) :
    (whole ++ rest).head? ≠ some '-' := by
  cases h with
  | zero => nofun
  | digits hdigits =>
    obtain ⟨c, more, rfl⟩ := List.exists_cons_of_ne_nil hdigits.1
    intro hc
    cases hc
    exact absurd (hdigits.2 '-' List.mem_cons_self) (by decide)

/-- A fraction begins with a point, so where there are digits alone there is none. -/
theorem FractionText.eq_nil {fraction : List Char} (h : FractionText fraction)
    (hall : ∀ c ∈ fraction, c.isDigit = true) : fraction = [] := by
  cases h with
  | none => rfl
  | point => exact absurd (hall '.' List.mem_cons_self) (by decide)

/-- An exponent begins with a letter, so where there are digits alone there is none. -/
theorem ExponentText.eq_nil {exponent : List Char} (h : ExponentText exponent)
    (hall : ∀ c ∈ exponent, c.isDigit = true) : exponent = [] := by
  cases h with
  | none => rfl
  | @mark c _ _ hc =>
    have hdigit := hall c List.mem_cons_self
    rcases hc with rfl | rfl <;> contradiction

/-- A numeral denotes an integer exactly if it has nothing but digits behind its sign, and
then it is the value of those digits. -/
theorem integer?_eq_some_iff {minus rest : List Char} {value : Int}
    (hminus : minus ∈ [[], ['-']]) (hrest : rest.head? ≠ some '-') :
    integer? (minus ++ rest) = some value ↔
      (∀ c ∈ rest, c.isDigit = true) ∧
        (if minus = ['-'] then -(digitsValue rest : Int) else digitsValue rest) = value := by
  simp only [List.mem_cons, List.not_mem_nil, or_false] at hminus
  rcases hminus with rfl | rfl
  · rw [List.nil_append]
    unfold integer?
    split
    · exact absurd rfl hrest
    · simp
  · rw [List.singleton_append, integer?]
    simp

/-- What stands behind the minus of a numeral, if there is one, does not begin with a minus,
and is an integer part if it has nothing but digits. -/
theorem NumeralText.exists_minus {cs : List Char} (h : NumeralText cs) :
    ∃ minus rest, minus ∈ [[], ['-']] ∧ cs = minus ++ rest ∧ rest.head? ≠ some '-' ∧
      ((∀ c ∈ rest, c.isDigit = true) → WholeText rest) := by
  obtain @⟨minus, whole, fraction, exponent, hminus, hwhole, hfraction, hexponent⟩ := h
  refine ⟨minus, whole ++ (fraction ++ exponent), hminus, rfl, hwhole.head?_append _, ?_⟩
  rw [List.forall_mem_append, List.forall_mem_append]
  rintro ⟨-, hfractionDigits, hexponentDigits⟩
  rw [hfraction.eq_nil hfractionDigits, hexponent.eq_nil hexponentDigits, List.append_nil,
    List.append_nil]
  exact hwhole

end JsonText

namespace Number

/-- A natural number is written with its digits. -/
theorem toList_text_ofNat (n : Nat) : (ofInt n).text.toList = Nat.toDigits 10 n := Nat.toList_repr

/-- A negative one has a minus before them. -/
theorem toList_text_negSucc (n : Nat) :
    (ofInt (.negSucc n)).text.toList = '-' :: Nat.toDigits 10 (n + 1) := by
  show ("-" ++ (n + 1).repr).toList = _
  rw [String.toList_append, Nat.toList_repr]
  rfl

/-- An integer part is what is written for its value, since it has no leading zeros. -/
theorem text_ofInt_ofNat {cs : List Char} (h : JsonText.WholeText cs) :
    (ofInt (digitsValue cs : Int)).text.toList = cs := by
  rw [toList_text_ofNat]
  cases h with
  | zero => rfl
  | digits hcs hhead => exact (toDigits_digitsValue hcs hhead).2

/-- The same behind a minus, unless the integer part is zero: that would lose the minus. -/
theorem text_ofInt_neg {cs : List Char} (h : JsonText.WholeText cs) (hne : cs ≠ ['0']) :
    (ofInt (-(digitsValue cs : Int))).text.toList = '-' :: cs := by
  cases h with
  | zero => exact absurd rfl hne
  | digits hcs hhead =>
    obtain ⟨hpos, hdigits⟩ := toDigits_digitsValue hcs hhead
    obtain ⟨n, hn⟩ := Nat.exists_eq_succ_of_ne_zero (Nat.pos_iff_ne_zero.1 hpos)
    rw [hn] at hdigits ⊢
    show (ofInt (.negSucc n)).text.toList = '-' :: cs
    rw [toList_text_negSucc, hdigits]

/-- The integer that a number's text denotes is written as that text, so a number survives
being read as an integer. -/
theorem ofInt_eq_of_integer? {n : Number} {value : Int}
    (h : JsonText.integer? n.text.toList = some value) : ofInt value = n := by
  apply eq_of_toList_text
  obtain ⟨minus, rest, hminus, htext, hrest, hwhole⟩ :=
    (JsonText.numberText_text n).numeral.exists_minus
  rw [htext, JsonText.integer?_eq_some_iff hminus hrest] at h
  obtain ⟨hdigits, rfl⟩ := h
  rw [htext]
  simp only [List.mem_cons, List.not_mem_nil, or_false] at hminus
  rcases hminus with rfl | rfl
  · exact text_ofInt_ofNat (hwhole hdigits)
  · -- Negative zero is the one text that would not come back, and no number has it.
    refine text_ofInt_neg (hwhole hdigits) ?_
    rintro rfl
    exact n.ne_negativeZero (String.toList_inj.1 htext)

end Number

end FieldMask
