import FieldMask.Datum.Document
import FieldMask.Proofs.Json.Integer

namespace FieldMask

open JsonText

/-!
# Numbers as data

A number is handed over by its size and by the way it is written, and by different rules from a text
and from a document in memory.

* `digitsValue_toDigits` — the digits of a number denote it; `Number.integer?_text_ofInt` — and so
  does the text of an integer.
* `IsWord`, `IsDoubleWord` — the sizes that the rules tell apart.
* `JsonText.ofNumeral_ofInt`, `Datum.ofNumber_ofInt` — an integer, from a text and from a document.
* `JsonText.ofNumeral_of_none`, `Datum.ofNumber_of_none` — any other number.
* `Number.Wide` — the numbers that a document hands over as integers of more than 64 bits.
* `Datum.ofNumber_cases`, `Datum.ofFloat_cases` — all that a document hands over.
-/

/-! ### Integers and their texts -/

/-- A digit that is written is read with its own value. -/
theorem pushDigit_digitChar {n d : Nat} (h : d < 10) : pushDigit n d.digitChar = 10 * n + d := by
  have hall : ∀ d < 10, d.digitChar.toNat - '0'.toNat = d := by decide
  rw [pushDigit, hall d h]

/-- The digits of a number denote it.  By induction on the number: the last digit is what
remains of it, and those in front denote the rest. -/
theorem digitsValue_toDigits (n : Nat) : digitsValue (Nat.toDigits 10 n) = n := by
  rw [digitsValue_eq_foldl]
  induction n using Nat.strongRecOn with
  | ind n ih =>
    rw [Nat.toDigits_eq_if (by decide)]
    split
    next hlt =>
      rw [List.foldl_cons, List.foldl_nil, pushDigit_digitChar hlt]
      omega
    next hge =>
      rw [List.foldl_append, ih (n / 10) (by omega), List.foldl_cons, List.foldl_nil,
        pushDigit_digitChar (Nat.mod_lt n (by decide))]
      omega

namespace Number

/-- The digits of a number are digits. -/
theorem all_isDigit_toDigits (n : Nat) : (Nat.toDigits 10 n).all Char.isDigit = true :=
  List.all_eq_true.2 fun _ hc => Nat.isDigit_of_mem_toDigits (by decide) (by decide) hc

/-- The digits of a number begin with no minus. -/
theorem head?_toDigits_ne_minus (n : Nat) : (Nat.toDigits 10 n).head? ≠ some '-' := by
  intro h
  have hminus := List.mem_of_mem_head? h
  exact absurd (List.all_eq_true.1 (all_isDigit_toDigits n) '-' hminus) (by decide)

/-- The text of an integer begins with a minus if it is negative, and only then. -/
theorem head?_text_ofInt_iff {value : Int} :
    (ofInt value).text.toList.head? = some '-' ↔ value < 0 := by
  cases value with
  | ofNat n =>
    rw [Int.ofNat_eq_natCast, toList_text_ofNat]
    exact iff_of_false (head?_toDigits_ne_minus n) (by omega)
  | negSucc n =>
    rw [toList_text_negSucc]
    exact iff_of_true rfl (Int.negSucc_lt_zero n)

/-- The text of an integer denotes it.  A minus is read as the sign and digits as the size,
so no two integers share a text. -/
theorem integer?_text_ofInt (value : Int) : integer? (ofInt value).text.toList = some value := by
  cases value with
  | ofNat n =>
    have hminus := head?_toDigits_ne_minus n
    rw [Int.ofNat_eq_natCast, toList_text_ofNat]
    unfold integer?
    split
    next heq => exact absurd (congrArg List.head? heq) hminus
    next => rw [if_pos (all_isDigit_toDigits n), digitsValue_toDigits]
  | negSucc n =>
    rw [toList_text_negSucc, integer?, if_pos (all_isDigit_toDigits (n + 1)), digitsValue_toDigits]
    rfl

/-- Integers of one number are the same. -/
theorem ofInt_injective {value value' : Int} (h : ofInt value = ofInt value') : value = value' := by
  have hvalue := integer?_text_ofInt value
  rw [h, integer?_text_ofInt] at hvalue
  exact (Option.some.inj hvalue).symm

/-- A number whose text denotes no integer is not that of one. -/
theorem ne_ofInt_of_none {n : Number} (h : integer? n.text.toList = none) (value : Int) :
    n ≠ ofInt value := by
  rintro rfl
  rw [integer?_text_ofInt] at h
  cases h

/-- A number is an integer, or its text denotes none. -/
theorem exists_eq_ofInt_or (n : Number) :
    (∃ value, n = ofInt value) ∨ integer? n.text.toList = none := by
  cases h : integer? n.text.toList with
  | none => exact .inr rfl
  | some value => exact .inl ⟨value, (ofInt_eq_of_integer? h).symm⟩

end Number

/-! ### Sizes -/

/-- An integer of 64 bits, with or without a sign. -/
def IsWord (value : Int) : Prop := -(Nat.pow 2 63 : Int) ≤ value ∧ value < (Nat.pow 2 64 : Int)

instance (value : Int) : Decidable (IsWord value) := inferInstanceAs (Decidable (_ ∧ _))

/-- An integer of 128 bits, with or without a sign. -/
def IsDoubleWord (value : Int) : Prop :=
  -(Nat.pow 2 127 : Int) ≤ value ∧ value < (Nat.pow 2 128 : Int)

instance (value : Int) : Decidable (IsDoubleWord value) := inferInstanceAs (Decidable (_ ∧ _))

/-- An integer of 64 bits is one of 128 bits. -/
theorem IsWord.isDoubleWord {value : Int} (h : IsWord value) : IsDoubleWord value := by
  have hlow : (Nat.pow 2 63 : Int) ≤ Nat.pow 2 127 := by decide
  have hhigh : (Nat.pow 2 64 : Int) ≤ Nat.pow 2 128 := by decide
  -- The powers stay closed terms: only how they compare is used.
  unfold IsWord at h
  unfold IsDoubleWord
  omega

/-- An integer of more than 64 bits, but no more than 128. -/
def Number.Wide (n : Number) : Prop :=
  ∃ value, n = .ofInt value ∧ ¬IsWord value ∧ IsDoubleWord value

/-- For the number of an integer, to be wide is a matter of the integer's size. -/
theorem Number.wide_ofInt {value : Int} :
    (ofInt value).Wide ↔ ¬IsWord value ∧ IsDoubleWord value := by
  constructor
  · rintro ⟨other, heq, hwide⟩
    rwa [ofInt_injective heq]
  · intro hwide
    exact ⟨value, rfl, hwide⟩

/-- A number that is no integer is not wide. -/
theorem Number.not_wide_of_none {n : Number} (h : integer? n.text.toList = none) : ¬n.Wide := by
  rintro ⟨value, heq, -⟩
  exact ne_ofInt_of_none h value heq

/-! ### From a text -/

/-- An integer is seen in a text as such if it has no more than 64 bits.  A minus in the
text tells which of the two ranges of 64 bits it has to fit into. -/
theorem JsonText.ofNumeral_ofInt (value : Int) :
    ofNumeral (Number.ofInt value).text.toList =
      if IsWord value then .integer value else .numeral (Number.ofInt value).text := by
  have hminus : ((Number.ofInt value).text.toList.head? == some '-') = decide (value < 0) := by
    rw [Bool.eq_iff_iff, beq_iff_eq, decide_eq_true_iff]
    exact Number.head?_text_ofInt_iff
  have hfits : fitsWord value (decide (value < 0)) = true ↔ IsWord value := by
    have hlow : 0 < (Nat.pow 2 63 : Int) := by decide
    have hhigh : 0 < (Nat.pow 2 64 : Int) := by decide
    by_cases hneg : value < 0
    · simp only [fitsWord, hneg, decide_true, if_true, decide_eq_true_eq, IsWord]
      omega
    · simp only [fitsWord, hneg, decide_false, Bool.false_eq_true, if_false, decide_eq_true_eq,
        IsWord]
      omega
  rw [ofNumeral, Number.integer?_text_ofInt, hminus, String.ofList_toList]
  exact if_congr hfits rfl rfl

/-- A number that is no integer is seen in a text as its text. -/
theorem JsonText.ofNumeral_of_none {n : Number} (h : integer? n.text.toList = none) :
    ofNumeral n.text.toList = .numeral n.text := by
  rw [ofNumeral, h, String.ofList_toList]

/-! ### From a document -/

namespace Datum

/-- An integer of a document is handed over as such if it has no more than 128 bits. -/
theorem ofNumber_ofInt (value : Int) :
    ofNumber (.ofInt value) =
      if IsWord value then .integer value
      else if IsDoubleWord value then .wide value
      else ofNumber.ofFloat (.ofInt value) := by
  rw [ofNumber, Number.integer?_text_ofInt]
  rfl

/-- A number of a document that is no integer is handed over as a value, or as its text. -/
theorem ofNumber_of_none {n : Number} (h : integer? n.text.toList = none) :
    ofNumber n = ofNumber.ofFloat n := by
  rw [ofNumber, h]

/-- An integer of up to 128 bits is handed over as such, and no other number is.  The two
cases exclude each other. -/
theorem ofNumber_cases (n : Number) :
    (∃ value, n = .ofInt value ∧ IsDoubleWord value ∧
      ofNumber n = if IsWord value then .integer value else .wide value) ∨
    ((∀ value, n = .ofInt value → ¬IsDoubleWord value) ∧
      ofNumber n = ofNumber.ofFloat n) := by
  rcases n.exists_eq_ofInt_or with ⟨value, rfl⟩ | hnone
  · rw [ofNumber_ofInt]
    by_cases hdouble : IsDoubleWord value
    · exact .inl ⟨value, rfl, hdouble, by rw [if_pos hdouble]⟩
    · refine .inr ⟨?_, ?_⟩
      · intro other heq
        rwa [← Number.ofInt_injective heq]
      · rw [if_neg fun hword => hdouble hword.isDoubleWord, if_neg hdouble]
  · exact .inr ⟨fun value heq => absurd heq (Number.ne_ofInt_of_none hnone value),
      ofNumber_of_none hnone⟩

/-- A number is handed over as a value exactly if it is written like one.  Such a text is
the value's canonical one or the one without an exponent; any other number is handed over as
its text. -/
theorem ofFloat_cases (n : Number) :
    (ofNumber.ofFloat n = .numeral n.text ∧
        ∀ x, Binary64.read n.text = .ok x → x.isFinite = true → x.plainText ≠ n.text) ∨
      ∃ x, ofNumber.ofFloat n = .float x ∧ Binary64.read n.text = .ok x ∧
        x.isFinite = true ∧ (x.canonicalText = n.text ∨ x.plainText = n.text) := by
  rw [ofNumber.ofFloat]
  cases hread : Binary64.read n.text with
  | error fault => exact .inl ⟨rfl, nofun⟩
  | ok x =>
    dsimp only
    split
    next hvalue =>
      rw [Bool.and_eq_true, Bool.or_eq_true, beq_iff_eq, beq_iff_eq] at hvalue
      exact .inr ⟨x, rfl, rfl, hvalue.1, hvalue.2⟩
    next hvalue =>
      refine .inl ⟨rfl, ?_⟩
      rintro _ ⟨⟩ hfinite hplain
      simp [hfinite, hplain] at hvalue

end Datum

end FieldMask
