import FieldMask.Binary64.Text
import FieldMask.Proofs.Json.Numeral

namespace FieldMask

open JsonText Numeral

/-!
# Numerals are decimals

A numeral of JSON is one of the texts that stand for a floating-point value, so reading a value from
it never fails.

* `Binary64.readPlaces_of_numeral` — the places of a numeral.
* `Binary64.exists_readExponent` — its exponent.
* `Binary64.read_of_numeral` — the value that is read, from the parts of the numeral.
* `Binary64.ofRatio_eq` — how a quotient is rounded; `Binary64.isNegative_ofDecimal` — rounding
  changes no sign.
* `Binary64.exists_read_of_numeralText` — a numeral has a value, negative only behind a minus.
-/

/-- An integer part is a run of digits, whichever way it begins. -/
theorem JsonText.WholeText.isDigits {cs : List Char} (h : WholeText cs) : Digits cs := by
  cases h with
  | zero => exact ⟨List.cons_ne_nil _ _, by simp⟩
  | digits hcs _ => exact hcs

namespace Binary64

variable {minus whole fraction exponent : List Char}

/-- Digits go on as far as they can: a run of them ends where what follows begins. -/
theorem span_digits {digits rest : List Char} (hdigits : Digits digits) (hrest : EndsDigits rest) :
    (digits ++ rest).takeWhile Char.isDigit = digits ∧
      (digits ++ rest).dropWhile Char.isDigit = rest := by
  rw [List.takeWhile_append_of_pos hdigits.2, List.dropWhile_append_of_pos hdigits.2]
  cases rest with
  | nil => exact ⟨List.append_nil digits, rfl⟩
  | cons c rest =>
    have hc := Bool.eq_false_iff.1 (hrest c rfl)
    rw [List.takeWhile_cons_of_neg hc, List.dropWhile_cons_of_neg hc, List.append_nil]
    exact ⟨rfl, rfl⟩

/-- An exponent begins with its mark, so neither a digit nor a point is taken from it. -/
theorem endsDigits_exponent (h : ExponentText exponent) :
    EndsDigits exponent ∧ exponent.head? ≠ some '.' := by
  cases h with
  | none => simp [EndsDigits]
  | mark hc => rcases hc with rfl | rfl <;> simp [EndsDigits]

/-- The places of a numeral are the digits around its point, and as many of them stand
behind it as the fraction has. -/
theorem readPlaces_of_numeral (hwhole : WholeText whole) (hfraction : FractionText fraction)
    (hexponent : ExponentText exponent) :
    readPlaces (whole ++ (fraction ++ exponent)) =
      (whole ++ fraction.drop 1, (fraction.drop 1).length, exponent) := by
  obtain ⟨hends, hpoint⟩ := endsDigits_exponent hexponent
  rw [readPlaces]
  cases hfraction with
  | none =>
    obtain ⟨htake, hdrop⟩ := span_digits hwhole.isDigits hends
    rw [List.nil_append, htake, hdrop, List.drop_nil, List.append_nil]
    -- Without a fraction no point follows the digits.
    split
    next rest => exact absurd rfl hpoint
    next => rfl
  | @point digits hdigits =>
    have hends' : EndsDigits ('.' :: digits ++ exponent) := by simp [EndsDigits]
    obtain ⟨htake, hdrop⟩ := span_digits hwhole.isDigits hends'
    obtain ⟨htake', hdrop'⟩ := span_digits hdigits hends
    rw [htake, hdrop]
    show (_ ++ (digits ++ exponent).takeWhile Char.isDigit,
      ((digits ++ exponent).takeWhile Char.isDigit).length,
      (digits ++ exponent).dropWhile Char.isDigit) = _
    rw [htake', hdrop']
    rfl

/-- A digit is no sign. -/
theorem readSign_of_isDigit {c : Char} (hc : c.isDigit = true) (more : List Char) :
    readSign (c :: more) = (false, c :: more) := by
  unfold readSign
  split
  next heq =>
    cases heq
    contradiction
  next heq =>
    cases heq
    contradiction
  next => rfl

/-- The exponent of a numeral is read: behind its mark and its sign there are digits
alone. -/
theorem exists_readExponent (h : ExponentText exponent) : ∃ e, readExponent exponent = some e := by
  cases h with
  | none => exact ⟨0, rfl⟩
  | @mark c sign digits hc hsign hdigits =>
    have hread : ∃ negative, readSign (sign ++ digits) = (negative, digits) := by
      obtain ⟨d, more, rfl⟩ := List.exists_cons_of_ne_nil hdigits.1
      simp only [List.mem_cons, List.not_mem_nil, or_false] at hsign
      rcases hsign with rfl | rfl | rfl
      · exact ⟨false, readSign_of_isDigit (hdigits.2 d List.mem_cons_self) more⟩
      · exact ⟨false, rfl⟩
      · exact ⟨true, rfl⟩
    obtain ⟨negative, hread⟩ := hread
    have hall : digits.all Char.isDigit = true := List.all_eq_true.2 hdigits.2
    rw [readExponent, if_pos hc, hread]
    dsimp only
    rw [if_neg (by simp [hdigits.1, hall])]
    exact ⟨_, rfl⟩

/-- A digit has no capital form. -/
theorem toLower_of_isDigit {c : Char} (h : c.isDigit = true) : c.toLower = c := by
  simp only [Char.isDigit, Bool.and_eq_true, decide_eq_true_eq] at h
  refine dif_neg ?_
  rintro ⟨hupper, -⟩
  exact absurd (UInt32.le_trans hupper h.2) (by decide)

/-- A text that begins with a digit is none of the words for special values. -/
theorem ofList_map_toLower_ne {c d : Char} (hc : c.isDigit = true) (hd : d.isDigit = false)
    (more word : List Char) :
    String.ofList ((c :: more).map Char.toLower) ≠ String.ofList (d :: word) := by
  intro h
  have hlist := congrArg String.toList h
  rw [String.toList_ofList, String.toList_ofList, List.map_cons, toLower_of_isDigit hc] at hlist
  obtain ⟨rfl, -⟩ := List.cons.inj hlist
  rw [hc] at hd
  cases hd

/-- A text that begins with a digit is read by its places and its exponent; the words for
special values begin with letters. -/
theorem readUnsigned_of_digits {cs digits rest : List Char} {behind : Nat} {e : Int}
    (hhead : ∃ c more, cs = c :: more ∧ c.isDigit = true)
    (hplaces : readPlaces cs = (digits, behind, rest)) (hdigits : digits ≠ [])
    (hexponent : readExponent rest = some e) (negative : Bool) :
    readUnsigned negative cs =
      some (ofDecimal negative (digitsValue digits) (e - behind)) := by
  obtain ⟨c, more, rfl, hc⟩ := hhead
  have hinf : ¬(String.ofList ((c :: more).map Char.toLower) = "inf" ∨
      String.ofList ((c :: more).map Char.toLower) = "infinity") :=
    not_or.2 ⟨ofList_map_toLower_ne hc (by decide) more "nf".toList,
      ofList_map_toLower_ne hc (by decide) more "nfinity".toList⟩
  have hnan : String.ofList ((c :: more).map Char.toLower) ≠ "nan" :=
    ofList_map_toLower_ne hc (by decide) more "an".toList
  rw [readUnsigned, if_neg hinf, if_neg hnan, hplaces]
  dsimp only
  rw [if_neg hdigits, hexponent]
  rfl

/-- **A numeral is read as the decimal of its parts**, rounded to a value.  Its digits are
those before and behind the point, and its exponent counts the latter off. -/
theorem read_of_numeral (hminus : minus ∈ [[], ['-']]) (hwhole : WholeText whole)
    (hfraction : FractionText fraction) (hexponent : ExponentText exponent) :
    ∃ e, readExponent exponent = some e ∧
      read (String.ofList (minus ++ (whole ++ (fraction ++ exponent)))) =
        .ok (ofDecimal (minus == ['-']) (digitsValue (whole ++ fraction.drop 1))
          (e - (fraction.drop 1).length)) := by
  obtain ⟨e, he⟩ := exists_readExponent hexponent
  refine ⟨e, he, ?_⟩
  obtain ⟨c, more, rfl⟩ := List.exists_cons_of_ne_nil hwhole.isDigits.1
  have hc := hwhole.isDigits.2 c List.mem_cons_self
  have hhead : ∃ d digits, c :: more ++ (fraction ++ exponent) = d :: digits ∧
      d.isDigit = true := ⟨c, more ++ (fraction ++ exponent), rfl, hc⟩
  have hunsigned := readUnsigned_of_digits hhead
    (readPlaces_of_numeral hwhole hfraction hexponent) (List.cons_ne_nil _ _) he
  -- The sign is a minus, or the first digit is no sign.
  have hsign : readSign (minus ++ (c :: more ++ (fraction ++ exponent))) =
      (minus == ['-'], c :: more ++ (fraction ++ exponent)) := by
    simp only [List.mem_cons, List.not_mem_nil, or_false] at hminus
    rcases hminus with rfl | rfl
    · exact readSign_of_isDigit hc (more ++ (fraction ++ exponent))
    · rfl
  have hne : String.ofList (minus ++ (c :: more ++ (fraction ++ exponent))) ≠ "" := by
    intro h
    have hlist := congrArg String.toList h
    rw [String.toList_ofList] at hlist
    simp at hlist
  rw [read, if_neg hne, String.toList_ofList, hsign]
  dsimp only
  rw [hunsigned]

/-- The value of a size that has been rounded, unless it is too large. -/
def placed (negative : Bool) (significand shift : Nat) : Binary64 :=
  if shift ≤ maxShift then finite negative significand shift else infinite negative

/-- A quotient is rounded in units of 2^-1074 and placed, with one bit more if rounding
needs it.  The parts are given as existing numbers, so that no lemma about them has to look
at a power of this size. -/
theorem ofRatio_eq (negative : Bool) (num den : Nat) :
    ∃ shift rounded, shift = excess (num * Nat.pow 2 1074 / den) ∧
      rounded = roundDiv (num * Nat.pow 2 1074) (den * Nat.pow 2 shift) ∧
      ofRatio negative num den =
        if rounded = Nat.pow 2 53 then placed negative (Nat.pow 2 52) (shift + 1)
        else placed negative rounded shift := by
  -- Unfolded where it is applied, the definition would be run on the power.
  have hdef : ofRatio = ofRatio := rfl
  conv at hdef => rhs; delta ofRatio
  have h := congrFun (congrFun (congrFun hdef negative) num) den
  extract_lets scaled shift rounded at h
  refine ⟨shift, rounded, rfl, rfl, ?_⟩
  rw [h]
  clear_value rounded shift
  by_cases hrounded : rounded = Nat.pow 2 53
  · rw [if_pos hrounded, if_pos hrounded]
    rfl
  · rw [if_neg hrounded, if_neg hrounded]
    rfl

/-- Placing a size keeps its sign. -/
theorem isNegative_placed {negative : Bool} {significand shift : Nat}
    (h : (placed negative significand shift).isNegative = true) : negative = true := by
  rw [placed] at h
  split at h
  · exact (Bool.and_eq_true_iff.1 h).1
  · exact h

/-- A quotient without a minus is not negative, however it is rounded. -/
theorem isNegative_ofRatio {negative : Bool} {num den : Nat}
    (h : (ofRatio negative num den).isNegative = true) : negative = true := by
  obtain ⟨shift, rounded, -, -, heq⟩ := ofRatio_eq negative num den
  rw [heq] at h
  split at h
  · exact isNegative_placed h
  · exact isNegative_placed h

/-- A decimal without a minus is not negative, however it is rounded. -/
theorem isNegative_ofDecimal {negative : Bool} {digits : Nat} {e : Int}
    (h : (ofDecimal negative digits e).isNegative = true) : negative = true := by
  rw [ofDecimal] at h
  split at h
  · exact (Bool.and_eq_true_iff.1 h).1
  · split at h
    · exact h
    · split at h
      · exact isNegative_ofRatio h
      · exact isNegative_ofRatio h

end Binary64

/-- **A numeral is read as a floating-point value**, which is negative only behind a
minus.  The grammar of numerals is narrower than what is read as a decimal, so reading
cannot fail. -/
theorem Binary64.exists_read_of_numeralText {cs : List Char} (h : NumeralText cs) :
    ∃ x, read (String.ofList cs) = .ok x ∧ (x.isNegative = true → cs.head? = some '-') := by
  obtain ⟨hminus, hwhole, hfraction, hexponent⟩ := h
  obtain ⟨e, -, hread⟩ := read_of_numeral hminus hwhole hfraction hexponent
  refine ⟨_, hread, ?_⟩
  intro hnegative
  rw [eq_of_beq (isNegative_ofDecimal hnegative)]
  rfl

end FieldMask
