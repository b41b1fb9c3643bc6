import FieldMask.Binary64.Text
import FieldMask.Proofs.Json.Numeral

namespace FieldMask

open JsonText

/-!
# The text of a finite value is a numeral

* `Binary64.gridPoint?_pos`, `Binary64.shortest_pos` — the shortest decimal of a value that is not
  zero has a digit that is not zero.
* `Binary64.numeralText_placesText`, `Binary64.numeralText_exponentText` — both ways to lay out a
  decimal.
* `Binary64.numeralText_canonicalText` — the canonical text of a finite value.
* `Number.exists_ofBinary64?` — a finite value is the number with its canonical text;
  `Number.ofBinary64?_eq_none_iff` — exactly the values that are not finite are no numbers.
-/

namespace Binary64

/-! ### The digits -/

variable {tie : Tie} {b : Bounds} {exponent : Int}

/-- A distance within a reach is not larger than it, whether or not the ends count. -/
theorem Bounds.le_of_within {distance reach : Nat} (h : b.within distance reach = true) :
    distance ≤ reach := by
  rw [Bounds.within] at h
  split at h
  · exact of_decide_eq_true h
  · exact Nat.le_of_lt (of_decide_eq_true h)

/-- The step of a grid is a quotient by a number that is not zero. -/
theorem gridStep_snd_pos (scale exponent : Int) : 0 < (gridStep scale exponent).2 :=
  Nat.mul_pos (Nat.pow_pos (by decide)) (Nat.pow_pos (by decide))

/-- Zero is too far below a value to be a point of a grid between the bounds, since a value
is larger than the reach below it. -/
theorem gridPoint?_pos {point : Nat} (hbelow : b.below < b.value)
    (h : gridPoint? tie b exponent = some point) : 0 < point := by
  have hden := gridStep_snd_pos b.scale exponent
  rw [gridPoint?] at h
  generalize gridStep b.scale exponent = step at h hden
  obtain ⟨num, den⟩ := step
  dsimp only at h hden
  -- From a point at zero the value is as far away as it is large, and that is too far.
  have hpoint (hdown : b.within (b.value * den % num) (b.below * den) = true) :
      0 < b.value * den / num := by
    rw [Nat.pos_iff_ne_zero]
    intro hzero
    have hsplit := Nat.div_add_mod (b.value * den) num
    rw [hzero, Nat.mul_zero, Nat.zero_add] at hsplit
    have hle := Bounds.le_of_within hdown
    rw [hsplit] at hle
    have hlt := Nat.mul_lt_mul_of_pos_right hbelow hden
    omega
  split at h
  next => cases h
  next hdown _ =>
    cases h
    exact hpoint hdown
  next =>
    cases h
    exact Nat.succ_pos _
  next hdown _ =>
    -- Both points next to the value are near enough, and neither is zero.
    have hpos := hpoint hdown
    generalize b.value * den / num = floor at h hpos
    split at h
    · cases h
      exact hpos
    · split at h
      · cases h
        exact Nat.succ_pos _
      · cases tie with
        | up =>
          cases h
          exact Nat.succ_pos _
        | toEven =>
          rw [← Option.some.inj h]
          split
          · exact hpos
          · exact Nat.succ_pos _

/-- The shortest decimal of a value that is not zero is not zero. -/
theorem shortest_pos {significand : Nat} (h : 0 < significand) (shift : Nat) :
    0 < (shortest tie significand shift).digits := by
  have hbelow : (bounds significand shift).below < (bounds significand shift).value := by
    simp only [bounds]
    split <;> omega
  rw [shortest]
  split
  next hpoint => exact gridPoint?_pos hbelow hpoint
  next =>
    -- Without a point of the grid the value is given with all of its digits.
    have hvalue : 0 < (bounds significand shift).value := Nat.zero_lt_of_lt hbelow
    rw [Bounds.exact]
    split
    · exact Nat.mul_pos hvalue (Nat.pow_pos (by decide))
    · exact Nat.mul_pos hvalue (Nat.pow_pos (by decide))

/-! ### The layouts -/

variable {n : Nat} {minus : List Char}

/-- The decimal digits of a number are digits, and there is at least one. -/
theorem digits_toDigits (n : Nat) : Digits (Nat.toDigits 10 n) :=
  ⟨Nat.toDigits_ne_nil, fun _ hc => Nat.isDigit_of_mem_toDigits (by decide) (by decide) hc⟩

/-- A positive number does not begin with zero. -/
theorem head?_toDigits (h : 0 < n) : (Nat.toDigits 10 n).head? ≠ some '0' := by
  obtain ⟨c, cs, hdigits, hc⟩ := Number.exists_toDigits_eq_cons h
  rw [hdigits]
  intro hzero
  exact hc (Option.some.inj hzero)

/-- Digits with more digits behind them are digits. -/
theorem digits_append {cs cs' : List Char} (h : Digits cs) (h' : ∀ c ∈ cs', c.isDigit = true) :
    Digits (cs ++ cs') := by
  refine ⟨List.append_ne_nil_of_left_ne_nil h.1 _, ?_⟩
  intro c hc
  rcases List.mem_append.1 hc with hc | hc
  · exact h.2 c hc
  · exact h' c hc

/-- Zeros that fill places are digits. -/
theorem isDigit_of_mem_zeros (count : Nat) : ∀ c ∈ List.replicate count '0', c.isDigit = true := by
  intro c hc
  rw [List.eq_of_mem_replicate hc]
  rfl

/-- An integer part and a fraction alone are a numeral. -/
theorem numeralText_of_places {whole fraction : List Char} (hminus : minus ∈ [[], ['-']])
    (hwhole : WholeText whole) (hfraction : FractionText fraction) :
    NumeralText (minus ++ (whole ++ fraction)) := by
  have h := NumeralText.mk hminus hwhole hfraction .none
  rwa [List.append_nil] at h

/-- **A decimal with places is a numeral**, wherever its point stands.  The three cases are
those of `placesText`; in each of them the integer part does not begin with a zero unless it
is one. -/
theorem numeralText_placesText (hminus : minus ∈ [[], ['-']])
    (hn : 0 < n ∨ n = 0 ∧ exponent = 0) :
    NumeralText (minus ++ placesText canonical (Nat.toDigits 10 n) exponent) := by
  have hdigits := digits_toDigits n
  have hpoint : FractionText ['.', '0'] := .point ⟨List.cons_ne_nil _ _, by simp⟩
  rw [placesText]
  by_cases hexponent : 0 ≤ exponent
  · -- The point stands behind all of the digits.
    rw [if_pos hexponent]
    show NumeralText (minus ++ (_ ++ ['.', '0']))
    refine numeralText_of_places hminus ?_ hpoint
    rcases hn with hn | ⟨rfl, rfl⟩
    · refine .digits (digits_append hdigits (isDigit_of_mem_zeros _)) ?_
      rw [List.head?_append_of_ne_nil _ hdigits.1]
      exact head?_toDigits hn
    · exact .zero
  · rw [if_neg hexponent]
    have hpos : 0 < n := by
      rcases hn with hn | ⟨-, rfl⟩
      · exact hn
      · exact absurd (Int.le_refl 0) hexponent
    by_cases hbefore : 0 < ((Nat.toDigits 10 n).length : Int) + exponent
    · -- The point stands inside of the digits.
      rw [if_pos hbefore]
      generalize hcount : (((Nat.toDigits 10 n).length : Int) + exponent).natAbs = count
      have hlt : count < (Nat.toDigits 10 n).length := by omega
      have hne : (Nat.toDigits 10 n).take count ≠ [] := by
        rw [← List.length_pos_iff, List.length_take]
        omega
      have hne' : (Nat.toDigits 10 n).drop count ≠ [] := by
        rw [← List.length_pos_iff, List.length_drop]
        omega
      refine numeralText_of_places hminus (.digits ⟨hne, ?_⟩ ?_) (.point ⟨hne', ?_⟩)
      · intro c hc
        exact hdigits.2 c (List.mem_of_mem_take hc)
      · have hhead := head?_toDigits hpos
        rwa [← List.take_append_drop count (Nat.toDigits 10 n),
          List.head?_append_of_ne_nil _ hne] at hhead
      · intro c hc
        exact hdigits.2 c (List.mem_of_mem_drop hc)
    · -- The point stands before the digits, with zeros between if need be.
      rw [if_neg hbefore]
      refine numeralText_of_places hminus .zero (.point ⟨?_, ?_⟩)
      · exact List.append_ne_nil_of_right_ne_nil _ hdigits.1
      · intro c hc
        rcases List.mem_append.1 hc with hc | hc
        · exact isDigit_of_mem_zeros _ c hc
        · exact hdigits.2 c hc

/-- **A decimal with an exponent is a numeral**: one digit, the others as its fraction, and
an exponent with a sign. -/
theorem numeralText_exponentText (hminus : minus ∈ [[], ['-']]) (n : Nat) (first : Int) :
    NumeralText (minus ++ exponentText (Nat.toDigits 10 n) first) := by
  obtain ⟨hne, hdigits⟩ := digits_toDigits n
  obtain ⟨c, cs, hcs⟩ := List.exists_cons_of_ne_nil hne
  rw [hcs] at hdigits ⊢
  -- The first digit alone is an integer part, be it zero or not.
  have hwhole : WholeText [c] := by
    by_cases hzero : c = '0'
    · rw [hzero]
      exact .zero
    · refine .digits ⟨List.cons_ne_nil _ _, ?_⟩ ?_
      · intro d hd
        rw [List.mem_singleton.1 hd]
        exact hdigits c List.mem_cons_self
      · intro hhead
        exact hzero (Option.some.inj hhead)
  have hexponent : ExponentText
      ('e' :: ([if first < 0 then '-' else '+'] ++ Nat.toDigits 10 first.natAbs)) := by
    refine .mark (Or.inl rfl) ?_ (digits_toDigits _)
    split <;> simp
  -- The digits behind the first one stand behind the point, if there are any.
  cases cs with
  | nil => exact .mk hminus hwhole .none hexponent
  | cons d more =>
    have hmore : Digits (d :: more) := by
      refine ⟨List.cons_ne_nil _ _, ?_⟩
      intro e he
      exact hdigits e (List.mem_cons_of_mem _ he)
    exact .mk hminus hwhole (.point hmore) hexponent

/-- The text of a decimal is a numeral; zero is written with the exponent zero. -/
theorem numeralText_decimalText {decimal : Decimal} (hminus : minus ∈ [[], ['-']])
    (h : 0 < decimal.digits ∨ decimal.digits = 0 ∧ decimal.exponent = 0) :
    NumeralText (minus ++ decimalText canonical decimal) := by
  rw [decimalText]
  split
  · exact numeralText_placesText hminus h
  · exact numeralText_exponentText hminus _ _

/-- **The canonical text of a finite value is a numeral.**  This is what lets a value be
written in a document as a number. -/
theorem numeralText_canonicalText {x : Binary64} (h : x.isFinite = true) :
    NumeralText x.canonicalText.toList := by
  match x with
  | .nan => cases h
  | .infinite _ => cases h
  | .finite negative significand shift =>
    have hminus : (if negative = true then ['-'] else []) ∈ [[], ['-']] := by
      cases negative <;> simp
    rw [canonicalText, text, String.toList_ofList]
    apply numeralText_decimalText hminus
    -- Zero has no shortest decimal; it is written as the digit zero.
    by_cases hzero : significand = 0
    · rw [if_pos hzero]
      exact Or.inr ⟨rfl, rfl⟩
    · rw [if_neg hzero]
      exact Or.inl (shortest_pos (Nat.pos_of_ne_zero hzero) shift)

end Binary64

/-- Every numeral stands for a number. -/
theorem Number.exists_ofText? {text : String} (h : NumeralText text.toList) :
    ∃ n, Number.ofText? text = some n := by
  rw [ofText?]
  split
  · exact ⟨_, rfl⟩
  · rw [dif_pos (isNumeral_iff.2 h)]
    exact ⟨_, rfl⟩

/-- A finite value is the number with its canonical text. -/
theorem Number.exists_ofBinary64? {x : Binary64} (h : x.isFinite = true) :
    ∃ n, ofBinary64? x = some n ∧ ofText? x.canonicalText = some n := by
  obtain ⟨n, hn⟩ := exists_ofText? (Binary64.numeralText_canonicalText h)
  exact ⟨n, by rw [ofBinary64?, if_pos h, hn], hn⟩

/-- Exactly the values that are not finite are no numbers. -/
theorem Number.ofBinary64?_eq_none_iff {x : Binary64} :
    Number.ofBinary64? x = none ↔ x.isFinite = false := by
  by_cases hfinite : x.isFinite = true
  · obtain ⟨n, hn, -⟩ := exists_ofBinary64? hfinite
    simp [hfinite, hn]
  · simp [ofBinary64?, hfinite]

end FieldMask
