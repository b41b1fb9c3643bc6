namespace FieldMask

/-!
# Decimal digits

* `digitsValue` — the number that some decimal digits denote.  It is put together from the numbers
  of the two halves, so a long run of digits takes few multiplications of long numbers.
* `digitsValue_eq_foldl` — the same number, digit by digit; `digitsValue_append` — the number of
  two parts, one behind the other.
-/

/-- A number with one more digit behind it. -/
def pushDigit (n : Nat) (c : Char) : Nat := 10 * n + (c.toNat - '0'.toNat)

/-- The number that some digits denote, by halving them so many times.  Digit by digit every
step would multiply a number as long as all the digits before; the halves meet in few
multiplications. -/
def halvedValue : Nat → List Char → Nat
  | 0, cs => cs.foldl pushDigit 0
  | times + 1, cs =>
    let behind := cs.length / 2
    let before := cs.length - behind
    halvedValue times (cs.take before) * Nat.pow 10 behind + halvedValue times (cs.drop before)

/-- The number that some decimal digits denote.  Runs of up to 63 digits are not halved. -/
def digitsValue (cs : List Char) : Nat := halvedValue (cs.length.log2 - 5) cs

/-- Reading digits behind a number shifts it by as many places and adds what the digits
denote by themselves. -/
theorem foldl_pushDigit (n : Nat) (cs : List Char) :
    cs.foldl pushDigit n = n * Nat.pow 10 cs.length + cs.foldl pushDigit 0 := by
  induction cs generalizing n with
  | nil => simp
  | cons c cs ih =>
    rw [List.foldl_cons, List.foldl_cons, ih, ih (pushDigit 0 c)]
    have hpow : Nat.pow 10 (c :: cs).length = Nat.pow 10 cs.length * 10 := rfl
    -- Only products are to be moved past each other from here: `10 * n` and the power of ten.
    rw [hpow, pushDigit, pushDigit, Nat.mul_zero, Nat.zero_add, Nat.add_mul, Nat.add_assoc,
      Nat.mul_comm 10 n, Nat.mul_assoc, Nat.mul_comm 10]

/-- How often the digits are halved makes no difference to the number. -/
theorem halvedValue_eq_foldl (times : Nat) (cs : List Char) :
    halvedValue times cs = cs.foldl pushDigit 0 := by
  induction times generalizing cs with
  | zero => rfl
  | succ times ih =>
    simp only [halvedValue, ih]
    -- The digits on the right are cut where the definition cuts them.
    conv => rhs; rw [← List.take_append_drop (cs.length - cs.length / 2) cs]
    rw [List.foldl_append, foldl_pushDigit (List.foldl _ _ _), List.length_drop]
    congr 3
    omega

/-- The number is what reading its digits from left to right gives. -/
theorem digitsValue_eq_foldl (cs : List Char) : digitsValue cs = cs.foldl pushDigit 0 :=
  halvedValue_eq_foldl ..

/-- The number of two parts, one behind the other: the first is shifted by the length of the
second. -/
theorem digitsValue_append (before behind : List Char) :
    digitsValue (before ++ behind) =
      digitsValue before * Nat.pow 10 behind.length + digitsValue behind := by
  simp only [digitsValue_eq_foldl, List.foldl_append]
  exact foldl_pushDigit ..

end FieldMask
