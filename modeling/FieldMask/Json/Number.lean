import FieldMask.Json.Fault

namespace FieldMask

/-!
# Numbers by their text

A number is kept as the text it was written with, so that no digit is lost: any numeral of JSON's
grammar, except that there is no negative zero without fraction and exponent.

```text
numeral  = ["-"] whole ["." digits] [("e" | "E") ["+" | "-"] digits]
whole    = "0" | nonzero-digit digit*
```

* `Numeral.drop` — what follows the numeral at the start of a text, or where a numeral breaks off;
  `isNumeral` — whether a text is one numeral.
* `Number` — a number; `Number.read` reads one, `Number.ofInt` writes an integer.
-/

namespace Numeral

/-- The place where a digit is missing; `taken` if one character there was taken for it. -/
structure Gap where
  rest : List Char
  taken : Bool

/-- What follows a minus, if there is one. -/
def dropMinus : List Char → List Char
  | '-' :: rest => rest
  | cs => cs

/-- What follows the digits at the start of a text, which must be there. -/
def dropDigits (taken : Bool) (cs : List Char) : Except Gap (List Char) :=
  match cs with
  | [] => .error ⟨cs, taken⟩
  | c :: rest => if c.isDigit then .ok (rest.dropWhile Char.isDigit) else .error ⟨cs, taken⟩

/-- What follows the integer part: one zero with no digit behind it, or digits that do not begin
with zero. -/
def dropWhole (taken : Bool) : List Char → Except Gap (List Char)
  | ['0'] => .ok []
  | '0' :: c :: rest => if c.isDigit then .error ⟨c :: rest, false⟩ else .ok (c :: rest)
  | cs => dropDigits taken cs

/-- What follows a fraction, if there is one. -/
def dropFraction : List Char → Except Gap (List Char)
  | '.' :: rest => dropDigits false rest
  | cs => .ok cs

/-- What follows a sign, if there is one. -/
def dropSign : List Char → List Char
  | '+' :: rest => rest
  | '-' :: rest => rest
  | cs => cs

/-- What follows an exponent, if there is one. -/
def dropExponent : List Char → Except Gap (List Char)
  | 'e' :: rest => dropDigits true (dropSign rest)
  | 'E' :: rest => dropDigits true (dropSign rest)
  | cs => .ok cs

/-- What follows the numeral at the start of a text. -/
def drop (cs : List Char) : Except Gap (List Char) := do
  let cs ← dropWhole (cs.head? == some '-') (dropMinus cs)
  let cs ← dropFraction cs
  dropExponent cs

/-! ### A numeral takes at least one character -/

/-- Behind a minus there is no more left than before it. -/
theorem length_dropMinus_le (cs : List Char) : (dropMinus cs).length ≤ cs.length := by
  unfold dropMinus
  split <;> simp

/-- Behind a sign there is no more left than before it. -/
theorem length_dropSign_le (cs : List Char) : (dropSign cs).length ≤ cs.length := by
  unfold dropSign
  split <;> simp

/-- Digits that must be there are one character at least. -/
theorem length_of_dropDigits {taken : Bool} {cs rest : List Char}
    (h : dropDigits taken cs = .ok rest) : rest.length < cs.length := by
  unfold dropDigits at h
  split at h
  · cases h
  · split at h
    · cases h
      exact Nat.lt_succ_of_le (List.dropWhile_sublist _).length_le
    · cases h

/-- The integer part is one character at least, and the only part that is. -/
theorem length_of_dropWhole {taken : Bool} {cs rest : List Char}
    (h : dropWhole taken cs = .ok rest) : rest.length < cs.length := by
  unfold dropWhole at h
  split at h
  · cases h
    simp
  · split at h
    · cases h
    · cases h
      simp
  · exact length_of_dropDigits h

/-- A fraction may be missing, so there may be as much left behind it as before. -/
theorem length_of_dropFraction {cs rest : List Char} (h : dropFraction cs = .ok rest) :
    rest.length ≤ cs.length := by
  unfold dropFraction at h
  split at h
  · exact Nat.le_succ_of_le (Nat.le_of_lt (length_of_dropDigits h))
  · cases h
    exact Nat.le_refl _

/-- An exponent may be missing as well.  Then nothing is taken. -/
theorem length_of_dropExponent {cs rest : List Char} (h : dropExponent cs = .ok rest) :
    rest.length ≤ cs.length := by
  unfold dropExponent at h
  split at h
  · have := length_of_dropDigits h
    have := length_dropSign_le ‹_›
    simp only [List.length_cons]
    omega
  · have := length_of_dropDigits h
    have := length_dropSign_le ‹_›
    simp only [List.length_cons]
    omega
  · cases h
    exact Nat.le_refl _

/-- A numeral takes at least one character, which its integer part does already. -/
theorem length_of_drop {cs rest : List Char} (h : drop cs = .ok rest) :
    rest.length < cs.length := by
  unfold drop at h
  cases hwhole : dropWhole (cs.head? == some '-') (dropMinus cs) with
  | error => rw [hwhole] at h; cases h
  | ok cs₁ =>
    rw [hwhole] at h
    cases hfraction : dropFraction cs₁ with
    | error => simp [bind, Except.bind, hfraction] at h
    | ok cs₂ =>
      simp only [bind, Except.bind, hfraction] at h
      -- The four parts follow each other, each beginning where the one before has ended.
      have := length_of_dropWhole hwhole
      have := length_of_dropFraction hfraction
      have := length_of_dropExponent h
      have := length_dropMinus_le cs
      omega

end Numeral

/-- Whether a text is one numeral. -/
def isNumeral (cs : List Char) : Bool :=
  match Numeral.drop cs with
  | .ok [] => true
  | _ => false

/-- A number, as the numeral that it was written with. -/
structure Number where
  text : String
  isNumeral : isNumeral text.toList = true
  ne_negativeZero : text ≠ "-0"
  deriving DecidableEq

namespace Number

/-- The number zero. -/
def zero : Number := ⟨"0", rfl, by decide⟩

/-- The number that a text denotes: itself, but for negative zero, which is zero. -/
def ofText? (text : String) : Option Number :=
  if hzero : text = "-0" then some zero
  else if h : FieldMask.isNumeral text.toList = true then some ⟨text, h, hzero⟩
  else none

/-- A fault behind some bytes of a text. -/
def faultAt (fault : TextFault) (text : String) (count : Nat) : NumberFault :=
  let before := text.toUTF8.toList.take count
  ⟨fault, 1 + before.count 0x0A, (before.reverse.takeWhile (· != 0x0A)).length⟩

/-- Why a text is no number.  A text that goes on where a digit is missing is malformed there, one
that ends is broken off. -/
def faultOf (text : String) : NumberFault :=
  let size := text.utf8ByteSize
  let fault (rest : List Char) (taken : Nat) : NumberFault :=
    let reached := size - (String.ofList rest).utf8ByteSize + taken
    faultAt .malformed text (if reached < size then reached + 1 else reached)
  match Numeral.drop text.toList with
  | .error ⟨[], _⟩ => faultAt .truncated text size
  | .error ⟨rest, taken⟩ => fault rest (if taken then 1 else 0)
  | .ok rest => fault rest 0

/-- The number that a text denotes, or why there is none. -/
def read (text : String) : Except NumberFault Number :=
  match ofText? text with
  | some n => .ok n
  | none => .error (faultOf text)

/-! ### Integers -/

/-- Nothing is left of a list all of whose elements are dropped. -/
theorem dropWhile_eq_nil_of_forall {p : Char → Bool} {cs : List Char} (h : ∀ c ∈ cs, p c = true) :
    cs.dropWhile p = [] := by
  induction cs with
  | nil => rfl
  | cons c cs ih =>
    rw [List.dropWhile_cons_of_pos (h c List.mem_cons_self)]
    exact ih fun d hd => h d (List.mem_cons_of_mem _ hd)

/-- A text of digits alone is taken to its end. -/
theorem dropDigits_of_digits {taken : Bool} {c : Char} {cs : List Char}
    (h : ∀ d ∈ c :: cs, d.isDigit = true) :
    Numeral.dropDigits taken (c :: cs) = .ok [] := by
  have hrest : cs.dropWhile Char.isDigit = [] :=
    dropWhile_eq_nil_of_forall fun d hd => h d (List.mem_cons_of_mem _ hd)
  simp [Numeral.dropDigits, h c List.mem_cons_self, hrest]

/-- The decimal digits of a positive number do not begin with zero.  So they are an integer
part, which a zero followed by digits would not be. -/
theorem exists_toDigits_eq_cons {n : Nat} (h : 0 < n) :
    ∃ c cs, Nat.toDigits 10 n = c :: cs ∧ c ≠ '0' := by
  induction n using Nat.strongRecOn with
  | ind n ih =>
    rw [Nat.toDigits_eq_if (by decide)]
    split
    · refine ⟨n.digitChar, [], rfl, ?_⟩
      match n with
      | 0 => contradiction
      | 1 | 2 | 3 | 4 | 5 | 6 | 7 | 8 | 9 => decide
      | _ + 10 => omega
    · obtain ⟨c, cs, heq, hc⟩ := ih (n / 10) (by omega) (by omega)
      exact ⟨c, cs ++ [(n % 10).digitChar], by rw [heq]; rfl, hc⟩

/-- The digits of a number are an integer part, from beginning to end. -/
theorem dropWhole_toDigits (taken : Bool) (n : Nat) :
    Numeral.dropWhole taken (Nat.toDigits 10 n) = .ok [] := by
  rcases Nat.eq_zero_or_pos n with rfl | hpos
  · rfl
  · obtain ⟨c, cs, heq, hc⟩ := exists_toDigits_eq_cons hpos
    have hdigits : ∀ d ∈ c :: cs, d.isDigit = true := fun d hd =>
      Nat.isDigit_of_mem_toDigits (by decide) (by decide) (heq ▸ hd)
    rw [heq]
    unfold Numeral.dropWhole
    -- The two cases of a leading zero do not arise.
    split
    · simp_all
    · simp_all
    · exact dropDigits_of_digits hdigits

/-- The digits of a number are not a minus. -/
theorem dropMinus_toDigits (n : Nat) :
    Numeral.dropMinus (Nat.toDigits 10 n) = Nat.toDigits 10 n := by
  unfold Numeral.dropMinus
  split
  next rest heq =>
    have : ('-' : Char).isDigit = true :=
      Nat.isDigit_of_mem_toDigits (b := 10) (n := n) (by decide) (by decide) (by simp [heq])
    simp at this
  · rfl

/-- An integer part, with or without a minus before it, is a numeral by itself. -/
theorem isNumeral_of_dropWhole {cs : List Char}
    (h : Numeral.dropWhole (cs.head? == some '-') (Numeral.dropMinus cs) = .ok []) :
    FieldMask.isNumeral cs = true := by
  unfold FieldMask.isNumeral Numeral.drop
  rw [h]
  rfl

/-- A natural number in decimal is a numeral. -/
theorem isNumeral_repr (n : Nat) : FieldMask.isNumeral n.repr.toList = true := by
  refine isNumeral_of_dropWhole ?_
  rw [Nat.toList_repr, dropMinus_toDigits]
  exact dropWhole_toDigits _ n

/-- So it is with a minus before it. -/
theorem isNumeral_neg_repr (n : Nat) :
    FieldMask.isNumeral ("-" ++ n.repr).toList = true := by
  refine isNumeral_of_dropWhole ?_
  simpa [Numeral.dropMinus, Nat.toList_repr] using dropWhole_toDigits true n

/-- A natural number in decimal has no minus, so it is not the text of negative zero. -/
theorem repr_ne_negativeZero (n : Nat) : n.repr ≠ "-0" := by
  intro h
  have := dropMinus_toDigits n
  rw [← Nat.toList_repr, h] at this
  simp [Numeral.dropMinus] at this

/-- A number below zero is not written as negative zero, since its digits do not begin with
a zero. -/
theorem neg_repr_ne_negativeZero (n : Nat) : "-" ++ (n + 1).repr ≠ "-0" := by
  intro h
  obtain ⟨c, cs, heq, hc⟩ := exists_toDigits_eq_cons (Nat.succ_pos n)
  have := congrArg String.toList h
  simp [Nat.toList_repr, heq] at this
  exact hc this.1

/-- An integer, written in decimal.  Zero has no sign. -/
def ofInt : Int → Number
  | .ofNat n => ⟨n.repr, isNumeral_repr n, repr_ne_negativeZero n⟩
  | .negSucc n => ⟨"-" ++ (n + 1).repr, isNumeral_neg_repr _, neg_repr_ne_negativeZero n⟩

end Number

end FieldMask
