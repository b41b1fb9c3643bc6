namespace FieldMask

/-!
# Binary floating-point numbers of 64 bits

A finite value is a whole number of units of 2^-1074, of which at most 53 leading bits are not
zero.  All arithmetic on them is done in natural numbers, so nothing is rounded on the way.

* `Binary64` — a value; `Binary64.units` — the size of a finite one.
* `roundDiv` — a quotient rounded to nearest, a half to the even neighbour.
* `Binary64.ofRatio` — the value nearest to a quotient; `Binary64.ofDecimal` — the value nearest to
  a decimal.
* `Binary64.isNegative` — whether a value is less than zero.
-/

/-- A binary floating-point value.  A finite one is `significand * 2 ^ shift` units of 2^-1074. -/
inductive Binary64 where
  | nan
  | infinite (negative : Bool)
  | finite (negative : Bool) (significand : Nat) (shift : Nat)
  deriving DecidableEq

/-- A quotient rounded to the nearest whole number, a half to the even one. -/
def roundDiv (num den : Nat) : Nat :=
  let quotient := num / den
  let twice := 2 * (num % den)
  if twice < den ∨ (twice = den ∧ quotient % 2 = 0) then quotient else quotient + 1

namespace Binary64

/-- The size of a finite value in units of 2^-1074. -/
def units (significand shift : Nat) : Nat := significand * Nat.pow 2 shift

/-- The number of bits to drop so that no more than 53 are left. -/
def excess (units : Nat) : Nat := units.log2 - 52

/-- The largest shift of a finite value. -/
def maxShift : Nat := 2045

/-- The value nearest to `num / den`, a half going to the even neighbour; what is too large for the
largest value is infinite. -/
def ofRatio (negative : Bool) (num den : Nat) : Binary64 :=
  let scaled := num * Nat.pow 2 1074
  let shift := excess (scaled / den)
  let rounded := roundDiv scaled (den * Nat.pow 2 shift)
  -- Rounding up may need one bit more.
  let (significand, shift) :=
    if rounded = Nat.pow 2 53 then (Nat.pow 2 52, shift + 1) else (rounded, shift)
  if shift ≤ maxShift then finite negative significand shift else infinite negative

/-- The value nearest to `digits * 10 ^ exponent`.  A number of `n + 1` bits is below
`10 ^ (n + 1)`, so sizes beyond any value are told without the power of ten. -/
def ofDecimal (negative : Bool) (digits : Nat) (exponent : Int) : Binary64 :=
  if digits = 0 ∨ digits.log2 + exponent < -400 then finite negative 0 0
  else if 400 < exponent then infinite negative
  else if exponent < 0 then ofRatio negative digits (Nat.pow 10 exponent.natAbs)
  else ofRatio negative (digits * Nat.pow 10 exponent.natAbs) 1

/-- Whether the value is less than zero; a zero is not, whatever its sign. -/
def isNegative : Binary64 → Bool
  | nan => false
  | infinite negative => negative
  | finite negative significand _ => negative && significand != 0

/-- Whether the value is a number of finite size. -/
def isFinite : Binary64 → Bool
  | finite .. => true
  | _ => false

end Binary64

end FieldMask
