import FieldMask.Binary64.Basic

namespace FieldMask

/-!
# The shortest decimal of a value

Among the decimals that read back to a value, those with the fewest digits lie on the coarsest grid
of multiples of a power of ten that has a point in the interval of all numbers that round to the
value.  Of the points there, the nearest is taken.

* `Decimal` — digits and a power of ten; `Tie` — which of two equally near points is taken.
* `Binary64.Bounds` — the interval that rounds to a value, with its ends if they do so too.
* `Binary64.gridPoint?` — the nearest point of a grid in the interval; `Binary64.coarsest` — the
  coarsest grid that has one.
* `Binary64.shortest` — the shortest decimal.
-/

/-- The number `digits * 10 ^ exponent`. -/
structure Decimal where
  digits : Nat
  exponent : Int
  deriving DecidableEq

/-- Which of two equally near decimals is taken.  Two decimals of the same length can
lie equally far from a value on either side of it; writers differ in which of them they
print. -/
inductive Tie where
  /-- The one whose last digit is even. -/
  | toEven
  /-- The larger one. -/
  | up
  deriving DecidableEq

namespace Binary64

/-- A value and how far the numbers that round to it reach below and above it, all as multiples of
`2 ^ scale`. -/
structure Bounds where
  value : Nat
  below : Nat
  above : Nat
  /-- Whether the two ends round to the value themselves. -/
  closed : Bool
  scale : Int

/-- The numbers that round to a finite value, in quarters of its last place.  Below a power
of two the neighbours lie twice as dense.  The ends belong to the interval if the last place
is even, as a half goes to the even neighbour. -/
def bounds (significand shift : Nat) : Bounds :=
  let below := if significand = Nat.pow 2 52 ∧ 0 < shift then 1 else 2
  ⟨4 * significand, below, 2, significand % 2 = 0, (shift : Int) - 1076⟩

/-- Whether a distance does not go beyond a reach. -/
def Bounds.within (b : Bounds) (distance reach : Nat) : Bool :=
  if b.closed then distance ≤ reach else distance < reach

/-- The grid of the multiples of `10 ^ exponent`: how far its points are apart as a multiple of
`2 ^ scale`, in the form of a quotient. -/
def gridStep (scale exponent : Int) : Nat × Nat :=
  (Nat.pow 10 exponent.toNat * Nat.pow 2 (-scale).toNat,
    Nat.pow 10 (-exponent).toNat * Nat.pow 2 scale.toNat)

/-- The point of a grid that lies between the bounds and is nearest to the value, as a multiple of
the grid's step.  If any point lies there, so does one of the two next to the value. -/
def gridPoint? (tie : Tie) (b : Bounds) (exponent : Int) : Option Nat :=
  let (num, den) := gridStep b.scale exponent
  let point := b.value * den / num
  let down := b.value * den % num
  let up := num - down
  -- The two points next to the value are `point` and `point + 1`.
  match b.within down (b.below * den), b.within up (b.above * den) with
  | false, false => none
  | true, false => some point
  | false, true => some (point + 1)
  | true, true =>
    if down < up then some point
    else if up < down then some (point + 1)
    else match tie with
      | .up => some (point + 1)
      | .toEven => some (if point % 2 = 0 then point else point + 1)

/-- The coarsest grid that has a point between the bounds, among `2 ^ steps` grids from a fine one
on that has one.  A point of a grid is a point of every finer grid, so half of them can be left
aside at a time. -/
def coarsest (tie : Tie) (b : Bounds) (fine : Int) : Nat → Int
  | 0 => fine
  | steps + 1 =>
    let middle := fine + (Nat.pow 2 steps : Int)
    coarsest tie b (if (gridPoint? tie b middle).isSome then middle else fine) steps

/-- A power of ten above a number that is less than `2 ^ bits`: a bit is worth a little more than
0.30102 of a digit. -/
def topExponent (bits : Int) : Int := (bits * 30103).fdiv 100000 + 2

/-- A value with all of its digits. -/
def Bounds.exact (b : Bounds) : Decimal :=
  if b.scale < 0 then ⟨b.value * Nat.pow 5 b.scale.natAbs, b.scale⟩
  else ⟨b.value * Nat.pow 2 b.scale.natAbs, 0⟩

/-- The shortest decimal that reads back to a finite value that is not zero.  It has at most 17
digits, so the coarsest grid is one of 32. -/
def shortest (tie : Tie) (significand shift : Nat) : Decimal :=
  let b := bounds significand shift
  let top := topExponent (b.value.log2 + 1 + b.scale)
  let exponent := coarsest tie b (top - 31) 5
  match gridPoint? tie b exponent with
  | some point => ⟨point, exponent⟩
  | none => b.exact

end Binary64

end FieldMask
