namespace FieldMask

/-!
# Blank characters

* `blankRanges` — the characters with the White_Space property, as ranges of code points.
* `isBlank` — whether a character is one of them.
-/

/-- The code points with the White_Space property, as inclusive ranges in ascending order. -/
def blankRanges : List (Nat × Nat) :=
  [(0x09, 0x0D), (0x20, 0x20), (0x85, 0x85), (0xA0, 0xA0), (0x1680, 0x1680), (0x2000, 0x200A),
   (0x2028, 0x2029), (0x202F, 0x202F), (0x205F, 0x205F), (0x3000, 0x3000)]

/-- Whether a character has the White_Space property. -/
def isBlank (c : Char) : Bool :=
  blankRanges.any fun (first, last) => first ≤ c.toNat && c.toNat ≤ last

/-- The property covers twenty-five code points. -/
example : (blankRanges.map fun (first, last) => last + 1 - first).sum = 25 := rfl

end FieldMask
