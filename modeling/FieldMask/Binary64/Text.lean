import FieldMask.Binary64.Shortest
import FieldMask.Json.Number
import FieldMask.Text.Digits

namespace FieldMask

/-!
# Floating-point values as text

* `Binary64.read` — the value of a decimal text; `FloatFault` — why a text is none.
* `Layout` — how a decimal is laid out: always with places, or with an exponent if it is very large
  or very small.
* `Binary64.canonicalText` — the text of a value as a JSON number; `Binary64.plainText` — its text
  without an exponent.
* `Number.ofBinary64?` — a finite value as a number.

```text
decimal = ["+" | "-"] ("inf" | "infinity" | "nan" | places [("e" | "E") ["+" | "-"] digits])
places  = digits ["." [digits]] | "." digits
```
-/

/-- Why a text is no decimal. -/
inductive FloatFault where
  | empty
  | invalid
  deriving DecidableEq

/-- The wording of a fault. -/
def FloatFault.message : FloatFault → String
  | empty => "cannot parse float from empty string"
  | invalid => "invalid float literal"

namespace Binary64

/-! ### Reading -/

/-- Whether there is a minus in front of a text, and what follows the sign. -/
def readSign : List Char → Bool × List Char
  | '-' :: rest => (true, rest)
  | '+' :: rest => (false, rest)
  | cs => (false, cs)

/-- Reads the exponent at the end of a decimal.  An absent exponent is zero.  Behind its
mark and sign there must be digits, and nothing else. -/
def readExponent : List Char → Option Int
  | [] => some 0
  | c :: rest =>
    if c = 'e' ∨ c = 'E' then
      let (negative, digits) := readSign rest
      if digits = [] ∨ !digits.all Char.isDigit then none
      else some (if negative then -digitsValue digits else digitsValue digits)
    else none

/-- Reads the places of a decimal: its digits, how many of them stand behind the point, and what
follows. -/
def readPlaces (cs : List Char) : List Char × Nat × List Char :=
  let whole := cs.takeWhile Char.isDigit
  match cs.dropWhile Char.isDigit with
  | '.' :: rest =>
    let fraction := rest.takeWhile Char.isDigit
    (whole ++ fraction, fraction.length, rest.dropWhile Char.isDigit)
  | rest => (whole, 0, rest)

/-- The value of a text without a sign.  The words for an infinity and for what is no number
are read in any case of their letters; all else is a decimal, in which the point may stand
at either end of the digits, but some digit must be there. -/
def readUnsigned (negative : Bool) (cs : List Char) : Option Binary64 :=
  let word := String.ofList (cs.map Char.toLower)
  if word = "inf" ∨ word = "infinity" then some (infinite negative)
  else if word = "nan" then some nan
  else
    let (digits, behind, rest) := readPlaces cs
    if digits = [] then none
    else (readExponent rest).map fun exponent =>
      -- Every digit behind the point lowers the exponent by one.
      ofDecimal negative (digitsValue digits) (exponent - behind)

/-- The value of a decimal text.  An empty text is told from one that is no decimal, since
the two have messages of their own. -/
def read (text : String) : Except FloatFault Binary64 :=
  if text = "" then .error .empty
  else
    let (negative, cs) := readSign text.toList
    match readUnsigned negative cs with
    | some x => .ok x
    | none => .error .invalid

/-! ### Writing -/

/-- How a decimal is laid out.  The digits are the shortest that still denote the value in
every layout; only how they are set out differs: with places as long as the first digit's
exponent lies within the bounds, and with an exponent otherwise. -/
structure Layout where
  /-- The exponents of the first digit for which places are written: from this one … -/
  lowest : Int
  /-- … to this one, or all of them if it is absent. -/
  highest : Option Int
  /-- Whether a whole number is given a zero behind a point. -/
  pointZero : Bool
  /-- Which of two equally near decimals is written. -/
  tie : Tie

/-- Numbers in a document: places from 10^-5 to below 10^16, a point in every number that has no
exponent, a half to the even digit. -/
def canonical : Layout := ⟨-5, some 15, true, .toEven⟩

/-- Numbers in running text: places for every size, no point without need, a half upwards. -/
def plain : Layout := ⟨0, none, false, .up⟩

/-- Whether places are written for a decimal whose first digit has a given exponent. -/
def Layout.hasPlaces (layout : Layout) (exponent : Int) : Bool :=
  match layout.highest with
  | none => true
  | some highest => layout.lowest ≤ exponent && exponent ≤ highest

/-- Digits with places: the point behind, inside or before them.  The exponent is that of
the last digit, so it is negative exactly if some digit stands behind the point. -/
def placesText (layout : Layout) (digits : List Char) (exponent : Int) : List Char :=
  let zeros (n : Nat) := List.replicate n '0'
  -- How many of the digits stand before the point; none if the number is below one.
  let before : Int := digits.length + exponent
  if 0 ≤ exponent then
    digits ++ zeros exponent.natAbs ++ (if layout.pointZero then ['.', '0'] else [])
  else if 0 < before then digits.take before.natAbs ++ '.' :: digits.drop before.natAbs
  else '0' :: '.' :: (zeros before.natAbs ++ digits)

/-- Digits with an exponent, whose sign is always written.  The exponent is that of the
first digit, which stands alone in front of the point. -/
def exponentText (digits : List Char) (first : Int) : List Char :=
  let fraction := match digits.drop 1 with
    | [] => []
    | more => '.' :: more
  let sign := if first < 0 then '-' else '+'
  digits.take 1 ++ fraction ++ 'e' :: sign :: Nat.toDigits 10 first.natAbs

/-- A decimal without its sign. -/
def decimalText (layout : Layout) (decimal : Decimal) : List Char :=
  let digits := Nat.toDigits 10 decimal.digits
  let first : Int := digits.length - 1 + decimal.exponent
  if layout.hasPlaces first then placesText layout digits decimal.exponent
  else exponentText digits first

/-- The text of a value.  A zero has no shortest digits to look for and is written as the
one digit zero, with its sign. -/
def text (layout : Layout) : Binary64 → String
  | nan => "NaN"
  | infinite negative => if negative then "-inf" else "inf"
  | finite negative significand shift =>
    let decimal := if significand = 0 then ⟨0, 0⟩ else shortest layout.tie significand shift
    let sign := if negative then ['-'] else []
    String.ofList (sign ++ decimalText layout decimal)

/-- The text of a value as a number in a document. -/
def canonicalText (x : Binary64) : String := x.text canonical

/-- The text of a value without an exponent. -/
def plainText (x : Binary64) : String := x.text plain

end Binary64

/-- A value as a number, if it is finite. -/
def Number.ofBinary64? (x : Binary64) : Option Number :=
  if x.isFinite then Number.ofText? x.canonicalText else none

end FieldMask
