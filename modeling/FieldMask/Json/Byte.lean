namespace FieldMask.JsonByte

/-!
# Classes of bytes in JSON text

* `isSpace` — the bytes that may stand between tokens.
* `inNumeral` — the bytes of which numerals consist.
-/

/-- Whether a byte is one of the four that may stand between tokens. -/
def isSpace (b : UInt8) : Bool := b == 0x20 || b == 0x09 || b == 0x0A || b == 0x0D

/-- Whether a byte can be part of a numeral. -/
def inNumeral (b : UInt8) : Bool :=
  match Char.ofUInt8 b with
  | '-' | '+' | '.' | 'e' | 'E' => true
  | c => c.isDigit

end FieldMask.JsonByte
