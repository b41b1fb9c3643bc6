import FieldMask.Document.Basic
import FieldMask.Json.Byte
import FieldMask.Json.Writer

namespace FieldMask.JsonText

/-!
# The grammar of JSON texts

What some bytes denote, said without a reader, after the grammar of RFC 8259:

* `Spaces` — the bytes that may stand around tokens.
* `NumeralText`, `NumberText` — a numeral, and the number that it stands for.
* `EscapeText`, `CharText`, `LiteralText` — an escape and a character inside of a string literal,
  and a whole literal.
* `ValueText`, `ItemsText`, `MembersText` — a value, and what stands behind an opening bracket.
* `Denotes` — a whole text and its document.

The relations with two lists of bytes say that the first one begins with such a text and that the
second one is what follows it, so that no rule has to put lists together.
-/

/-! ### Spaces -/

/-- Some bytes are spaces, if any, and then the rest. -/
def Spaces (bytes rest : List UInt8) : Prop :=
  ∃ spaces, bytes = spaces ++ rest ∧ ∀ b ∈ spaces, b ∈ [0x20, 0x09, 0x0A, 0x0D]

/-- The reader's spaces are the four of the grammar. -/
theorem isSpace_iff {b : UInt8} : JsonByte.isSpace b = true ↔ b ∈ [0x20, 0x09, 0x0A, 0x0D] := by
  simp [JsonByte.isSpace, or_assoc]

namespace Spaces

variable {bytes first rest : List UInt8}

/-- No spaces are spaces. -/
theorem refl (bytes : List UInt8) : Spaces bytes bytes := ⟨[], rfl, by simp⟩

/-- Spaces with more of them behind are spaces. -/
theorem trans (h : Spaces bytes first) (h' : Spaces first rest) : Spaces bytes rest := by
  obtain ⟨spaces, rfl, hspaces⟩ := h
  obtain ⟨spaces', rfl, hspaces'⟩ := h'
  refine ⟨spaces ++ spaces', (List.append_assoc ..).symm, ?_⟩
  intro b hb
  exact (List.mem_append.1 hb).elim (hspaces b) (hspaces' b)

/-- Spaces are spaces whatever follows them. -/
theorem frame (h : Spaces bytes rest) :
    ∃ spaces, bytes = spaces ++ rest ∧ ∀ rest', Spaces (spaces ++ rest') rest' := by
  obtain ⟨spaces, rfl, hspaces⟩ := h
  exact ⟨spaces, rfl, fun rest' => ⟨spaces, rfl, hspaces⟩⟩

/-- All that is dropped as spaces are spaces. -/
theorem dropWhile (bytes : List UInt8) : Spaces bytes (bytes.dropWhile JsonByte.isSpace) := by
  refine ⟨bytes.takeWhile JsonByte.isSpace, List.takeWhile_append_dropWhile.symm, ?_⟩
  intro b hb
  exact isSpace_iff.1 (List.all_eq_true.1 List.all_takeWhile b hb)

/-- What stands behind all the spaces is the same from wherever among them one begins. -/
theorem dropWhile_eq (h : Spaces bytes rest) :
    bytes.dropWhile JsonByte.isSpace = rest.dropWhile JsonByte.isSpace := by
  obtain ⟨spaces, rfl, hspaces⟩ := h
  exact List.dropWhile_append_of_pos fun b hb => isSpace_iff.2 (hspaces b hb)

/-- All the spaces have been passed over where something else stands. -/
theorem dropWhile_cons {b : UInt8} (h : Spaces bytes (b :: rest))
    (hb : JsonByte.isSpace b = false) : bytes.dropWhile JsonByte.isSpace = b :: rest := by
  rw [h.dropWhile_eq, List.dropWhile_cons_of_neg (Bool.eq_false_iff.1 hb)]

end Spaces

/-! ### Numerals -/

/-- At least one decimal digit. -/
def Digits (cs : List Char) : Prop := cs ≠ [] ∧ ∀ c ∈ cs, c.isDigit = true

/-- The integer part of a numeral: digits that do not begin with zero, or a single zero. -/
inductive WholeText : List Char → Prop where
  | zero : WholeText ['0']
  | digits {cs : List Char} (hcs : Digits cs) (hhead : cs.head? ≠ some '0') : WholeText cs

/-- The fraction of a numeral, which may be missing. -/
inductive FractionText : List Char → Prop where
  | none : FractionText []
  | point {cs : List Char} (hcs : Digits cs) : FractionText ('.' :: cs)

/-- The exponent of a numeral, which may be missing. -/
inductive ExponentText : List Char → Prop where
  | none : ExponentText []
  | mark {c : Char} {sign cs : List Char} (hc : c = 'e' ∨ c = 'E')
      (hsign : sign ∈ [[], ['+'], ['-']]) (hcs : Digits cs) : ExponentText (c :: (sign ++ cs))

/-- A numeral. -/
inductive NumeralText : List Char → Prop where
  | mk {minus whole fraction exponent : List Char} (hminus : minus ∈ [[], ['-']])
      (hwhole : WholeText whole) (hfraction : FractionText fraction)
      (hexponent : ExponentText exponent) :
      NumeralText (minus ++ (whole ++ (fraction ++ exponent)))

/-- A numeral stands for the number with its text, but a bare negative zero stands for zero. -/
structure NumberText (cs : List Char) (n : Number) : Prop where
  numeral : NumeralText cs
  text_eq : n.text.toList = if cs = ['-', '0'] then ['0'] else cs

/-! ### String literals -/

/-- The value of a hexadecimal digit, in either case. -/
def HexDigit (b : UInt8) (value : Nat) : Prop :=
  (value < 10 ∧ b.toNat = '0'.toNat + value) ∨
    (10 ≤ value ∧ value < 16 ∧
      (b.toNat = 'A'.toNat + (value - 10) ∨ b.toNat = 'a'.toNat + (value - 10)))

/-- Four hexadecimal digits and the sixteen-bit unit that they denote. -/
inductive UnitText : List UInt8 → Nat → Prop where
  | mk {a b c d : UInt8} {k l m n : Nat} (ha : HexDigit a k) (hb : HexDigit b l)
      (hc : HexDigit c m) (hd : HexDigit d n) :
      UnitText [a, b, c, d] (((k * 16 + l) * 16 + m) * 16 + n)

/-- The letters that may stand behind a backslash, and the characters that they denote. -/
def letterEscapes : List (Char × Char) :=
  [('"', '"'), ('\\', '\\'), ('/', '/'), ('b', '\x08'), ('f', '\x0c'), ('n', '\n'), ('r', '\r'),
   ('t', '\t')]

/-- What may stand behind a backslash, and the character that it denotes.  Characters that need more
than sixteen bits are denoted by two units. -/
inductive EscapeText : List UInt8 → Char → Prop where
  | letter {l c : Char} (h : (l, c) ∈ letterEscapes) : EscapeText [l.toUInt8] c
  | unit {digits : List UInt8} {unit : Nat} (h : UnitText digits unit)
      (hsingle : unit < 0xD800 ∨ 0xDFFF < unit) : EscapeText (0x75 :: digits) (Char.ofNat unit)
  | pair {digits digits' : List UInt8} {first second : Nat} (h : UnitText digits first)
      (h' : UnitText digits' second) (hfirst : 0xD800 ≤ first ∧ first ≤ 0xDBFF)
      (hsecond : 0xDC00 ≤ second ∧ second ≤ 0xDFFF) :
      EscapeText (0x75 :: (digits ++ 0x5C :: 0x75 :: digits'))
        (Char.ofNat ((first - 0xD800) * 0x400 + (second - 0xDC00) + 0x10000))

/-- The bytes of one character inside of a literal. -/
inductive CharText : List UInt8 → Char → Prop where
  | plain {c : Char} (hcontrol : 0x20 ≤ c.toNat) (hquote : c ≠ '"') (hbackslash : c ≠ '\\') :
      CharText (String.utf8EncodeChar c) c
  | escape {bytes : List UInt8} {c : Char} (h : EscapeText bytes c) : CharText (0x5C :: bytes) c

/-- The characters of a literal, from behind its opening quote through its closing one. -/
inductive CharsText : List UInt8 → List Char → List UInt8 → Prop where
  | close {rest : List UInt8} : CharsText (0x22 :: rest) [] rest
  | char {bytes more rest : List UInt8} {c : Char} {cs : List Char} (hchar : CharText bytes c)
      (hchars : CharsText more cs rest) : CharsText (bytes ++ more) (c :: cs) rest

/-- A string literal.  Its characters may be any; which of them must be escaped is said by
`CharText`. -/
inductive LiteralText : List UInt8 → String → List UInt8 → Prop where
  | mk {bytes rest : List UInt8} {s : String} (h : CharsText bytes s.toList rest) :
      LiteralText (0x22 :: bytes) s rest

/-! ### Values -/

/-- A value without parts.  A number is not said to end here; that no digit follows it is
asked where it is read. -/
inductive ScalarText : List UInt8 → Scalar → List UInt8 → Prop where
  | null {rest : List UInt8} : ScalarText (utf8Bytes "null".toList ++ rest) .null rest
  | true {rest : List UInt8} : ScalarText (utf8Bytes "true".toList ++ rest) (.bool true) rest
  | false {rest : List UInt8} : ScalarText (utf8Bytes "false".toList ++ rest) (.bool false) rest
  | number {cs : List Char} {n : Number} {rest : List UInt8} (h : NumberText cs n) :
      ScalarText (utf8Bytes cs ++ rest) (.number n) rest
  | string {bytes rest : List UInt8} {s : String} (h : LiteralText bytes s rest) :
      ScalarText bytes (.string s) rest

mutual

/-- A value.  Containers say what stands behind their opening bracket, and so does every
rule below, so a text is taken apart from its front. -/
inductive ValueText : List UInt8 → Doc → List UInt8 → Prop where
  | scalar {bytes rest : List UInt8} {value : Scalar} (h : ScalarText bytes value rest) :
      ValueText bytes (.scalar value) rest
  | array {bytes rest : List UInt8} {items : List Doc} (h : ItemsText bytes items rest) :
      ValueText (0x5B :: bytes) (.array items) rest
  | object {bytes rest : List UInt8} {members : List (String × Doc)}
      (h : MembersText bytes members rest) : ValueText (0x7B :: bytes) (.object members) rest

/-- The items of an array and its closing bracket.  Spaces may stand in front of either. -/
inductive ItemsText : List UInt8 → List Doc → List UInt8 → Prop where
  | none {bytes rest : List UInt8} (hspaces : Spaces bytes (0x5D :: rest)) :
      ItemsText bytes [] rest
  | some {bytes first more rest : List UInt8} {item : Doc} {items : List Doc}
      (hspaces : Spaces bytes first) (hitem : ValueText first item more)
      (hitems : MoreItemsText more items rest) : ItemsText bytes (item :: items) rest

/-- The items of an array that follow another one, and the closing bracket.  Each has a
comma in front of it, with spaces on either side. -/
inductive MoreItemsText : List UInt8 → List Doc → List UInt8 → Prop where
  | none {bytes rest : List UInt8} (hspaces : Spaces bytes (0x5D :: rest)) :
      MoreItemsText bytes [] rest
  | some {bytes behind first more rest : List UInt8} {item : Doc} {items : List Doc}
      (hcomma : Spaces bytes (0x2C :: behind)) (hspaces : Spaces behind first)
      (hitem : ValueText first item more) (hitems : MoreItemsText more items rest) :
      MoreItemsText bytes (item :: items) rest

/-- A member: its name, a colon and its value. -/
inductive MemberText : List UInt8 → String → Doc → List UInt8 → Prop where
  | mk {bytes behind more first rest : List UInt8} {name : String} {value : Doc}
      (hname : LiteralText bytes name behind) (hcolon : Spaces behind (0x3A :: more))
      (hspaces : Spaces more first) (hvalue : ValueText first value rest) :
      MemberText bytes name value rest

/-- The members of an object and its closing bracket.  Spaces may stand in front of
either. -/
inductive MembersText : List UInt8 → List (String × Doc) → List UInt8 → Prop where
  | none {bytes rest : List UInt8} (hspaces : Spaces bytes (0x7D :: rest)) :
      MembersText bytes [] rest
  | some {bytes first more rest : List UInt8} {name : String} {value : Doc}
      {members : List (String × Doc)} (hspaces : Spaces bytes first)
      (hmember : MemberText first name value more)
      (hmembers : MoreMembersText more members rest) :
      MembersText bytes ((name, value) :: members) rest

/-- The members of an object that follow another one, and the closing bracket.  Each has a
comma in front of it, with spaces on either side. -/
inductive MoreMembersText : List UInt8 → List (String × Doc) → List UInt8 → Prop where
  | none {bytes rest : List UInt8} (hspaces : Spaces bytes (0x7D :: rest)) :
      MoreMembersText bytes [] rest
  | some {bytes behind first more rest : List UInt8} {name : String} {value : Doc}
      {members : List (String × Doc)} (hcomma : Spaces bytes (0x2C :: behind))
      (hspaces : Spaces behind first) (hmember : MemberText first name value more)
      (hmembers : MoreMembersText more members rest) :
      MoreMembersText bytes ((name, value) :: members) rest

end

/-- What a whole text denotes: one value, with spaces around it.  Some texts denote nothing,
and those are the ones that a reader refuses. -/
inductive Denotes : List UInt8 → Doc → Prop where
  | mk {bytes first rest : List UInt8} {doc : Doc} (hbefore : Spaces bytes first)
      (hvalue : ValueText first doc rest) (hafter : Spaces rest []) : Denotes bytes doc

end FieldMask.JsonText
