import FieldMask.Json.Fault

namespace FieldMask

/-!
# String literals of JSON

* `Quoted.encode` — the literal of a string: quotes, backslashes and control characters are
  escaped, everything else stands for itself.
* `Quoted.read` — the bytes that a literal denotes, read from behind its opening quote;
  `Quoted.skip` — the same text passed over without a look at what its escapes denote.
-/

namespace Quoted

/-- The lowercase hexadecimal digit of a number below sixteen. -/
def hexDigit (n : Nat) : Char := Nat.digitChar (n % 16)

/-- One character inside a literal.  Every character is written by its shortest escape, or
as itself where it needs none. -/
def escape (c : Char) : List Char :=
  if c = '"' then ['\\', '"']
  else if c = '\\' then ['\\', '\\']
  else if c = '\x08' then ['\\', 'b']
  else if c = '\t' then ['\\', 't']
  else if c = '\n' then ['\\', 'n']
  else if c = '\x0c' then ['\\', 'f']
  else if c = '\r' then ['\\', 'r']
  else if c.toNat < 0x20 then ['\\', 'u', '0', '0', hexDigit (c.toNat / 16), hexDigit c.toNat]
  else [c]

/-- The literal of a string, quotes included. -/
def encode (s : String) : List Char := '"' :: (s.toList.flatMap escape ++ ['"'])

/-! ### Reading -/

/-- The quote that ends a literal. -/
def quote : UInt8 := 0x22

/-- The backslash that starts an escape. -/
def backslash : UInt8 := 0x5C

/-- The byte that a one-letter escape denotes.  A slash may be escaped, but is never written
so. -/
def letterEscape? (letter : UInt8) : Option UInt8 :=
  match Char.ofNat letter.toNat with
  | '"' => some 0x22
  | '\\' => some 0x5C
  | '/' => some 0x2F
  | 'b' => some 0x08
  | 'f' => some 0x0C
  | 'n' => some 0x0A
  | 'r' => some 0x0D
  | 't' => some 0x09
  | _ => none

/-- The value of a hexadecimal digit.  Letters of both cases are digits. -/
def hexValue? (digit : UInt8) : Option Nat :=
  let n := digit.toNat
  if 0x30 ≤ n ∧ n ≤ 0x39 then some (n - 0x30)
  else if 0x41 ≤ n ∧ n ≤ 0x46 then some (n - 0x41 + 10)
  else if 0x61 ≤ n ∧ n ≤ 0x66 then some (n - 0x61 + 10)
  else none

/-- The value of four hexadecimal digits.  The first digit counts most. -/
def hexUnit? (a b c d : UInt8) : Option Nat := do
  let a ← hexValue? a
  let b ← hexValue? b
  let c ← hexValue? c
  let d ← hexValue? d
  return ((a * 16 + b) * 16 + c) * 16 + d

/-- Whether a sixteen-bit unit is the first half of a pair. -/
def isLeading (unit : Nat) : Bool := 0xD800 ≤ unit && unit ≤ 0xDBFF

/-- Whether a sixteen-bit unit is the second half of a pair. -/
def isTrailing (unit : Nat) : Bool := 0xDC00 ≤ unit && unit ≤ 0xDFFF

/-- The character that two halves denote together. -/
def joinUnits (leading trailing : Nat) : Char :=
  Char.ofNat ((leading - 0xD800) * 0x400 + (trailing - 0xDC00) + 0x10000)

/-- Reads the four digits behind an escaped `u`; a text that is too short for them breaks
off.  Too short is asked first, even if the digits that are there are no digits. -/
def readUnit (bytes : List UInt8) : Except TextFault (Nat × List UInt8) :=
  match bytes with
  | a :: b :: c :: d :: rest =>
    match hexUnit? a b c d with
    | some unit => .ok (unit, rest)
    | none => .error .malformed
  | _ => .error .truncated

/-- Reads the second half of a pair, escape and all.  A first half must be followed by a
second one at once, so anything else is a mistake. -/
def readTrailing (bytes : List UInt8) : Except TextFault (Nat × List UInt8) :=
  match bytes with
  | [] => .error .truncated
  | [b] => .error (if b = backslash then .truncated else .malformed)
  | b :: letter :: rest =>
    if b = backslash ∧ letter = 0x75 then
      match readUnit rest with
      | .error fault => .error fault
      | .ok (unit, rest) => if isTrailing unit then .ok (unit, rest) else .error .malformed
    else .error .malformed

/-- Reads what an escaped `u` denotes: a character, or the two halves of one.  A second half
that comes first is a mistake, before what follows it is looked at. -/
def readCodePoint (bytes : List UInt8) : Except TextFault (Char × List UInt8) :=
  match readUnit bytes with
  | .error fault => .error fault
  | .ok (unit, rest) =>
    if isTrailing unit then .error .malformed
    else if isLeading unit then
      match readTrailing rest with
      | .error fault => .error fault
      | .ok (second, rest) => .ok (joinUnits unit second, rest)
    else .ok (Char.ofNat unit, rest)

/-- Reads what a backslash announces: the bytes that the escape denotes.  An escaped letter
denotes one byte; a unit or a pair of units denotes a character, which is several bytes in
general. -/
def readEscape (bytes : List UInt8) : Except TextFault (List UInt8 × List UInt8) :=
  match bytes with
  | [] => .error .truncated
  | letter :: rest =>
    match letterEscape? letter with
    | some b => .ok ([b], rest)
    | none =>
      if letter = 0x75 then
        match readCodePoint rest with
        | .error fault => .error fault
        | .ok (c, rest) => .ok (String.utf8EncodeChar c, rest)
      else .error .malformed

/-- Passes over what a backslash announces.  The four digits of a unit must be digits, but
what they denote is not asked. -/
def skipEscape (bytes : List UInt8) : Except TextFault (List UInt8) :=
  match bytes with
  | [] => .error .truncated
  | letter :: rest =>
    match letterEscape? letter with
    | some _ => .ok rest
    | none =>
      if letter = 0x75 then
        match readUnit rest with
        | .error fault => .error fault
        | .ok (_, rest) => .ok rest
      else .error .malformed

/-! ### No escape gives back more than it takes -/

/-- Behind four digits there is no more left than before them. -/
theorem readUnit_length_le {bytes rest : List UInt8} {unit : Nat}
    (h : readUnit bytes = .ok (unit, rest)) : rest.length ≤ bytes.length := by
  unfold readUnit at h
  grind

/-- Behind the second half of a pair there is no more left than before it. -/
theorem readTrailing_length_le {bytes rest : List UInt8} {unit : Nat}
    (h : readTrailing bytes = .ok (unit, rest)) : rest.length ≤ bytes.length := by
  unfold readTrailing at h
  grind [→ readUnit_length_le]

/-- Behind a code point there is no more left than before it, be it one unit or two. -/
theorem readCodePoint_length_le {bytes rest : List UInt8} {c : Char}
    (h : readCodePoint bytes = .ok (c, rest)) : rest.length ≤ bytes.length := by
  unfold readCodePoint at h
  grind [→ readUnit_length_le, → readTrailing_length_le]

/-- Behind an escape there is no more left than before it.  The backslash has been taken
already, so this is enough for the rest of a literal to be shorter. -/
theorem readEscape_length_le {bytes rest out : List UInt8}
    (h : readEscape bytes = .ok (out, rest)) : rest.length ≤ bytes.length := by
  unfold readEscape at h
  grind [→ readCodePoint_length_le]

/-- The same of an escape that is passed over. -/
theorem skipEscape_length_le {bytes rest : List UInt8} (h : skipEscape bytes = .ok rest) :
    rest.length ≤ bytes.length := by
  unfold skipEscape at h
  grind [→ readUnit_length_le]

/-- Puts some bytes before those that a literal goes on with. -/
def prepend (out : List UInt8) (result : Except TextFault (List UInt8 × List UInt8)) :
    Except TextFault (List UInt8 × List UInt8) :=
  match result with
  | .error fault => .error fault
  | .ok (more, rest) => .ok (out ++ more, rest)

/-- A literal that goes on with some bytes has a rest that can be read. -/
theorem eq_ok_of_prepend {out bytes rest : List UInt8}
    {result : Except TextFault (List UInt8 × List UInt8)}
    (h : prepend out result = .ok (bytes, rest)) : ∃ more, result = .ok (more, rest) := by
  unfold prepend at h
  split at h
  · cases h
  · cases h
    exact ⟨_, rfl⟩

/-- Reads the rest of a literal from behind its opening quote: the bytes that it denotes, and what
follows its closing quote. -/
def read (bytes : List UInt8) : Except TextFault (List UInt8 × List UInt8) :=
  match bytes with
  | [] => .error .truncated
  | b :: rest =>
    if b = quote then .ok ([], rest)
    else if b = backslash then
      match _h : readEscape rest with
      | .error fault => .error fault
      | .ok (out, rest') => prepend out (read rest')
    else if b < 0x20 then .error .malformed
    else prepend [b] (read rest)
termination_by bytes.length
decreasing_by
  · have := readEscape_length_le ‹_›
    simp only [List.length_cons]
    omega
  · simp

/-- Passes over the rest of a literal from behind its opening quote.  Unlike a reader it
accepts halves of a pair and bytes that are not UTF-8. -/
def skip (bytes : List UInt8) : Except TextFault (List UInt8) :=
  match bytes with
  | [] => .error .truncated
  | b :: rest =>
    if b = quote then .ok rest
    else if b = backslash then
      match _h : skipEscape rest with
      | .error fault => .error fault
      | .ok rest' => skip rest'
    else if b < 0x20 then .error .malformed
    else skip rest
termination_by bytes.length
decreasing_by
  · have := skipEscape_length_le ‹_›
    simp only [List.length_cons]
    omega
  · simp

/-- A literal that is passed over takes its closing quote at least. -/
theorem length_of_skip {bytes rest : List UInt8} (h : skip bytes = .ok rest) :
    rest.length < bytes.length := by
  fun_induction skip bytes with
  | case1 => cases h
  | case2 => cases h; simp
  | case3 => cases h
  -- An escape: the backslash is one byte, and what it announces gives back no more than it takes.
  | case4 _ _ hescape _ ih =>
    have := ih h
    have := skipEscape_length_le hescape
    simp only [List.length_cons]
    omega
  | case5 => cases h
  | case6 _ _ _ _ _ ih => exact Nat.lt_succ_of_lt (ih h)

/-- Reads the rest of a literal as a string; what it denotes must be characters in UTF-8.
Only a literal that was read to its closing quote is asked for this. -/
def readString (bytes : List UInt8) : Except TextFault (String × List UInt8) :=
  match read bytes with
  | .error fault => .error fault
  | .ok (out, rest) =>
    match String.fromUTF8? ⟨out.toArray⟩ with
    | some s => .ok (s, rest)
    | none => .error .malformed

/-- A literal that has been read has taken its closing quote at least. -/
theorem length_of_read {bytes rest out : List UInt8} (h : read bytes = .ok (out, rest)) :
    rest.length < bytes.length := by
  fun_induction read bytes generalizing out with
  | case1 => cases h
  | case2 => cases h; simp
  | case3 => cases h
  -- An escape, and below it a character that stands for itself.
  | case4 _ _ _ hescape _ ih =>
    obtain ⟨more, hmore⟩ := eq_ok_of_prepend h
    have := ih hmore
    have := readEscape_length_le hescape
    simp only [List.length_cons]
    omega
  | case5 => cases h
  | case6 _ _ _ _ _ ih =>
    obtain ⟨more, hmore⟩ := eq_ok_of_prepend h
    exact Nat.lt_succ_of_lt (ih hmore)

/-- The same of a literal whose bytes are characters. -/
theorem length_of_readString {bytes rest : List UInt8} {s : String}
    (h : readString bytes = .ok (s, rest)) : rest.length < bytes.length := by
  unfold readString at h
  split at h
  · cases h
  next hread =>
    split at h
    · cases h
      exact length_of_read hread
    · cases h

end Quoted

end FieldMask
