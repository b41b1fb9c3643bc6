import FieldMask.Text.Blank

namespace FieldMask

/-!
# Text in quotes for people to read

Inside the quotes every character shows: quotes, backslashes and the common control characters are
escaped with a letter, whatever leaves no mark of its own with its code point.

* `markless` — characters that leave no mark or join the one before, as ranges of code points.
* `debugQuoted` — a text in quotes.
-/

/-- Control and format characters, combining marks and code points without a character, as inclusive
ranges in ascending order. -/
def markless : List (Nat × Nat) :=
  [(0x00, 0x1F), (0x7F, 0x9F), (0xAD, 0xAD), (0x300, 0x36F), (0x483, 0x489), (0x591, 0x5BD),
   (0x600, 0x605), (0x610, 0x61A), (0x61C, 0x61C), (0x64B, 0x65F), (0x6DD, 0x6DD), (0x70F, 0x70F),
   (0x180B, 0x180F), (0x1AB0, 0x1ACE), (0x1DC0, 0x1DFF), (0x200B, 0x200F), (0x202A, 0x202E),
   (0x2060, 0x206F), (0x20D0, 0x20F0), (0xE000, 0xF8FF), (0xFE00, 0xFE0F), (0xFE20, 0xFE2F),
   (0xFEFF, 0xFEFF), (0xFFF0, 0xFFFB), (0xFFFE, 0xFFFF), (0xE0000, 0x10FFFF)]

/-- Whether a character shows as itself.  Of the blanks only the plain space does. -/
def isVisible (c : Char) : Bool :=
  c == ' ' ||
    !(isBlank c || markless.any fun (first, last) => first ≤ c.toNat && c.toNat ≤ last)

/-- One character inside the quotes.  Whatever does not show is written by its code point in
hexadecimal digits. -/
def debugChar (c : Char) : List Char :=
  match c with
  | '"' => ['\\', '"']
  | '\\' => ['\\', '\\']
  | '\n' => ['\\', 'n']
  | '\r' => ['\\', 'r']
  | '\t' => ['\\', 't']
  | '\x00' => ['\\', '0']
  | c => if isVisible c then [c] else "\\u\x7b".toList ++ Nat.toDigits 16 c.toNat ++ ['\x7d']

/-- A text in quotes. -/
def debugQuoted (s : String) : String :=
  String.ofList ('"' :: (s.toList.flatMap debugChar ++ ['"']))

end FieldMask
