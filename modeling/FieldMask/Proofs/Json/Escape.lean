import FieldMask.Json.Quoted
import FieldMask.Proofs.Json.Grammar
import FieldMask.Proofs.Text.Utf8

namespace FieldMask.Quoted

open JsonText

/-!
# Escapes

* `readUnit_eq_ok_iff`, `readTrailing_eq_ok_iff` — four hexadecimal digits, and the second half of a
  pair with its own escape.
* `readCodePoint_eq_ok`, `readCodePoint_unit`, `readCodePoint_pair` — what an escaped `u` denotes.
* `readEscape_eq_ok`, `readEscape_append` — what is read behind a backslash is an escape of the
  grammar, and the other way round.
-/

/-! ### Units -/

/-- A digit is read as its value, in capitals or not, and nothing else is read as a
digit. -/
theorem hexValue?_eq_some_iff {b : UInt8} {value : Nat} :
    hexValue? b = some value ↔ HexDigit b value := by
  have h0 : '0'.toNat = 0x30 := rfl
  have hA : 'A'.toNat = 0x41 := rfl
  have ha : 'a'.toNat = 0x61 := rfl
  simp only [hexValue?, HexDigit, h0, hA, ha]
  split
  · simp only [Option.some.injEq]
    omega
  · split
    · simp only [Option.some.injEq]
      omega
    · split
      · simp only [Option.some.injEq]
        omega
      · simp only [reduceCtorEq, false_iff]
        omega

/-- Four digits are read as the unit that they denote together. -/
theorem hexUnit?_eq_some_iff {a b c d : UInt8} {unit : Nat} :
    hexUnit? a b c d = some unit ↔ UnitText [a, b, c, d] unit := by
  simp only [hexUnit?, bind, pure, Option.bind_eq_some_iff, hexValue?_eq_some_iff,
    Option.some.injEq]
  constructor
  · rintro ⟨k, ha, l, hb, m, hc, n, hd, rfl⟩
    exact .mk ha hb hc hd
  · rintro ⟨ha, hb, hc, hd⟩
    exact ⟨_, ha, _, hb, _, hc, _, hd, rfl⟩

/-- What is read as a unit are four digits at the start of the text.  A text that is too
short for them is told from one with something else in it. -/
theorem readUnit_eq_ok_iff {bytes rest : List UInt8} {unit : Nat} :
    readUnit bytes = .ok (unit, rest) ↔
      ∃ digits, UnitText digits unit ∧ bytes = digits ++ rest := by
  constructor
  · intro h
    unfold readUnit at h
    split at h
    · split at h
      next hunit =>
        cases h
        exact ⟨_, hexUnit?_eq_some_iff.1 hunit, rfl⟩
      · cases h
    · cases h
  · rintro ⟨digits, hdigits, rfl⟩
    obtain @⟨a, b, c, d⟩ := id hdigits
    simp only [List.cons_append, List.nil_append, readUnit, hexUnit?_eq_some_iff.2 hdigits]

/-- The first halves of pairs have a range of their own. -/
theorem isLeading_iff {unit : Nat} : isLeading unit = true ↔ 0xD800 ≤ unit ∧ unit ≤ 0xDBFF := by
  rw [isLeading, Bool.and_eq_true, decide_eq_true_eq, decide_eq_true_eq]

/-- So have the second halves. -/
theorem isTrailing_iff {unit : Nat} : isTrailing unit = true ↔ 0xDC00 ≤ unit ∧ unit ≤ 0xDFFF := by
  rw [isTrailing, Bool.and_eq_true, decide_eq_true_eq, decide_eq_true_eq]

/-- The second half of a pair is read exactly where it is there: with an escape of its own,
and in the range of second halves. -/
theorem readTrailing_eq_ok_iff {bytes rest : List UInt8} {unit : Nat} :
    readTrailing bytes = .ok (unit, rest) ↔
      ∃ digits, UnitText digits unit ∧ (0xDC00 ≤ unit ∧ unit ≤ 0xDFFF) ∧
        bytes = 0x5C :: 0x75 :: digits ++ rest := by
  constructor
  · intro h
    unfold readTrailing at h
    split at h
    · cases h
    · cases h
    · split at h
      -- A backslash and a `u`, four digits behind them, and a unit of the right range.
      next hmark =>
        split at h
        · cases h
        next hunit =>
          split at h
          next htrailing =>
            cases h
            obtain ⟨digits, hdigits, rfl⟩ := readUnit_eq_ok_iff.1 hunit
            refine ⟨digits, hdigits, isTrailing_iff.1 htrailing, ?_⟩
            rw [hmark.1, hmark.2]
            rfl
          · cases h
      · cases h
  · rintro ⟨digits, hdigits, hunit, rfl⟩
    have hread : readUnit (digits ++ rest) = .ok (unit, rest) :=
      readUnit_eq_ok_iff.2 ⟨digits, hdigits, rfl⟩
    rw [List.cons_append, List.cons_append, readTrailing, if_pos ⟨rfl, rfl⟩, hread]
    exact if_pos (isTrailing_iff.2 hunit)

/-! ### Code points -/

/-- What is read behind an escaped `u` is a unit or a pair of the grammar. -/
theorem readCodePoint_eq_ok {bytes rest : List UInt8} {c : Char}
    (h : readCodePoint bytes = .ok (c, rest)) :
    ∃ more, EscapeText (0x75 :: more) c ∧ bytes = more ++ rest := by
  unfold readCodePoint at h
  split at h
  · cases h
  next hunit =>
    obtain ⟨digits, hdigits, rfl⟩ := readUnit_eq_ok_iff.1 hunit
    split at h
    · cases h
    next htrailing =>
      split at h
      -- A first half, which only a second one completes.
      next hleading =>
        split at h
        · cases h
        next hsecond =>
          obtain ⟨rfl, rfl⟩ := Prod.mk.inj (Except.ok.inj h)
          obtain ⟨digits', hdigits', hunit', rfl⟩ := readTrailing_eq_ok_iff.1 hsecond
          exact ⟨digits ++ 0x5C :: 0x75 :: digits',
            .pair hdigits hdigits' (isLeading_iff.1 hleading) hunit', by simp⟩
      next hleading =>
        -- A unit that is neither half of a pair is a character by itself.
        cases h
        refine ⟨digits, .unit hdigits ?_, rfl⟩
        rw [isTrailing_iff] at htrailing
        rw [isLeading_iff] at hleading
        omega

/-- A unit outside of the two ranges is read as its character, whatever follows.  The two
ranges are those of the halves of a pair. -/
theorem readCodePoint_unit {digits : List UInt8} {unit : Nat} (h : UnitText digits unit)
    (hsingle : unit < 0xD800 ∨ 0xDFFF < unit) (rest : List UInt8) :
    readCodePoint (digits ++ rest) = .ok (Char.ofNat unit, rest) := by
  have htrailing : ¬isTrailing unit = true := by
    rw [isTrailing_iff]
    omega
  have hleading : ¬isLeading unit = true := by
    rw [isLeading_iff]
    omega
  rw [readCodePoint, readUnit_eq_ok_iff.2 ⟨digits, h, rfl⟩]
  dsimp only
  rw [if_neg htrailing, if_neg hleading]

/-- Two halves with an escape between them are read as the one character that they
denote. -/
theorem readCodePoint_pair {digits digits' : List UInt8} {first second : Nat}
    (h : UnitText digits first) (h' : UnitText digits' second)
    (hfirst : 0xD800 ≤ first ∧ first ≤ 0xDBFF) (hsecond : 0xDC00 ≤ second ∧ second ≤ 0xDFFF)
    (rest : List UInt8) :
    readCodePoint (digits ++ 0x5C :: 0x75 :: digits' ++ rest) =
      .ok (Char.ofNat ((first - 0xD800) * 0x400 + (second - 0xDC00) + 0x10000), rest) := by
  have htrailing : ¬isTrailing first = true := by
    rw [isTrailing_iff]
    omega
  have hread : readTrailing (0x5C :: 0x75 :: digits' ++ rest) = .ok (second, rest) :=
    readTrailing_eq_ok_iff.2 ⟨digits', h', hsecond, rfl⟩
  rw [readCodePoint, List.append_assoc, readUnit_eq_ok_iff.2 ⟨digits, h, rfl⟩]
  dsimp only
  rw [if_neg htrailing, if_pos (isLeading_iff.2 hfirst), hread]
  rfl

/-! ### Letters -/

/-- The byte whose number is that of a character is the character cut down to a byte. -/
theorem eq_toUInt8_of_ofNat_eq {b : UInt8} {c : Char} (h : Char.ofNat b.toNat = c) :
    b = c.toUInt8 := by
  have hvalid : b.toNat.isValidChar := .inl (Nat.lt_trans b.toNat_lt (by decide))
  rw [← h, Char.ofNat, dif_pos hvalid]
  exact (UInt8.toUInt8_toUInt32 b).symm

/-- A letter that is read as an escape is one of the grammar's, with the byte of its
character. -/
theorem letterEscape?_eq_some {b out : UInt8} (h : letterEscape? b = some out) :
    ∃ l c, (l, c) ∈ letterEscapes ∧ b = l.toUInt8 ∧ String.utf8EncodeChar c = [out] := by
  unfold letterEscape? at h
  split at h <;> cases h <;> rename_i hb
  · exact ⟨'"', '"', by decide, eq_toUInt8_of_ofNat_eq hb, rfl⟩
  · exact ⟨'\\', '\\', by decide, eq_toUInt8_of_ofNat_eq hb, rfl⟩
  · exact ⟨'/', '/', by decide, eq_toUInt8_of_ofNat_eq hb, rfl⟩
  · exact ⟨'b', '\x08', by decide, eq_toUInt8_of_ofNat_eq hb, rfl⟩
  · exact ⟨'f', '\x0c', by decide, eq_toUInt8_of_ofNat_eq hb, rfl⟩
  · exact ⟨'n', '\n', by decide, eq_toUInt8_of_ofNat_eq hb, rfl⟩
  · exact ⟨'r', '\r', by decide, eq_toUInt8_of_ofNat_eq hb, rfl⟩
  · exact ⟨'t', '\t', by decide, eq_toUInt8_of_ofNat_eq hb, rfl⟩

/-- Each letter of the grammar is read as an escape. -/
theorem letterEscape?_of_mem {l c : Char} (h : (l, c) ∈ letterEscapes) :
    ∃ out, letterEscape? l.toUInt8 = some out ∧ String.utf8EncodeChar c = [out] := by
  simp only [letterEscapes, List.mem_cons, Prod.mk.injEq, List.not_mem_nil, or_false] at h
  rcases h with ⟨rfl, rfl⟩ | ⟨rfl, rfl⟩ | ⟨rfl, rfl⟩ | ⟨rfl, rfl⟩ | ⟨rfl, rfl⟩ | ⟨rfl, rfl⟩ |
    ⟨rfl, rfl⟩ | ⟨rfl, rfl⟩
  all_goals exact ⟨_, rfl, rfl⟩

/-! ### Escapes -/

/-- What is read behind a backslash is an escape of the grammar, and what it gives is its
character in UTF-8. -/
theorem readEscape_eq_ok {bytes out rest : List UInt8} (h : readEscape bytes = .ok (out, rest)) :
    ∃ more c, EscapeText more c ∧ out = String.utf8EncodeChar c ∧ bytes = more ++ rest := by
  unfold readEscape at h
  split at h
  · cases h
  next letter rest' =>
    split at h
    -- One letter, or a `u` with digits behind it.
    next b hletter =>
      cases h
      obtain ⟨l, c, hmem, rfl, hout⟩ := letterEscape?_eq_some hletter
      exact ⟨[l.toUInt8], c, .letter hmem, hout.symm, rfl⟩
    · split at h
      next hu =>
        split at h
        · cases h
        next hread =>
          cases h
          obtain ⟨more, hescape, rfl⟩ := readCodePoint_eq_ok hread
          exact ⟨0x75 :: more, _, hescape, rfl, by rw [hu]; rfl⟩
      · cases h

/-- An escape of the grammar is read, whatever follows it, and gives its character in
UTF-8. -/
theorem readEscape_append {bytes : List UInt8} {c : Char} (h : EscapeText bytes c)
    (rest : List UInt8) : readEscape (bytes ++ rest) = .ok (String.utf8EncodeChar c, rest) := by
  -- Both forms with digits go through `readCodePoint` alike.
  have hcode {digits : List UInt8} {d : Char} (h : readCodePoint (digits ++ rest) = .ok (d, rest)) :
      readEscape (0x75 :: digits ++ rest) = .ok (String.utf8EncodeChar d, rest) := by
    rw [List.cons_append, readEscape, show letterEscape? 0x75 = none from rfl]
    dsimp only
    rw [if_pos rfl, h]
  cases h with
  | letter h =>
    obtain ⟨out, hletter, hout⟩ := letterEscape?_of_mem h
    rw [List.cons_append, readEscape, hletter, hout]
    rfl
  | unit h hsingle => exact hcode (readCodePoint_unit h hsingle rest)
  | pair h h' hfirst hsecond => exact hcode (readCodePoint_pair h h' hfirst hsecond rest)

end FieldMask.Quoted
