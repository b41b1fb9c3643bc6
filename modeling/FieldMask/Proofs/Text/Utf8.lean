import FieldMask.Json.Writer
import Mathlib.Data.UInt

namespace FieldMask

/-!
# Characters and their bytes

* `toList_toUTF8` — the bytes of a string are those of its characters.
* `fromUTF8?_eq_some_iff` — some bytes are read as a string if they are the bytes of its characters.
* `utf8EncodeChar_of_ascii` — a character below 128 is one byte.
* `map_ofUInt8_utf8Bytes`, `utf8Bytes_map_ofUInt8` — such characters and their bytes.
* `append_utf8EncodeChar_inj` — no character's bytes begin with those of another.
* `exists_utf8EncodeChar_eq_cons` — the first byte of a character never stands further back in one.
-/

/-! ### Byte arrays as lists -/

/-- The loop that lists the bytes of an array has, at every index, the bytes from there on
still to add to those it has gathered in reverse. -/
theorem toList_loop_eq (bytes : ByteArray) (i : Nat) (before : List UInt8) :
    ByteArray.toList.loop bytes i before = before.reverse ++ bytes.data.toList.drop i := by
  fun_induction ByteArray.toList.loop bytes i before with
  | case1 i before h ih =>
    have hi : i < bytes.data.toList.length := by simpa using h
    rw [ih, List.drop_eq_getElem_cons hi]
    simp [ByteArray.get!, h]
  | case2 i before h =>
    rw [List.drop_eq_nil_of_le (by simpa using Nat.le_of_not_lt h)]
    simp

/-- The list of a byte array, element by element, is the list of the array inside of it. -/
theorem toList_eq_toList_data (bytes : ByteArray) : bytes.toList = bytes.data.toList := by
  simp [ByteArray.toList, toList_loop_eq]

/-! ### Characters -/

@[simp] theorem utf8Bytes_nil : utf8Bytes [] = [] := rfl

@[simp] theorem utf8Bytes_cons (c : Char) (cs : List Char) :
    utf8Bytes (c :: cs) = String.utf8EncodeChar c ++ utf8Bytes cs := rfl

@[simp] theorem utf8Bytes_append (cs cs' : List Char) :
    utf8Bytes (cs ++ cs') = utf8Bytes cs ++ utf8Bytes cs' := List.flatMap_append

/-- A character below 128 is one byte, of the same number. -/
theorem utf8EncodeChar_of_ascii {c : Char} (h : c.toNat < 0x80) :
    String.utf8EncodeChar c = [c.toUInt8] := by
  have hsize : c.utf8Size = 1 := by
    rw [Char.utf8Size_eq_one_iff, UInt32.le_iff_toNat_le]
    exact Nat.le_of_lt_succ h
  exact String.utf8EncodeChar_eq_singleton hsize

/-- A character below 128 is not changed on its way through a byte. -/
theorem ofUInt8_toUInt8 {c : Char} (h : c.toNat < 0x80) : Char.ofUInt8 c.toUInt8 = c := by
  apply Char.ext
  rw [← UInt32.toNat_inj]
  show c.val.toNat % 2 ^ 8 = c.val.toNat
  have : c.val.toNat < 0x80 := h
  omega

/-- The byte that is taken for a character is that character cut down to a byte. -/
theorem eq_toUInt8_of_ofUInt8_eq {b : UInt8} {c : Char} (h : Char.ofUInt8 b = c) :
    b = c.toUInt8 := by
  rw [← h]
  exact (UInt8.toUInt8_toUInt32 b).symm

/-- The character that a byte below 128 is taken for has that byte as its code. -/
theorem utf8EncodeChar_ofUInt8 {b : UInt8} (h : b.toNat < 0x80) :
    String.utf8EncodeChar (Char.ofUInt8 b) = [b] := by
  have hc : (Char.ofUInt8 b).toNat < 0x80 := h
  rw [utf8EncodeChar_of_ascii hc]
  exact congrArg (fun b => [b]) (UInt8.toUInt8_toUInt32 b)

/-- Characters below 128 and their bytes are the same in number, so taking each byte for a
character gives the characters again. -/
theorem map_ofUInt8_utf8Bytes {cs : List Char} (h : ∀ c ∈ cs, c.toNat < 0x80) :
    (utf8Bytes cs).map Char.ofUInt8 = cs := by
  induction cs with
  | nil => rfl
  | cons c cs ih =>
    have hc := h c List.mem_cons_self
    have hcs := ih fun d hd => h d (List.mem_cons_of_mem _ hd)
    rw [utf8Bytes_cons, utf8EncodeChar_of_ascii hc, List.map_append, hcs, List.map_singleton,
      ofUInt8_toUInt8 hc, List.singleton_append]

/-- Bytes below 128 are the bytes of the characters that they are taken for. -/
theorem utf8Bytes_map_ofUInt8 {bytes : List UInt8} (h : ∀ b ∈ bytes, b.toNat < 0x80) :
    utf8Bytes (bytes.map Char.ofUInt8) = bytes := by
  induction bytes with
  | nil => rfl
  | cons b bytes ih =>
    have hbytes := ih fun d hd => h d (List.mem_cons_of_mem _ hd)
    rw [List.map_cons, utf8Bytes_cons, utf8EncodeChar_ofUInt8 (h b List.mem_cons_self), hbytes,
      List.singleton_append]

/-- The code of some characters, as the library puts it together, is theirs one behind the
other. -/
theorem toList_utf8Encode (cs : List Char) : cs.utf8Encode.toList = utf8Bytes cs := by
  rw [toList_eq_toList_data]
  exact List.toList_data_toByteArray

/-- The bytes of a string are those of its characters. -/
theorem toList_toUTF8 (s : String) : s.toUTF8.toList = utf8Bytes s.toList := by
  rw [String.toUTF8_eq_toByteArray, ← String.utf8Encode_toList, toList_utf8Encode]

/-- Some bytes are read as a string exactly if they are the bytes of its characters, so
reading undoes writing and has no other successes. -/
theorem fromUTF8?_eq_some_iff {bytes : Array UInt8} {s : String} :
    String.fromUTF8? ⟨bytes⟩ = some s ↔ bytes.toList = utf8Bytes s.toList := by
  have hbytes : (⟨bytes⟩ : ByteArray) = s.toByteArray ↔ bytes.toList = utf8Bytes s.toList := by
    rw [← toList_toUTF8, String.toUTF8_eq_toByteArray, toList_eq_toList_data, Array.toList_inj,
      ByteArray.ext_iff]
  rw [← hbytes, String.fromUTF8?]
  constructor
  · intro h
    split at h
    · cases h
      rfl
    · cases h
  · intro h
    rw [dif_pos (h ▸ s.isValidUTF8)]
    exact congrArg some (String.toByteArray_inj.1 h)

/-! ### Where a character ends -/

/-- No character's bytes begin with those of another: what the bytes start with can be
decoded, whatever comes behind it. -/
theorem append_utf8EncodeChar_inj {c d : Char} {bytes bytes' : List UInt8}
    (h : String.utf8EncodeChar c ++ bytes = String.utf8EncodeChar d ++ bytes') :
    c = d ∧ bytes = bytes' := by
  have hdecode (e : Char) (more : List UInt8) :
      (String.utf8EncodeChar e ++ more).toByteArray.utf8DecodeChar? 0 = some e := by
    rw [List.toByteArray_append]
    exact ByteArray.utf8DecodeChar?_utf8EncodeChar_append
  have hchar : some c = some d := by rw [← hdecode c bytes, h, hdecode d bytes']
  cases hchar
  exact ⟨rfl, List.append_cancel_left h⟩

/-- A character's first byte never stands further back in a character.  So a place where
some character begins shows by its byte alone. -/
theorem exists_utf8EncodeChar_eq_cons (c : Char) :
    ∃ b rest, String.utf8EncodeChar c = b :: rest ∧ b.IsUTF8FirstByte ∧
      ∀ b' ∈ rest, ¬b'.IsUTF8FirstByte := by
  have hfirst {i : Nat} {hi : i < (String.utf8EncodeChar c).length} :
      (String.utf8EncodeChar c)[i].IsUTF8FirstByte ↔ i = 0 :=
    UInt8.isUTF8FirstByte_getElem_utf8EncodeChar
  obtain ⟨b, rest, heq⟩ := List.exists_cons_of_ne_nil (String.utf8EncodeChar_ne_nil (c := c))
  refine ⟨b, rest, heq, ?_, ?_⟩
  · have hzero : 0 < (String.utf8EncodeChar c).length := by simp [heq]
    simpa [heq] using (@hfirst 0 hzero).2 rfl
  · intro b' hb' hb'first
    obtain ⟨i, hi, rfl⟩ := List.getElem_of_mem hb'
    have hlen : i + 1 < (String.utf8EncodeChar c).length := by simpa [heq] using hi
    -- A first byte further back would stand at an index other than zero.
    have hlater : (String.utf8EncodeChar c)[i + 1].IsUTF8FirstByte := by simpa [heq] using hb'first
    exact Nat.succ_ne_zero i (hfirst.1 hlater)

/-- All bytes of a character from 128 on are themselves at least 128. -/
theorem le_of_mem_utf8EncodeChar {c : Char} {b : UInt8} (hc : 0x80 ≤ c.toNat)
    (hb : b ∈ String.utf8EncodeChar c) : 0x80 ≤ b.toNat := by
  have hlarge : ¬c.val.toNat ≤ 127 := Nat.not_le.2 hc
  rw [String.utf8EncodeChar] at hb
  rw [if_neg hlarge] at hb
  -- The code has two, three or four bytes, and each of them has its highest bit set.
  split at hb
  · simp only [List.mem_cons, List.not_mem_nil, or_false] at hb
    rcases hb with rfl | rfl <;> rw [UInt8.toNat_ofNat'] <;> omega
  · split at hb
    · simp only [List.mem_cons, List.not_mem_nil, or_false] at hb
      rcases hb with rfl | rfl | rfl <;> rw [UInt8.toNat_ofNat'] <;> omega
    · simp only [List.mem_cons, List.not_mem_nil, or_false] at hb
      rcases hb with rfl | rfl | rfl | rfl <;> rw [UInt8.toNat_ofNat'] <;> omega

end FieldMask
