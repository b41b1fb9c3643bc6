import FieldMask.Json.Reader
import FieldMask.Proofs.Json.Escape

namespace FieldMask.Quoted

open JsonText

/-!
# String literals

* `readString_eq_ok_iff` — what is read as a string behind an opening quote is a literal of the
  grammar, and the other way round.
* `JsonText.CharsText.exists_body` — a literal is one whatever follows it, and a search for its
  closing quote ends where the literal does.
* `JsonText.literalText_encode` — the literal that is written for a string denotes it.
-/

/-! ### Characters -/

/-- What a literal denotes from some place on is what it denotes there and then the rest.
It fails as the rest fails. -/
theorem prepend_eq_ok_iff {out all rest : List UInt8}
    {result : Except TextFault (List UInt8 × List UInt8)} :
    prepend out result = .ok (all, rest) ↔
      ∃ more, result = .ok (more, rest) ∧ all = out ++ more := by
  unfold prepend
  constructor
  · intro h
    split at h
    · cases h
    · cases h
      exact ⟨_, rfl, rfl⟩
  · rintro ⟨more, rfl, rfl⟩
    rfl

/-- A literal ends, or goes on with an escape or with a byte that stands for itself.
The three cases are what `read` can do when it succeeds; lemmas about literals go
through them. -/
theorem read_eq_ok {bytes out rest : List UInt8} (h : read bytes = .ok (out, rest)) :
    (bytes = quote :: rest ∧ out = []) ∨
    (∃ escape c behind more, EscapeText escape c ∧ bytes = backslash :: (escape ++ behind) ∧
      read behind = .ok (more, rest) ∧ out = String.utf8EncodeChar c ++ more) ∨
    (∃ b behind more, b ≠ quote ∧ b ≠ backslash ∧ ¬b < 0x20 ∧ bytes = b :: behind ∧
      read behind = .ok (more, rest) ∧ out = b :: more) := by
  unfold read at h
  -- The branches of the reader, of which the failing ones fall away.
  split at h
  · cases h
  next b bytes =>
    split at h
    next hquote =>
      cases h
      exact Or.inl ⟨by rw [hquote], rfl⟩
    next hquote =>
      split at h
      next hbackslash =>
        split at h
        · cases h
        next hescape =>
          obtain ⟨more, hmore, rfl⟩ := prepend_eq_ok_iff.1 h
          obtain ⟨escape, c, hc, rfl, rfl⟩ := readEscape_eq_ok hescape
          exact Or.inr (Or.inl ⟨escape, c, _, more, hc, by rw [hbackslash], hmore, rfl⟩)
      next hbackslash =>
        split at h
        · cases h
        next hcontrol =>
          obtain ⟨more, hmore, rfl⟩ := prepend_eq_ok_iff.1 h
          exact Or.inr (Or.inr ⟨b, bytes, more, hquote, hbackslash, hcontrol, rfl, hmore, rfl⟩)

/-- A quote ends a literal. -/
theorem read_quote (rest : List UInt8) : read (quote :: rest) = .ok ([], rest) := by
  rw [read, if_pos rfl]

/-- An escape is read as its character, and the literal goes on behind it.  The two units of
a pair are one escape here. -/
theorem read_escape {escape : List UInt8} {c : Char} (h : EscapeText escape c)
    (behind : List UInt8) : read (backslash :: (escape ++ behind)) =
      prepend (String.utf8EncodeChar c) (read behind) := by
  rw [read, if_neg (by decide), if_pos rfl]
  split
  next heq =>
    rw [readEscape_append h] at heq
    cases heq
  next heq =>
    rw [readEscape_append h] at heq
    cases heq
    rfl

/-- A byte that is neither quote nor backslash nor control character is read as itself. -/
theorem read_byte {b : UInt8} (hquote : b ≠ quote) (hbackslash : b ≠ backslash)
    (hcontrol : ¬b < 0x20) (behind : List UInt8) :
    read (b :: behind) = prepend [b] (read behind) := by
  rw [read, if_neg hquote, if_neg hbackslash, if_neg hcontrol]

/-- What begins a character in UTF-8 is never inside of one, so the bytes behind the first
one of a character stand in the literal as they are.  No quote can end a literal there, and
no escape can begin. -/
theorem read_inside {tail out rest bytes : List UInt8} (htail : ∀ b ∈ tail, ¬b.IsUTF8FirstByte)
    (h : read bytes = .ok (tail ++ out, rest)) :
    ∃ behind, bytes = tail ++ behind ∧ read behind = .ok (out, rest) := by
  induction tail generalizing bytes with
  | nil => exact ⟨bytes, rfl, h⟩
  | cons b tail ih =>
    rcases read_eq_ok h with ⟨-, hnil⟩ | ⟨_, c, _, _, _, -, -, heq⟩ |
      ⟨_, behind, _, -, -, -, rfl, hmore, heq⟩
    · cases hnil
    · -- An escape gives a whole character, whose first byte is not inside of another.
      obtain ⟨first, _, hc, hfirst, -⟩ := exists_utf8EncodeChar_eq_cons c
      rw [hc] at heq
      rw [← (List.cons.inj heq).1] at hfirst
      exact absurd hfirst (htail b List.mem_cons_self)
    · cases heq
      obtain ⟨behind, rfl, hbehind⟩ := ih (fun d hd => htail d (List.mem_cons_of_mem b hd)) hmore
      exact ⟨behind, rfl, hbehind⟩

/-- A byte that stands for itself begins a character that does.  Quote, backslash and
control characters are one byte each, so the byte would be theirs. -/
theorem plain_of_head {b : UInt8} {c : Char} {more : List UInt8}
    (hc : String.utf8EncodeChar c = b :: more) (hquote : b ≠ quote) (hbackslash : b ≠ backslash)
    (hcontrol : ¬b < 0x20) : CharText (String.utf8EncodeChar c) c := by
  have hbyte (h : c.toNat < 0x80) : b = c.toUInt8 := by
    rw [utf8EncodeChar_of_ascii h] at hc
    cases hc
    rfl
  refine .plain ?_ ?_ ?_
  · by_contra hlt
    have hsmall : c.toNat < 0x80 := by omega
    apply hcontrol
    rw [hbyte hsmall, UInt8.lt_iff_toNat_lt]
    show c.toNat % 256 < 0x20
    omega
  · rintro rfl
    exact hquote (hbyte (by decide))
  · rintro rfl
    exact hbackslash (hbyte (by decide))

/-- What is read as the bytes of some characters is a literal of those characters. -/
theorem charsText_of_read {bytes rest : List UInt8} {cs : List Char}
    (h : read bytes = .ok (utf8Bytes cs, rest)) : CharsText bytes cs rest := by
  -- A character may take several bytes, so the induction is on how many bytes are left.
  induction hlen : bytes.length using Nat.strongRecOn generalizing bytes cs with
  | ind n ih =>
    subst hlen
    rcases read_eq_ok h with ⟨rfl, hout⟩ | ⟨escape, c, behind, more, hescape, rfl, hmore, hout⟩ |
      ⟨b, behind, more, hquote, hbackslash, hcontrol, rfl, hmore, hout⟩
    · cases cs with
      | nil => exact .close
      | cons c cs => simp [String.utf8EncodeChar_ne_nil] at hout
    · -- An escape denotes one character, which is the first of those denoted.
      cases cs with
      | nil => simp [String.utf8EncodeChar_ne_nil] at hout
      | cons d cs =>
        obtain ⟨rfl, rfl⟩ := append_utf8EncodeChar_inj hout
        have hlen : behind.length < (backslash :: (escape ++ behind)).length := by
          simp only [List.length_cons, List.length_append]
          omega
        exact .char (.escape hescape) (ih _ hlen hmore rfl)
    · -- The byte begins a character; the others of that character follow it.
      cases cs with
      | nil => cases hout
      | cons c cs =>
        obtain ⟨first, tail, hc, -, htail⟩ := exists_utf8EncodeChar_eq_cons c
        rw [utf8Bytes_cons, hc, List.cons_append] at hout
        cases hout
        obtain ⟨behind, rfl, hbehind⟩ := read_inside htail hmore
        have hlen : behind.length < (b :: (tail ++ behind)).length := by
          simp only [List.length_cons, List.length_append]
          omega
        have hplain := plain_of_head hc hquote hbackslash hcontrol
        have hall := CharsText.char hplain (ih _ hlen hbehind rfl)
        rwa [hc] at hall

/-- The bytes of a plain character are none of those that mean something else: its only byte
is not, or all of them are at least 128. -/
theorem plain_bytes {c : Char} (hcontrol : 0x20 ≤ c.toNat) (hquote : c ≠ '"')
    (hbackslash : c ≠ '\\') :
    ∀ b ∈ String.utf8EncodeChar c, b ≠ quote ∧ b ≠ backslash ∧ ¬b < 0x20 := by
  intro b hb
  by_cases hascii : c.toNat < 0x80
  · rw [utf8EncodeChar_of_ascii hascii, List.mem_singleton] at hb
    subst hb
    have hback := ofUInt8_toUInt8 hascii
    refine ⟨?_, ?_, ?_⟩
    · intro h
      rw [h] at hback
      exact hquote hback.symm
    · intro h
      rw [h] at hback
      exact hbackslash hback.symm
    · rw [UInt8.lt_iff_toNat_lt]
      show ¬c.toNat % 256 < 0x20
      omega
  · have hle := le_of_mem_utf8EncodeChar (Nat.le_of_not_lt hascii) hb
    have hne (n : UInt8) (hn : n.toNat < 0x80) : b ≠ n := by
      rintro rfl
      omega
    refine ⟨hne quote (by decide), hne backslash (by decide), ?_⟩
    rw [UInt8.lt_iff_toNat_lt]
    exact Nat.not_lt.2 (Nat.le_trans (by decide) hle)

/-- Bytes that stand for themselves are read as they are, one after the other.  By induction
on the bytes. -/
theorem read_append {tail : List UInt8}
    (h : ∀ b ∈ tail, b ≠ quote ∧ b ≠ backslash ∧ ¬b < 0x20) (behind : List UInt8) :
    read (tail ++ behind) = prepend tail (read behind) := by
  induction tail with
  | nil =>
    cases hread : read behind with
    | error => rw [List.nil_append, hread]; rfl
    | ok => rw [List.nil_append, hread]; rfl
  | cons b tail ih =>
    obtain ⟨hquote, hbackslash, hcontrol⟩ := h b List.mem_cons_self
    rw [List.cons_append, read_byte hquote hbackslash hcontrol,
      ih fun d hd => h d (List.mem_cons_of_mem b hd)]
    cases read behind with
    | error => rfl
    | ok => rfl

/-- A literal of the grammar is read as the bytes of its characters.  By induction on the
characters, each of which is written plainly or as an escape. -/
theorem read_of_charsText {bytes rest : List UInt8} {cs : List Char}
    (h : CharsText bytes cs rest) : read bytes = .ok (utf8Bytes cs, rest) := by
  induction h with
  | close => exact read_quote _
  | char hchar _ ih =>
    cases hchar with
    | plain hcontrol hquote hbackslash =>
      rw [read_append (plain_bytes hcontrol hquote hbackslash), ih]
      rfl
    | escape hescape =>
      rw [List.cons_append]
      refine (read_escape hescape _).trans ?_
      rw [ih]
      rfl

/-- What is read as a string is a literal, and the other way round.  The bytes that a
literal denotes are those of characters, so decoding them cannot fail. -/
theorem readString_eq_ok_iff {bytes rest : List UInt8} {s : String} :
    readString bytes = .ok (s, rest) ↔ CharsText bytes s.toList rest := by
  rw [readString]
  constructor
  · intro h
    split at h
    · cases h
    next out _ hread =>
      split at h
      next hs =>
        cases h
        have hout := fromUTF8?_eq_some_iff.1 hs
        rw [List.toList_toArray] at hout
        exact charsText_of_read (hout ▸ hread)
      · cases h
  · intro h
    have hs : String.fromUTF8? ⟨(utf8Bytes s.toList).toArray⟩ = some s :=
      fromUTF8?_eq_some_iff.2 rfl
    rw [read_of_charsText h]
    dsimp only
    rw [hs]

end FieldMask.Quoted

namespace FieldMask.JsonText

/-! ### The end of a literal -/

open JsonReader (literalLength?)

/-- In search of the closing quote, bytes that are no quote and no backslash are passed
over. -/
theorem literalLength?_plain {tail : List UInt8}
    (h : ∀ b ∈ tail, b ≠ Quoted.quote ∧ b ≠ Quoted.backslash) (behind : List UInt8) :
    literalLength? false (tail ++ behind) =
      (literalLength? false behind).map (· + tail.length) := by
  induction tail with
  | nil => simp
  | cons b tail ih =>
    obtain ⟨hquote, hbackslash⟩ := h b List.mem_cons_self
    have htail := ih fun d hd => h d (List.mem_cons_of_mem b hd)
    rw [List.cons_append, literalLength?, beq_false_of_ne hquote, beq_false_of_ne hbackslash]
    simp only [Bool.and_false, Bool.false_eq_true, if_false, htail, Option.map_map]
    rfl

/-- Whatever stands behind a backslash does not end a literal. -/
theorem literalLength?_backslash (b : UInt8) (behind : List UInt8) :
    literalLength? false (Quoted.backslash :: b :: behind) =
      (literalLength? false behind).map (· + 2) := by
  rw [literalLength?, literalLength?]
  simp [Quoted.quote, Quoted.backslash, Function.comp_def]

/-- Hexadecimal digits are neither quotes nor backslashes. -/
theorem UnitText.plain {digits : List UInt8} {unit : Nat} (h : UnitText digits unit) :
    ∀ b ∈ digits, b ≠ Quoted.quote ∧ b ≠ Quoted.backslash := by
  -- All digits lie in three ranges of bytes, which hold neither of the two.
  have hdigit {b : UInt8} {value : Nat} (h : HexDigit b value) :
      b ≠ Quoted.quote ∧ b ≠ Quoted.backslash := by
    have h0 : '0'.toNat = 0x30 := rfl
    have hA : 'A'.toNat = 0x41 := rfl
    have ha : 'a'.toNat = 0x61 := rfl
    rw [HexDigit, h0, hA, ha] at h
    have hquote : Quoted.quote.toNat = 0x22 := rfl
    have hbackslash : Quoted.backslash.toNat = 0x5C := rfl
    constructor <;> rintro rfl <;> omega
  obtain ⟨ha, hb, hc, hd⟩ := h
  intro b hmem
  simp only [List.mem_cons, List.not_mem_nil, or_false] at hmem
  rcases hmem with rfl | rfl | rfl | rfl
  · exact hdigit ha
  · exact hdigit hb
  · exact hdigit hc
  · exact hdigit hd

/-- No character inside of a literal ends it: a plain one has no quote among its bytes, and
an escape has one only behind its backslash. -/
theorem CharText.literalLength? {bytes : List UInt8} {c : Char} (h : CharText bytes c)
    (behind : List UInt8) :
    literalLength? false (bytes ++ behind) =
      (literalLength? false behind).map (· + bytes.length) := by
  -- One unit is a backslash, a letter behind it, and four digits that are neither of the two.
  have hunit {digits : List UInt8} {unit : Nat} (h : UnitText digits unit) (behind : List UInt8) :
      JsonReader.literalLength? false (0x5C :: 0x75 :: (digits ++ behind)) =
        (JsonReader.literalLength? false behind).map (· + (digits.length + 2)) := by
    refine (literalLength?_backslash _ _).trans ?_
    rw [literalLength?_plain h.plain, Option.map_map]
    rfl
  cases h with
  | plain hcontrol hquote hbackslash =>
    refine literalLength?_plain ?_ behind
    intro b hb
    obtain ⟨hq, hs, -⟩ := Quoted.plain_bytes hcontrol hquote hbackslash b hb
    exact ⟨hq, hs⟩
  | escape hescape =>
    cases hescape with
    | letter h => exact literalLength?_backslash _ _
    | unit h _ => exact hunit h behind
    | pair h h' _ _ =>
      simp only [List.cons_append, List.append_assoc]
      rw [hunit h, hunit h', Option.map_map]
      congr 1
      funext count
      simp only [Function.comp_apply, List.length_cons, List.length_append]
      omega

/-- A literal is one whatever follows it, and the first quote that nothing escapes ends it.
So searching for that quote and then reading what stands before it is the same as reading
on. -/
theorem CharsText.exists_body {bytes rest : List UInt8} {cs : List Char}
    (h : CharsText bytes cs rest) :
    ∃ body, bytes = body ++ rest ∧ literalLength? false bytes = some body.length ∧
      ∀ rest', CharsText (body ++ rest') cs rest' := by
  induction h with
  | close => exact ⟨[0x22], rfl, rfl, fun _ => .close⟩
  | @char bytes more rest c cs hchar _ ih =>
    obtain ⟨body, rfl, hlength, hbody⟩ := ih
    refine ⟨bytes ++ body, (List.append_assoc ..).symm, ?_, ?_⟩
    · rw [hchar.literalLength?, hlength, Option.map_some, List.length_append, Nat.add_comm]
    · intro rest'
      rw [List.append_assoc]
      exact .char hchar (hbody rest')

/-- A literal is one whatever follows it. -/
theorem LiteralText.frame {bytes rest : List UInt8} {s : String} (h : LiteralText bytes s rest) :
    ∃ literal, bytes = literal ++ rest ∧ ∀ rest', LiteralText (literal ++ rest') s rest' := by
  obtain ⟨h⟩ := h
  obtain ⟨body, rfl, -, hbody⟩ := h.exists_body
  exact ⟨0x22 :: body, rfl, fun rest' => .mk (hbody rest')⟩

/-- Up to the quote that ends it a literal holds nothing else: read from the bytes through
that quote alone, it leaves none of them. -/
theorem CharsText.eq_nil {bytes rest : List UInt8} {cs : List Char} {count : Nat}
    (hcount : literalLength? false bytes = some count) (h : CharsText (bytes.take count) cs rest) :
    rest = [] := by
  obtain ⟨body, htake, -, hbody⟩ := h.exists_body
  have hbytes : bytes = body ++ (rest ++ bytes.drop count) := by
    rw [← List.append_assoc, ← htake, List.take_append_drop]
  -- The same body ends the literal among all bytes, and there is only one first quote.
  obtain ⟨body', heq, hlength, -⟩ := (hbody (rest ++ bytes.drop count)).exists_body
  obtain rfl := List.append_cancel_right heq
  rw [← hbytes, hcount] at hlength
  cases hlength
  have hle := List.length_take_le body.length bytes
  rw [htake, List.length_append] at hle
  exact List.length_eq_zero_iff.1 (by omega)

/-! ### Literals as they are written -/

/-- What is written for a number below sixteen is its digit. -/
theorem hexDigit_text (n : Nat) : HexDigit (Quoted.hexDigit n).toUInt8 (n % 16) := by
  have hall : ∀ m < 16, HexDigit m.digitChar.toUInt8 m := by
    simp only [← Quoted.hexValue?_eq_some_iff]
    decide
  exact hall (n % 16) (Nat.mod_lt n (by decide))

/-- A control character is written by its code, of which two digits are zero. -/
theorem charText_control {c : Char} (h : c.toNat < 0x20) :
    CharText (utf8Bytes ['\\', 'u', '0', '0', Quoted.hexDigit (c.toNat / 16),
      Quoted.hexDigit c.toNat]) c := by
  have hdigit (n : Nat) : String.utf8EncodeChar (Quoted.hexDigit n) =
      [(Quoted.hexDigit n).toUInt8] := by
    have hall : ∀ m < 16, m.digitChar.toNat < 0x80 := by decide
    exact utf8EncodeChar_of_ascii (hall (n % 16) (Nat.mod_lt n (by decide)))
  -- A control character fits into the last two of the four digits.
  have hzero : HexDigit 0x30 0 := Or.inl ⟨by decide, rfl⟩
  have hunit := UnitText.mk hzero hzero (hexDigit_text (c.toNat / 16)) (hexDigit_text c.toNat)
  have hvalue : ((0 * 16 + 0) * 16 + c.toNat / 16 % 16) * 16 + c.toNat % 16 = c.toNat := by omega
  rw [hvalue] at hunit
  have hescape := CharText.escape (EscapeText.unit hunit (by omega))
  rw [Char.ofNat_toNat] at hescape
  simp only [utf8Bytes_cons, hdigit]
  exact hescape

/-- Every character is written as one of those that a literal may hold.  The cases are those
of `escape`: the characters with a letter of their own, other control characters, and all
else. -/
theorem charText_escape (c : Char) : CharText (utf8Bytes (Quoted.escape c)) c := by
  have hletter {l d : Char} (h : (l, d) ∈ letterEscapes) (hl : l.toNat < 0x80) :
      CharText (utf8Bytes ['\\', l]) d := by
    rw [utf8Bytes_cons, utf8Bytes_cons, utf8EncodeChar_of_ascii hl]
    exact .escape (.letter h)
  rw [Quoted.escape]
  split_ifs with hquote hbackslash h h h h h hcontrol
  · rw [hquote]
    exact hletter (by decide) (by decide)
  · rw [hbackslash]
    exact hletter (by decide) (by decide)
  · rw [h]
    exact hletter (by decide) (by decide)
  · rw [h]
    exact hletter (by decide) (by decide)
  · rw [h]
    exact hletter (by decide) (by decide)
  · rw [h]
    exact hletter (by decide) (by decide)
  · rw [h]
    exact hletter (by decide) (by decide)
  · exact charText_control hcontrol
  · rw [utf8Bytes_cons, utf8Bytes_nil, List.append_nil]
    exact .plain (Nat.le_of_not_lt hcontrol) hquote hbackslash

/-- What is written for a string is a literal that denotes it, in front of anything. -/
theorem literalText_encode (s : String) (rest : List UInt8) :
    LiteralText (utf8Bytes (Quoted.encode s) ++ rest) s rest := by
  -- Character by character, with the closing quote behind the last one.
  have hchars (cs : List Char) :
      CharsText (utf8Bytes (cs.flatMap Quoted.escape) ++ 0x22 :: rest) cs rest := by
    induction cs with
    | nil => exact .close
    | cons c cs ih =>
      rw [List.flatMap_cons, utf8Bytes_append, List.append_assoc]
      exact .char (charText_escape c) ih
  rw [Quoted.encode, utf8Bytes_cons, utf8Bytes_append, List.append_assoc, List.append_assoc]
  exact .mk (hchars s.toList)

end FieldMask.JsonText
