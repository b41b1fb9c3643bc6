import FieldMask.CommandLine.Run
import FieldMask.Proofs.Json.Frame
import FieldMask.Proofs.Json.Projection
import FieldMask.Proofs.Text.Lines

namespace FieldMask

open JsonText

/-!
# Projecting line by line

Each line is projected as if it were alone.  Lines that are blank leave nothing behind, all others
a line with their projection, up to the first that cannot be projected; its number counts the blank
ones too.

* `Doc.printable_chars`, `printable_of_projectText` — a projection is a single line.
* `projectText_append_return` — a carriage return behind a document changes nothing.
* `projectLine_of_ok`, … — one line, as it is read.
* `projectEach_of_ok`, `projectEach_of_failing` — lines up to one that fails.
* `projectInput_by_line` — a whole input.
-/

/-! ### A projection is a single line -/

/-- None of some characters is a control character. -/
def Printable (cs : List Char) : Prop := ∀ c ∈ cs, 0x20 ≤ c.toNat

/-- Some characters are printable if both parts of them are. -/
theorem printable_append {cs cs' : List Char} :
    Printable (cs ++ cs') ↔ Printable cs ∧ Printable cs' := by
  simp only [Printable, List.mem_append, or_imp, forall_and]

/-- Some characters are printable if the first one is and the rest are. -/
theorem printable_cons {c : Char} {cs : List Char} :
    Printable (c :: cs) ↔ 0x20 ≤ c.toNat ∧ Printable cs := by
  simp only [Printable, List.mem_cons, forall_eq_or_imp]

/-- A comma is no control character, so printable pieces stay printable with commas between
them. -/
theorem printable_commaSeparated {pieces : List (List Char)}
    (h : ∀ piece ∈ pieces, Printable piece) : Printable (commaSeparated pieces) := by
  cases pieces with
  | nil => nofun
  | cons piece pieces =>
    rw [commaSeparated_cons, printable_append]
    refine ⟨h piece List.mem_cons_self, fun c hc => ?_⟩
    obtain ⟨other, hother, hc⟩ := List.mem_flatMap.1 hc
    rcases List.mem_cons.1 hc with rfl | hc
    · decide
    · exact h other (List.mem_cons_of_mem _ hother) c hc

/-- A control character is escaped by characters that are none: what stands for it are a
backslash and a letter, or a backslash, a `u` and four digits. -/
theorem printable_escape (c : Char) : Printable (Quoted.escape c) := by
  have hdigit (n : Nat) : 0x20 ≤ (Quoted.hexDigit n).toNat := by
    have hall : ∀ m < 16, 0x20 ≤ m.digitChar.toNat := by decide
    exact hall (n % 16) (Nat.mod_lt n (by decide))
  have hletter {l : Char} (hl : 0x20 ≤ l.toNat) : Printable ['\\', l] :=
    printable_cons.2 ⟨by decide, printable_cons.2 ⟨hl, nofun⟩⟩
  rw [Quoted.escape]
  -- Seven characters have a letter of their own; the last two branches are the other control
  -- characters and all other characters.
  split_ifs with _ _ _ _ _ _ _ hcontrol
  · exact hletter (by decide)
  · exact hletter (by decide)
  · exact hletter (by decide)
  · exact hletter (by decide)
  · exact hletter (by decide)
  · exact hletter (by decide)
  · exact hletter (by decide)
  · have hdigits : Printable [Quoted.hexDigit (c.toNat / 16), Quoted.hexDigit c.toNat] :=
      printable_cons.2 ⟨hdigit _, printable_cons.2 ⟨hdigit _, nofun⟩⟩
    have hfront : Printable ['\\', 'u', '0', '0'] := by simp [Printable]
    exact printable_append.2 ⟨hfront, hdigits⟩
  · exact printable_cons.2 ⟨Nat.le_of_not_lt hcontrol, nofun⟩

/-- A string is written with nothing but printable characters. -/
theorem printable_encode (s : String) : Printable (Quoted.encode s) := by
  rw [Quoted.encode, printable_cons, printable_append]
  refine ⟨by decide, fun c hc => ?_, by simp [Printable]⟩
  obtain ⟨d, -, hc⟩ := List.mem_flatMap.1 hc
  exact printable_escape d c hc

/-- The characters of a numeral are digits, a sign, a point or a letter. -/
theorem printable_numeral {cs : List Char} (h : NumeralText cs) : Printable cs := by
  intro c hc
  rcases h.mem c hc with hmem | hdigit
  · simp only [List.mem_cons, List.not_mem_nil, or_false] at hmem
    rcases hmem with rfl | rfl | rfl | rfl | rfl <;> decide
  · simp only [Char.isDigit, Bool.and_eq_true, decide_eq_true_eq] at hdigit
    exact Nat.le_trans (by decide) (UInt32.le_iff_toNat_le.1 hdigit.1)

/-- The text of a scalar is printable. -/
theorem printable_scalar (value : Scalar) : Printable value.chars := by
  match value with
  | .null | .bool true | .bool false => simp [Printable, Scalar.chars]
  | .number n => exact printable_numeral (numberText_text n).numeral
  | .string s => exact printable_encode s

namespace Doc

mutual

/-- The text of a document is printable. -/
theorem printable_chars (doc : Doc) : Printable doc.chars := by
  cases doc with
  | scalar value => exact printable_scalar value
  | array items =>
    rw [chars, printable_cons, printable_append]
    exact ⟨by decide, printable_commaSeparated (printable_itemChars items), by simp [Printable]⟩
  | object members =>
    rw [chars, printable_cons, printable_append]
    exact ⟨by decide, printable_commaSeparated (printable_memberChars members),
      by simp [Printable]⟩

/-- So are the texts of the items of an array. -/
theorem printable_itemChars (items : List Doc) : ∀ piece ∈ itemChars items, Printable piece := by
  cases items with
  | nil => nofun
  | cons item rest =>
    rw [itemChars, List.forall_mem_cons]
    exact ⟨printable_chars item, printable_itemChars rest⟩

/-- So are those of the members of an object, which have the name in front of the value. -/
theorem printable_memberChars (members : List (String × Doc)) :
    ∀ piece ∈ memberChars members, Printable piece := by
  match members with
  | [] => nofun
  | (name, value) :: rest =>
    rw [memberChars, List.forall_mem_cons, printable_append, printable_cons]
    exact ⟨⟨printable_encode name, by decide, printable_chars value⟩, printable_memberChars rest⟩

end

end Doc

variable {mask : Option Mask} {line out : String}

/-- A projection is printable. -/
theorem printable_of_projectText (h : projectText mask line = .ok out) : Printable out.toList := by
  obtain ⟨doc, hdenotes⟩ := (exists_projectText_iff mask line).1 ⟨out, h⟩
  rw [projectText_of_denotes mask hdenotes, Doc.text_eq] at h
  cases h
  rw [String.toList_ofList]
  exact (doc.through mask).printable_chars

/-! ### One line -/

/-- Whether a line has nothing but white space. -/
def isBlankLine (line : String) : Bool := line.toList.all isBlank

/-- A carriage return behind a document changes nothing.  It is a space in the grammar, and
spaces at the end of a text belong to no value. -/
theorem projectText_append_return (mask : Option Mask) (line : String) :
    projectText mask (line ++ "\r") = .ok out ↔ projectText mask line = .ok out := by
  have hreturn : Spaces [0x0D] [] := spaces_nil_iff.2 (by simp)
  have hbytes : (line ++ "\r").toUTF8.toList = line.toUTF8.toList ++ [0x0D] := by
    rw [toList_toUTF8, toList_toUTF8, String.toList_append, utf8Bytes_append]
    rfl
  constructor
  · intro h
    obtain ⟨doc, hdenotes⟩ := (exists_projectText_iff mask _).1 ⟨out, h⟩
    rw [← h, projectText_of_denotes mask hdenotes]
    rw [hbytes, denotes_append_spaces_iff hreturn] at hdenotes
    exact projectText_of_denotes mask hdenotes
  · intro h
    obtain ⟨doc, hdenotes⟩ := (exists_projectText_iff mask _).1 ⟨out, h⟩
    rw [← h, projectText_of_denotes mask hdenotes]
    rw [← denotes_append_spaces_iff hreturn, ← hbytes] at hdenotes
    exact projectText_of_denotes mask hdenotes

/-- What is read for a line is a text with the same projection, blank if the line is.  A
line is read with the carriage return that may stand in front of its newline, so there are
two such texts. -/
theorem ReadsAs.exists_text {bytes : List UInt8} (h : ReadsAs bytes line) :
    ∃ text ∈ [line, line ++ "\r"], String.fromUTF8? ⟨bytes.toArray⟩ = some text ∧
      text.toList.all isBlank = isBlankLine line ∧
      ∀ mask out, projectText mask text = .ok out ↔ projectText mask line = .ok out := by
  rcases h with rfl | rfl
  · exact ⟨line, by simp, fromUTF8?_eq_some_iff.2 rfl, rfl, fun _ _ => Iff.rfl⟩
  · refine ⟨line ++ "\r", by simp, fromUTF8?_eq_some_iff.2 ?_, ?_, fun mask out =>
      projectText_append_return mask line⟩
    · rw [String.toList_append]
      rfl
    · rw [String.toList_append, List.all_append]
      exact Bool.and_true _

/-- How a line fails, as it stands or with a carriage return behind it. -/
def FailsAs (mask : Option Mask) (line : String) (e : StreamError) : Prop :=
  ∃ text ∈ [line, line ++ "\r"], projectText mask text = .error e

variable {bytes : List UInt8} {number : Nat}

/-- A blank line leaves nothing behind. -/
theorem projectLine_of_blank (h : ReadsAs bytes line) (hblank : isBlankLine line = true) :
    projectLine mask number bytes = .ok "" := by
  obtain ⟨text, -, htext, hisBlank, -⟩ := h.exists_text
  rw [projectLine, htext]
  exact if_pos (hisBlank.trans hblank)

/-- A line that can be projected leaves its projection behind, and a newline. -/
theorem projectLine_of_ok (h : ReadsAs bytes line) (hblank : isBlankLine line = false)
    (hline : projectText mask line = .ok out) :
    projectLine mask number bytes = .ok (out ++ "\n") := by
  obtain ⟨text, -, htext, hisBlank, hsame⟩ := h.exists_text
  rw [projectLine, htext]
  dsimp only
  rw [if_neg (Bool.eq_false_iff.1 (hisBlank.trans hblank)), (hsame mask out).2 hline]

/-- Any other line fails as it does alone, and is named by its number. -/
theorem projectLine_of_failing (number : Nat) (h : ReadsAs bytes line)
    (hblank : isBlankLine line = false) (hline : ∀ out, projectText mask line ≠ .ok out) :
    ∃ e, FailsAs mask line e ∧ projectLine mask number bytes = .error (.line number e) := by
  obtain ⟨text, hmem, htext, hisBlank, hsame⟩ := h.exists_text
  cases hproject : projectText mask text with
  | ok out => exact absurd ((hsame mask out).1 hproject) (hline out)
  | error e =>
    refine ⟨e, ⟨text, hmem, hproject⟩, ?_⟩
    rw [projectLine, htext]
    dsimp only
    rw [if_neg (Bool.eq_false_iff.1 (hisBlank.trans hblank)), hproject]

/-! ### Line after line -/

/-- Some lines and the projections of those that are not blank. -/
abbrev ProjectsEach (mask : Option Mask) (lines outs : List String) : Prop :=
  (lines.filter (!isBlankLine ·)).Forall₂ (fun line out => projectText mask line = .ok out) outs

variable {lines outs : List String} {pieces : List (List UInt8)}

/-- The bytes of two texts behind each other are those of the one and of the other. -/
theorem data_toUTF8_append (s t : String) :
    (s ++ t).toUTF8.data = s.toUTF8.data ++ t.toUTF8.data := by
  rw [String.toUTF8_eq_toByteArray, String.toByteArray_append, ByteArray.data_append]
  rfl

/-- What is printed begins with the first projection and a newline. -/
theorem printed_cons (out : String) (outs : List String) :
    printed (out :: outs) = out ++ "\n" ++ printed outs := String.join_cons

/-- What is printed for two lists of lines is printed for the one and then for the other. -/
theorem printed_append (outs outs' : List String) :
    printed (outs ++ outs') = printed outs ++ printed outs' := by
  rw [printed, List.map_append, String.join_append]
  rfl

/-- A blank line does not count. -/
theorem projectsEach_cons_of_blank (hblank : isBlankLine line = true) :
    ProjectsEach mask (line :: lines) outs ↔ ProjectsEach mask lines outs := by
  rw [ProjectsEach, List.filter_cons_of_neg (by simpa using hblank)]

/-- A line that is not blank has the first projection. -/
theorem projectsEach_cons (hblank : isBlankLine line = false) :
    ProjectsEach mask (line :: lines) outs ↔
      ∃ out outs', projectText mask line = .ok out ∧ ProjectsEach mask lines outs' ∧
        outs = out :: outs' := by
  rw [ProjectsEach, List.filter_cons_of_pos (by simpa using hblank)]
  exact List.forall₂_cons_left_iff

/-- Lines that can be projected leave their projections behind, and the run goes on.  The
induction is on the lines, for any number and any bytes to begin with, since each line adds
one to the number and its projection to the bytes. -/
theorem projectEach_of_ok (number : Nat) (written : Array UInt8) (more : List (List UInt8))
    (hread : pieces.Forall₂ ReadsAs lines) (h : ProjectsEach mask lines outs) :
    projectEach mask number written (pieces ++ more) =
      projectEach mask (number + lines.length) (written ++ (printed outs).toUTF8.data) more := by
  induction hread generalizing number written outs with
  | nil =>
    cases h
    exact congrArg (projectEach mask number · more) (Array.append_empty).symm
  | @cons bytes line pieces lines hline _ ih =>
    have hnumber : number + 1 + lines.length = number + (line :: lines).length := by
      rw [List.length_cons]
      omega
    rw [List.cons_append, projectEach]
    cases hblank : isBlankLine line with
    | true =>
      rw [projectsEach_cons_of_blank hblank] at h
      rw [projectLine_of_blank hline hblank]
      dsimp only
      rw [ih _ _ h, hnumber]
      exact congrArg (fun start => projectEach mask _ (start ++ _) more) Array.append_empty
    | false =>
      obtain ⟨out, outs, hout, hrest, rfl⟩ := (projectsEach_cons hblank).1 h
      rw [projectLine_of_ok hline hblank hout]
      dsimp only
      rw [ih _ _ hrest, hnumber, printed_cons, data_toUTF8_append (out ++ "\n"), Array.append_assoc]

/-- The first line that cannot be projected ends the run.  The lines before it are those of
the lemma above. -/
theorem projectEach_of_failing (number : Nat) (written : Array UInt8) (more : List (List UInt8))
    (hread : pieces.Forall₂ ReadsAs lines) (h : ProjectsEach mask lines outs)
    (hline : ReadsAs bytes line) (hblank : isBlankLine line = false)
    (hfails : ∀ out, projectText mask line ≠ .ok out) :
    ∃ e, FailsAs mask line e ∧ projectEach mask number written (pieces ++ bytes :: more) =
      (.error (.line (number + lines.length) e), written ++ (printed outs).toUTF8.data) := by
  obtain ⟨e, hfailsAs, herror⟩ :=
    projectLine_of_failing (number + lines.length) hline hblank hfails
  refine ⟨e, hfailsAs, ?_⟩
  rw [projectEach_of_ok _ _ _ hread h, projectEach, herror]

/-- Either all lines can be projected, but for blank ones, or there is a first that cannot.
By induction on the lines: the first one can be projected, is blank or fails, and in the
last case it is the one that is looked for. -/
theorem projectsEach_or_fails (mask : Option Mask) (lines : List String) :
    (∃ outs, ProjectsEach mask lines outs) ∨
      ∃ before line after outs, lines = before ++ line :: after ∧ ProjectsEach mask before outs ∧
        isBlankLine line = false ∧ ∀ out, projectText mask line ≠ .ok out := by
  induction lines with
  | nil => exact .inl ⟨[], .nil⟩
  | cons line lines ih =>
    -- What one line leaves behind, before what the others do.
    have hcons (front : List String) (h : ∀ {lines outs}, ProjectsEach mask lines outs →
        ProjectsEach mask (line :: lines) (front ++ outs)) :
        (∃ outs, ProjectsEach mask (line :: lines) outs) ∨
          ∃ before line' after outs, line :: lines = before ++ line' :: after ∧
            ProjectsEach mask before outs ∧ isBlankLine line' = false ∧
            ∀ out, projectText mask line' ≠ .ok out := by
      rcases ih with ⟨outs, hall⟩ | ⟨before, line', after, outs, rfl, hbefore, hrest⟩
      · exact .inl ⟨front ++ outs, h hall⟩
      · exact .inr ⟨line :: before, line', after, front ++ outs, rfl, h hbefore, hrest⟩
    cases hblank : isBlankLine line with
    | true => exact hcons [] (projectsEach_cons_of_blank hblank).2
    | false =>
      cases hproject : projectText mask line with
      | ok out =>
        exact hcons [out] fun h => (projectsEach_cons hblank).2 ⟨out, _, hproject, h, rfl⟩
      | error e =>
        refine .inr ⟨[], line, lines, [], rfl, .nil, hblank, fun out => ?_⟩
        rw [hproject]
        nofun

/-- Two lists of lines are projected behind each other. -/
theorem ProjectsEach.append {lines' outs' : List String} (h : ProjectsEach mask lines outs)
    (h' : ProjectsEach mask lines' outs') :
    ProjectsEach mask (lines ++ lines') (outs ++ outs') := by
  rw [ProjectsEach, List.filter_append]
  exact List.rel_append h h'

/-- Of lines that are all projected each one is. -/
theorem ProjectsEach.exists_out (h : ProjectsEach mask lines outs) :
    ∀ line ∈ lines, isBlankLine line = false → ∃ out, projectText mask line = .ok out := by
  intro line hline hblank
  have hmem : line ∈ lines.filter (!isBlankLine ·) :=
    List.mem_filter.2 ⟨hline, by simpa using hblank⟩
  obtain ⟨i, hi, rfl⟩ := List.getElem_of_mem hmem
  exact ⟨_, h.get hi (h.length_eq ▸ hi)⟩

/-- What is printed has one line for each projection. -/
theorem ProjectsEach.textLines_printed (h : ProjectsEach mask lines outs) :
    textLines (printed outs) = outs := by
  refine FieldMask.textLines_printed fun out hout => ?_
  obtain ⟨i, hi, rfl⟩ := List.getElem_of_mem hout
  have hprintable := printable_of_projectText (h.get (h.length_eq ▸ hi) hi)
  constructor
  · intro hmem
    exact absurd (hprintable '\n' hmem) (by decide)
  · intro hlast
    exact absurd (hprintable '\r' (List.mem_of_getLast? hlast)) (by decide)

namespace CommandLine

/-! ### A whole input -/

variable {text : String}

/-- An input whose lines can be projected comes to what is printed for them. -/
theorem projectInput_of_ok (h : ProjectsEach mask (textLines text) outs) :
    projectInput mask true text.toUTF8.toList .closed =
      ⟨(printed outs).toUTF8.data, .ok ()⟩ := by
  have heach := projectEach_of_ok 1 #[] [] (linesOf_readsAs text) h
  rw [List.append_nil, projectEach, Array.empty_append] at heach
  unfold projectInput projectLines
  rw [if_pos rfl, heach]
  rfl

/-- An input with a line that cannot be projected comes to what is printed for the lines
before it, and to the number of that line. -/
theorem projectInput_of_failing {before after : List String}
    (hlines : textLines text = before ++ line :: after) (h : ProjectsEach mask before outs)
    (hblank : isBlankLine line = false) (hfails : ∀ out, projectText mask line ≠ .ok out) :
    ∃ e, FailsAs mask line e ∧ projectInput mask true text.toUTF8.toList .closed =
      ⟨(printed outs).toUTF8.data, .error (.lines (.line (before.length + 1) e))⟩ := by
  have hread := hlines ▸ linesOf_readsAs text
  -- The bytes of the input are cut where its lines are: before the line that fails, and behind it.
  have hbefore := List.forall₂_take_append _ _ _ hread
  obtain ⟨bytes, more, hline, -, hrest⟩ :=
    List.forall₂_cons_right_iff.1 (List.forall₂_drop_append _ _ _ hread)
  obtain ⟨e, hfailsAs, heach⟩ := projectEach_of_failing 1 #[] more hbefore h hline
    hblank hfails
  rw [← hrest, List.take_append_drop, Array.empty_append, Nat.add_comm] at heach
  refine ⟨e, hfailsAs, ?_⟩
  unfold projectInput projectLines
  rw [if_pos rfl, heach]
  rfl

/-- **Lines are projected each for itself.**  A projection has no newline in it.  If every line that
is not blank can be projected, their projections are printed, a line for each, and that is all.
Otherwise the first line that cannot be projected is named by its number, blank lines counted, and
what is printed are the projections of those before it.  So a text that ends with a newline and
does not fail is projected as if nothing followed it, and what follows as if nothing came before. -/
theorem projectInput_by_line (mask : Option Mask) (text : String) :
    (∀ line out, projectText mask line = .ok out → '\n' ∉ out.toList) ∧
    ((∀ line ∈ textLines text, isBlankLine line = false → ∃ out, projectText mask line = .ok out) →
      ∃ outs, ProjectsEach mask (textLines text) outs ∧ textLines (printed outs) = outs ∧
        projectInput mask true text.toUTF8.toList .closed =
          ⟨(printed outs).toUTF8.data, .ok ()⟩) ∧
    ((∃ line ∈ textLines text, isBlankLine line = false ∧ ∀ out, projectText mask line ≠ .ok out) →
      ∃ before line after outs failure, textLines text = before ++ line :: after ∧
        ProjectsEach mask before outs ∧ isBlankLine line = false ∧
        (∀ out, projectText mask line ≠ .ok out) ∧
        projectInput mask true text.toUTF8.toList .closed =
          ⟨(printed outs).toUTF8.data, .error failure⟩ ∧
        ∃ e, FailsAs mask line e ∧ failure = .lines (.line (before.length + 1) e) ∧
          failure.message = "line " ++ toString (before.length + 1) ++ ": " ++ e.report) ∧
    ∀ text' : String, text.toList.getLast? = some '\n' →
      (projectInput mask true text.toUTF8.toList .closed).result = .ok () →
        (projectInput mask true (text ++ text').toUTF8.toList .closed).written =
          (projectInput mask true text.toUTF8.toList .closed).written ++
            (projectInput mask true text'.toUTF8.toList .closed).written := by
  refine ⟨?_, ?_, ?_, ?_⟩
  · intro line out hproject hmem
    exact absurd (printable_of_projectText hproject '\n' hmem) (by decide)
  · intro hall
    -- If all lines are projected the run is known; a line that fails is excluded by the assumption.
    rcases projectsEach_or_fails mask (textLines text) with ⟨outs, h⟩ |
      ⟨before, line, after, outs, hlines, -, hblank, hfails⟩
    · exact ⟨outs, h, h.textLines_printed, projectInput_of_ok h⟩
    · obtain ⟨out, hout⟩ := hall line (by simp [hlines]) hblank
      exact absurd hout (hfails out)
  · rintro ⟨line, hline, hblank, hfails⟩
    rcases projectsEach_or_fails mask (textLines text) with ⟨outs, h⟩ |
      ⟨before, line, after, outs, hlines, hbefore, hblank, hfails⟩
    · obtain ⟨out, hout⟩ := h.exists_out line hline hblank
      exact absurd hout (hfails out)
    · obtain ⟨e, hfailsAs, hrun⟩ := projectInput_of_failing hlines hbefore hblank hfails
      exact ⟨before, line, after, outs, _, hlines, hbefore, hblank, hfails, hrun, e, hfailsAs, rfl,
        rfl⟩
  · intro text' htext hok
    -- The last line of the first text is at its end there, so no line goes across the border.
    have hlines := textLines_append htext text'
    rcases projectsEach_or_fails mask (textLines text) with ⟨outs, h⟩ |
      ⟨before, line, after, outs, hfirst, hbefore, hblank, hfails⟩
    · rw [projectInput_of_ok h]
      rcases projectsEach_or_fails mask (textLines text') with ⟨outs', h'⟩ |
        ⟨before, line, after, outs', hrest, hbefore, hblank, hfails⟩
      · rw [projectInput_of_ok h', projectInput_of_ok (hlines ▸ h.append h'), printed_append]
        exact data_toUTF8_append _ _
      · -- Both runs stop in the same line, which has another number in each.
        rw [hrest, ← List.append_assoc] at hlines
        obtain ⟨e, -, hrun⟩ := projectInput_of_failing hrest hbefore hblank hfails
        obtain ⟨e', -, hrun'⟩ := projectInput_of_failing hlines (h.append hbefore) hblank hfails
        rw [hrun, hrun', printed_append]
        exact data_toUTF8_append _ _
    · obtain ⟨e, -, hrun⟩ := projectInput_of_failing hfirst hbefore hblank hfails
      rw [hrun] at hok
      cases hok

/-- One document is printed; behind it a blank line, and one that fails as the third. -/
theorem projectInput_by_line_third :
    ∃ e, projectInput none true "[]\n\nx\n".toUTF8.toList .closed =
        ⟨"[]\n".toUTF8.data, .error (.lines (.line 3 e))⟩ ∧
      projectInput none true "[]\n".toUTF8.toList .closed = ⟨"[]\n".toUTF8.data, .ok ()⟩ ∧
      (projectInput none true ("[]\n" ++ "\nx\n").toUTF8.toList .closed).written =
        (projectInput none true "[]\n".toUTF8.toList .closed).written ++
          (projectInput none true "\nx\n".toUTF8.toList .closed).written := by
  have hbrackets : projectText none "[]" = .ok "[]" := by
    have hdenotes : Denotes "[]".toUTF8.toList (.array []) := by
      rw [toList_toUTF8]
      exact denotes_chars (.array [])
    exact projectText_of_denotes none hdenotes
  have hx : projectText none "x" = .error (.invalidText .expectedValue 0) := by
    refine projectText_of_readAll_error none ?_
    rw [toList_toUTF8]
    rw [JsonReader.readAll, drain_of_produces_error .nil rfl]
    rfl
  -- Of lines with one that is not blank there is just one projection.
  have hfirst {lines outs : List String} (hfilter : lines.filter (!isBlankLine ·) = ["[]"])
      (h : ProjectsEach none lines outs) : outs = ["[]"] := by
    rw [ProjectsEach, hfilter] at h
    obtain ⟨out, outs, hout, hnil, rfl⟩ := List.forall₂_cons_left_iff.1 h
    obtain rfl := List.forall₂_nil_left_iff.1 hnil
    rw [hbrackets] at hout
    cases hout
    rfl
  have hlines : textLines "[]\n\nx\n" = ["[]", "", "x"] := by decide
  obtain ⟨-, -, hfails, -⟩ := projectInput_by_line none "[]\n\nx\n"
  obtain ⟨-, hprints, -, happend⟩ := projectInput_by_line none "[]\n"
  have hprinted : projectInput none true "[]\n".toUTF8.toList .closed =
      ⟨"[]\n".toUTF8.data, .ok ()⟩ := by
    have hline : textLines "[]\n" = ["[]"] := by decide
    rw [hline] at hprints
    obtain ⟨outs, houts, -, hrun⟩ := hprints (by simpa using fun _ => ⟨_, hbrackets⟩)
    obtain rfl := hfirst (by decide) houts
    exact hrun
  obtain ⟨before, line, after, outs, failure, hcut, hbefore, hblank, hline, hrun, e, -, rfl, -⟩ :=
    hfails ⟨"x", by rw [hlines]; decide, by decide, by simp [hx]⟩
  refine ⟨e, ?_, hprinted, happend _ (by decide) (congrArg _ hprinted)⟩
  rw [hlines] at hcut
  -- The line that fails can be none of the first two: one is projected, and one is blank.
  rcases before with _ | ⟨_, _ | ⟨_, _ | ⟨_, before⟩⟩⟩
  · cases hcut
    exact absurd hbrackets (hline _)
  · cases hcut
    cases hblank
  · cases hcut
    obtain rfl := hfirst (by decide) hbefore
    exact hrun
  · simp at hcut

end CommandLine

end FieldMask
