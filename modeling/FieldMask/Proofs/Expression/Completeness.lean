import FieldMask.Proofs.Expression.Soundness

namespace FieldMask.Expression

/-!
# What is in the language is accepted

* `EndsEntry` — what may stand behind an entry.
* `Reading.run_entry`, `Reading.run_entries` — an entry and the entries of a level take the machine
  over their text and leave the open subtrees as they were.
* `parse_of_denotes` — a text that denotes a mask is accepted with this mask.
* `parse_eq_ok_iff` — the parser accepts exactly the language.
-/

/-- The end of the text, a comma or a closing parenthesis: what may stand behind an entry. -/
def EndsEntry (after : List Char) : Prop := ∀ c, after.head? = some c → c = ',' ∨ c = ')'

/-- Blanks end before what may stand behind an entry. -/
theorem EndsEntry.not_blank {after : List Char} (h : EndsEntry after) :
    ∀ c, after.head? = some c → isBlank c = false := by
  intro c hc
  rcases h c hc with rfl | rfl <;> rfl

/-- So do names. -/
theorem EndsEntry.not_nameChar {after : List Char} (h : EndsEntry after) :
    ∀ c, after.head? = some c → isNameChar c = false := by
  intro c hc
  rcases h c hc with rfl | rfl <;> rfl

/-- No name goes on over blanks or what stands behind them.  No blank is a character of a
name, so a name in front of them is at its end. -/
theorem Blanks.not_nameChar {blanks after : List Char} (h : Blanks blanks)
    (hafter : ∀ c, after.head? = some c → isNameChar c = false) :
    ∀ c, (blanks ++ after).head? = some c → isNameChar c = false := by
  cases blanks with
  | nil => exact hafter
  | cons b blanks =>
    rintro _ ⟨⟩
    rw [Bool.eq_false_iff]
    intro hb
    have hnot := (isNameChar_iff.1 hb).1
    rw [h b List.mem_cons_self] at hnot
    cases hnot

namespace Reading

/-! ### Single steps -/

variable {limit : Option Nat} {cursor : Cursor} {level : Mask} {enclosing : List OpenSubtree}
  {depth : Nat} {hdepth : depth = enclosing.length} {name : String} {polarity : Polarity}
  {after : List Char}

/-- At an entry a new signed name is read to its end. -/
theorem run_entry_of_append {before signed : List Char}
    (h : cursor.rest = before ++ (signed ++ after)) (hbefore : Blanks before)
    (hsigned : SignedName signed polarity name) (hname : level.find? name = none)
    (hafter : ∀ c, after.head? = some c → isNameChar c = false) :
    ∃ stop, stop.rest = after ∧
      (⟨.entry, cursor, level, enclosing, depth, hdepth⟩ : Reading).run limit =
        (⟨.afterName name polarity, stop, level, enclosing, depth, hdepth⟩ : Reading).run
          limit := by
  obtain ⟨hpolarity, hstart⟩ := readSign_of_append h hbefore hsigned
  obtain ⟨hne, hchars⟩ := isName_iff.1 hsigned.isName
  obtain ⟨hrun, hstop⟩ := Cursor.span_of_append hstart hchars hafter
  -- The two checks of the reader: the level does not have the name, and the name is not empty.
  have hcontains : ¬level.contains name = true := by
    rw [Mask.contains_eq_isSome_find?, hname]
    exact Bool.false_ne_true
  have hempty : ¬name.toList.isEmpty = true := by
    rw [List.isEmpty_iff]
    exact hne
  refine ⟨_, hstop, run_of_step_eq_next ?_⟩
  dsimp only [step]
  rw [readEntry]
  dsimp only
  rw [hrun, hpolarity, String.ofList_toList, if_neg hempty, if_neg hcontains]

/-- Behind a finished entry a comma is only looked at. -/
theorem run_closing_of_comma (h : cursor.skipBlanks.rest = ',' :: after) :
    (⟨.closing, cursor, level, enclosing, depth, hdepth⟩ : Reading).run limit =
      (⟨.comma, cursor.skipBlanks, level, enclosing, depth, hdepth⟩ : Reading).run limit := by
  apply run_of_step_eq_next
  simp only [step, readClosing, (Cursor.peek?_of_rest h).1]

/-- A name without a colon behind it is a finished entry. -/
theorem run_afterName_of_endsEntry (h : cursor.skipBlanks.rest = after) (hafter : EndsEntry after) :
    (⟨.afterName name polarity, cursor, level, enclosing, depth, hdepth⟩ : Reading).run limit =
      (⟨.closing, cursor.skipBlanks, level.put name ⟨polarity, none⟩, enclosing, depth, hdepth⟩ :
        Reading).run limit := by
  -- At the end, at a comma and at a parenthesis the entry is finished.
  cases after with
  | nil =>
    apply run_of_step_eq_next
    have hpeek : cursor.skipBlanks.peek? = none := by
      rw [Cursor.peek?, h]
      rfl
    simp only [step, readAfterName, hpeek, addLeaf]
  | cons c after =>
    have hpeek := (Cursor.peek?_of_rest h).1
    rcases hafter c rfl with rfl | rfl
    · -- At a comma both sides go on to the same reading in one step.
      have hcomma : cursor.skipBlanks.skipBlanks.rest = ',' :: after := by
        rw [Cursor.skipBlanks_skipBlanks, h]
      rw [run_closing_of_comma hcomma, Cursor.skipBlanks_skipBlanks]
      apply run_of_step_eq_next
      simp only [step, readAfterName, hpeek, addLeaf]
    · apply run_of_step_eq_next
      simp only [step, readAfterName, hpeek, addLeaf]

/-- Behind a name a colon announces a subtree. -/
theorem run_afterName_of_colon (h : cursor.skipBlanks.rest = ':' :: after) :
    (⟨.afterName name polarity, cursor, level, enclosing, depth, hdepth⟩ : Reading).run limit =
      (⟨.opening name polarity, cursor.skipBlanks.next, level, enclosing, depth, hdepth⟩ :
        Reading).run limit := by
  apply run_of_step_eq_next
  simp only [step, readAfterName, (Cursor.peek?_of_rest h).1]

/-- Behind the colon a parenthesis opens it; without a limit there is always room. -/
theorem run_opening_of_paren (h : cursor.skipBlanks.rest = '(' :: after) :
    (⟨.opening name polarity, cursor, level, enclosing, depth, hdepth⟩ : Reading).run none =
      (⟨.entry, cursor.skipBlanks.next, .empty, ⟨name, polarity, level⟩ :: enclosing, depth + 1,
        congrArg Nat.succ hdepth⟩ : Reading).run none := by
  apply run_of_step_eq_next
  simp only [step, readOpening, (Cursor.peek?_of_rest h).1]
  rfl

/-- A parenthesis closes the innermost subtree, which becomes a node of the level around
it. -/
theorem run_closing_of_paren {subtree : OpenSubtree}
    {hdepth' : depth + 1 = (subtree :: enclosing).length}
    (h : cursor.skipBlanks.rest = ')' :: after) :
    (⟨.closing, cursor, level, subtree :: enclosing, depth + 1, hdepth'⟩ : Reading).run limit =
      (⟨.closing, cursor.skipBlanks.next,
        subtree.outer.put subtree.name ⟨subtree.polarity, some level⟩, enclosing, depth, hdepth⟩ :
        Reading).run limit := by
  apply run_of_step_eq_next
  simp only [step, readClosing, (Cursor.peek?_of_rest h).1]
  rfl

/-- Before an entry blanks make no difference. -/
theorem run_entry_skipBlanks :
    (⟨.entry, cursor.skipBlanks, level, enclosing, depth, hdepth⟩ : Reading).run limit =
      (⟨.entry, cursor, level, enclosing, depth, hdepth⟩ : Reading).run limit := by
  apply run_congr
  simp only [step, readEntry, readSign_skipBlanks]
  rfl

/-- Behind a comma with more than blanks behind it an entry is read. -/
theorem run_comma (h : ∃ c ∈ cursor.next.rest, isBlank c = false) :
    (⟨.comma, cursor, level, enclosing, depth, hdepth⟩ : Reading).run limit =
      (⟨.entry, cursor.next, level, enclosing, depth, hdepth⟩ : Reading).run limit := by
  obtain ⟨c, hpeek⟩ := Option.ne_none_iff_exists'.1 (Cursor.peek?_skipBlanks_ne_none h)
  rw [← run_entry_skipBlanks]
  apply run_of_step_eq_next
  simp only [step, readComma, hpeek]

/-! ### Entries and levels -/

/-- An entry in the text takes the machine behind it, with its node in the level and the open
subtrees as they were. -/
def PassesEntry (cs : List Char) (name : String) (node : Node Mask) : Prop :=
  ∀ (cursor : Cursor) (level : Mask) (enclosing : List OpenSubtree) (depth : Nat)
    (hdepth : depth = enclosing.length) (blanks after : List Char),
    cursor.rest = cs ++ (blanks ++ after) → Blanks blanks → EndsEntry after →
    level.find? name = none →
    ∃ stop : Cursor, stop.skipBlanks.rest = after ∧
      (⟨.entry, cursor, level, enclosing, depth, hdepth⟩ : Reading).run none =
        (⟨.closing, stop, level.put name node, enclosing, depth, hdepth⟩ : Reading).run none

/-- The entries of a level take the machine behind them, with the mask that they make up.
This holds for every level around them, and whatever follows that may end an entry. -/
def PassesEntries (cs : List Char) (entries : List (String × Node Mask)) : Prop :=
  ∀ (mask : Mask) (cursor : Cursor) (enclosing : List OpenSubtree) (depth : Nat)
    (hdepth : depth = enclosing.length) (blanks after : List Char),
    Gathers entries mask → cursor.rest = cs ++ (blanks ++ after) → Blanks blanks →
    EndsEntry after →
    ∃ stop : Cursor, stop.skipBlanks.rest = after ∧
      (⟨.entry, cursor, .empty, enclosing, depth, hdepth⟩ : Reading).run none =
        (⟨.closing, stop, mask, enclosing, depth, hdepth⟩ : Reading).run none

/-- A name without a subtree is read as an entry. -/
theorem passesEntry_plain {before signed : List Char} (hbefore : Blanks before)
    (hsigned : SignedName signed polarity name) :
    PassesEntry (before ++ signed) name ⟨polarity, none⟩ := by
  intro cursor level enclosing depth hdepth blanks after hrest hblanks hafter hname
  rw [List.append_assoc] at hrest
  obtain ⟨stop, hstop, hrun⟩ := run_entry_of_append hrest hbefore hsigned hname
    (hblanks.not_nameChar hafter.not_nameChar)
  have hend : stop.skipBlanks.rest = after :=
    Cursor.skipBlanks_rest_of_append hstop hblanks hafter.not_blank
  refine ⟨stop.skipBlanks, ?_, hrun.trans (run_afterName_of_endsEntry hend hafter)⟩
  rw [Cursor.skipBlanks_skipBlanks, hend]

/-- A name with a subtree is read as an entry, if the entries in the parentheses are. -/
theorem passesEntry_nested {before signed colon paren inner close : List Char}
    {entries : List (String × Node Mask)} {child : Mask} (hbefore : Blanks before)
    (hsigned : SignedName signed polarity name) (hcolon : Blanks colon) (hparen : Blanks paren)
    (hinner : PassesEntries inner entries) (hchild : Gathers entries child)
    (hclose : Blanks close) :
    PassesEntry
      (before ++ (signed ++ (colon ++ ':' :: (paren ++ '(' :: (inner ++ (close ++ [')']))))))
      name ⟨polarity, some child⟩ := by
  intro cursor level enclosing depth hdepth blanks after hrest hblanks hafter hname
  simp only [List.append_assoc, List.cons_append, List.nil_append] at hrest
  obtain ⟨stop, hstop, hhead⟩ := run_entry_of_append hrest hbefore hsigned hname
    (hcolon.not_nameChar (forall_head?_cons rfl))
  have hrest₁ := Cursor.skipBlanks_rest_of_append hstop hcolon (forall_head?_cons rfl)
  have hrest₂ := Cursor.skipBlanks_rest_of_append (Cursor.peek?_of_rest hrest₁).2 hparen
    (forall_head?_cons rfl)
  -- Inside the parentheses the level starts empty, whatever is around it.
  have hends : EndsEntry (')' :: (blanks ++ after)) := forall_head?_cons (Or.inr rfl)
  obtain ⟨inside, hinside, hbody⟩ := hinner child _ (⟨name, polarity, level⟩ :: enclosing)
    (depth + 1) (congrArg Nat.succ hdepth) close _ hchild (Cursor.peek?_of_rest hrest₂).2 hclose
    hends
  refine ⟨inside.skipBlanks.next, ?_, ?_⟩
  · exact Cursor.skipBlanks_rest_of_append (Cursor.peek?_of_rest hinside).2 hblanks hafter.not_blank
  · -- Name, colon, parenthesis, entries and closing parenthesis, one run after the other.
    rw [hhead, run_afterName_of_colon hrest₁, run_opening_of_paren hrest₂, hbody,
      run_closing_of_paren hinside]

/-- One entry makes up a level. -/
theorem passesEntries_one {cs : List Char} {node : Node Mask} (hentry : PassesEntry cs name node) :
    PassesEntries cs [(name, node)] := by
  intro mask cursor enclosing depth hdepth blanks after hmask hrest hblanks hafter
  have hempty := Mask.find?_empty name
  obtain rfl : Mask.empty.put name node = mask := (Gathers.nil.put hempty).eq hmask
  exact hentry cursor .empty enclosing depth hdepth blanks after hrest hblanks hafter hempty

/-- One more entry is read behind a comma, into the level that the others make up. -/
theorem passesEntries_more {cs before cs' : List Char} {entries : List (String × Node Mask)}
    {node : Node Mask} (hinit : PassesEntries cs entries) (hbefore : Blanks before)
    (hsolid : ∃ c ∈ cs', isBlank c = false) (hentry : PassesEntry cs' name node) :
    PassesEntries (cs ++ (before ++ ',' :: cs')) (entries ++ [(name, node)]) := by
  intro mask cursor enclosing depth hdepth blanks after hmask hrest hblanks hafter
  obtain ⟨level, hlevel, hname, rfl⟩ := hmask.exists_of_append
  rw [List.append_assoc, List.append_assoc, List.cons_append] at hrest
  have hends : EndsEntry (',' :: (cs' ++ (blanks ++ after))) := forall_head?_cons (Or.inl rfl)
  -- The entries before the last one stop at the comma.
  obtain ⟨stop, hstop, hrun⟩ :=
    hinit level cursor enclosing depth hdepth before _ hlevel hrest hbefore hends
  have hnext := (Cursor.peek?_of_rest hstop).2
  have hcomma : ∃ c ∈ stop.skipBlanks.next.rest, isBlank c = false := by
    obtain ⟨c, hc, hblank⟩ := hsolid
    rw [hnext]
    exact ⟨c, List.mem_append_left _ hc, hblank⟩
  obtain ⟨last, hlast, hrun'⟩ :=
    hentry _ level enclosing depth hdepth blanks after hnext hblanks hafter hname
  refine ⟨last, hlast, ?_⟩
  rw [hrun, run_closing_of_comma hstop, run_comma hcomma, hrun']

mutual

/-- Every entry of the language is read.  The two lemmas go along with the two parts of the
grammar. -/
theorem passesEntry {cs : List Char} {name : String} {node : Node Mask} :
    EntryText cs name node → PassesEntry cs name node
  | .plain hbefore hsigned => passesEntry_plain hbefore hsigned
  | .nested hbefore hsigned hcolon hparen hinner hchild hclose =>
    passesEntry_nested hbefore hsigned hcolon hparen (passesEntries hinner) hchild hclose

/-- And so are the entries of every level. -/
theorem passesEntries {cs : List Char} {entries : List (String × Node Mask)} :
    EntriesText cs entries → PassesEntries cs entries
  | .one hentry => passesEntries_one (passesEntry hentry)
  | .more hinit hbefore hentry =>
    passesEntries_more (passesEntries hinit) hbefore hentry.exists_not_blank (passesEntry hentry)

end

/-- Behind the last entry of the outermost level the text is accepted. -/
theorem run_closing_of_end (h : cursor.skipBlanks.rest = []) :
    (⟨.closing, cursor, level, [], 0, rfl⟩ : Reading).run limit = .ok level := by
  have hpeek : cursor.skipBlanks.peek? = none := by
    rw [Cursor.peek?, h]
    rfl
  apply run_of_step_eq_accept
  simp only [step, readClosing, hpeek]

end Reading

/-! ### Whole texts -/

/-- A blank text is read as the mask that mentions nothing. -/
theorem parse_of_blanks {limit : Option Nat} {text : String} (h : Blanks text.toList) :
    parse limit text = .ok .empty := by
  rw [parse, if_pos (List.all_eq_true.2 h)]

/-- A text that is not blank is read by a run. -/
theorem parse_of_exists_not_blank {limit : Option Nat} {text : String}
    (h : ∃ c ∈ text.toList, isBlank c = false) :
    parse limit text = (Reading.start text).run limit := by
  rw [parse, if_neg]
  intro hall
  obtain ⟨c, hc, hblank⟩ := h
  exact Bool.false_ne_true (hblank.symm.trans (List.all_eq_true.1 hall c hc))

/-- A text that denotes a mask is accepted with this mask.  The run over the entries of the
outermost level ends where the text does. -/
theorem parse_of_denotes {text : String} {mask : Mask} (h : Denotes text.toList mask) :
    parse none text = .ok mask := by
  generalize hcs : text.toList = cs at h
  cases h with
  | blank hblank =>
    rw [← hcs] at hblank
    exact parse_of_blanks hblank
  | @level inner blanks _ hlevel hblanks =>
    obtain ⟨entries, hentries, hmask⟩ := hlevel
    -- A level has a name in it, so the text is not taken for a blank one.
    have hsolid : ∃ c ∈ text.toList, isBlank c = false := by
      obtain ⟨c, hc, hblank⟩ := hentries.exists_not_blank
      rw [hcs]
      exact ⟨c, List.mem_append_left _ hc, hblank⟩
    have hrest : (Cursor.start text).rest = inner ++ (blanks ++ []) := by
      rw [List.append_nil, ← hcs]
      rfl
    obtain ⟨stop, hstop, hrun⟩ := Reading.passesEntries hentries mask (.start text) [] 0 rfl blanks
      [] hmask hrest hblanks (by rintro _ ⟨⟩)
    rw [parse_of_exists_not_blank hsolid]
    exact hrun.trans (Reading.run_closing_of_end hstop)

/-- **The parser accepts exactly its grammar.** A text is accepted with a mask if and only if it
denotes this mask, so a text denotes at most one. -/
theorem parse_eq_ok_iff (text : String) (mask : Mask) :
    parse none text = .ok mask ↔ Denotes text.toList mask := by
  constructor
  · exact denotes_of_parse
  · exact parse_of_denotes

end FieldMask.Expression
