import FieldMask.Proofs.Json.Literal
import FieldMask.Proofs.Json.Numeral
import FieldMask.Proofs.Stream.Projection

namespace FieldMask

/-!
# JSON texts token by token

A reader knows of a text only which containers are open and what may stand next.  This module says
what that is worth in terms of the grammar: every token leads from one position to another, and what
is due behind it completes what was due before.

* `Position` — a place between two tokens, with the containers around it.
* `Element`, `Step` — one token, without and with what parts it from the token before.
* `Due` — what a text has to hold from a position on, and its tokens.
* `Step.due`, `exists_step_of_due` — what is due, taken one token at a time; `Due.of_nil`,
  `Due.exists_step` — the same, where the tokens are known.
* `exists_due` — every position can be completed.
* `due_start_iff` — at the start a whole text is due.
-/

/-- The bracket before the parts of a container. -/
def Container.opening : Container → UInt8
  | array => 0x5B
  | object => 0x7B

/-- The bracket behind the parts of a container. -/
def Container.closing : Container → UInt8
  | array => 0x5D
  | object => 0x7D

/-- The end of a container is no blank, so what passes over blanks stops there. -/
theorem Container.isSpace_closing (container : Container) :
    JsonByte.isSpace container.closing = false := by
  cases container <;> rfl

namespace JsonText

/-- A place between two tokens, by what may stand there and the containers that are
open.  It is a place in the grammar, known without a reader; a reader's place is derived
from it. -/
inductive Position where
  /-- A value. -/
  | value (containers : List Container)
  /-- The first part of a container, or its end. -/
  | first (container : Container) (outer : List Container)
  /-- A member's name. -/
  | name (outer : List Container)
  /-- What follows a value. -/
  | behind (containers : List Container)

/-- The start of a part of a container. -/
def Position.part : Container → List Container → Position
  | .array, outer => .value (.array :: outer)
  | .object, outer => .name outer

/-- A token that begins a part of a container or a whole document, and where it leads.  A
name takes its colon along, so a value is all that can follow it. -/
inductive Element : Position → List UInt8 → Token → Position → List UInt8 → Prop where
  | scalar {containers : List Container} {bytes rest : List UInt8} {value : Scalar}
      (h : ScalarText bytes value rest) :
      Element (.value containers) bytes (.scalar value) (.behind containers) rest
  | enter (container : Container) {containers : List Container} {rest : List UInt8} :
      Element (.value containers) (container.opening :: rest) container.first
        (.first container containers) rest
  | name {outer : List Container} {bytes behind rest : List UInt8} {name : String}
      (hname : LiteralText bytes name behind) (hcolon : Spaces behind (0x3A :: rest)) :
      Element (.name outer) bytes (.key name) (.value (.object :: outer)) rest

/-- The next token, with the spaces and the comma before it, and where it leads.  There is a
rule for each way that a token can be parted from the one before. -/
inductive Step : Position → List UInt8 → Token → Position → List UInt8 → Prop where
  | element {position position' : Position} {bytes first rest : List UInt8} {token : Token}
      (hspaces : Spaces bytes first) (h : Element position first token position' rest) :
      Step position bytes token position' rest
  | part {container : Container} {outer : List Container} {bytes first rest : List UInt8}
      {token : Token} {position : Position} (hspaces : Spaces bytes first)
      (h : Element (.part container outer) first token position rest) :
      Step (.first container outer) bytes token position rest
  | empty {container : Container} {outer : List Container} {bytes rest : List UInt8}
      (hspaces : Spaces bytes (container.closing :: rest)) :
      Step (.first container outer) bytes container.last (.behind outer) rest
  | more {container : Container} {outer : List Container} {bytes behind first rest : List UInt8}
      {token : Token} {position : Position} (hcomma : Spaces bytes (0x2C :: behind))
      (hspaces : Spaces behind first)
      (h : Element (.part container outer) first token position rest) :
      Step (.behind (container :: outer)) bytes token position rest
  | close {container : Container} {outer : List Container} {bytes rest : List UInt8}
      (hspaces : Spaces bytes (container.closing :: rest)) :
      Step (.behind (container :: outer)) bytes container.last (.behind outer) rest

/-! ### What is due -/

/-- What is due behind a value: the other parts of every container around it, and nothing
but spaces behind the document. -/
def Behind : List Container → List UInt8 → List Token → Prop
  | [], bytes, tokens => Spaces bytes [] ∧ tokens = []
  | .array :: outer, bytes, tokens => ∃ items rest more, MoreItemsText bytes items rest ∧
      Behind outer rest more ∧ tokens = Doc.flattenItems items ++ .endArray :: more
  | .object :: outer, bytes, tokens => ∃ members rest more, MoreMembersText bytes members rest ∧
      Behind outer rest more ∧ tokens = Doc.flattenMembers members ++ .endObject :: more

/-- What is due at a position, and the tokens of it.  At the start that is a whole document,
at a position inside of one what makes the text before it a document. -/
def Due : Position → List UInt8 → List Token → Prop
  | .value containers, bytes, tokens => ∃ first doc rest more, Spaces bytes first ∧
      ValueText first doc rest ∧ Behind containers rest more ∧ tokens = doc.flatten ++ more
  | .first .array outer, bytes, tokens => ∃ items rest more, ItemsText bytes items rest ∧
      Behind outer rest more ∧ tokens = Doc.flattenItems items ++ .endArray :: more
  | .first .object outer, bytes, tokens => ∃ members rest more, MembersText bytes members rest ∧
      Behind outer rest more ∧ tokens = Doc.flattenMembers members ++ .endObject :: more
  | .name outer, bytes, tokens => ∃ first name value rest more, Spaces bytes first ∧
      MemberText first name value rest ∧ Behind (.object :: outer) rest more ∧
      tokens = .key name :: (value.flatten ++ more)
  | .behind containers, bytes, tokens => Behind containers bytes tokens

variable {position position' : Position} {container : Container}
  {containers outer : List Container} {bytes first rest : List UInt8} {token : Token}
  {tokens : List Token}

/-- A container's first part is due where its parts are. -/
theorem Due.of_part (h : Due (.part container outer) bytes tokens) :
    Due (.first container outer) bytes tokens := by
  cases container with
  -- The item joins those that are due behind it, and so does a member below.
  | array =>
    obtain ⟨first, doc, rest, more, hspaces, hvalue, hbehind, rfl⟩ := h
    obtain ⟨items, rest', more', hitems, houter, rfl⟩ := hbehind
    exact ⟨doc :: items, rest', more', .some hspaces hvalue hitems, houter,
      (List.append_assoc ..).symm⟩
  | object =>
    obtain ⟨first, name, value, rest, more, hspaces, hmember, hbehind, rfl⟩ := h
    obtain ⟨members, rest', more', hmembers, houter, rfl⟩ := hbehind
    refine ⟨(name, value) :: members, rest', more', .some hspaces hmember hmembers, houter, ?_⟩
    rw [Doc.flattenMembers, List.cons_append, List.append_assoc]

/-- Behind a comma a further part is due.  The comma is no token, so the tokens that are due
stay. -/
theorem Due.of_more {behind : List UInt8} (hcomma : Spaces bytes (0x2C :: behind))
    (h : Due (.part container outer) behind tokens) :
    Due (.behind (container :: outer)) bytes tokens := by
  cases container with
  | array =>
    obtain ⟨first, doc, rest, more, hspaces, hvalue, hbehind, rfl⟩ := h
    obtain ⟨items, rest', more', hitems, houter, rfl⟩ := hbehind
    exact ⟨doc :: items, rest', more', .some hcomma hspaces hvalue hitems, houter,
      (List.append_assoc ..).symm⟩
  | object =>
    obtain ⟨first, name, value, rest, more, hspaces, hmember, hbehind, rfl⟩ := h
    obtain ⟨members, rest', more', hmembers, houter, rfl⟩ := hbehind
    refine ⟨(name, value) :: members, rest', more', .some hcomma hspaces hmember hmembers, houter,
      ?_⟩
    rw [Doc.flattenMembers, List.cons_append, List.append_assoc]

/-- A container that ends at once has no parts. -/
theorem Due.of_empty (hspaces : Spaces bytes (container.closing :: rest))
    (h : Due (.behind outer) rest tokens) :
    Due (.first container outer) bytes (container.last :: tokens) := by
  cases container with
  | array => exact ⟨[], rest, tokens, .none hspaces, h, rfl⟩
  | object => exact ⟨[], rest, tokens, .none hspaces, h, rfl⟩

/-- A container that ends behind a part has no further ones. -/
theorem Due.of_close (hspaces : Spaces bytes (container.closing :: rest))
    (h : Due (.behind outer) rest tokens) :
    Due (.behind (container :: outer)) bytes (container.last :: tokens) := by
  cases container with
  | array => exact ⟨[], rest, tokens, .none hspaces, h, rfl⟩
  | object => exact ⟨[], rest, tokens, .none hspaces, h, rfl⟩

/-! ### One token -/

/-- A scalar is one whatever follows it.  Of a numeral this is true because the grammar does
not ask where it must end. -/
theorem ScalarText.frame {value : Scalar} (h : ScalarText bytes value rest) :
    ∃ scalar, bytes = scalar ++ rest ∧ ∀ rest', ScalarText (scalar ++ rest') value rest' := by
  cases h with
  | null => exact ⟨_, rfl, fun _ => .null⟩
  | true => exact ⟨_, rfl, fun _ => .true⟩
  | false => exact ⟨_, rfl, fun _ => .false⟩
  | number h => exact ⟨_, rfl, fun _ => .number h⟩
  | string h =>
    obtain ⟨literal, heq, hframe⟩ := h.frame
    exact ⟨literal, heq, fun rest' => .string (hframe rest')⟩

/-- Whatever is due behind an element, it is due behind the element's own bytes.  What
follows may be replaced by any other text, and spaces may stand in front. -/
theorem Element.due (h : Element position first token position' rest) :
    ∃ piece, first = piece ++ rest ∧ ∀ {bytes' rest' : List UInt8} {tokens : List Token},
      Spaces bytes' (piece ++ rest') → Due position' rest' tokens →
        Due position bytes' (token :: tokens) := by
  cases h with
  | scalar h =>
    obtain ⟨scalar, rfl, hframe⟩ := h.frame
    refine ⟨scalar, rfl, ?_⟩
    -- A scalar is a whole value, with what is due behind it.
    intro bytes' rest' tokens hspaces hdue
    exact ⟨_, _, rest', tokens, hspaces, .scalar (hframe rest'), hdue, rfl⟩
  | @enter container =>
    refine ⟨[container.opening], rfl, ?_⟩
    intro bytes' rest' tokens hspaces hdue
    -- A bracket and the parts that are due behind it are a value.
    cases container with
    | array =>
      obtain ⟨items, rest, more, hitems, hbehind, rfl⟩ := hdue
      refine ⟨_, _, rest, more, hspaces, .array hitems, hbehind, ?_⟩
      rw [Doc.flatten, List.cons_append, List.append_assoc]
      rfl
    | object =>
      obtain ⟨members, rest, more, hmembers, hbehind, rfl⟩ := hdue
      refine ⟨_, _, rest, more, hspaces, .object hmembers, hbehind, ?_⟩
      rw [Doc.flatten, List.cons_append, List.append_assoc]
      rfl
  | name hname hcolon =>
    obtain ⟨literal, rfl, hliteral⟩ := hname.frame
    obtain ⟨spaces, rfl, hframe⟩ := hcolon.frame
    refine ⟨literal ++ (spaces ++ [0x3A]), by simp, ?_⟩
    intro bytes' rest' tokens hspaces hdue
    -- A name and the value that is due behind its colon are a member.
    obtain ⟨first, doc, rest, more, hbefore, hvalue, hbehind, rfl⟩ := hdue
    rw [List.append_assoc, List.append_assoc] at hspaces
    exact ⟨_, _, doc, rest, more, hspaces, .mk (hliteral _) (hframe _) hbefore hvalue, hbehind,
      rfl⟩

/-- **One token completes what is due.**  Whatever is due behind a token, it is due behind
the bytes of that token, its spaces and its comma among them.  This is the step lemma from
which `due_start_iff` carries over to whole texts. -/
theorem Step.due (h : Step position bytes token position' rest) :
    ∃ piece, bytes = piece ++ rest ∧ ∀ {rest' : List UInt8} {tokens : List Token},
      Due position' rest' tokens → Due position (piece ++ rest') (token :: tokens) := by
  -- What is cut off in front is the token with all that belongs to it; each case names these
  -- pieces.
  cases h with
  | element hspaces h =>
    obtain ⟨piece, rfl, hdue⟩ := h.due
    obtain ⟨spaces, rfl, hframe⟩ := hspaces.frame
    refine ⟨spaces ++ piece, (List.append_assoc ..).symm, ?_⟩
    intro rest' tokens h
    exact hdue (List.append_assoc spaces piece rest' ▸ hframe _) h
  | part hspaces h =>
    obtain ⟨piece, rfl, hdue⟩ := h.due
    obtain ⟨spaces, rfl, hframe⟩ := hspaces.frame
    refine ⟨spaces ++ piece, (List.append_assoc ..).symm, ?_⟩
    intro rest' tokens h
    exact (hdue (List.append_assoc spaces piece rest' ▸ hframe _) h).of_part
  | @empty container _ _ _ hspaces =>
    obtain ⟨spaces, rfl, hframe⟩ := hspaces.frame
    refine ⟨spaces ++ [container.closing], by simp, ?_⟩
    intro rest' tokens h
    rw [List.append_assoc]
    exact .of_empty (hframe _) h
  | more hcomma hspaces h =>
    obtain ⟨piece, rfl, hdue⟩ := h.due
    obtain ⟨spaces, rfl, hframe⟩ := hspaces.frame
    obtain ⟨before, rfl, hbefore⟩ := hcomma.frame
    refine ⟨before ++ 0x2C :: (spaces ++ piece), by simp, ?_⟩
    intro rest' tokens h
    rw [List.append_assoc, List.cons_append, List.append_assoc]
    exact .of_more (hbefore _) (hdue (hframe _) h)
  | @close container _ _ _ hspaces =>
    obtain ⟨spaces, rfl, hframe⟩ := hspaces.frame
    refine ⟨spaces ++ [container.closing], by simp, ?_⟩
    intro rest' tokens h
    rw [List.append_assoc]
    exact .of_close (hframe _) h

/-- More spaces before a token change nothing. -/
theorem Step.of_spaces (hspaces : Spaces bytes first)
    (h : Step position first token position' rest) : Step position bytes token position' rest := by
  cases h with
  | element hspaces' h => exact .element (hspaces.trans hspaces') h
  | part hspaces' h => exact .part (hspaces.trans hspaces') h
  | empty hspaces' => exact .empty (hspaces.trans hspaces')
  | more hcomma hspaces' h => exact .more (hspaces.trans hcomma) hspaces' h
  | close hspaces' => exact .close (hspaces.trans hspaces')

/-- What begins a scalar, an element or a member is neither a space nor the end of a
container.  So a reader that looks at one byte knows whether a container ends there. -/
theorem head_element {first : List UInt8} (h : Element position first token position' rest) :
    ∃ b bytes, first = b :: bytes ∧ JsonByte.isSpace b = false ∧ b ≠ 0x5D ∧ b ≠ 0x7D := by
  cases h with
  | scalar h =>
    cases h with
    | null => exact ⟨0x6E, _, rfl, rfl, by decide, by decide⟩
    | true => exact ⟨0x74, _, rfl, rfl, by decide, by decide⟩
    | false => exact ⟨0x66, _, rfl, rfl, by decide, by decide⟩
    | number h =>
      -- All bytes of a numeral are told apart from spaces and brackets by what they may be.
      have hb := h.numeral.inNumeral
      obtain ⟨c, more, rfl, -⟩ := head_numeralText h.numeral
      rw [utf8Bytes_cons, utf8EncodeChar_of_ascii (h.numeral.toNat_lt c List.mem_cons_self)] at hb ⊢
      refine ⟨c.toUInt8, _, rfl, ?_⟩
      have hc := hb c.toUInt8 List.mem_cons_self
      generalize c.toUInt8 = b at hc
      refine ⟨?_, ?_, ?_⟩
      · rw [Bool.eq_false_iff, ne_eq, isSpace_iff]
        intro hspace
        simp only [List.mem_cons, List.not_mem_nil, or_false] at hspace
        rcases hspace with rfl | rfl | rfl | rfl <;> contradiction
      · rintro rfl
        contradiction
      · rintro rfl
        contradiction
    | string h =>
      cases h
      exact ⟨0x22, _, rfl, rfl, by decide, by decide⟩
  | @enter container =>
    cases container with
    | array => exact ⟨0x5B, _, rfl, rfl, by decide, by decide⟩
    | object => exact ⟨0x7B, _, rfl, rfl, by decide, by decide⟩
  | name hname =>
    cases hname
    exact ⟨0x22, _, rfl, rfl, by decide, by decide⟩

/-- So is what begins a value. -/
theorem head_valueText {doc : Doc} (h : ValueText first doc rest) :
    ∃ b bytes, first = b :: bytes ∧ JsonByte.isSpace b = false ∧ b ≠ 0x5D ∧ b ≠ 0x7D := by
  cases h with
  | scalar h => exact head_element (@Element.scalar [] _ _ _ h)
  | array => exact head_element (@Element.enter .array [] _)
  | object => exact head_element (@Element.enter .object [] _)

/-- So is what begins a member. -/
theorem head_memberText {name : String} {value : Doc} (h : MemberText first name value rest) :
    ∃ b bytes, first = b :: bytes ∧ JsonByte.isSpace b = false ∧ b ≠ 0x5D ∧ b ≠ 0x7D := by
  obtain ⟨hname, hcolon, -, -⟩ := h
  exact head_element (@Element.name [] _ _ _ _ hname hcolon)

/-- What is due where a value may stand begins with an element: a scalar, or the bracket of
a container, whose parts are due behind it. -/
theorem exists_element_of_due_value (h : Due (.value containers) bytes tokens) :
    ∃ first token position rest more, Spaces bytes first ∧
      Element (.value containers) first token position rest ∧ Due position rest more ∧
      tokens = token :: more := by
  obtain ⟨first, doc, rest, more, hspaces, hvalue, hbehind, rfl⟩ := h
  cases hvalue with
  | scalar h => exact ⟨first, _, _, rest, more, hspaces, .scalar h, hbehind, rfl⟩
  | array h =>
    refine ⟨_, _, _, _, _, hspaces, .enter .array, ⟨_, rest, more, h, hbehind, rfl⟩,
      ?_⟩
    rw [Doc.flatten, List.cons_append, List.append_assoc]
    rfl
  | object h =>
    refine ⟨_, _, _, _, _, hspaces, .enter .object,
      ⟨_, rest, more, h, hbehind, rfl⟩, ?_⟩
    rw [Doc.flatten, List.cons_append, List.append_assoc]
    rfl

/-- So does what is due where a member may stand. -/
theorem exists_element_of_due_name (h : Due (.name outer) bytes tokens) :
    ∃ first token position rest more, Spaces bytes first ∧
      Element (.name outer) first token position rest ∧ Due position rest more ∧
      tokens = token :: more := by
  obtain ⟨first, name, value, rest, more, hspaces, hmember, hbehind, rfl⟩ := h
  obtain ⟨hname, hcolon, hbefore, hvalue⟩ := hmember
  exact ⟨first, _, _, _, _, hspaces, .name hname hcolon, ⟨_, value, rest, more, hbefore, hvalue,
    hbehind, rfl⟩, rfl⟩

/-- So does what is due where a part of a container may stand, be it an item or a member. -/
theorem exists_element_of_due_part (h : Due (.part container outer) bytes tokens) :
    ∃ first token position rest more, Spaces bytes first ∧
      Element (.part container outer) first token position rest ∧ Due position rest more ∧
      tokens = token :: more := by
  cases container with
  | array => exact exists_element_of_due_value h
  | object => exact exists_element_of_due_name h

/-- Where a container's first part is due, the container ends or a part begins.  What is
still due of the document is cut where its text is. -/
theorem due_first (h : Due (.first container outer) bytes tokens) :
    (∃ rest more, Spaces bytes (container.closing :: rest) ∧ Due (.behind outer) rest more ∧
      tokens = container.last :: more) ∨ Due (.part container outer) bytes tokens := by
  cases container with
  | array =>
    obtain ⟨items, rest, more, hitems, hbehind, rfl⟩ := h
    cases hitems with
    | none hspaces => exact .inl ⟨rest, more, hspaces, hbehind, rfl⟩
    | some hspaces hitem hitems =>
      exact .inr ⟨_, _, _, _, hspaces, hitem, ⟨_, rest, more, hitems, hbehind, rfl⟩,
        List.append_assoc ..⟩
  | object =>
    obtain ⟨members, rest, more, hmembers, hbehind, rfl⟩ := h
    cases hmembers with
    | none hspaces => exact .inl ⟨rest, more, hspaces, hbehind, rfl⟩
    | some hspaces hmember hmembers =>
      refine .inr ⟨_, _, _, _, _, hspaces, hmember, ⟨_, rest, more, hmembers, hbehind, rfl⟩, ?_⟩
      rw [Doc.flattenMembers, List.cons_append, List.append_assoc]

/-- Behind a part of a container, the container ends or a further part follows a comma.
What is still due does not change with the comma, which is no token. -/
theorem due_behind_cons (h : Due (.behind (container :: outer)) bytes tokens) :
    (∃ rest more, Spaces bytes (container.closing :: rest) ∧ Due (.behind outer) rest more ∧
      tokens = container.last :: more) ∨
    ∃ behind, Spaces bytes (0x2C :: behind) ∧ Due (.part container outer) behind tokens := by
  cases container with
  | array =>
    obtain ⟨items, rest, more, hitems, hbehind, rfl⟩ := h
    cases hitems with
    | none hspaces => exact .inl ⟨rest, more, hspaces, hbehind, rfl⟩
    | some hcomma hspaces hitem hitems =>
      exact .inr ⟨_, hcomma, _, _, _, _, hspaces, hitem, ⟨_, rest, more, hitems, hbehind, rfl⟩,
        List.append_assoc ..⟩
  | object =>
    obtain ⟨members, rest, more, hmembers, hbehind, rfl⟩ := h
    cases hmembers with
    | none hspaces => exact .inl ⟨rest, more, hspaces, hbehind, rfl⟩
    | some hcomma hspaces hmember hmembers =>
      refine .inr ⟨_, hcomma, _, _, _, _, _, hspaces, hmember,
        ⟨_, rest, more, hmembers, hbehind, rfl⟩, ?_⟩
      rw [Doc.flattenMembers, List.cons_append, List.append_assoc]

/-- Behind a document only spaces are due; anywhere else the first token that is due leads
on.  With `Step.due` this makes what is due the same as what can be taken token by token. -/
theorem exists_step_of_due (h : Due position bytes tokens) :
    (position = .behind [] ∧ Spaces bytes [] ∧ tokens = []) ∨
    ∃ token position' rest more, Step position bytes token position' rest ∧
      Due position' rest more ∧ tokens = token :: more := by
  -- The grammar says what is due at each kind of position, and this is one token of it or the end.
  match position with
  | .value containers =>
    obtain ⟨first, token, position', rest, more, hspaces, helement, hdue, rfl⟩ :=
      exists_element_of_due_value h
    exact .inr ⟨token, position', rest, more, .element hspaces helement, hdue, rfl⟩
  | .first container outer =>
    rcases due_first h with ⟨rest, more, hspaces, hdue, rfl⟩ | hpart
    · exact .inr ⟨_, _, rest, more, .empty hspaces, hdue, rfl⟩
    · obtain ⟨first, token, position', rest, more, hspaces, helement, hdue, rfl⟩ :=
        exists_element_of_due_part hpart
      exact .inr ⟨token, position', rest, more, .part hspaces helement, hdue, rfl⟩
  | .name outer =>
    obtain ⟨first, token, position', rest, more, hspaces, helement, hdue, rfl⟩ :=
      exists_element_of_due_name h
    exact .inr ⟨token, position', rest, more, .element hspaces helement, hdue, rfl⟩
  | .behind [] => exact .inl ⟨rfl, h⟩
  | .behind (container :: outer) =>
    rcases due_behind_cons h with ⟨rest, more, hspaces, hdue, rfl⟩ | ⟨behind, hcomma, hpart⟩
    · exact .inr ⟨_, _, rest, more, .close hspaces, hdue, rfl⟩
    · obtain ⟨first, token, position', rest, more, hspaces, helement, hdue, rfl⟩ :=
        exists_element_of_due_part hpart
      exact .inr ⟨token, position', rest, more, .more hcomma hspaces helement, hdue, rfl⟩

/-- Where no token is due the document has been there, and there are only spaces left. -/
theorem Due.of_nil (h : Due position bytes []) : position = .behind [] ∧ Spaces bytes [] := by
  rcases exists_step_of_due h with ⟨hposition, hspaces, -⟩ | ⟨_, _, _, _, -, -, hcons⟩
  · exact ⟨hposition, hspaces⟩
  · cases hcons

/-- Where a token is due the text goes on with it, and the others are due behind it. -/
theorem Due.exists_step (h : Due position bytes (token :: tokens)) :
    ∃ position' rest, Step position bytes token position' rest ∧ Due position' rest tokens := by
  rcases exists_step_of_due h with ⟨-, -, hnil⟩ | ⟨_, position', rest, _, hstep, hdue, hcons⟩
  · cases hnil
  · cases hcons
    exact ⟨position', rest, hstep, hdue⟩

/-! ### Every position can be completed -/

/-- Whatever containers are open, there is a text that closes them. -/
theorem exists_due_behind (containers : List Container) :
    ∃ bytes tokens, Due (.behind containers) bytes tokens := by
  induction containers with
  | nil => exact ⟨[], [], .refl [], rfl⟩
  | cons container outer ih =>
    obtain ⟨bytes, tokens, h⟩ := ih
    exact ⟨container.closing :: bytes, container.last :: tokens, .of_close (.refl _) h⟩

/-- Every position can be completed: by any value and the brackets of what is open. -/
theorem exists_due (position : Position) : ∃ bytes tokens, Due position bytes tokens := by
  cases position with
  | value containers =>
    obtain ⟨bytes, tokens, h⟩ := exists_due_behind containers
    exact ⟨utf8Bytes "null".toList ++ bytes, .scalar .null :: tokens, _, _, bytes, tokens, .refl _,
      .scalar .null, h, rfl⟩
  | first container outer =>
    obtain ⟨bytes, tokens, h⟩ := exists_due_behind outer
    exact ⟨container.closing :: bytes, container.last :: tokens, .of_empty (.refl _) h⟩
  -- A member needs a name, a colon and a value; the empty name and null will do.
  | name outer =>
    obtain ⟨bytes, tokens, h⟩ := exists_due_behind (.object :: outer)
    exact ⟨_, _, _, "", .scalar .null, bytes, tokens, .refl _,
      .mk (.mk .close) (.refl (0x3A :: _)) (.refl _) (.scalar .null), h, rfl⟩
  | behind containers => exact exists_due_behind containers

/-! ### Where a text starts and where it ends -/

/-- At the start a whole text is due, and the tokens that are due are those of its
document. -/
theorem due_start_iff :
    Due (.value []) bytes tokens ↔ ∃ doc, Denotes bytes doc ∧ tokens = doc.flatten := by
  constructor
  · rintro ⟨first, doc, rest, more, hspaces, hvalue, ⟨hafter, rfl⟩, rfl⟩
    exact ⟨doc, .mk hspaces hvalue hafter, List.append_nil _⟩
  · rintro ⟨doc, ⟨hbefore, hvalue, hafter⟩, rfl⟩
    exact ⟨_, doc, _, [], hbefore, hvalue, ⟨hafter, rfl⟩, (List.append_nil _).symm⟩

/-- Where no numeral goes on behind spaces, none goes on at them. -/
theorem Spaces.endsNumeral (h : Spaces bytes rest) (hrest : EndsNumeral rest) :
    EndsNumeral bytes := by
  obtain ⟨spaces, rfl, hspaces⟩ := h
  intro b hb
  cases spaces with
  | nil => exact hrest b hb
  | cons space spaces =>
    cases hb
    have hspace := hspaces b List.mem_cons_self
    simp only [List.mem_cons, List.not_mem_nil, or_false] at hspace
    rcases hspace with rfl | rfl | rfl | rfl <;> rfl

/-- No numeral goes on at a byte that cannot be part of one. -/
theorem endsNumeral_cons {b : UInt8} (hb : JsonByte.inNumeral b = false) :
    EndsNumeral (b :: rest) := by
  rintro _ ⟨⟩
  exact hb

/-- Behind an item stands a comma or a bracket, so a number is over there. -/
theorem MoreItemsText.endsNumeral {items : List Doc} (h : MoreItemsText bytes items rest) :
    EndsNumeral bytes := by
  cases h with
  | none hspaces => exact hspaces.endsNumeral (endsNumeral_cons rfl)
  | some hcomma => exact hcomma.endsNumeral (endsNumeral_cons rfl)

/-- The same behind a member. -/
theorem MoreMembersText.endsNumeral {members : List (String × Doc)}
    (h : MoreMembersText bytes members rest) : EndsNumeral bytes := by
  cases h with
  | none hspaces => exact hspaces.endsNumeral (endsNumeral_cons rfl)
  | some hcomma => exact hcomma.endsNumeral (endsNumeral_cons rfl)

/-- What is due behind a value does not go on with a numeral.  This is why a reader may take
all the bytes that could be part of a number. -/
theorem endsNumeral_of_due_behind (h : Due (.behind containers) bytes tokens) :
    EndsNumeral bytes := by
  match containers, h with
  | [], h => exact h.1.endsNumeral nofun
  | .array :: _, ⟨_, _, _, hitems, _⟩ => exact hitems.endsNumeral
  | .object :: _, ⟨_, _, _, hmembers, _⟩ => exact hmembers.endsNumeral

end JsonText

end FieldMask
