import FieldMask.Json.Quoted
import FieldMask.Stream.Token
import FieldMask.Text.Separated

namespace FieldMask

/-!
# Document trees

* `Doc` — a document: a scalar, an array, or an object whose members keep their order and may
  repeat a name.
* `Doc.flatten` — its tokens; `Doc.chars`, `Doc.text` — its compact JSON text.
* `Doc.charsBefore` — the same characters in front of others, written in one pass
  (`Doc.charsBefore_eq`).
* `Doc.insertMember` — the members of an object in the order of their names, each name once;
  `Doc.Canonical` — every object of a document is so ordered.
-/

/-- A document. -/
inductive Doc where
  | scalar (value : Scalar)
  | array (items : List Doc)
  | object (members : List (String × Doc))

/-- The text of a scalar.  A number is written by its own text. -/
def Scalar.chars : Scalar → List Char
  | null => "null".toList
  | bool true => "true".toList
  | bool false => "false".toList
  | number n => n.text.toList
  | string s => Quoted.encode s

namespace Doc

mutual

/-- The tokens of a document, in order. -/
def flatten : Doc → List Token
  | scalar value => [.scalar value]
  | array items => .beginArray :: (flattenItems items ++ [.endArray])
  | object members => .beginObject :: (flattenMembers members ++ [.endObject])

/-- The tokens of some documents, one after the other. -/
def flattenItems : List Doc → List Token
  | [] => []
  | item :: rest => item.flatten ++ flattenItems rest

/-- The tokens of some members, one after the other. -/
def flattenMembers : List (String × Doc) → List Token
  | [] => []
  | (name, value) :: rest => .key name :: (value.flatten ++ flattenMembers rest)

end

mutual

/-- The compact JSON text of a document. -/
def chars : Doc → List Char
  | scalar value => value.chars
  | array items => '[' :: (commaSeparated (itemChars items) ++ [']'])
  | object members => '{' :: (commaSeparated (memberChars members) ++ ['}'])

/-- The text of each item. -/
def itemChars : List Doc → List (List Char)
  | [] => []
  | item :: rest => item.chars :: itemChars rest

/-- The text of each member. -/
def memberChars : List (String × Doc) → List (List Char)
  | [] => []
  | (name, value) :: rest => (Quoted.encode name ++ ':' :: value.chars) :: memberChars rest

end

mutual

/-- The compact JSON text of a document in front of some characters. -/
def charsBefore : Doc → List Char → List Char
  | scalar value, after => value.chars ++ after
  | array items, after => '[' :: itemsBefore [] items (']' :: after)
  | object members, after => '{' :: membersBefore [] members ('}' :: after)

/-- The texts of some items in front of some characters, with `mark` before the first of them and a
comma before each further one. -/
def itemsBefore (mark : List Char) : List Doc → List Char → List Char
  | [], after => after
  | item :: rest, after => mark ++ item.charsBefore (itemsBefore [','] rest after)

/-- The texts of some members in front of some characters, marked as items are. -/
def membersBefore (mark : List Char) : List (String × Doc) → List Char → List Char
  | [], after => after
  | (name, value) :: rest, after =>
    mark ++ (Quoted.encode name ++ ':' :: value.charsBefore (membersBefore [','] rest after))

end

mutual

/-- Writing a document in front of some characters is writing it and then the characters.
With an accumulator every character is moved once, however deep the document. -/
theorem charsBefore_eq (doc : Doc) (after : List Char) :
    doc.charsBefore after = doc.chars ++ after := by
  cases doc with
  | scalar => rfl
  | array items => simp [charsBefore, chars, (itemsBefore_eq items _).2]
  | object members => simp [charsBefore, chars, (membersBefore_eq members _).2]

/-- Behind the first mark stand the items, each further one behind a comma. -/
theorem itemsBefore_eq (items : List Doc) (after : List Char) :
    itemsBefore [','] items after = (itemChars items).flatMap (',' :: ·) ++ after ∧
      itemsBefore [] items after = commaSeparated (itemChars items) ++ after := by
  cases items with
  | nil => simp [itemsBefore, itemChars]
  | cons item rest =>
    simp [itemsBefore, itemChars, commaSeparated_cons, charsBefore_eq item,
      (itemsBefore_eq rest _).1]

/-- Behind the first mark stand the members, each further one behind a comma. -/
theorem membersBefore_eq (members : List (String × Doc)) (after : List Char) :
    membersBefore [','] members after = (memberChars members).flatMap (',' :: ·) ++ after ∧
      membersBefore [] members after = commaSeparated (memberChars members) ++ after := by
  match members with
  | [] => simp [membersBefore, memberChars]
  | (name, value) :: rest =>
    simp [membersBefore, memberChars, commaSeparated_cons, charsBefore_eq value,
      (membersBefore_eq rest _).1]

end

/-- The compact JSON text of a document. -/
def text (doc : Doc) : String := String.ofList (doc.charsBefore [])

/-- The text in terms of `chars`, the form that theorems speak of. -/
theorem text_eq (doc : Doc) : doc.text = String.ofList doc.chars := by
  rw [text, charsBefore_eq, List.append_nil]

/-! ### Members by name -/

/-- Puts a member at its place in the order of names, in the stead of one of the same name.
A list in order stays in order. -/
def insertMember (name : String) (value : Doc) : List (String × Doc) → List (String × Doc)
  | [] => [(name, value)]
  | (n, v) :: rest =>
    if name < n then (name, value) :: (n, v) :: rest
    else if name = n then (name, value) :: rest
    else (n, v) :: insertMember name value rest

mutual

/-- The names of every object of a document strictly increase. -/
def Canonical : Doc → Prop
  | scalar _ => True
  | array items => CanonicalItems items
  | object members => CanonicalMembers members

/-- Every item is canonical. -/
def CanonicalItems : List Doc → Prop
  | [] => True
  | item :: rest => item.Canonical ∧ CanonicalItems rest

/-- Every member's value is canonical and the names strictly increase. -/
def CanonicalMembers : List (String × Doc) → Prop
  | [] => True
  | (name, value) :: rest =>
    (∀ n ∈ rest.map (·.1), name < n) ∧ value.Canonical ∧ CanonicalMembers rest

end

end Doc

end FieldMask
