import FieldMask.Proofs.Document.Draft
import Mathlib.Data.List.Basic
import Mathlib.Data.List.Induction

namespace FieldMask

/-!
# The text of a stream

What compact text some tokens make, said of the tokens alone: every token has characters of its own,
and a comma stands where one part of a container has ended and another one begins.  Which containers
are open has no say in that.

* `Token.chars`, `Token.mark` — the characters of a token, and what stands before them.
* `compactChars` — the text of some tokens; `compactChars_append` — what follows adds to it.
* `Draft.any_endsValue_tokens` — whether a value has ended just before, by what is there of a
  document in part.
-/

/-- The characters of a token.  The colon goes with the name; commas stand between tokens
and belong to none. -/
def Token.chars : Token → List Char
  | beginObject => ['{']
  | key name => Quoted.encode name ++ [':']
  | endObject => ['}']
  | beginArray => ['[']
  | endArray => [']']
  | scalar value => value.chars

/-- Whether a value ends with a token. -/
def Token.endsValue : Token → Bool
  | endObject | endArray | scalar _ => true
  | beginObject | beginArray | key _ => false

/-- What stands between a token and the one before it. -/
def Token.mark (last : Option Token) (token : Token) : List Char :=
  if last.any endsValue && !token.closes then [','] else []

/-- No comma stands before the end of a container. -/
theorem Token.mark_of_closes {token : Token} (last : Option Token) (h : token.closes = true) :
    token.mark last = [] := by
  rw [mark, h]
  simp

/-- The text of some tokens behind another one. -/
def compactBehind (last : Option Token) : List Token → List Char
  | [] => []
  | token :: rest => token.mark last ++ token.chars ++ compactBehind (some token) rest

/-- The text of some tokens. -/
def compactChars (tokens : List Token) : List Char := compactBehind none tokens

/-- The text of two parts is that of the first, and behind its last token that of the
second. -/
theorem compactBehind_append (last : Option Token) (tokens more : List Token) :
    compactBehind last (tokens ++ more) =
      compactBehind last tokens ++ compactBehind (tokens.getLast?.or last) more := by
  induction tokens generalizing last with
  | nil => rfl
  | cons token rest ih =>
    -- Behind the first token there is always a last one.
    have hlast : rest.getLast?.or (some token) = (token :: rest).getLast?.or last := by
      rw [List.getLast?_cons]
      cases rest.getLast? <;> rfl
    rw [List.cons_append, compactBehind, compactBehind, ih, hlast, List.append_assoc _ _
      (compactBehind _ more)]

/-- So it is from the beginning. -/
theorem compactChars_append (tokens more : List Token) :
    compactChars (tokens ++ more) =
      compactChars tokens ++ compactBehind tokens.getLast? more := by
  rw [compactChars, compactBehind_append, Option.or_none]
  rfl

/-- One token more adds its mark and its characters. -/
theorem compactChars_concat (tokens : List Token) (token : Token) :
    compactChars (tokens ++ [token]) =
      compactChars tokens ++ (token.mark tokens.getLast? ++ token.chars) := by
  rw [compactChars_append, compactBehind, compactBehind, List.append_nil]

/-! ### The last token -/

namespace Doc

/-- The last token of a document ends it. -/
theorem any_endsValue_flatten (doc : Doc) :
    doc.flatten.getLast?.any Token.endsValue = true := by
  cases doc with
  | scalar value => rfl
  | array items => simp [flatten, List.getLast?_cons, Token.endsValue]
  | object members => simp [flatten, List.getLast?_cons, Token.endsValue]

/-- Every document has a token. -/
theorem flatten_ne_nil (doc : Doc) : doc.flatten ≠ [] := by
  cases doc <;> exact List.cons_ne_nil _ _

/-- So does the last token behind any others. -/
theorem any_endsValue_append (tokens : List Token) (doc : Doc) :
    (tokens ++ doc.flatten).getLast?.any Token.endsValue = true := by
  rw [List.getLast?_append_of_ne_nil _ doc.flatten_ne_nil, any_endsValue_flatten]

end Doc

namespace Draft

/-- Whether a value has ended just before the place where the next token comes. -/
def behindValue : Draft → Bool
  | .value (.items done :: _) => !done.isEmpty
  | .name done _ => !done.isEmpty
  | .whole _ => true
  | _ => false

/-- The last token tells whether a value has ended just before. -/
theorem any_endsValue_tokens (draft : Draft) :
    draft.tokens.getLast?.any Token.endsValue = draft.behindValue := by
  match draft with
  | .value [] => rfl
  | .value (.items done :: outer) =>
    -- The last item ends with a token that ends a value; without items there is the bracket.
    induction done using List.reverseRecOn with
    | nil => simp [tokens, tokensBefore, Doc.flattenItems, Token.endsValue, behindValue]
    | append_singleton init item _ =>
      have h := Doc.any_endsValue_append
        (tokensBefore outer ++ .beginArray :: Doc.flattenItems init) item
      have hdone : (init ++ [item]).isEmpty = false := by simp
      simpa [tokens, tokensBefore, Doc.flattenItems_concat, behindValue, hdone] using h
  | .value (.member done key :: outer) =>
    simp [tokens, tokensBefore, List.getLast?_cons, Token.endsValue, behindValue]
  | .name done frames =>
    induction done using List.reverseRecOn with
    | nil => simp [tokens, Doc.flattenMembers, Token.endsValue, behindValue]
    | append_singleton init member _ =>
      obtain ⟨key, value⟩ := member
      have h := Doc.any_endsValue_append
        (tokensBefore frames ++ .beginObject :: (Doc.flattenMembers init ++ [.key key])) value
      have hdone : (init ++ [(key, value)]).isEmpty = false := by simp
      simpa [tokens, Doc.flattenMembers_concat, behindValue, hdone] using h
  | .whole doc => exact doc.any_endsValue_flatten

end Draft

end FieldMask
