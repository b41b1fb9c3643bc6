import FieldMask.Proofs.Document.InMemory
import FieldMask.Proofs.Json.Calls
import FieldMask.Proofs.Stream.Peeking

namespace FieldMask

/-!
# Looking at a text and at a document

A reader of a text has advanced behind the token that it holds, and the walker of a document has its
place behind it.  No caller can tell.

* `JsonReader.settles`, `DocWalker.settles` — both stay where they have no token.
* `looks_are_invisible` — any calls to either of them.
-/

/-- A reader that has found no token finds none when it is asked again. -/
theorem JsonReader.settles : Settles JsonReader := fun _ _ h => readToken_again h

/-- Neither does the walker of a document that has handed out all its tokens. -/
theorem DocWalker.settles : Settles DocWalker := by
  intro walker walker' h
  change walker.produce = _ at h
  unfold produce at h
  split at h
  next hstep =>
    cases h
    exact produce_of_step?_eq_none hstep
  · cases h

/-- **Looks are invisible.**  Let some calls take tokens from a text or from a document in memory,
wherever its reader or its walker stands, and others only look.  Then the calls that take tokens
come to the same and take the same as without the looks, up to the first failure; and each look sees
what the next of them meets: the kind of the token that it takes first, or that there is none, and
it fails for lack of one, or the failure that it fails with. -/
theorem looks_are_invisible {calls : List Call} (hcalls : .finish ∉ calls) :
    (∀ finish (source : Lookahead JsonReader),
      Accords (observe finish source calls) (observe finish source (calls.filter Call.takes))) ∧
    ∀ finish (source : Lookahead DocWalker),
      Accords (observe finish source calls) (observe finish source (calls.filter Call.takes)) :=
  ⟨fun _ => observe_accords (Lookahead.transparent JsonReader.settles) hcalls,
    fun _ => observe_accords (Lookahead.transparent DocWalker.settles) hcalls⟩

/-- Looks around the first token of a text that has no second one. -/
theorem looks_are_invisible_bracket :
    let source := Lookahead.of (JsonReader.ofBytes "[".toUTF8.toList .closed)
    Accords (observe JsonReader.finishSource source [.peek, .peek, .next, .peek, .skip])
      (observe JsonReader.finishSource source [.next, .skip]) := by
  have hcalls : .finish ∉ ([.peek, .peek, .next, .peek, .skip] : List Call) := by simp
  exact (looks_are_invisible hcalls).1 _ _

end FieldMask
