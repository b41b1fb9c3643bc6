import FieldMask.Stream.Token

namespace FieldMask

/-!
# Sinks of tokens

* `TokenSink` — where tokens go; a sink may refuse one.
* `Collected` — a sink that keeps every token; `Discarded` — one that keeps none.
-/

/-- Where tokens go.  A sink that refuses a token still leaves a sink behind. -/
class TokenSink (κ : Type) where
  /-- Hands over one token. -/
  write : Token → κ → Except StreamError Unit × κ

/-- The tokens handed over so far. -/
structure Collected where
  tokens : Array Token

/-- No tokens yet. -/
def Collected.empty : Collected := ⟨#[]⟩

instance : TokenSink Collected where
  write token sink := (.ok (), ⟨sink.tokens.push token⟩)

/-- A sink that takes every token and keeps none. -/
structure Discarded where

instance : TokenSink Discarded where
  write _ sink := (.ok (), sink)

end FieldMask
