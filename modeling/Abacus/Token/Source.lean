import Abacus.Token.Basic

/-!
# Sources of tokens

A source hands out tokens one at a time.  It can be asked for ever: behind the
last token it repeats the end of the text.  Every source has a bound on the
tokens still to come, which each token other than the end uses up; that is why
reading a source comes to an end.

`Replay` is the source that hands out a given list.  It does not look at the
tokens.  Ends and errors in the middle of the list are handed out like any
other token.
-/

namespace Abacus

/-- A state from which tokens can be drawn. -/
class TokenSource (σ : Type) where
  /-- The next token, and the state behind it. -/
  next : σ → Token × σ
  /-- A bound on the tokens before the end. -/
  left : σ → Nat
  /-- Whether the tokens are made from a text as they are drawn.  Only such tokens are logged. -/
  isLexer : Bool
  left_next_le (s : σ) : left (next s).2 ≤ left s
  left_next_lt (s : σ) : (next s).1.kind ≠ .eof → left (next s).2 < left s

/-- A list of tokens to be handed out in order. -/
structure Replay where
  tokens : List Token
  /-- The line of the token handed out last. -/
  lastLine : UInt32 := 1
  deriving DecidableEq

namespace Replay

/-- The next token of the list, or an end on the line of the last one. -/
def next (r : Replay) : Token × Replay :=
  match r.tokens with
  | [] => (.endOfText r.lastLine, r)
  | t :: rest => (t, ⟨rest, t.line⟩)

@[simp] theorem next_nil (line : UInt32) :
    next ⟨[], line⟩ = (.endOfText line, ⟨[], line⟩) := rfl

@[simp] theorem next_cons (t : Token) (rest : List Token) (line : UInt32) :
    next ⟨t :: rest, line⟩ = (t, ⟨rest, t.line⟩) := rfl

instance : TokenSource Replay where
  next := next
  left r := r.tokens.length
  isLexer := false
  left_next_le r := by
    rcases r with ⟨_ | ⟨t, rest⟩, line⟩ <;> simp
  left_next_lt r := by
    rcases r with ⟨_ | ⟨t, rest⟩, line⟩ <;> simp [Token.endOfText]

end Replay

end Abacus
