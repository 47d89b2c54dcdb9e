import Abacus.Token.Source

/-!
# Passing over tokens

A position in a sequence of tokens is the token to be looked at next together
with the source behind it.  `Position.step?` moves to the next position; there is
none if the next token is an error.  `Passes p ts q` says that the tokens `ts`
stand between `p` and `q`, with no error among them nor at `q`.

A source bounds the tokens it still has.  `Enough n p` says that `n` is such a
bound at `p`: it is at least what the source has left, and above it unless the
text has ended.  A bound is kept by moving on, and goes down by one for every
token that is passed.
-/

namespace Abacus

/-- The token to be looked at next, and the source behind it. -/
abbrev Position (σ : Type) := Token × σ

variable {σ : Type} [TokenSource σ]

/-- The next position, if no error stands there. -/
def Position.step? (p : Position σ) : Option (Position σ) :=
  let q := TokenSource.next p.2
  if q.1.kind = .error then none else some q

/-- A step is what the source hands out, if that is no error. -/
theorem Position.step?_eq_some_iff {p q : Position σ} :
    p.step? = some q ↔ TokenSource.next p.2 = q ∧ q.1.kind ≠ .error := by
  unfold Position.step?
  constructor
  · intro h
    dsimp only at h
    split at h
    next => cases h
    next hk =>
      cases h
      exact ⟨rfl, hk⟩
  · rintro ⟨rfl, hk⟩
    exact if_neg hk

/-- The tokens between two positions. -/
inductive Passes : Position σ → List Token → Position σ → Prop where
  | nil (p : Position σ) : Passes p [] p
  | cons {p q r : Position σ} {ts : List Token} :
      p.step? = some q → Passes q ts r → Passes p (p.1 :: ts) r

namespace Passes

/-- Passing over a token is one step. -/
theorem cons_iff {p r : Position σ} {t : Token} {ts : List Token} :
    Passes p (t :: ts) r ↔ p.1 = t ∧ ∃ q, p.step? = some q ∧ Passes q ts r := by
  constructor
  · intro h
    cases h with
    | cons hs hp => exact ⟨rfl, _, hs, hp⟩
  · rintro ⟨rfl, q, hs, hp⟩
    exact .cons hs hp

theorem nil_iff {p q : Position σ} : Passes p [] q ↔ p = q := by
  constructor
  · intro h
    cases h
    rfl
  · rintro rfl
    exact .nil p

theorem singleton_iff {p q : Position σ} {t : Token} :
    Passes p [t] q ↔ p.1 = t ∧ p.step? = some q := by
  simp only [cons_iff, nil_iff, exists_eq_right]

/-- Passing over tokens can be halted anywhere. -/
theorem append_iff {p r : Position σ} {ts us : List Token} :
    Passes p (ts ++ us) r ↔ ∃ q, Passes p ts q ∧ Passes q us r := by
  induction ts generalizing p with
  | nil => simp only [List.nil_append, nil_iff, exists_eq_left']
  | cons t ts ih =>
      simp only [List.cons_append, cons_iff, ih]
      constructor
      · rintro ⟨ht, m, hs, q, hts, hus⟩
        exact ⟨q, ⟨ht, m, hs, hts⟩, hus⟩
      · rintro ⟨q, ⟨ht, m, hs, hts⟩, hus⟩
        exact ⟨ht, m, hs, q, hts, hus⟩

end Passes

/-! ## Bounds on the tokens to come -/

/-- `n` bounds the tokens before the end of the text, the one to be looked at
next included. -/
structure Enough (n : Nat) (p : Position σ) : Prop where
  left_le : TokenSource.left p.2 ≤ n
  left_lt : p.1.kind ≠ .eof → TokenSource.left p.2 < n

namespace Enough

/-- What a source has left is a bound where its first token stands. -/
theorem next (source : σ) : Enough (TokenSource.left source) (TokenSource.next source) where
  left_le := TokenSource.left_next_le source
  left_lt := TokenSource.left_next_lt source

/-- A bound on what the source has left is a bound one step further. -/
theorem of_step {n : Nat} {p q : Position σ} (h : TokenSource.left p.2 ≤ n)
    (hs : p.step? = some q) : Enough n q := by
  obtain ⟨rfl, -⟩ := Position.step?_eq_some_iff.mp hs
  have hq := Enough.next p.2
  exact ⟨Nat.le_trans hq.left_le h, fun hk => Nat.lt_of_lt_of_le (hq.left_lt hk) h⟩

theorem passes {n : Nat} {p q : Position σ} {ts : List Token} (h : Enough n p)
    (hp : Passes p ts q) : Enough n q := by
  induction hp with
  | nil => exact h
  | cons hs _ ih => exact ih (of_step h.left_le hs)

/-- Every token before the end counts. -/
theorem pred {n : Nat} {p q : Position σ} {t : Token} {ts : List Token}
    (h : Enough (n + 1) p) (hk : p.1.kind ≠ .eof) (hp : Passes p (t :: ts) q) :
    Enough n q := by
  obtain ⟨-, m, hs, hts⟩ := Passes.cons_iff.mp hp
  exact (of_step (Nat.lt_succ_iff.mp (h.left_lt hk)) hs).passes hts

/-- A bound is not zero before the end. -/
theorem exists_succ {n : Nat} {p : Position σ} (h : Enough n p) (hk : p.1.kind ≠ .eof) :
    ∃ m, n = m + 1 :=
  Nat.exists_eq_add_one.mpr (Nat.zero_lt_of_lt (h.left_lt hk))

end Enough

end Abacus
