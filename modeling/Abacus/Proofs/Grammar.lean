import Abacus.Precedence

/-!
# The grammar of expressions

The compiler builds no tree.  This module says what the trees would be: a `Tree`
keeps the tokens of an expression, `Tree.tokens` writes them out again, and
`Derives` is the grammar

    expression := term (("+" | "-") term)*
    term       := unary (("*" | "/") unary)*
    unary      := "-" unary | primary
    primary    := number | "(" expression ")"

in which a repetition groups to the left.

*Measures.*  `Tree.depth` counts the operands that are open at once, and
`Tree.need` the values that wait on the stack of a machine.  A right operand
counts one more in both, a group and a negation only in the first, so the need
of a tree is never above its depth.

*Meaning.*  `Tree.value?` is the value of a tree, computed by recursion over it.
There is none if a number of the tree cannot be read.
-/

namespace Abacus

/-- An expression with the tokens it is written with. -/
inductive Tree where
  | number (t : Token)
  | group (opening : Token) (inner : Tree) (closing : Token)
  | negation (sign : Token) (operand : Tree)
  | binary (left : Tree) (sign : Token) (right : Tree)
  deriving DecidableEq, Repr

namespace Tree

/-! ## What a tree is made of -/

/-- The tokens of a tree in the order of the text. -/
def tokens : Tree → List Token
  | .number t => [t]
  | .group l e r => l :: (e.tokens ++ [r])
  | .negation m e => m :: e.tokens
  | .binary l o r => l.tokens ++ o :: r.tokens

/-- The last token of a tree. -/
def last : Tree → Token
  | .number t => t
  | .group _ _ r => r
  | .negation _ e => e.last
  | .binary _ _ r => r.last

/-- The numbers of a tree in the order of the text. -/
def literals : Tree → List Token
  | .number t => [t]
  | .group _ e _ => e.literals
  | .negation _ e => e.literals
  | .binary l _ r => l.literals ++ r.literals

/-- How many operands are open at once while the tree is read. -/
def depth : Tree → Nat
  | .number _ => 1
  | .group _ e _ => 1 + e.depth
  | .negation _ e => 1 + e.depth
  | .binary l _ r => max l.depth (1 + r.depth)

/-- How many values are held at once while the tree is evaluated. -/
def need : Tree → Nat
  | .number _ => 1
  | .group _ e _ => e.need
  | .negation _ e => e.need
  | .binary l _ r => max l.need (1 + r.need)

/-- The value of a tree. -/
def value? : Tree → Option Value
  | .number t => Value.read? t.lexeme.toList
  | .group _ e _ => e.value?
  | .negation _ e => e.value?.map fun a => -a
  | .binary l o r =>
      o.kind.operator?.bind fun op =>
        l.value?.bind fun a => r.value?.map fun b => op.apply a b

theorem depth_pos (t : Tree) : 0 < t.depth := by
  cases t with
  | number => exact Nat.one_pos
  | group => simp only [depth]; omega
  | negation => simp only [depth]; omega
  | binary => simp only [depth]; omega

theorem need_pos (t : Tree) : 0 < t.need := by
  induction t with
  | number => exact Nat.one_pos
  | group _ _ _ ih => exact ih
  | negation _ _ ih => exact ih
  | binary => simp only [need]; omega

/-- A machine holds no more values than operands are open. -/
theorem need_le_depth (t : Tree) : t.need ≤ t.depth := by
  induction t with
  | number => exact Nat.le_refl 1
  | group _ _ _ ih => simp only [need, depth]; omega
  | negation _ _ ih => simp only [need, depth]; omega
  | binary _ _ _ ihl ihr => simp only [need, depth]; omega

end Tree

/-! ## The grammar -/

/-- What a part of an expression can be. -/
inductive Category where
  | expression | term | unary | primary
  deriving DecidableEq, Repr

/-- The trees of the grammar. -/
inductive Derives : Category → Tree → Prop where
  | number {t : Token} : t.kind = .number → Derives .primary (.number t)
  | group {l r : Token} {e : Tree} :
      l.kind = .leftParen → Derives .expression e → r.kind = .rightParen →
      Derives .primary (.group l e r)
  | primary {e : Tree} : Derives .primary e → Derives .unary e
  | negation {m : Token} {e : Tree} :
      m.kind = .minus → Derives .unary e → Derives .unary (.negation m e)
  | unary {e : Tree} : Derives .unary e → Derives .term e
  | product {l r : Tree} {o : Token} :
      Derives .term l → o.kind = .star ∨ o.kind = .slash → Derives .unary r →
      Derives .term (.binary l o r)
  | term {e : Tree} : Derives .term e → Derives .expression e
  | sum {l r : Tree} {o : Token} :
      Derives .expression l → o.kind = .plus ∨ o.kind = .minus → Derives .term r →
      Derives .expression (.binary l o r)

namespace Derives

/-- A tree is made of signs that expressions use, and no others. -/
theorem kind_of_mem_tokens {c : Category} {e : Tree} (h : Derives c e) {t : Token}
    (ht : t ∈ e.tokens) :
    t.kind ∈ [.number, .leftParen, .rightParen, .plus, .minus, .star, .slash] := by
  induction h with
  | number hk =>
      rw [Tree.tokens, List.mem_singleton] at ht
      simp [ht, hk]
  | group hl _ hr ih =>
      simp only [Tree.tokens, List.mem_cons, List.mem_append, List.not_mem_nil, or_false] at ht
      rcases ht with rfl | ht | rfl
      · simp [hl]
      · exact ih ht
      · simp [hr]
  | primary _ ih => exact ih ht
  | negation hm _ ih =>
      rcases List.mem_cons.mp ht with rfl | ht
      · simp [hm]
      · exact ih ht
  | unary _ ih => exact ih ht
  | product _ ho _ ihl ihr =>
      simp only [Tree.tokens, List.mem_append, List.mem_cons] at ht
      rcases ht with ht | rfl | ht
      · exact ihl ht
      · rcases ho with ho | ho <;> simp [ho]
      · exact ihr ht
  | term _ ih => exact ih ht
  | sum _ ho _ ihl ihr =>
      simp only [Tree.tokens, List.mem_append, List.mem_cons] at ht
      rcases ht with ht | rfl | ht
      · exact ihl ht
      · rcases ho with ho | ho <;> simp [ho]
      · exact ihr ht

/-- No token of a tree ends the text. -/
theorem kind_ne_eof {c : Category} {e : Tree} (h : Derives c e) {t : Token}
    (ht : t ∈ e.tokens) : t.kind ≠ .eof := by
  intro hk
  simpa [hk] using h.kind_of_mem_tokens ht

/-- No token of a tree is an error. -/
theorem kind_ne_error {c : Category} {e : Tree} (h : Derives c e) {t : Token}
    (ht : t ∈ e.tokens) : t.kind ≠ .error := by
  intro hk
  simpa [hk] using h.kind_of_mem_tokens ht

end Derives

end Abacus
