import Abacus.Diagnostic
import Abacus.Proofs.Grammar

/-!
# Beginnings of expressions

A sequence of tokens is viable if it can be continued to an expression with the end
of the text behind it.  To tell this, one token after the other, it is enough to know
whether an operand or an operator comes next and how many parentheses are open.
`Stance` is this knowledge and `Stance.step?` brings it up to date; there is no next
stance behind a token that cannot stand where it stands.

The main statement is `viable_iff`: a sequence is viable exactly if it leads to a
stance.  That an expression can be followed is an induction over its derivation.  For
the other direction `Stance.Describes` says what has been read in a stance: whole
expressions, each but the last broken off before an operand that a parenthesis opens.
-/

namespace Abacus

/-- What may come next in an expression, and how many parentheses are open. -/
inductive Stance where
  | operand (opened : Nat)
  | operator (opened : Nat)
  /-- The text has ended behind an expression. -/
  | ended
  deriving DecidableEq, Repr

namespace Stance

/-- The stance behind one more token. -/
def step? : Stance → Token.Kind → Option Stance
  | .operand opened, .number => some (.operator opened)
  | .operand opened, .leftParen => some (.operand (opened + 1))
  | .operand opened, .minus => some (.operand opened)
  | .operator opened, .plus => some (.operand opened)
  | .operator opened, .minus => some (.operand opened)
  | .operator opened, .star => some (.operand opened)
  | .operator opened, .slash => some (.operand opened)
  | .operator (opened + 1), .rightParen => some (.operator opened)
  | .operator 0, .eof => some .ended
  | _, _ => none

/-- The stance behind a sequence of tokens. -/
def run? (s : Stance) : List Token → Option Stance
  | [] => some s
  | t :: ts => (s.step? t.kind).bind fun s => s.run? ts

/-- What a step can do. -/
inductive Moves : Stance → Token.Kind → Stance → Prop where
  | number {n : Nat} : Moves (.operand n) .number (.operator n)
  | opening {n : Nat} : Moves (.operand n) .leftParen (.operand (n + 1))
  | sign {n : Nat} : Moves (.operand n) .minus (.operand n)
  | operator {n : Nat} {k : Token.Kind} {o : Operator} :
      k.operator? = some o → Moves (.operator n) k (.operand n)
  | closing {n : Nat} : Moves (.operator (n + 1)) .rightParen (.operator n)
  | finish : Moves (.operator 0) .eof .ended

theorem step?_eq_some_iff {s s' : Stance} {k : Token.Kind} :
    s.step? k = some s' ↔ Moves s k s' := by
  constructor
  · intro h
    unfold step? at h
    split at h
    case h_1 => cases h; exact .number
    case h_2 => cases h; exact .opening
    case h_3 => cases h; exact .sign
    case h_4 => cases h; exact .operator rfl
    case h_5 => cases h; exact .operator rfl
    case h_6 => cases h; exact .operator rfl
    case h_7 => cases h; exact .operator rfl
    case h_8 => cases h; exact .closing
    case h_9 => cases h; exact .finish
    case h_10 => cases h
  · intro h
    cases h with
    | number => rfl
    | opening => rfl
    | sign => rfl
    | @operator n k o ho => cases k <;> cases ho <;> rfl
    | closing => rfl
    | finish => rfl

/-- An operand can only begin with a token that opens one. -/
theorem step?_operand_eq_none_iff {n : Nat} {k : Token.Kind} :
    (operand n).step? k = none ↔ k.opening? = none := by
  cases k <;> simp [step?, Token.Kind.opening?]

/-- Behind an operand there may be an operator or a parenthesis that closes, or the
end if no parenthesis is open. -/
theorem step?_operator_eq_none {n : Nat} {k : Token.Kind} (hoperator : k.operator? = none)
    (hother : k ≠ if n = 0 then .eof else .rightParen) : (operator n).step? k = none := by
  refine Option.eq_none_iff_forall_ne_some.mpr fun s hs => ?_
  cases step?_eq_some_iff.mp hs with
  | operator ho => cases hoperator.symm.trans ho
  | closing => exact hother rfl
  | finish => exact hother rfl

theorem run?_append (s : Stance) (us vs : List Token) :
    s.run? (us ++ vs) = (s.run? us).bind fun s => s.run? vs := by
  induction us generalizing s with
  | nil => rfl
  | cons u us ih =>
      rw [List.cons_append, run?, run?]
      cases s.step? u.kind with
      | none => rfl
      | some s => exact ih s

theorem run?_cons_eq_some {s s' m : Stance} {t : Token} {ts : List Token}
    (ht : s.step? t.kind = some m) (h : m.run? ts = some s') : s.run? (t :: ts) = some s' := by
  rw [run?, ht]
  exact h

theorem run?_append_eq_some {s s' m : Stance} {us vs : List Token} (hu : s.run? us = some m)
    (hv : m.run? vs = some s') : s.run? (us ++ vs) = some s' := by
  rw [run?_append, hu]
  exact hv

/-- What holds at the start and is kept by every step holds of what has been read and
the stance behind it. -/
theorem run?_induction {motive : Stance → List Token → Prop}
    (step : ∀ {s s' ts t}, motive s ts → Moves s t.kind s' → motive s' (ts ++ [t]))
    {s s' : Stance} {us ts : List Token} (h : motive s us) (hrun : s.run? ts = some s') :
    motive s' (us ++ ts) := by
  induction ts generalizing s us with
  | nil =>
      cases hrun
      rwa [List.append_nil]
  | cons t ts ih =>
      obtain ⟨m, hm, hrun⟩ := Option.bind_eq_some_iff.mp hrun
      rw [← List.singleton_append, ← List.append_assoc]
      exact ih (step h (step?_eq_some_iff.mp hm)) hrun

end Stance

/-- The tokens can be continued to an expression and the end of the text. -/
def Viable (ts : List Token) : Prop :=
  ∃ tree e, Derives .expression tree ∧ e.kind = .eof ∧ ts <+: tree.tokens ++ [e]

theorem Viable.of_append {us vs : List Token} (h : Viable (us ++ vs)) : Viable us := by
  obtain ⟨tree, e, htree, he, hpre⟩ := h
  exact ⟨tree, e, htree, he, (List.prefix_append us vs).trans hpre⟩

/-! ## Expressions can be followed -/

theorem Stance.run?_binary {n : Nat} {l r : Tree} {t : Token} {o : Operator}
    (ho : t.kind.operator? = some o)
    (hl : (operand n).run? l.tokens = some (operator n))
    (hr : (operand n).run? r.tokens = some (operator n)) :
    (operand n).run? (Tree.binary l t r).tokens = some (operator n) :=
  run?_append_eq_some hl (run?_cons_eq_some (step?_eq_some_iff.mpr (.operator ho)) hr)

/-- An expression, or a part of one, stands where an operand may come. -/
theorem Derives.run? {c : Category} {t : Tree} (h : Derives c t) (n : Nat) :
    (Stance.operand n).run? t.tokens = some (.operator n) := by
  induction h generalizing n with
  | number hk => exact Stance.run?_cons_eq_some (by rw [hk]; rfl) rfl
  | group hl _ hr ih =>
      refine Stance.run?_cons_eq_some (by rw [hl]; rfl) ?_
      refine Stance.run?_append_eq_some (ih (n + 1)) ?_
      exact Stance.run?_cons_eq_some (by rw [hr]; rfl) rfl
  | primary _ ih => exact ih n
  | negation hm _ ih => exact Stance.run?_cons_eq_some (by rw [hm]; rfl) (ih n)
  | unary _ ih => exact ih n
  | product _ ho _ ihl ihr =>
      rcases ho with ho | ho
      · exact Stance.run?_binary (o := .multiply) (by rw [ho]; rfl) (ihl n) (ihr n)
      · exact Stance.run?_binary (o := .divide) (by rw [ho]; rfl) (ihl n) (ihr n)
  | term _ ih => exact ih n
  | sum _ ho _ ihl ihr =>
      rcases ho with ho | ho
      · exact Stance.run?_binary (o := .add) (by rw [ho]; rfl) (ihl n) (ihr n)
      · exact Stance.run?_binary (o := .subtract) (by rw [ho]; rfl) (ihl n) (ihr n)

/-! ## What has been read in a stance -/

/-- The tokens and any operand behind them are an expression. -/
def AwaitsOperand (ts : List Token) : Prop :=
  ∀ u, Derives .unary u → ∃ e, Derives .expression e ∧ e.tokens = ts ++ u.tokens

/-- Tokens up to the innermost of so many open parentheses. -/
inductive Enclosing : Nat → List Token → Prop where
  | nil : Enclosing 0 []
  | paren {n : Nat} {outer ts : List Token} {l : Token} :
      Enclosing n outer → AwaitsOperand ts → l.kind = .leftParen →
      Enclosing (n + 1) (outer ++ ts ++ [l])

/-- What has been read in a stance. -/
def Stance.Describes : Stance → List Token → Prop
  | .operand n, ts => ∃ outer inner, Enclosing n outer ∧ AwaitsOperand inner ∧ ts = outer ++ inner
  | .operator n, ts =>
      ∃ outer e, Enclosing n outer ∧ Derives .expression e ∧ ts = outer ++ e.tokens
  | .ended, ts => ∃ e t, Derives .expression e ∧ t.kind = .eof ∧ ts = e.tokens ++ [t]

/-- An operator and an operand can be added to every expression. -/
theorem Derives.awaitsOperand {e : Tree} (h : Derives .expression e) {t : Token} {o : Operator}
    (ho : t.kind.operator? = some o) : AwaitsOperand (e.tokens ++ [t]) := by
  intro u hu
  have hproduct {l : Tree} (hl : Derives .term l) (hk : t.kind = .star ∨ t.kind = .slash) :
      Derives .term (.binary l t u) := .product hl hk hu
  have hsum (hk : t.kind = .plus ∨ t.kind = .minus) : Derives .expression (.binary e t u) :=
    .sum h hk (.unary hu)
  -- a factor belongs to the last term of a sum
  have hfactor (hk : t.kind = .star ∨ t.kind = .slash) :
      ∃ e', Derives .expression e' ∧ e'.tokens = e.tokens ++ t :: u.tokens := by
    cases h with
    | term he => exact ⟨_, .term (hproduct he hk), rfl⟩
    | sum hl hs hr => exact ⟨_, .sum hl hs (hproduct hr hk), by simp [Tree.tokens]⟩
  rw [List.append_assoc, List.singleton_append]
  cases hk : t.kind with
  | plus => exact ⟨_, hsum (.inl hk), rfl⟩
  | minus => exact ⟨_, hsum (.inr hk), rfl⟩
  | star => exact hfactor (.inl hk)
  | slash => exact hfactor (.inr hk)
  | _ => rw [hk] at ho; cases ho

namespace Stance

theorem Describes.step {s s' : Stance} {ts : List Token} {t : Token} (h : s.Describes ts)
    (hmove : Moves s t.kind s') : s'.Describes (ts ++ [t]) := by
  generalize hk : t.kind = k at hmove
  cases hmove with
  | number =>
      obtain ⟨outer, inner, houter, hinner, rfl⟩ := h
      obtain ⟨e, he, htokens⟩ := hinner (.number t) (.primary (.number hk))
      exact ⟨outer, e, houter, he, by rw [htokens, List.append_assoc]; rfl⟩
  | opening =>
      obtain ⟨outer, inner, houter, hinner, rfl⟩ := h
      exact ⟨_, [], .paren houter hinner hk, fun u hu => ⟨u, .term (.unary hu), rfl⟩,
        (List.append_nil _).symm⟩
  | sign =>
      obtain ⟨outer, inner, houter, hinner, rfl⟩ := h
      refine ⟨outer, inner ++ [t], houter, fun u hu => ?_, List.append_assoc ..⟩
      obtain ⟨e, he, htokens⟩ := hinner (.negation t u) (.negation hk hu)
      exact ⟨e, he, by rw [htokens, List.append_assoc]; rfl⟩
  | operator ho =>
      obtain ⟨outer, e, houter, he, rfl⟩ := h
      exact ⟨outer, _, houter, he.awaitsOperand (hk ▸ ho), List.append_assoc ..⟩
  | closing =>
      obtain ⟨outer, e, houter, he, rfl⟩ := h
      cases houter with
      | @paren _ outer inner l houter hinner hl =>
          obtain ⟨e', he', htokens⟩ := hinner (.group l e t) (.primary (.group hl he hk))
          exact ⟨outer, e', houter, he', by rw [htokens]; simp [Tree.tokens]⟩
  | finish =>
      obtain ⟨outer, e, houter, he, rfl⟩ := h
      cases houter with
      | nil => exact ⟨e, t, he, hk, rfl⟩

theorem describes_of_run? {s : Stance} {ts : List Token} (h : (operand 0).run? ts = some s) :
    s.Describes ts := by
  have hstart : (operand 0).Describes [] :=
    ⟨[], [], .nil, fun u hu => ⟨u, .term (.unary hu), rfl⟩, rfl⟩
  exact run?_induction Describes.step hstart h

/-- A beginning is made an expression by an operand and the parentheses that are
missing. -/
theorem Describes.viable {s : Stance} {ts : List Token} (h : s.Describes ts) : Viable ts := by
  have hoperator {n : Nat} {ts : List Token} (h : (operator n).Describes ts) : Viable ts := by
    induction n generalizing ts with
    | zero =>
        obtain ⟨outer, e, houter, he, rfl⟩ := h
        cases houter with
        | nil => exact ⟨e, .endOfText 1, he, rfl, List.prefix_append e.tokens _⟩
    | succ n ih => exact (ih (h.step (t := ⟨.rightParen, ")", 1⟩) .closing)).of_append
  cases s with
  | operand n => exact (hoperator (h.step (t := ⟨.number, "0", 1⟩) .number)).of_append
  | operator n => exact hoperator h
  | ended =>
      obtain ⟨e, t, he, ht, rfl⟩ := h
      exact ⟨e, t, he, ht, List.prefix_refl _⟩

end Stance

/-- A sequence of tokens is viable exactly if it leads to a stance. -/
theorem viable_iff {ts : List Token} :
    Viable ts ↔ ((Stance.operand 0).run? ts).isSome := by
  constructor
  · rintro ⟨tree, e, htree, he, more, hmore⟩
    have hall : (Stance.operand 0).run? (ts ++ more) = some .ended := by
      rw [hmore]
      refine Stance.run?_append_eq_some (htree.run? 0) (Stance.run?_cons_eq_some ?_ rfl)
      rw [he]
      rfl
    rw [Stance.run?_append] at hall
    obtain ⟨s, hs, -⟩ := Option.bind_eq_some_iff.mp hall
    rw [hs]
    rfl
  · intro h
    obtain ⟨s, hs⟩ := Option.isSome_iff_exists.mp h
    exact (Stance.describes_of_run? hs).viable

instance (ts : List Token) : Decidable (Viable ts) := decidable_of_iff _ viable_iff.symm

/-! ## What is expected behind a beginning -/

/-- An operand comes next: at the start, and behind a parenthesis that opens, a sign
or an operator. -/
def OperandPosition (before : List Token) : Prop :=
  ∀ u ∈ before.getLast?, u.kind ∈ [.leftParen, .minus, .plus, .star, .slash]

/-- The last token completes an operand. -/
def OperandComplete (before : List Token) : Prop :=
  ∃ u ∈ before.getLast?, u.kind ∈ [.number, .rightParen]

theorem OperandComplete.not_operandPosition {before : List Token} (h : OperandComplete before) :
    ¬ OperandPosition before := by
  obtain ⟨u, hu, hkind⟩ := h
  intro hposition
  have hother := hposition u hu
  simp only [List.mem_cons, List.not_mem_nil, or_false] at hkind
  rcases hkind with hk | hk
  · simp [hk] at hother
  · simp [hk] at hother

/-- How many tokens are of a kind. -/
def countOf (kind : Token.Kind) (ts : List Token) : Nat := ts.countP (·.kind = kind)

/-- The problem with a token that cannot stand behind the given ones. -/
inductive Expected (before : List Token) : Problem → Prop where
  | expression : OperandPosition before → Expected before .expectedExpression
  | closing : OperandComplete before → countOf .rightParen before < countOf .leftParen before →
      Expected before .expectedClosing
  | ending : OperandComplete before → countOf .rightParen before = countOf .leftParen before →
      Expected before .expectedEnd

namespace Stance

/-- A stance fits the last token and the number of parentheses. -/
def Fits : Stance → List Token → Prop
  | .operand n, ts => OperandPosition ts ∧ countOf .leftParen ts = countOf .rightParen ts + n
  | .operator n, ts => OperandComplete ts ∧ countOf .leftParen ts = countOf .rightParen ts + n
  | .ended, _ => True

theorem countOf_append_singleton (kind : Token.Kind) (ts : List Token) (t : Token) :
    countOf kind (ts ++ [t]) = countOf kind ts + if t.kind = kind then 1 else 0 := by
  simp [countOf, List.countP_append, List.countP_singleton]

theorem operandPosition_append {t : Token}
    (h : t.kind ∈ [.leftParen, .minus, .plus, .star, .slash]) (ts : List Token) :
    OperandPosition (ts ++ [t]) := by
  intro u hu
  rw [List.getLast?_concat, Option.mem_some_iff] at hu
  exact hu ▸ h

theorem operandComplete_append {t : Token} (h : t.kind ∈ [.number, .rightParen])
    (ts : List Token) : OperandComplete (ts ++ [t]) :=
  ⟨t, by rw [List.getLast?_concat]; rfl, h⟩

theorem Fits.step {s s' : Stance} {ts : List Token} {t : Token} (h : s.Fits ts)
    (hmove : Moves s t.kind s') : s'.Fits (ts ++ [t]) := by
  generalize hk : t.kind = k at hmove
  cases hmove with
  | number =>
      refine ⟨operandComplete_append (by simp [hk]) ts, ?_⟩
      simpa [countOf_append_singleton, hk] using h.2
  | opening =>
      refine ⟨operandPosition_append (by simp [hk]) ts, ?_⟩
      have hcount := h.2
      simp only [countOf_append_singleton, hk, reduceCtorEq, if_true, if_false]
      omega
  | sign =>
      refine ⟨operandPosition_append (by simp [hk]) ts, ?_⟩
      simpa [countOf_append_singleton, hk] using h.2
  | @operator _ _ o ho =>
      have hsign : k ∈ [.leftParen, .minus, .plus, .star, .slash] ∧ k ≠ .leftParen ∧
          k ≠ .rightParen := by
        cases k <;> cases ho <;> simp
      refine ⟨operandPosition_append (hk ▸ hsign.1) ts, ?_⟩
      simpa [countOf_append_singleton, hk, hsign.2] using h.2
  | closing =>
      refine ⟨operandComplete_append (by simp [hk]) ts, ?_⟩
      have hcount := h.2
      simp only [countOf_append_singleton, hk, reduceCtorEq, if_true, if_false]
      omega
  | finish => trivial

theorem fits_of_run? {s : Stance} {ts : List Token} (h : (operand 0).run? ts = some s) :
    s.Fits ts := by
  have hstart : (operand 0).Fits [] := ⟨nofun, rfl⟩
  exact run?_induction Fits.step hstart h

/-- Tokens that lead somewhere are no errors, and none of them is the end unless they
lead to the end. -/
theorem kinds_of_run? {s : Stance} {ts : List Token} (h : (operand 0).run? ts = some s) :
    (∀ t ∈ ts, t.kind ≠ .error) ∧ (s = .ended ∨ ∀ t ∈ ts, t.kind ≠ .eof) := by
  have hstart : (∀ t ∈ ([] : List Token), t.kind ≠ .error) ∧
      (operand 0 = .ended ∨ ∀ t ∈ ([] : List Token), t.kind ≠ .eof) := by simp
  refine run?_induction (motive := fun s ts =>
    (∀ t ∈ ts, t.kind ≠ .error) ∧ (s = .ended ∨ ∀ t ∈ ts, t.kind ≠ .eof)) ?_ hstart h
  rintro s s' ts t ⟨herror, hend⟩ hmove
  have ht : t.kind ≠ .error ∧ s ≠ .ended ∧ (s' = .ended ∨ t.kind ≠ .eof) := by
    generalize t.kind = k at hmove
    cases hmove with
    | operator ho => cases k <;> cases ho <;> simp
    | _ => simp
  refine ⟨?_, ?_⟩
  · simpa [or_imp, forall_and] using ⟨herror, ht.1⟩
  · refine ht.2.2.imp_right fun hk => ?_
    simpa [or_imp, forall_and] using ⟨hend.resolve_left ht.2.1, hk⟩

end Stance

end Abacus
