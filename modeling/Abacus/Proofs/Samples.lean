import Abacus.Sample
import Abacus.Proofs.Preservation
import Abacus.Proofs.Tokenizing
import Mathlib.Data.List.Perm.Subperm

/-!
# Sample expressions are in range

A sample expression of any length compiles and has a value.  The length bounds none of
the things that are limited.

*Nesting.*  Operands follow each other with operators between them.  However the
operators group them, a chain of operands is only two levels deeper than its deepest
operand: an operand belongs to a product, and a product to a sum (`Derives.extend`).

*Constants.*  The numbers of a sample expression are `1` to `199`, over and over.  A pool
that shares its entries does not outgrow them.

*Tokens.*  No blank stands behind a parenthesis or a sign of a sample expression, so
each of its tokens is followed to its end here: a sign ends by itself, and digits end where
neither a digit nor a point follows.
-/

namespace Abacus

/-! ## Chains of operands -/

/-- An expression goes on with an operator and an operand.  The operand joins the last
product of the expression, or stands beside it. -/
theorem Derives.extend {t u : Tree} {o : Token} (ht : Derives .expression t)
    (ho : o.kind ∈ [.plus, .minus, .star, .slash]) (hu : Derives .unary u) :
    ∃ t', Derives .expression t' ∧ t'.tokens = t.tokens ++ o :: u.tokens ∧
      t'.literals = t.literals ++ u.literals ∧ t'.depth ≤ max t.depth (u.depth + 2) := by
  have hcases : (o.kind = .plus ∨ o.kind = .minus) ∨ o.kind = .star ∨ o.kind = .slash := by
    simpa [or_assoc] using ho
  rcases hcases with hsum | hproduct
  · refine ⟨.binary t o u, .sum ht hsum (.unary hu), rfl, rfl, ?_⟩
    simp only [Tree.depth]
    omega
  · cases ht with
    | term ht =>
        refine ⟨.binary t o u, .term (.product ht hproduct hu), rfl, rfl, ?_⟩
        simp only [Tree.depth]
        omega
    | @sum l r o' hl ho' hr =>
        refine ⟨.binary l o' (.binary r o u), .sum hl ho' (.product hr hproduct hu), ?_, ?_, ?_⟩
        · simp [Tree.tokens]
        · simp [Tree.literals]
        · simp only [Tree.depth]
          omega

/-! ## Tokens in front of other text -/

namespace Lexer

theorem tokens_of_next {l l' : Lexer} {t : Token} (h : l.next = (t, l')) (ht : t.kind ≠ .eof) :
    l.tokens = t :: l'.tokens := by
  rw [tokens_of_not_end (by rw [h]; exact ht), h]

/-- A space is passed. -/
theorem tokens_space (rest : List Char) (line : UInt32) :
    tokens ⟨' ' :: rest, line⟩ = tokens ⟨rest, line⟩ := by
  have hnext : next ⟨' ' :: rest, line⟩ = next ⟨rest, line⟩ := by
    rw [next, next, skip_space (by decide)]
  by_cases hend : (next ⟨rest, line⟩).1.kind = .eof
  · rw [tokens_of_end hend, tokens_of_end (hnext ▸ hend), hnext]
  · rw [tokens_of_not_end hend, tokens_of_not_end (hnext ▸ hend), hnext]

/-- A sign is a token of its own, unless it begins a comment. -/
theorem tokens_sign {c : Char} {kind : Token.Kind} (h : sign? c = some kind) {rest : List Char}
    (hslash : c = '/' → rest.head? ≠ some '/') (line : UInt32) :
    tokens ⟨c :: rest, line⟩ = ⟨kind, String.ofList [c], line⟩ :: tokens ⟨rest, line⟩ := by
  obtain ⟨⟨hline, hspace⟩, hword, hdigit, hquote⟩ := of_lookup_eq_some
    (P := fun c _ => (c ≠ '\n' ∧ ¬ isSpace c) ∧ ¬ isWordStart c ∧ ¬ c.isDigit ∧ c ≠ '"')
    h (by decide)
  have hnext : next ⟨c :: rest, line⟩ = accept kind [c] rest line := by
    rw [next, skip_of_not_trivia hline hspace hslash]
    change token c rest line = _
    rw [token, if_neg hword, if_neg hdigit, if_neg hquote, h]
  exact tokens_of_next hnext (sign?_kind h).1

/-- Digits end in front of the text. -/
def EndsNumber (text : List Char) : Prop := ∀ c ∈ text.head?, ¬ c.isDigit ∧ c ≠ '.'

/-- Digits are one number if nothing behind them belongs to it. -/
theorem token_of_digits {c : Char} {digits rest : List Char} (hc : c.isDigit)
    (hdigits : ∀ d ∈ digits, d.isDigit) (hrest : EndsNumber rest) (line : UInt32) :
    token c (digits ++ rest) line = accept .number (c :: digits) rest line := by
  have htake : rest.takeWhile Char.isDigit = [] := by
    cases rest with
    | nil => rfl
    | cons d rest => exact List.takeWhile_cons_of_neg (hrest d rfl).1
  have hdrop : rest.dropWhile Char.isDigit = rest := by
    cases rest with
    | nil => rfl
    | cons d rest => exact List.dropWhile_cons_of_neg (hrest d rfl).1
  have hfraction : fraction rest = ([], rest) := by
    rcases fraction_cases rest with ⟨h, -⟩ | ⟨d, r, rfl, -, -⟩
    · exact h
    · exact absurd rfl (hrest '.' rfl).2
  rw [token, if_neg (not_isWordStart_of_isDigit hc), if_pos hc, number,
    List.takeWhile_append_of_pos hdigits, List.dropWhile_append_of_pos hdigits, htake, hdrop,
    hfraction]
  simp

/-- A spelled number is one token. -/
theorem tokens_repr (n : Nat) {rest : List Char} (hrest : EndsNumber rest) (line : UInt32) :
    tokens ⟨(Nat.repr n).toList ++ rest, line⟩ =
      ⟨.number, Nat.repr n, line⟩ :: tokens ⟨rest, line⟩ := by
  have hdigits : ∀ d ∈ Nat.toDigits 10 n, d.isDigit :=
    fun d hd => Nat.isDigit_of_mem_toDigits (by decide) (by decide) hd
  rw [Nat.repr_eq_ofList_toDigits, String.toList_ofList]
  cases hn : Nat.toDigits 10 n with
  | nil => exact absurd hn Nat.toDigits_ne_nil
  | cons c digits =>
      rw [hn] at hdigits
      obtain ⟨hc, hdigits⟩ := List.forall_mem_cons.mp hdigits
      have hnext : next ⟨c :: digits ++ rest, line⟩ = accept .number (c :: digits) rest line := by
        rw [next, List.cons_append, skip_of_not_trivia]
        · exact token_of_digits hc hdigits hrest line
        · rintro rfl
          exact absurd hc (by decide)
        · intro hspace
          exact Lexeme.of_blank (P := fun c => ¬ c.isDigit) (by decide) (mem_of_isSpace hspace) hc
        · rintro rfl
          exact absurd hc (by decide)
      refine tokens_of_next hnext ?_
      rintro ⟨⟩

end Lexer

/-! ## Texts of trees -/

namespace Sample

open Compiler (Accepted compile)

/-- The numbers of sample expressions. -/
def numerals : List String := (List.range 199).map fun n => Nat.repr (n + 1)

/-- The text is that of a tree of a category, in front of all that ends a number.  The
tree is not deeper than said, and has no numbers but those of sample expressions. -/
structure Spells (text : String) (c : Category) (depth : Nat) (t : Tree) : Prop where
  derives : Derives c t
  depth_le : t.depth ≤ depth
  numbers : ∀ u ∈ t.literals, u.lexeme ∈ numerals
  tokens : ∀ rest, Lexer.EndsNumber rest →
    Lexer.tokens ⟨text.toList ++ rest, 1⟩ = t.tokens ++ Lexer.tokens ⟨rest, 1⟩

/-- A small number is spelled as an operand. -/
theorem spells_numeral {n : Nat} (h : n < 199) :
    Spells (Nat.repr (n + 1)) .unary 1 (.number ⟨.number, Nat.repr (n + 1), 1⟩) where
  derives := .primary (.number rfl)
  depth_le := Nat.le_refl 1
  numbers := fun u hu => by
    rw [List.mem_singleton.mp hu]
    exact List.mem_map.mpr ⟨n, List.mem_range.mpr h, rfl⟩
  tokens := fun _ hrest => Lexer.tokens_repr (n + 1) hrest 1

namespace Spells

variable {text text' : String} {d d' : Nat} {t u : Tree}

/-- More depth is depth enough. -/
theorem mono {c : Category} (h : Spells text c d t) (hd : d ≤ d') : Spells text c d' t :=
  { h with depth_le := Nat.le_trans h.depth_le hd }

theorem expression (h : Spells text .unary d t) : Spells text .expression d t :=
  { h with derives := .term (.unary h.derives) }

/-- A sign in front of an operand makes another one, one level deeper. -/
theorem negation (h : Spells text .unary d t) :
    Spells ("-" ++ text) .unary (d + 1) (.negation ⟨.minus, "-", 1⟩ t) where
  derives := .negation rfl h.derives
  depth_le := by
    have := h.depth_le
    simp only [Tree.depth]
    omega
  numbers := h.numbers
  tokens := fun rest hrest => by
    rw [String.toList_append, List.append_assoc]
    change Lexer.tokens ⟨'-' :: (text.toList ++ rest), 1⟩ = _
    rw [Lexer.tokens_sign (c := '-') rfl (by simp), h.tokens rest hrest]
    rfl

/-- Brackets around an expression make an operand, one level deeper. -/
theorem group (h : Spells text .expression d t) :
    Spells ("(" ++ text ++ ")") .unary (d + 1)
      (.group ⟨.leftParen, "(", 1⟩ t ⟨.rightParen, ")", 1⟩) where
  derives := .primary (.group rfl h.derives rfl)
  depth_le := by
    have := h.depth_le
    simp only [Tree.depth]
    omega
  numbers := h.numbers
  tokens := fun rest hrest => by
    have hends : Lexer.EndsNumber (')' :: rest) := by
      rintro c ⟨⟩
      decide
    rw [String.toList_append, String.toList_append, List.append_assoc, List.append_assoc]
    change Lexer.tokens ⟨'(' :: (text.toList ++ ')' :: rest), 1⟩ = _
    rw [Lexer.tokens_sign (c := '(') rfl (by simp), h.tokens _ hends,
      Lexer.tokens_sign (c := ')') rfl (by simp)]
    simp [Tree.tokens]

/-- The step of a chain: an operator between spaces and one more operand. -/
theorem extend (h : Spells text .expression d t) {c : Char} {kind : Token.Kind}
    (hsign : Lexer.sign? c = some kind) (hkind : kind ∈ [.plus, .minus, .star, .slash])
    (hu : Spells text' .unary d' u) :
    ∃ t', Spells (text ++ (String.ofList [' ', c, ' '] ++ text')) .expression
      (max d (d' + 2)) t' := by
  obtain ⟨t', hderives, htokens, hliterals, hdepth⟩ :=
    h.derives.extend (o := ⟨kind, String.ofList [c], 1⟩) hkind hu.derives
  refine ⟨t', hderives, ?_, ?_, ?_⟩
  · have := h.depth_le
    have := hu.depth_le
    omega
  · intro v hv
    rw [hliterals, List.mem_append] at hv
    exact hv.elim (h.numbers v) (hu.numbers v)
  · intro rest hrest
    have hends : Lexer.EndsNumber (' ' :: c :: ' ' :: (text'.toList ++ rest)) := by
      rintro c ⟨⟩
      decide
    have htext : (text ++ (String.ofList [' ', c, ' '] ++ text')).toList ++ rest =
        text.toList ++ ' ' :: c :: ' ' :: (text'.toList ++ rest) := by simp
    rw [htext, h.tokens _ hends, Lexer.tokens_space, Lexer.tokens_sign hsign (by simp),
      Lexer.tokens_space, hu.tokens rest hrest, htokens]
    simp

end Spells

/-! ## Sample expressions -/

/-- The operands of the chain are operands. -/
theorem exists_operand (i : Nat) : ∃ u, Spells (operandText i) .unary 4 u := by
  have hfirst := spells_numeral (Nat.mod_lt (i * 7) (by decide : 0 < 199))
  unfold operandText
  dsimp only
  split
  · have hsecond := spells_numeral (n := (i * 7 % 199 + 1) % 13) (by omega)
    obtain ⟨t, ht⟩ := hfirst.expression.extend (c := '+') rfl (by decide) hsecond
    have hgroup := ht.group
    simp only [← String.append_assoc] at hgroup
    exact ⟨_, hgroup⟩
  · exact ⟨_, hfirst.negation.mono (by decide)⟩
  · exact ⟨_, hfirst.mono (by decide)⟩

/-- The operators of the chain are operators, each between two spaces. -/
theorem exists_operator {i : Nat} (h : i ≠ 0) :
    ∃ c kind, Lexer.sign? c = some kind ∧ kind ∈ [.plus, .minus, .star, .slash] ∧
      operatorText i = String.ofList [' ', c, ' '] := by
  unfold operatorText
  rw [if_neg h]
  split
  · exact ⟨'+', .plus, rfl, by decide, rfl⟩
  · exact ⟨'-', .minus, rfl, by decide, rfl⟩
  · exact ⟨'*', .star, rfl, by decide, rfl⟩
  · exact ⟨'/', .slash, rfl, by decide, rfl⟩

/-- One more term is one more operator and operand. -/
theorem expression_succ (terms : Nat) :
    expression (terms + 1) = expression terms ++ (operatorText terms ++ operandText terms) := by
  refine String.toList_injective ?_
  simp [expression, List.range_succ]

/-- The text of a sample expression is that of a shallow tree, however long it is. -/
theorem exists_tree (terms : Nat) : ∃ t, Spells (expression (terms + 1)) .expression 6 t := by
  induction terms with
  | zero =>
      obtain ⟨u, hu⟩ := exists_operand 0
      exact ⟨u, hu.expression.mono (by decide)⟩
  | succ terms ih =>
      obtain ⟨t, ht⟩ := ih
      obtain ⟨u, hu⟩ := exists_operand (terms + 1)
      obtain ⟨c, kind, hsign, hkind, htext⟩ := exists_operator (Nat.succ_ne_zero terms)
      rw [expression_succ, htext]
      -- an operand of depth four is within the bound of the chain, which stays as it is
      exact ht.extend hsign hkind hu

/-- A tree with no numbers but those of sample expressions has few values. -/
theorem length_dedup_values_le {t : Tree} (hvalue : t.value?.isSome)
    (h : ∀ u ∈ t.literals, u.lexeme ∈ numerals) : t.values.dedup.length ≤ 199 := by
  have hsubset : t.values.dedup ⊆ numerals.filterMap fun s => Value.read? s.toList := by
    intro v hv
    have hmem : some v ∈ t.literals.map fun u => Value.read? u.lexeme.toList := by
      rw [Tree.map_read?_literals hvalue]
      exact List.mem_map_of_mem (List.mem_dedup.mp hv)
    obtain ⟨u, hu, hread⟩ := List.mem_map.mp hmem
    exact List.mem_filterMap.mpr ⟨u.lexeme, h u hu, hread⟩
  calc t.values.dedup.length
      ≤ (numerals.filterMap fun s => Value.read? s.toList).length :=
        (List.Nodup.subperm (List.nodup_dedup _) hsubset).length_le
    _ ≤ numerals.length := List.length_filterMap_le ..
    _ = 199 := by rw [numerals, List.length_map, List.length_range]

namespace Spells

variable {text : String} {d : Nat} {t : Tree}

/-- The text of a tree has the tokens of the tree. -/
theorem tokensOf_eq (h : Spells text .expression d t) :
    tokensOf text = t.tokens ++ [.endOfText 1] := by
  have htokens := h.tokens [] nofun
  rw [List.append_nil] at htokens
  exact htokens.trans (by rw [Lexer.tokens_of_end rfl]; rfl)

/-- The text of a tree that is not too deep compiles, to a chunk with a small pool. -/
theorem exists_accepted (h : Spells text .expression d t) (hd : d ≤ options.nestingLimit) :
    ∃ c, Accepted options text t (.endOfText 1) c ∧ c.consts.size ≤ 199 := by
  have hvalue := Compiler.isSome_value?_of_tokens h.derives h.tokensOf_eq
  have hfew := length_dedup_values_le hvalue h.numbers
  have hgenerated : (t.generate? true .empty).isSome :=
    (Tree.isSome_generate?_empty_iff hvalue).mpr
      ⟨nofun, fun _ => Nat.le_trans hfew (by decide)⟩
  obtain ⟨c, hc⟩ := Option.isSome_iff_exists.mp hgenerated
  refine ⟨c.pushOp .ret 1, ⟨h.derives, Nat.le_trans h.depth_le hd, h.tokensOf_eq, rfl, ?_⟩, ?_⟩
  · rw [options, hc]
    rfl
  · have hpool : c.consts.toList = t.values.foldl (Pool.add true) [] :=
      (Tree.generate?_consts (Nat.zero_le _) hc).1
    calc c.consts.size = t.values.dedup.length := by
          rw [← Array.length_toList, hpool, Pool.length_foldl_add_true]
      _ ≤ 199 := hfew

end Spells

/-- A sample expression of any length compiles without a problem, its pool has an entry
for each of the numbers `1` to `199` at most, and its code has a value. -/
theorem expression_compiles_and_has_value {terms : Nat} (h : 0 < terms) :
    (compile options (expression terms)).diagnostic = none ∧
    (compile options (expression terms)).chunk.consts.size ≤ 199 ∧
    ∃ v, (Machine.run (compile options (expression terms)).chunk {}).outcome = .ok (some v) := by
  obtain ⟨n, rfl⟩ := Nat.exists_eq_succ_of_ne_zero h.ne'
  obtain ⟨t, ht⟩ := exists_tree n
  obtain ⟨c, hc, hpool⟩ := ht.exists_accepted (by decide)
  obtain ⟨hnone, hchunk⟩ := Compiler.Compilation.result_eq_ok_iff.mp
    (Compiler.compile_result_eq_ok_iff.mpr ⟨t, _, hc⟩)
  rw [hchunk]
  exact ⟨hnone, hpool, hc.exists_outcome (by decide)⟩

/-- Six operands show every operator and every kind of operand. -/
theorem expression_compiles_and_has_value_at_six :
    expression 6 = "(1 + 2) - -8 * 15 / 22 + 29 - (36 + 11)" ∧
    (compile options "(1 + 2) - -8 * 15 / 22 + 29 - (36 + 11)").diagnostic = none ∧
    ∃ v, (Machine.run (compile options "(1 + 2) - -8 * 15 / 22 + 29 - (36 + 11)").chunk
      {}).outcome = .ok (some v) := by
  have htext : expression 6 = "(1 + 2) - -8 * 15 / 22 + 29 - (36 + 11)" := by decide +kernel
  obtain ⟨hnone, -, hvalue⟩ := expression_compiles_and_has_value (by decide : 0 < 6)
  rw [htext] at hnone hvalue
  exact ⟨htext, hnone, hvalue⟩

end Sample

end Abacus
