import Abacus.Token.Lexer
import Abacus.Value
import Abacus.Proofs.Passage
import Mathlib.Data.List.TakeWhile

/-!
# The tokens of a text

What the lexer hands out, as far as compiling depends on it.  A number is written
as digits, with a point and more digits or without, and can always be read as a
value.  The end of a text comes once it has been read and is then repeated
without change, so that passing over the tokens of a text and listing them is
the same thing.
-/

namespace Abacus

/-! ## Numbers can be read -/

namespace Numeral

/-- Digits, and behind them nothing or a point and more digits. -/
def IsPlain (text : List Char) : Prop :=
  ∃ c whole fraction, text = c :: (whole ++ fraction) ∧ (∀ d ∈ c :: whole, d.isDigit) ∧
    (fraction = [] ∨ ∃ digits, fraction = '.' :: digits ∧ ∀ d ∈ digits, d.isDigit)

theorem readSign_digit {c : Char} (h : c.isDigit) (rest : List Char) :
    readSign (c :: rest) = (false, c :: rest) := by
  unfold readSign
  split
  next heq =>
    cases heq
    exact absurd h (by decide)
  next heq =>
    cases heq
    exact absurd h (by decide)
  next => rfl

theorem readDigits_append {whole fraction : List Char} (hwhole : ∀ d ∈ whole, d.isDigit)
    (hfraction : fraction = [] ∨
      ∃ digits, fraction = '.' :: digits ∧ ∀ d ∈ digits, d.isDigit) :
    ∃ digits, readDigits (whole ++ fraction) = (whole, digits, []) := by
  have hstop : fraction.takeWhile Char.isDigit = [] ∧
      fraction.dropWhile Char.isDigit = fraction := by
    rcases hfraction with rfl | ⟨digits, rfl, -⟩
    · exact ⟨rfl, rfl⟩
    · exact ⟨rfl, rfl⟩
  unfold readDigits
  rw [List.takeWhile_append_of_pos hwhole, List.dropWhile_append_of_pos hwhole, hstop.1, hstop.2,
    List.append_nil]
  rcases hfraction with rfl | ⟨digits, rfl, hdigits⟩
  · exact ⟨[], rfl⟩
  · refine ⟨digits, ?_⟩
    change (whole, digits.takeWhile Char.isDigit, digits.dropWhile Char.isDigit) = _
    rw [List.takeWhile_eq_self_iff.mpr hdigits, List.dropWhile_eq_nil_iff.mpr hdigits]

/-- Digits with or without a fraction denote a number. -/
theorem isSome_read? {text : List Char} (h : IsPlain text) : (read? text).isSome := by
  obtain ⟨c, whole, fraction, rfl, hwhole, hfraction⟩ := h
  have hc : c.isDigit := hwhole c List.mem_cons_self
  obtain ⟨digits, hread⟩ := readDigits_append hwhole hfraction
  rw [List.cons_append] at hread
  rw [read?, readSign_digit hc]
  dsimp only
  rw [Option.isSome_map, readUnsigned?, hread]
  dsimp only
  split
  next => rfl
  next =>
    split
    next => rfl
    next => rfl

end Numeral

namespace Lexer

theorem fraction_shape (text : List Char) :
    (fraction text).1 = [] ∨
      ∃ digits, (fraction text).1 = '.' :: digits ∧ ∀ d ∈ digits, d.isDigit := by
  unfold fraction
  split
  next d rest =>
    split
    next hd =>
      refine .inr ⟨_, rfl, ?_⟩
      intro x hx
      rcases List.mem_cons.mp hx with rfl | hx
      · exact hd
      · exact List.mem_takeWhile_imp hx
    next => exact .inl rfl
  next => exact .inl rfl

theorem number_isPlain {c : Char} (hc : c.isDigit) (rest : List Char) (line : UInt32) :
    Numeral.IsPlain (number c rest line).1.lexeme.toList := by
  refine ⟨c, rest.takeWhile Char.isDigit, _, ?_, ?_, fraction_shape (rest.dropWhile Char.isDigit)⟩
  · simp [number, accept]
  · intro d hd
    rcases List.mem_cons.mp hd with rfl | hd
    · exact hc
    · exact List.mem_takeWhile_imp hd

/-! ## Kinds of tokens -/

/-- What holds of all entries of a table holds of what is found in it. -/
theorem of_lookup_eq_some {α β : Type} [BEq α] [LawfulBEq α] {entries : List (α × β)}
    {a : α} {b : β} {P : α → β → Prop} (h : entries.lookup a = some b)
    (hall : ∀ e ∈ entries, P e.1 e.2) : P a b := by
  obtain ⟨before, behind, rfl, -⟩ := List.lookup_eq_some_iff.mp h
  exact hall (a, b) (List.mem_append_right _ List.mem_cons_self)

/-- Signs are neither numbers nor ends. -/
theorem sign?_kind {c : Char} {k : Token.Kind} (h : sign? c = some k) :
    k ≠ .eof ∧ k ≠ .number :=
  of_lookup_eq_some (P := fun _ k => k ≠ .eof ∧ k ≠ .number) h (by decide)

theorem comparison?_kind {c : Char} {kinds : Token.Kind × Token.Kind}
    (h : comparison? c = some kinds) :
    (kinds.1 ≠ .eof ∧ kinds.1 ≠ .number) ∧ kinds.2 ≠ .eof ∧ kinds.2 ≠ .number :=
  of_lookup_eq_some
    (P := fun _ ks => (ks.1 ≠ .eof ∧ ks.1 ≠ .number) ∧ ks.2 ≠ .eof ∧ ks.2 ≠ .number) h (by decide)

/-- A token is a number only if it begins with a digit, and it never ends the
text. -/
theorem token_kind (c : Char) (rest : List Char) (line : UInt32) :
    (token c rest line).1.kind ≠ .eof ∧
      ((token c rest line).1.kind = .number →
        Numeral.IsPlain (token c rest line).1.lexeme.toList) := by
  unfold token
  split
  next =>
    unfold word
    dsimp only
    split
    next => exact ⟨nofun, nofun⟩
    next => exact ⟨nofun, nofun⟩
  split
  next hc => exact ⟨nofun, fun _ => number_isPlain hc rest line⟩
  split
  next =>
    unfold quoted
    dsimp only
    split
    next => exact ⟨nofun, nofun⟩
    next => exact ⟨nofun, nofun⟩
  split
  next kind _ hkind =>
    obtain ⟨hend, hnumber⟩ := sign?_kind hkind
    exact ⟨hend, fun h => absurd h hnumber⟩
  next kinds _ hkinds =>
    obtain ⟨⟨hend₁, hnumber₁⟩, hend₂, hnumber₂⟩ := comparison?_kind hkinds
    unfold comparison
    split
    next => exact ⟨hend₂, fun h => absurd h hnumber₂⟩
    next => exact ⟨hend₁, fun h => absurd h hnumber₁⟩
  next => exact ⟨nofun, nofun⟩

/-- A number that the lexer hands out can be read. -/
theorem isSome_read?_of_kind {l : Lexer} (h : l.next.1.kind = .number) :
    (Value.read? l.next.1.lexeme.toList).isSome := by
  rw [next, tokenHere] at h ⊢
  split at h
  next => cases h
  next c rest hrest =>
    rw [Value.read?, Option.isSome_map]
    exact Numeral.isSome_read? ((token_kind c rest _).2 h)

/-! ## The end of a text -/

/-- The end of a text comes when nothing is left of it. -/
theorem next_eq_of_end {l : Lexer} (h : l.next.1.kind = .eof) :
    ∃ line, l.next = (.endOfText line, ⟨[], line⟩) := by
  have hnext : l.next = (skip false l.rest l.line).tokenHere := rfl
  generalize skip false l.rest l.line = here at hnext
  rcases here with ⟨_ | ⟨c, rest⟩, line⟩
  · exact ⟨line, hnext⟩
  · rw [hnext] at h
    exact absurd h (token_kind c rest line).1

/-- The end of a text is repeated. -/
theorem next_of_end {l : Lexer} (h : l.next.1.kind = .eof) : l.next.2.next = l.next := by
  obtain ⟨line, hnext⟩ := next_eq_of_end h
  rw [hnext]
  rfl

theorem tokens_of_end {l : Lexer} (h : l.next.1.kind = .eof) : l.tokens = [l.next.1] := by
  rw [tokens]
  exact if_pos h

theorem tokens_of_not_end {l : Lexer} (h : l.next.1.kind ≠ .eof) :
    l.tokens = l.next.1 :: l.next.2.tokens := by
  rw [tokens]
  exact if_neg h

theorem tokens_ne_nil (l : Lexer) : l.tokens ≠ [] := by
  by_cases h : l.next.1.kind = .eof
  · simp [tokens_of_end h]
  · simp [tokens_of_not_end h]

/-- Tokens other than errors and ends are listed before the end exactly if they
are passed on the way to it. -/
theorem tokens_eq_append_iff {l : Lexer} {ts : List Token} {e : Token}
    (hts : ∀ t ∈ ts, t.kind ≠ .eof ∧ t.kind ≠ .error) (he : e.kind = .eof) :
    l.tokens = ts ++ [e] ↔ ∃ q : Position Lexer, Passes (TokenSource.next l) ts q ∧ q.1 = e := by
  induction ts generalizing l with
  | nil =>
      simp only [List.nil_append, Passes.nil_iff, exists_eq_left']
      change l.tokens = [e] ↔ l.next.1 = e
      by_cases h : l.next.1.kind = .eof
      · rw [tokens_of_end h, List.cons.injEq, and_iff_left rfl]
      · rw [tokens_of_not_end h]
        constructor
        · intro heq
          exact absurd (List.cons.inj heq).2 (tokens_ne_nil _)
        · intro heq
          rw [heq] at h
          exact absurd he h
  | cons t ts ih =>
      obtain ⟨ht, hts⟩ := List.forall_mem_cons.mp hts
      have hfirst : l.tokens = t :: (ts ++ [e]) ↔ l.next.1 = t ∧ l.next.2.tokens = ts ++ [e] := by
        by_cases h : l.next.1.kind = .eof
        · rw [tokens_of_end h]
          constructor
          · intro heq
            rw [(List.cons.inj heq).1] at h
            exact absurd h ht.1
          · rintro ⟨heq, -⟩
            rw [heq] at h
            exact absurd h ht.1
        · rw [tokens_of_not_end h, List.cons.injEq]
      -- the next token is one of `ts`, or the end, and in both cases no error
      have hstep (q : Position Lexer) (hq : Passes (TokenSource.next l.next.2) ts q)
          (hend : q.1 = e) : (TokenSource.next l.next.2).1.kind ≠ .error := by
        cases ts with
        | nil =>
            rw [Passes.nil_iff.mp hq, hend, he]
            exact nofun
        | cons u us =>
            rw [(Passes.cons_iff.mp hq).1]
            exact (hts u List.mem_cons_self).2
      rw [List.cons_append, hfirst, ih hts]
      constructor
      · rintro ⟨rfl, q, hq, hend⟩
        refine ⟨q, .cons (Position.step?_eq_some_iff.mpr ⟨rfl, hstep q hq hend⟩) hq, hend⟩
      · rintro ⟨q, hq, hend⟩
        obtain ⟨rfl, m, hm, hq⟩ := Passes.cons_iff.mp hq
        obtain ⟨rfl, -⟩ := Position.step?_eq_some_iff.mp hm
        exact ⟨rfl, q, hq, hend⟩

/-- A list of tokens has one end, and that is its last token. -/
theorem tokens_shape (l : Lexer) :
    ∃ ts e, l.tokens = ts ++ [e] ∧ e.kind = .eof ∧ ∀ t ∈ ts, t.kind ≠ .eof := by
  fun_induction tokens l with
  | case1 l step h => exact ⟨[], step.1, rfl, h, by simp⟩
  | case2 l step h ih =>
      obtain ⟨ts, e, heq, he, hts⟩ := ih
      refine ⟨step.1 :: ts, e, by rw [heq, List.cons_append], he, ?_⟩
      exact List.forall_mem_cons.mpr ⟨h, hts⟩

theorem isSome_read?_of_mem {l : Lexer} {t : Token} (ht : t ∈ l.tokens)
    (hk : t.kind = .number) : (Value.read? t.lexeme.toList).isSome := by
  fun_induction tokens l with
  | case1 l step _ =>
      obtain rfl := List.mem_singleton.mp ht
      exact isSome_read?_of_kind hk
  | case2 l step _ ih =>
      rcases List.mem_cons.mp ht with rfl | ht
      · exact isSome_read?_of_kind hk
      · exact ih ht

end Lexer

/-- The tokens of a text, without the end. -/
def tokensBeforeEnd (text : String) : List Token :=
  (tokensOf text).takeWhile fun t => !t.isEnd

theorem tokensBeforeEnd_eq_iff {text : String} {ts : List Token}
    (hts : ∀ t ∈ ts, t.kind ≠ .eof) :
    tokensBeforeEnd text = ts ↔ ∃ e, e.kind = .eof ∧ tokensOf text = ts ++ [e] := by
  have htake {us : List Token} {e : Token} (hus : ∀ t ∈ us, t.kind ≠ .eof) (he : e.kind = .eof) :
      (us ++ [e]).takeWhile (fun t => !t.isEnd) = us := by
    have hall : ∀ t ∈ us, (!t.isEnd) = true := by simpa [Token.isEnd] using hus
    rw [List.takeWhile_append_of_pos hall]
    simp [Token.isEnd, he]
  constructor
  · intro h
    obtain ⟨us, e, heq, he, hus⟩ := Lexer.tokens_shape (Lexer.start text)
    rw [tokensBeforeEnd, tokensOf, heq, htake hus he] at h
    exact ⟨e, he, h ▸ heq⟩
  · rintro ⟨e, he, heq⟩
    rw [tokensBeforeEnd, heq, htake hts he]

end Abacus
