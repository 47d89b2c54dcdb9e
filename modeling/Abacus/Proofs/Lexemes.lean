import Abacus.Proofs.Scanning
import Mathlib.Data.List.Nodup

/-!
# Lexemes

What tokens look like, said without reading a text from left to right.  Words,
numbers, signs and trivia are classes of character strings, and a token takes the
longest string of its class that stands in its place (`Longest`).  A string ends
with the first quote behind the one that opens it.  Any other character is an
error by itself, and so is all that follows a quote without a second one.

The lexer is compared with this in two steps.  What it takes from the front of a
text is a lexeme (`Lexer.takes_token`), and if a lexeme stands at the front of a
text then that is what it takes (`Lexer.token_of_scanned`).  The second step needs
no calculation for words, numbers and signs, since a text has only one longest
beginning in a class.
-/

namespace Abacus

/-! ## Longest match -/

/-- Of all beginnings of `u ++ rest` that belong to a class, `u` is the longest. -/
structure Longest (P : List Char → Prop) (u rest : List Char) : Prop where
  mem : P u
  length_le : ∀ v, v <+: u ++ rest → P v → v.length ≤ u.length

namespace Longest

variable {P : List Char → Prop} {u u' rest rest' : List Char}

/-- A lexeme is longest if no longer piece of the text has its form. -/
theorem of_not (hu : P u) (h : ∀ d v, d :: v <+: rest → ¬ P (u ++ d :: v)) :
    Longest P u rest := by
  refine ⟨hu, fun v hv hP => Nat.le_of_not_lt fun hlt => ?_⟩
  obtain ⟨more, rfl⟩ : u <+: v :=
    List.prefix_of_prefix_length_le (List.prefix_append u rest) hv (Nat.le_of_lt hlt)
  cases more with
  | nil => simp at hlt
  | cons d v => exact h d v ((List.prefix_append_right_inj u).mp hv) hP

/-- A text begins with at most one longest lexeme. -/
theorem unique (h : Longest P u rest) (h' : Longest P u' rest') (heq : u ++ rest = u' ++ rest') :
    u = u' ∧ rest = rest' := by
  have hle : u.length ≤ u'.length := h'.length_le u ⟨rest, heq⟩ h.mem
  have hge : u'.length ≤ u.length := h.length_le u' ⟨rest', heq.symm⟩ h'.mem
  exact List.append_inj heq (Nat.le_antisymm hle hge)

end Longest

/-! ## Classes -/

namespace Lexeme

/-- A letter or underscore, and then letters, digits and underscores. -/
def IsWord (u : List Char) : Prop :=
  ∃ c cs, u = c :: cs ∧ (c.isAlpha ∨ c = '_') ∧ ∀ d ∈ cs, d.isAlphanum ∨ d = '_'

/-- Digits, and behind them nothing or a point and more digits. -/
def IsNumber (u : List Char) : Prop :=
  ∃ whole, whole ≠ [] ∧ (∀ d ∈ whole, d.isDigit) ∧
    (u = whole ∨ ∃ fraction, fraction ≠ [] ∧ (∀ d ∈ fraction, d.isDigit) ∧
      u = whole ++ '.' :: fraction)

/-- The signs, with the kind of token that each is. -/
def signs : List (List Char × Token.Kind) :=
  [(['('], .leftParen), ([')'], .rightParen), (['\x7b'], .leftBrace), (['\x7d'], .rightBrace),
   ([','], .comma), (['.'], .dot), (['-'], .minus), (['+'], .plus), ([';'], .semicolon),
   (['/'], .slash), (['*'], .star), (['!'], .bang), (['!', '='], .bangEqual), (['='], .equal),
   (['=', '='], .equalEqual), (['>'], .greater), (['>', '='], .greaterEqual), (['<'], .less),
   (['<', '='], .lessEqual)]

def IsSign (u : List Char) : Prop := ∃ kind, (u, kind) ∈ signs

/-- No token begins with the character. -/
def Outside (c : Char) : Prop :=
  ¬ (c.isAlpha ∨ c = '_') ∧ ¬ c.isDigit ∧ c ≠ '"' ∧ ∀ e ∈ signs, e.1.head? ≠ some c

/-- A word is a keyword if it is spelled like one, and otherwise an identifier. -/
def WordKind (word : String) : Token.Kind → Prop
  | .keyword k => k.spelling = word
  | .identifier => ∀ k : Keyword, k.spelling ≠ word
  | _ => False

end Lexeme

open Lexeme

/-- The characters `u`, with `rest` behind them, are a token of the given kind and
lexeme. -/
inductive Scanned (u rest : List Char) : Token.Kind → String → Prop where
  | word {kind : Token.Kind} :
      Longest IsWord u rest → WordKind (String.ofList u) kind →
      Scanned u rest kind (String.ofList u)
  | number : Longest IsNumber u rest → Scanned u rest .number (String.ofList u)
  | sign {kind : Token.Kind} :
      Longest IsSign u rest → (u, kind) ∈ signs → Scanned u rest kind (String.ofList u)
  | string {inside : List Char} :
      u = '"' :: (inside ++ ['"']) → '"' ∉ inside → Scanned u rest .string (String.ofList u)
  | unterminated {inside : List Char} :
      u = '"' :: inside → '"' ∉ inside → rest = [] →
      Scanned u rest .error "Unterminated string."
  | unexpected {c : Char} :
      u = [c] → Outside c → Scanned u rest .error "Unexpected character."

/-- What holds of the four blanks holds of every blank. -/
theorem Lexeme.of_blank {P : Char → Prop} [DecidablePred P]
    (h : [' ', '\t', '\r', '\n'].all fun c => decide (P c)) {c : Char}
    (hc : c ∈ [' ', '\t', '\r', '\n']) : P c :=
  of_decide_eq_true (List.all_eq_true.mp h c hc)

/-! ## Words -/

/-- No two keywords are spelled alike. -/
theorem Keyword.spelling_injective {k k' : Keyword} (h : k.spelling = k'.spelling) : k = k' := by
  have hnodup : (all.map spelling).Nodup := by decide
  exact List.inj_on_of_nodup_map hnodup (mem_all k) (mem_all k') h

namespace Lexeme

/-- A word has one kind. -/
theorem WordKind.unique {word : String} {kind kind' : Token.Kind} (h : WordKind word kind)
    (h' : WordKind word kind') : kind = kind' := by
  cases kind with
  | keyword k =>
      cases kind' with
      | keyword k' => rw [Keyword.spelling_injective (Eq.trans h (Eq.symm h'))]
      | identifier => exact absurd h (h' k)
      | _ => cases h'
  | identifier =>
      cases kind' with
      | keyword k' => exact absurd h' (h k')
      | identifier => rfl
      | _ => cases h'
  | _ => cases h

theorem IsWord.forall_mem {u : List Char} (h : IsWord u) : ∀ d ∈ u, d.isAlphanum ∨ d = '_' := by
  obtain ⟨c, cs, rfl, hc, hcs⟩ := h
  refine List.forall_mem_cons.mpr ⟨?_, hcs⟩
  rcases hc with hc | hc
  · exact .inl (Bool.or_eq_true_iff.mpr (.inl hc))
  · exact .inr hc

/-- Words have no blanks in them. -/
theorem IsWord.not_mem_of_blank {u : List Char} (h : IsWord u) {b : Char}
    (hb : b ∈ [' ', '\t', '\r', '\n']) : b ∉ u := by
  have hnone : ¬ (b.isAlphanum ∨ b = '_') :=
    of_blank (P := fun b => ¬ (b.isAlphanum ∨ b = '_')) (by decide) hb
  exact fun hmem => hnone (h.forall_mem b hmem)

end Lexeme

namespace Lexer

theorem isWordStart_iff {c : Char} : isWordStart c ↔ c.isAlpha ∨ c = '_' := by
  simp [isWordStart, or_comm]

theorem isWordPart_iff {c : Char} : isWordPart c ↔ c.isAlphanum ∨ c = '_' := by
  simp [isWordPart, or_comm]

/-- What follows the characters of a class does not begin with one of them. -/
theorem not_of_prefix_dropWhile {p : Char → Bool} {d : Char} {v xs : List Char}
    (h : d :: v <+: xs.dropWhile p) : p d = false := by
  obtain ⟨more, hmore⟩ := h
  have hhead := List.head?_dropWhile_not p xs
  rw [← hmore] at hhead
  exact hhead

/-- The lexer takes the longest word. -/
theorem longest_word {c : Char} (hc : isWordStart c) (rest : List Char) :
    Longest IsWord (c :: rest.takeWhile isWordPart) (rest.dropWhile isWordPart) := by
  refine .of_not ⟨c, _, rfl, isWordStart_iff.mp hc, ?_⟩ ?_
  · intro d hd
    exact isWordPart_iff.mp (List.mem_takeWhile_imp hd)
  · rintro d v hv ⟨c', cs, heq, -, hcs⟩
    obtain ⟨-, rfl⟩ := List.cons.inj heq
    have hd : isWordPart d := isWordPart_iff.mpr (hcs d (by simp))
    rw [not_of_prefix_dropWhile hv] at hd
    cases hd

/-- A word is a keyword if it is spelled like one, and an identifier otherwise. -/
theorem wordKind_ofSpelling? (word : String) :
    WordKind word (match Keyword.ofSpelling? word with
      | some k => .keyword k
      | none => .identifier) := by
  cases h : Keyword.ofSpelling? word with
  | some k =>
      have hk := List.find?_some h
      rwa [decide_eq_true_iff] at hk
  | none =>
      intro k hk
      have hall := List.find?_eq_none.mp h k (Keyword.mem_all k)
      exact hall (decide_eq_true hk)

end Lexer

/-! ## Numbers -/

namespace Lexeme

theorem IsNumber.forall_mem {u : List Char} (h : IsNumber u) : ∀ d ∈ u, d.isDigit ∨ d = '.' := by
  obtain ⟨whole, -, hwhole, rfl | ⟨fraction, -, hfraction, rfl⟩⟩ := h
  · exact fun d hd => .inl (hwhole d hd)
  · intro d hd
    rcases List.mem_append.mp hd with hd | hd
    · exact .inl (hwhole d hd)
    · rcases List.mem_cons.mp hd with heq | hd
      · exact .inr heq
      · exact .inl (hfraction d hd)

/-- Numbers have no blanks in them. -/
theorem IsNumber.not_mem_of_blank {u : List Char} (h : IsNumber u) {b : Char}
    (hb : b ∈ [' ', '\t', '\r', '\n']) : b ∉ u := by
  have hnone : ¬ (b.isDigit ∨ b = '.') :=
    of_blank (P := fun b => ¬ (b.isDigit ∨ b = '.')) (by decide) hb
  exact fun hmem => hnone (h.forall_mem b hmem)

/-- The digits in front of a character that is none can be told from what follows. -/
theorem digits_append_inj {u w v z : List Char} {d e : Char} (hu : ∀ x ∈ u, x.isDigit)
    (hw : ∀ x ∈ w, x.isDigit) (hd : ¬ d.isDigit) (he : ¬ e.isDigit)
    (h : u ++ d :: v = w ++ e :: z) : u = w ∧ d = e ∧ v = z := by
  have htake := congrArg (List.takeWhile Char.isDigit) h
  rw [List.takeWhile_append_of_pos hu, List.takeWhile_append_of_pos hw,
    List.takeWhile_cons_of_neg hd, List.takeWhile_cons_of_neg he, List.append_nil,
    List.append_nil] at htake
  subst htake
  obtain ⟨rfl, rfl⟩ := List.cons.inj (List.append_cancel_left h)
  exact ⟨rfl, rfl, rfl⟩

end Lexeme

namespace Lexer

/-- A fraction is a point with digits behind it, or there is none. -/
theorem fraction_cases (text : List Char) :
    (fraction text = ([], text) ∧ ∀ d r, text = '.' :: d :: r → ¬ d.isDigit) ∨
    ∃ d r, text = '.' :: d :: r ∧ d.isDigit ∧
      fraction text = ('.' :: d :: r.takeWhile Char.isDigit, r.dropWhile Char.isDigit) := by
  unfold fraction
  split
  · next d r =>
      split
      · next hd => exact .inr ⟨d, r, rfl, hd, rfl⟩
      · next hd =>
          refine .inl ⟨rfl, ?_⟩
          rintro d' r' ⟨⟩
          exact hd
  · next hpoint => exact .inl ⟨rfl, fun d r heq => absurd heq (hpoint d r)⟩

/-- Taking a fraction off loses nothing. -/
theorem fraction_append (text : List Char) : (fraction text).1 ++ (fraction text).2 = text := by
  rcases fraction_cases text with ⟨h, -⟩ | ⟨d, r, rfl, -, h⟩
  · rw [h, List.nil_append]
  · rw [h, List.cons_append, List.cons_append, List.takeWhile_append_dropWhile]

theorem number_append (c : Char) (rest : List Char) :
    c :: rest.takeWhile Char.isDigit ++ (fraction (rest.dropWhile Char.isDigit)).1
      ++ (fraction (rest.dropWhile Char.isDigit)).2 = c :: rest := by
  rw [List.append_assoc, fraction_append, List.cons_append, List.takeWhile_append_dropWhile]

/-- The lexer takes the longest number. -/
theorem longest_number {c : Char} (hc : c.isDigit) (rest : List Char) :
    Longest IsNumber
      (c :: rest.takeWhile Char.isDigit ++ (fraction (rest.dropWhile Char.isDigit)).1)
      (fraction (rest.dropWhile Char.isDigit)).2 := by
  have hpoint : ¬ ('.' : Char).isDigit := by decide
  have hwhole : ∀ d ∈ c :: rest.takeWhile Char.isDigit, d.isDigit := by
    intro d hd
    rcases List.mem_cons.mp hd with rfl | hd
    · exact hc
    · exact List.mem_takeWhile_imp hd
  generalize hw : c :: rest.takeWhile Char.isDigit = whole at hwhole ⊢
  have hne : whole ≠ [] := by simp [← hw]
  rcases fraction_cases (rest.dropWhile Char.isDigit) with
    ⟨hfraction, hnone⟩ | ⟨d, r, hsplit, hd, hfraction⟩
  · rw [hfraction, List.append_nil]
    refine .of_not ⟨whole, hne, hwhole, .inl rfl⟩ ?_
    -- a longer number would go on with a digit, or with a point and a digit
    rintro e v hv ⟨whole', -, hwhole', heq | ⟨digits, hdigits, hall, heq⟩⟩
    · have he : e.isDigit := hwhole' e (by simp [← heq])
      rw [not_of_prefix_dropWhile hv] at he
      cases he
    · have he : ¬ e.isDigit := by simp [not_of_prefix_dropWhile hv]
      obtain ⟨-, rfl, rfl⟩ := digits_append_inj hwhole hwhole' he hpoint heq
      obtain ⟨more, hmore⟩ := hv
      cases v with
      | nil => exact hdigits rfl
      | cons x xs => exact hnone x (xs ++ more) hmore.symm (hall x List.mem_cons_self)
  · rw [hfraction]
    have hdigits : ∀ x ∈ d :: r.takeWhile Char.isDigit, x.isDigit := by
      intro x hx
      rcases List.mem_cons.mp hx with rfl | hx
      · exact hd
      · exact List.mem_takeWhile_imp hx
    refine .of_not ⟨whole, hne, hwhole, .inr ⟨_, List.cons_ne_nil _ _, hdigits, rfl⟩⟩ ?_
    rintro e v hv ⟨front, -, hfront, heq | ⟨digits, -, hall, heq⟩⟩
    · exact hpoint (hfront '.' (by simp [← heq]))
    · rw [List.append_assoc, List.cons_append] at heq
      obtain ⟨-, -, rfl⟩ := digits_append_inj hwhole hfront hpoint hpoint heq
      have he : e.isDigit := hall e (by simp)
      rw [not_of_prefix_dropWhile hv] at he
      cases he

end Lexer

/-! ## Signs -/

namespace Lexeme

/-- A sign has one kind. -/
theorem sign_kind_unique {u : List Char} {kind kind' : Token.Kind} (h : (u, kind) ∈ signs)
    (h' : (u, kind') ∈ signs) : kind = kind' := by
  have hall : ∀ e ∈ signs, ∀ e' ∈ signs, e.1 = e'.1 → e.2 = e'.2 := by decide
  exact hall _ h _ h' rfl

theorem sign_ne_nil {u : List Char} {kind : Token.Kind} (h : (u, kind) ∈ signs) : u ≠ [] := by
  have hall : ∀ e ∈ signs, e.1 ≠ [] := by decide
  exact hall _ h

/-- Signs have no blanks in them. -/
theorem IsSign.not_mem_of_blank {u : List Char} (h : IsSign u) {b : Char}
    (hb : b ∈ [' ', '\t', '\r', '\n']) : b ∉ u := by
  obtain ⟨kind, h⟩ := h
  have hall : ∀ e ∈ signs, b ∉ e.1 := of_blank (P := fun b => ∀ e ∈ signs, b ∉ e.1) (by decide) hb
  exact hall _ h

end Lexeme

namespace Lexer

/-- A sign that stands alone is not the beginning of another one. -/
theorem longest_sign {c : Char} {kind : Token.Kind} (h : sign? c = some kind)
    (rest : List Char) : Longest IsSign [c] rest ∧ ([c], kind) ∈ signs := by
  obtain ⟨hmem, halone⟩ := of_lookup_eq_some
    (P := fun c kind => ([c], kind) ∈ signs ∧ ∀ e ∈ signs, e.1.head? = some c → e.1 = [c])
    h (by decide)
  refine ⟨.of_not ⟨kind, hmem⟩ ?_, hmem⟩
  rintro d v - ⟨kind', hmem'⟩
  have := halone _ hmem' rfl
  simp at this

/-- A sign that an equals sign may follow takes it. -/
theorem longest_comparison {c : Char} {kinds : Token.Kind × Token.Kind}
    (h : comparison? c = some kinds) (rest : List Char) (line : UInt32) :
    ∃ u rest' kind, c :: rest = u ++ rest' ∧ Longest IsSign u rest' ∧ (u, kind) ∈ signs ∧
      comparison c kinds rest line = accept kind u rest' line := by
  obtain ⟨hmem, hmem', hothers⟩ := of_lookup_eq_some
    (P := fun c kinds => ([c], kinds.1) ∈ signs ∧ ([c, '='], kinds.2) ∈ signs ∧
      ∀ e ∈ signs, e.1.head? = some c → e.1 = [c] ∨ e.1 = [c, '=']) h (by decide)
  unfold comparison
  split
  · next rest =>
      refine ⟨[c, '='], rest, kinds.2, rfl, .of_not ⟨_, hmem'⟩ ?_, hmem', rfl⟩
      rintro d v - ⟨kind, hlonger⟩
      have := hothers _ hlonger rfl
      simp at this
  · next hequals =>
      refine ⟨[c], rest, kinds.1, rfl, .of_not ⟨_, hmem⟩ ?_, hmem, rfl⟩
      rintro d v ⟨more, hmore⟩ ⟨kind, hlonger⟩
      have := hothers _ hlonger rfl
      obtain ⟨rfl, rfl⟩ : d = '=' ∧ v = [] := by simpa using this
      exact hequals more hmore.symm

/-- Every sign begins with a character that the lexer knows as one. -/
theorem head?_ne_of_none {c : Char} (hsign : sign? c = none) (hcomparison : comparison? c = none) :
    ∀ e ∈ signs, e.1.head? ≠ some c := by
  have hall : ∀ e ∈ signs,
      e.1.head?.all fun c => (sign? c).isSome || (comparison? c).isSome := by decide
  intro e he hc
  have hknown := hall e he
  rw [hc, Option.all_some, hsign, hcomparison] at hknown
  cases hknown

/-! ## Tokens -/

/-- A lexeme has been taken from the front of a text, and the lines in it counted. -/
def Takes (text : List Char) (line : UInt32) (result : Token × Lexer) : Prop :=
  ∃ u rest kind lexeme, text = u ++ rest ∧ u ≠ [] ∧ Scanned u rest kind lexeme ∧
    result = (⟨kind, lexeme, line + (u.count '\n').toUInt32⟩,
      ⟨rest, line + (u.count '\n').toUInt32⟩)

/-- An accepted lexeme is taken off the text as it stands there. -/
theorem takes_accept {text u rest : List Char} {kind : Token.Kind} {line : UInt32}
    (htext : text = u ++ rest) (hne : u ≠ []) (hline : '\n' ∉ u)
    (h : Scanned u rest kind (String.ofList u)) : Takes text line (accept kind u rest line) := by
  refine ⟨u, rest, kind, _, htext, hne, h, ?_⟩
  rw [List.count_eq_zero_of_not_mem hline]
  simp [accept]

/-- A string is taken with both quotes, or the rest of the text is unterminated. -/
theorem takes_quoted (rest : List Char) (line : UInt32) :
    Takes ('"' :: rest) line (quoted rest line) := by
  have hinside : '"' ∉ rest.takeWhile (· ≠ '"') := by
    intro hmem
    simpa using List.mem_takeWhile_imp hmem
  have hsplit := List.takeWhile_append_dropWhile (p := (· ≠ '"')) (l := rest)
  unfold quoted
  dsimp only
  split
  · next hd =>
      rw [hd, List.append_nil] at hsplit
      rw [hsplit] at hinside ⊢
      exact ⟨_, [], _, _, (List.append_nil _).symm, List.cons_ne_nil _ _,
        .unterminated rfl hinside rfl, by simp [Token.failure]⟩
  · next close rest' hd =>
      obtain rfl : close = '"' := by
        have hfirst : close :: rest' <+: rest.dropWhile (· ≠ '"') := hd ▸ List.prefix_refl _
        simpa using not_of_prefix_dropWhile hfirst
      rw [hd] at hsplit
      refine ⟨_, rest', _, _, ?_, List.cons_ne_nil _ _, .string rfl hinside, by simp [accept]⟩
      rw [List.cons_append, List.append_assoc, List.singleton_append, hsplit]

/-- What the lexer takes from the front of a text is a lexeme. -/
theorem takes_token {c : Char} (hc : c ≠ '\n') (rest : List Char) (line : UInt32) :
    Takes (c :: rest) line (token c rest line) := by
  unfold token
  split
  · next hstart =>
      have hword := longest_word hstart rest
      refine takes_accept ?_ (List.cons_ne_nil _ _) (hword.mem.not_mem_of_blank (by decide))
        (.word hword (wordKind_ofSpelling? _))
      rw [List.cons_append, List.takeWhile_append_dropWhile]
  split
  · next hdigit =>
      have hnumber := longest_number hdigit rest
      exact takes_accept (number_append c rest).symm (List.cons_ne_nil _ _)
        (hnumber.mem.not_mem_of_blank (by decide)) (.number hnumber)
  split
  · next hquote => exact hquote ▸ takes_quoted rest line
  · next hstart hdigit hquote =>
    split
    · next kind _ hkind =>
        obtain ⟨hsign, hmem⟩ := longest_sign hkind rest
        exact takes_accept rfl (List.cons_ne_nil _ _) (hsign.mem.not_mem_of_blank (by decide))
          (.sign hsign hmem)
    · next kinds _ hkinds =>
        obtain ⟨u, rest', kind, htext, hsign, hmem, heq⟩ := longest_comparison hkinds rest line
        rw [heq]
        exact takes_accept htext (sign_ne_nil hmem) (hsign.mem.not_mem_of_blank (by decide))
          (.sign hsign hmem)
    · next hsign hcomparison =>
        refine ⟨[c], rest, _, _, rfl, List.cons_ne_nil _ _, .unexpected rfl ⟨?_, hdigit, hquote,
          head?_ne_of_none hsign hcomparison⟩, ?_⟩
        · rwa [← isWordStart_iff]
        · simp [Token.failure, hc]

/-- No word begins with a digit. -/
theorem not_isWordStart_of_isDigit {c : Char} (h : c.isDigit) : ¬ isWordStart c := by
  have hdigit := Char.isDigit_iff_toNat.mp h
  rw [isWordStart_iff]
  rintro (halpha | rfl)
  · delta Char.isAlpha Char.isUpper Char.isLower at halpha
    simp only [Bool.or_eq_true, Bool.and_eq_true, decide_eq_true_eq, ge_iff_le,
      UInt32.le_iff_toNat_le] at halpha
    have : c.toNat = c.val.toNat := rfl
    have : 'A'.val.toNat = 65 := rfl
    have : 'a'.val.toNat = 97 := rfl
    have : '9'.toNat = 57 := rfl
    omega
  · exact absurd h (by decide)

theorem ne_quote_of_not_mem {inside : List Char} (h : '"' ∉ inside) :
    ∀ d ∈ inside, decide (d ≠ '"') = true := by
  intro d hd
  exact decide_eq_true fun heq => h (heq ▸ hd)

/-- A lexeme at the front of a text is what the lexer takes. -/
theorem token_of_scanned {c : Char} {u rest : List Char} {kind : Token.Kind} {lexeme : String}
    (h : Scanned (c :: u) rest kind lexeme) (line : UInt32) :
    (token c (u ++ rest) line).1.kind = kind ∧ (token c (u ++ rest) line).1.lexeme = lexeme ∧
      (token c (u ++ rest) line).2.rest = rest := by
  cases h with
  | word hword hkind =>
      have hstart : isWordStart c := by
        obtain ⟨c', cs, heq, hc', -⟩ := hword.mem
        obtain ⟨rfl, -⟩ := List.cons.inj heq
        exact isWordStart_iff.mpr hc'
      obtain ⟨hu, hrest⟩ := hword.unique (longest_word hstart (u ++ rest)) (by
        rw [List.cons_append, List.cons_append, List.takeWhile_append_dropWhile])
      rw [token, if_pos hstart, word, ← hu, ← hrest]
      exact ⟨(wordKind_ofSpelling? _).unique hkind, rfl, rfl⟩
  | number hnumber =>
      have hdigit : c.isDigit := by
        obtain ⟨whole, hne, hwhole, hu⟩ := hnumber.mem
        cases whole with
        | nil => exact absurd rfl hne
        | cons d ds =>
            have : c = d := by
              rcases hu with heq | ⟨fraction, -, -, heq⟩
              · exact (List.cons.inj heq).1
              · exact (List.cons.inj heq).1
            exact this ▸ hwhole d List.mem_cons_self
      obtain ⟨hu, hrest⟩ := hnumber.unique (longest_number hdigit (u ++ rest))
        (number_append c (u ++ rest)).symm
      rw [token, if_neg (not_isWordStart_of_isDigit hdigit), if_pos hdigit, number]
      dsimp only
      rw [← hu, ← hrest]
      exact ⟨rfl, rfl, rfl⟩
  | sign hsign hmem =>
      -- no sign begins like a word, a number or a string, so the lexer comes to the signs
      have hall : ∀ e ∈ signs,
          e.1.head?.all fun c => !isWordStart c && !c.isDigit && c != '"' := by decide
      have hother := hall _ hmem
      rw [List.head?_cons, Option.all_some, Bool.and_eq_true, Bool.and_eq_true,
        Bool.not_eq_true', Bool.not_eq_true', bne_iff_ne] at hother
      obtain ⟨⟨hstart, hdigit⟩, hquote⟩ := hother
      rw [token, if_neg (Bool.eq_false_iff.mp hstart), if_neg (Bool.eq_false_iff.mp hdigit),
        if_neg hquote]
      split
      · next kind' _ hkind' =>
          obtain ⟨hsign', hmem'⟩ := longest_sign hkind' (u ++ rest)
          obtain ⟨hu, hrest⟩ := hsign.unique hsign' rfl
          rw [← hu] at hmem' ⊢
          rw [← hrest]
          exact ⟨sign_kind_unique hmem' hmem, rfl, rfl⟩
      · next kinds _ hkinds =>
          obtain ⟨u', rest', kind', htext, hsign', hmem', heq⟩ :=
            longest_comparison hkinds (u ++ rest) line
          obtain ⟨rfl, rfl⟩ := hsign.unique hsign' htext
          rw [heq]
          exact ⟨sign_kind_unique hmem' hmem, rfl, rfl⟩
      · next hnone hnone' => exact absurd rfl (head?_ne_of_none hnone hnone' _ hmem)
  | @string inside hu hinside =>
      obtain ⟨rfl, rfl⟩ := List.cons.inj hu
      have hall := ne_quote_of_not_mem hinside
      have htake : (inside ++ '"' :: rest).takeWhile (· ≠ '"') = inside := by
        rw [List.takeWhile_append_of_pos hall, List.takeWhile_cons_of_neg (by decide),
          List.append_nil]
      have hdrop : (inside ++ '"' :: rest).dropWhile (· ≠ '"') = '"' :: rest := by
        rw [List.dropWhile_append_of_pos hall, List.dropWhile_cons_of_neg (by decide)]
      rw [token, if_neg (by decide), if_neg (by decide), if_pos rfl, List.append_assoc,
        List.singleton_append, quoted, htake, hdrop]
      exact ⟨rfl, rfl, rfl⟩
  | unterminated hu hinside hrest =>
      obtain ⟨rfl, rfl⟩ := List.cons.inj hu
      rw [token, if_neg (by decide), if_neg (by decide), if_pos rfl, hrest, List.append_nil, quoted,
        List.dropWhile_eq_nil_iff.mpr (ne_quote_of_not_mem hinside)]
      exact ⟨rfl, rfl, rfl⟩
  | unexpected hu hout =>
      obtain ⟨rfl, rfl⟩ := List.cons.inj hu
      obtain ⟨hstart, hdigit, hquote, hsigns⟩ := hout
      rw [token, if_neg (mt isWordStart_iff.mp hstart), if_neg hdigit, if_neg hquote]
      split
      -- what the lexer finds among the signs is the beginning of one
      · next kind hkind => exact absurd rfl (hsigns _ (longest_sign hkind []).2)
      · next kinds _ hkinds =>
          obtain ⟨u, rest', kind, htext, -, hmem, -⟩ := longest_comparison hkinds [] line
          cases u with
          | nil => exact absurd rfl (sign_ne_nil hmem)
          | cons d ds =>
              obtain ⟨rfl, -⟩ := List.cons.inj htext
              exact absurd rfl (hsigns _ hmem)
      · exact ⟨rfl, rfl, rfl⟩

end Lexer

end Abacus
