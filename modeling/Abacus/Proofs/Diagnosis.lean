import Abacus.Proofs.Blame
import Abacus.Proofs.Invariants

/-!
# The diagnostic of a text

A text that does not compile has one diagnostic, which is all that its log tells of
(`Compiler.told_compileFrom_of_diagnostic`).  The tokens of the text decide which one it
is, limits apart.  Two tokens come into question: the first error, and the first
token with which the proper tokens, those that are no errors, stop being the beginning
of an expression.  The one that comes first is to blame, with one exception: an error
right behind a token that should open an operand is reported in place of that token.

`Lexical` says when the error is to blame.  The statements of `Abacus.Proofs.Blame`,
which follow the compiler, are brought here to the list of all tokens of a text.
-/

namespace Abacus

/-- The tokens that are no errors. -/
def properTokens (ts : List Token) : List Token := ts.filter (·.kind ≠ .error)

theorem properTokens_append (us vs : List Token) :
    properTokens (us ++ vs) = properTokens us ++ properTokens vs := List.filter_append us vs

theorem properTokens_eq_self {ts : List Token} (h : ∀ t ∈ ts, t.kind ≠ .error) :
    properTokens ts = ts := List.filter_eq_self.mpr fun t ht => decide_eq_true (h t ht)

/-- `e` is the first error, behind the tokens `clean`. -/
structure FirstError (ts clean : List Token) (e : Token) : Prop where
  split : ∃ rest, ts = clean ++ e :: rest
  isError : e.kind = .error
  isClean : ∀ t ∈ clean, t.kind ≠ .error

/-- `t` is the first proper token that cannot stand behind those in front of it. -/
structure FirstWrong (ts front : List Token) (t : Token) (back : List Token) : Prop where
  split : ts = front ++ t :: back
  isProper : t.kind ≠ .error
  viable : Viable (properTokens front)
  wrong : ¬ Viable (properTokens front ++ [t])

/-- The first error `e` is to blame: nothing is wrong, or something behind it, or the
token right in front of it, where an operand should begin. -/
def Lexical (ts clean : List Token) (e : Token) : Prop :=
  FirstError ts clean e ∧
    ((¬ ∃ front t back, FirstWrong ts front t back) ∨
      ∃ front t back, FirstWrong ts front t back ∧
        (clean.length < front.length ∨
          OperandPosition (properTokens front) ∧ clean = front ++ [t]))

/-! ## There is one first error and one first wrong token -/

theorem exists_append_of_length_lt {α : Type} {us us' rest rest' : List α} {t : α}
    (h : us ++ t :: rest = us' ++ rest') (hlt : us.length < us'.length) :
    ∃ more, us' = us ++ t :: more := by
  rcases List.append_eq_append_iff.mp h with ⟨more, rfl, hmore⟩ | ⟨more, rfl, -⟩
  · cases more with
    | nil => simp at hlt
    | cons u more =>
        obtain ⟨rfl, -⟩ := List.cons.inj hmore
        exact ⟨more, rfl⟩
  · rw [List.length_append] at hlt
    omega

namespace FirstError

variable {ts clean clean' : List Token} {e e' : Token}

theorem not_lt (h : FirstError ts clean e) (h' : FirstError ts clean' e') :
    ¬ clean.length < clean'.length := by
  intro hlt
  obtain ⟨rest, hsplit⟩ := h.split
  obtain ⟨rest', hsplit'⟩ := h'.split
  obtain ⟨more, hmore⟩ := exists_append_of_length_lt (hsplit.symm.trans hsplit') hlt
  exact h'.isClean e (by simp [hmore]) h.isError

theorem unique (h : FirstError ts clean e) (h' : FirstError ts clean' e') :
    clean = clean' ∧ e = e' := by
  obtain ⟨rest, hsplit⟩ := h.split
  obtain ⟨rest', hsplit'⟩ := h'.split
  have hlen : clean.length = clean'.length :=
    Nat.le_antisymm (Nat.le_of_not_lt (h'.not_lt h)) (Nat.le_of_not_lt (h.not_lt h'))
  obtain ⟨rfl, htail⟩ := List.append_inj (hsplit.symm.trans hsplit') hlen
  exact ⟨rfl, (List.cons.inj htail).1⟩

end FirstError

namespace FirstWrong

variable {ts front front' back back' : List Token} {t t' : Token}

/-- What contains the first wrong token is not viable. -/
theorem not_viable (h : FirstWrong ts front t back) {us rest : List Token}
    (hsplit : ts = us ++ rest) (hlt : front.length < us.length) : ¬ Viable (properTokens us) := by
  obtain ⟨more, rfl⟩ := exists_append_of_length_lt (h.split.symm.trans hsplit) hlt
  have hsingle : properTokens [t] = [t] := properTokens_eq_self (by simpa using h.isProper)
  rw [← List.singleton_append, ← List.append_assoc, properTokens_append, properTokens_append,
    hsingle]
  exact fun hv => h.wrong hv.of_append

theorem unique (h : FirstWrong ts front t back) (h' : FirstWrong ts front' t' back') :
    front = front' ∧ t = t' ∧ back = back' := by
  have hlen : front.length = front'.length :=
    Nat.le_antisymm (Nat.le_of_not_lt fun hlt => h'.not_viable h.split hlt h.viable)
      (Nat.le_of_not_lt fun hlt => h.not_viable h'.split hlt h'.viable)
  obtain ⟨rfl, htail⟩ := List.append_inj (h.split.symm.trans h'.split) hlen
  obtain ⟨rfl, rfl⟩ := List.cons.inj htail
  exact ⟨rfl, rfl, rfl⟩

/-- A token that leads from a stance to none is the first wrong one. -/
theorem of_run? {s : Stance} (hsplit : ts = front ++ t :: back)
    (hclean : ∀ u ∈ front, u.kind ≠ .error) (ht : t.kind ≠ .error)
    (hrun : (Stance.operand 0).run? front = some s) (hstep : s.step? t.kind = none) :
    FirstWrong ts front t back := by
  refine ⟨hsplit, ht, ?_, ?_⟩
  · rw [properTokens_eq_self hclean, viable_iff, hrun]
    rfl
  · rw [properTokens_eq_self hclean, viable_iff, Stance.run?_append, hrun, Option.bind_some,
      Stance.run?, hstep]
    exact Bool.false_ne_true

end FirstWrong

/-! ## When the first error is to blame -/

/-- An error is to blame if nothing is wrong in front of it. -/
theorem lexical_of_viable {ts clean : List Token} {e : Token} (he : FirstError ts clean e)
    (hv : Viable clean) : Lexical ts clean e := by
  refine ⟨he, ?_⟩
  by_cases hwrong : ∃ front t back, FirstWrong ts front t back
  · obtain ⟨front, t, back, h⟩ := hwrong
    refine .inr ⟨front, t, back, h, .inl (Nat.lt_of_le_of_ne ?_ ?_)⟩
    · refine Nat.le_of_not_lt fun hlt => ?_
      obtain ⟨rest, hsplit⟩ := he.split
      refine h.not_viable hsplit hlt ?_
      rwa [properTokens_eq_self he.isClean]
    · intro hlen
      -- the wrong token would be the error itself
      obtain ⟨rest, hsplit⟩ := he.split
      obtain ⟨-, htail⟩ := List.append_inj (hsplit.symm.trans h.split) hlen
      obtain ⟨rfl, -⟩ := List.cons.inj htail
      exact h.isProper he.isError
  · exact .inl hwrong

/-- An error is to blame if the token in front of it may stand there, or should open an
operand. -/
theorem lexical_of_run? {ts front back : List Token} {s : Stance} {t e : Token}
    (hsplit : ts = front ++ t :: e :: back) (hrun : (Stance.operand 0).run? front = some s)
    (ht : t.kind ≠ .error) (he : e.kind = .error)
    (h : (s.step? t.kind).isSome ∨ ∃ n, s = .operand n) : Lexical ts (front ++ [t]) e := by
  have hclean := (Stance.kinds_of_run? hrun).1
  have hfirst : FirstError ts (front ++ [t]) e :=
    ⟨⟨back, by simp [hsplit]⟩, he, by simpa [or_imp, forall_and] using ⟨hclean, ht⟩⟩
  cases hstep : s.step? t.kind with
  | some s' =>
      refine lexical_of_viable hfirst ?_
      rw [viable_iff, Stance.run?_append_eq_some hrun (Stance.run?_cons_eq_some hstep rfl)]
      rfl
  | none =>
      obtain ⟨n, rfl⟩ : ∃ n, s = .operand n := by
        rw [hstep] at h
        exact h.resolve_left Bool.false_ne_true
      have hwrong := FirstWrong.of_run? hsplit hclean ht hrun hstep
      refine ⟨hfirst, .inr ⟨front, t, e :: back, hwrong, .inr ⟨?_, rfl⟩⟩⟩
      rw [properTokens_eq_self hclean]
      exact (Stance.fits_of_run? hrun).1

/-- The first wrong token is to blame if no error comes before it, nor right behind it
where an operand should begin. -/
theorem not_lexical {ts front back : List Token} {t : Token} (h : FirstWrong ts front t back)
    (hclean : ∀ u ∈ front, u.kind ≠ .error)
    (hback : OperandPosition front → ∀ e rest, back = e :: rest → e.kind ≠ .error) :
    ¬ ∃ clean e, Lexical ts clean e := by
  rintro ⟨clean, e, he, hnone | ⟨front', t', back', h', hblamed⟩⟩
  · exact hnone ⟨front, t, back, h⟩
  · obtain ⟨rfl, rfl, rfl⟩ := h.unique h'
    obtain ⟨rest, hsplit⟩ := he.split
    rcases hblamed with hlt | ⟨hposition, rfl⟩
    · obtain ⟨more, hmore⟩ := exists_append_of_length_lt (hsplit.symm.trans h.split) hlt
      exact hclean e (by simp [hmore]) he.isError
    · have htail : back = e :: rest := by
        have heq := h.split.symm.trans hsplit
        simpa using heq
      rw [properTokens_eq_self hclean] at hposition
      exact hback hposition e rest htail he.isError

/-! ## The tokens of a text -/

namespace Lexer

/-- Tokens that are passed before the end stand at the front of the list. -/
theorem exists_tokens_of_passes {l : Lexer} {ts : List Token} {q : Position Lexer}
    (h : Passes (TokenSource.next l) ts q) (hts : ∀ t ∈ ts, t.kind ≠ .eof) :
    ∃ l' : Lexer, TokenSource.next l' = q ∧ l.tokens = ts ++ l'.tokens := by
  induction ts generalizing l with
  | nil => exact ⟨l, Passes.nil_iff.mp h, rfl⟩
  | cons t ts ih =>
      obtain ⟨rfl, m, hm, hpass⟩ := Passes.cons_iff.mp h
      obtain ⟨rfl, -⟩ := Position.step?_eq_some_iff.mp hm
      obtain ⟨ht, hts⟩ := List.forall_mem_cons.mp hts
      obtain ⟨l', hq, htokens⟩ := ih hpass hts
      exact ⟨l', hq, (tokens_of_not_end ht).trans (congrArg (l.next.1 :: ·) htokens)⟩

/-- The list begins with the next token, and what follows is the list from there. -/
theorem tokens_eq_cons (l : Lexer) :
    ∃ rest, l.tokens = l.next.1 :: rest ∧
      ∀ e more, rest = e :: more → e = l.next.2.next.1 := by
  by_cases h : l.next.1.kind = .eof
  · exact ⟨[], tokens_of_end h, nofun⟩
  · refine ⟨l.next.2.tokens, tokens_of_not_end h, ?_⟩
    intro e more heq
    by_cases h' : l.next.2.next.1.kind = .eof
    · rw [tokens_of_end h'] at heq
      exact (List.cons.inj heq).1.symm
    · rw [tokens_of_not_end h'] at heq
      exact (List.cons.inj heq).1.symm

/-- An error behind a token stands behind it in the list. -/
theorem tokens_of_error {l : Lexer} (h : l.next.2.next.1.kind = .error) :
    ∃ more, l.tokens = l.next.1 :: l.next.2.next.1 :: more := by
  have hend : l.next.1.kind ≠ .eof := by
    intro hend
    rw [next_of_end hend, hend] at h
    cases h
  have hend' : l.next.2.next.1.kind ≠ .eof := by
    rw [h]
    exact nofun
  exact ⟨l.next.2.next.2.tokens, by rw [tokens_of_not_end hend, tokens_of_not_end hend']⟩

end Lexer

/-- No error is passed, nor arrived at. -/
theorem Passes.kind_ne_error {σ : Type} [TokenSource σ] {p q : Position σ} {ts : List Token}
    (h : Passes p ts q) (hp : p.1.kind ≠ .error) : q.1.kind ≠ .error := by
  induction h with
  | nil => exact hp
  | cons hs _ ih => exact ih (Position.step?_eq_some_iff.mp hs).2

/-- What the tokens of a text say about a diagnostic. -/
inductive Diagnosed (ts : List Token) : Diagnostic → Prop where
  | limit {d : Diagnostic} : d.problem ∈ Problem.limits → Diagnosed ts d
  | lexical {clean : List Token} {e : Token} :
      Lexical ts clean e → Diagnosed ts (.ofError e)
  | wrong {front back : List Token} {t : Token} {problem : Problem} :
      FirstWrong ts front t back → (¬ ∃ clean e, Lexical ts clean e) →
      Expected (properTokens front) problem → Diagnosed ts (.ofToken t problem)

/-- A cause at a place of a text, behind tokens that lead there. -/
theorem Cause.diagnosed {s : Stance} {l l' : Lexer} {front : List Token} {d : Diagnostic}
    (h : Cause s (TokenSource.next l') d) (htokens : l.tokens = front ++ l'.tokens)
    (hrun : (Stance.operand 0).run? front = some s) (hproper : l'.next.1.kind ≠ .error) :
    Diagnosed l.tokens d := by
  have hclean := (Stance.kinds_of_run? hrun).1
  have hfits := Stance.fits_of_run? hrun
  obtain ⟨rest, hcons, hrest⟩ := l'.tokens_eq_cons
  have hsplit : l.tokens = front ++ l'.next.1 :: rest := by rw [htokens, hcons]
  cases h with
  | limit hlimit => exact .limit hlimit
  | @operand n _ hstep hnext =>
      have hwrong := FirstWrong.of_run? hsplit hclean hproper hrun hstep
      refine .wrong hwrong (not_lexical hwrong hclean ?_) (.expression ?_)
      · intro _ e more heq
        obtain ⟨q, hq⟩ := Option.isSome_iff_exists.mp hnext
        obtain ⟨rfl, hkind⟩ := Position.step?_eq_some_iff.mp hq
        rw [hrest e more heq]
        exact hkind
      · rw [properTokens_eq_self hclean]
        exact hfits.1
  | @operator n _ hstep =>
      have hwrong := FirstWrong.of_run? hsplit hclean hproper hrun hstep
      obtain ⟨hcomplete, hcount⟩ := hfits
      have hnot := not_lexical hwrong hclean
        fun hposition => absurd hposition hcomplete.not_operandPosition
      refine .wrong hwrong hnot ?_
      rw [properTokens_eq_self hclean]
      by_cases hn : n = 0
      · rw [if_pos hn]
        exact .ending hcomplete (by omega)
      · rw [if_neg hn]
        exact .closing hcomplete (by omega)
  | lexical hallowed herror =>
      obtain ⟨more, hmore⟩ := Lexer.tokens_of_error herror
      have hbehind : l.tokens = front ++ l'.next.1 :: l'.next.2.next.1 :: more := by
        rw [htokens, hmore]
      exact .lexical (lexical_of_run? hbehind hrun hproper herror hallowed)

theorem Blames.diagnosed {l : Lexer} {d : Diagnostic} (hfirst : l.next.1.kind ≠ .error)
    (h : Blames (.operand 0) (TokenSource.next l) d) : Diagnosed l.tokens d := by
  obtain ⟨ts, q, s, hpass, hrun, hcause⟩ := h
  have hproper := hpass.kind_ne_error hfirst
  rcases (Stance.kinds_of_run? hrun).2 with rfl | hts
  -- behind the end nothing is read and nothing is expected
  · cases hcause with
    | limit hlimit => exact .limit hlimit
    | lexical hallowed => simp [Stance.step?] at hallowed
  · obtain ⟨l', rfl, htokens⟩ := Lexer.exists_tokens_of_passes hpass hts
    exact hcause.diagnosed htokens hrun hproper

/-! ## Texts that do not compile -/

namespace Compiler

theorem Compilation.result_eq_error_iff {compilation : Compilation} {d : Diagnostic} :
    compilation.result = .error d ↔ compilation.diagnostic = some d := by
  unfold result
  split
  next h => simp [h]
  next h => simp [h]

theorem diagnosed_compile {options : Options} {text : String} {d : Diagnostic}
    (h : (compile options text).diagnostic = some d) : Diagnosed (tokensOf text) d := by
  rcases blames_of_diagnostic h with ⟨herror, rfl⟩ | ⟨hfirst, hblames⟩
  · obtain ⟨rest, hcons, -⟩ := (Lexer.start text).tokens_eq_cons
    have hfirst : FirstError (tokensOf text) [] (Lexer.start text).next.1 :=
      ⟨⟨rest, hcons⟩, herror, by simp⟩
    exact .lexical (lexical_of_viable hfirst (viable_iff.mpr rfl))
  · exact hblames.diagnosed hfirst

/-- Where there is a problem, no listing is logged, and the log tells of the problem alone. -/
theorem told_compileFrom_of_diagnostic {σ : Type} [TokenSource σ] {options : Options} {source : σ}
    {d : Diagnostic} (h : (compileFrom options source).diagnostic = some d) :
    (compileFrom options source).log.toList.filter (·.level = .debug) =
      [⟨.debug, .compiler, d.text⟩] := by
  have hd : (finalState options source).diagnostic = some d := h
  have htold := tellsOnce_finalState options source
  have hclosing : (closingLog options (finalState options source).chunk
      (some d)).toList.filter (·.level = .debug) = [] := by simp [closingLog]
  change ((finalState options source).log ++ closingLog options (finalState options source).chunk
    (finalState options source).diagnostic).toList.filter (·.level = .debug) = _
  rw [Array.toList_append, List.filter_append, hd, hclosing, List.append_nil]
  rw [State.TellsOnce, hd] at htold
  exact htold

/-- A text that does not compile has one diagnostic, and no other problem is told in the log.
Limits apart, it is that of the first error, if the error is to blame, and otherwise that of
the first wrong token, with the problem that the tokens in front of it give. -/
theorem diagnostic_is_first_fault {options : Options} {text : String} {d : Diagnostic}
    (h : (compile options text).result = .error d) :
    (compile options text).diagnostic.toList = [d] ∧
    (compile options text).log.toList.filter (·.level = .debug) =
      [⟨.debug, .compiler, d.text⟩] ∧
    (d.problem ≠ .nestingTooDeep → d.problem ≠ .tooManyConstants →
      (∀ clean e, Lexical (tokensOf text) clean e →
        d = ⟨e.line, .lexical, .lexical e.lexeme⟩) ∧
      ((¬ ∃ clean e, Lexical (tokensOf text) clean e) →
        ∃ front t back, FirstWrong (tokensOf text) front t back ∧ d.line = t.line ∧
          d.location = (if t.kind = .eof then .atEnd else .token t.lexeme) ∧
          Expected (properTokens front) d.problem)) := by
  have hd := Compilation.result_eq_error_iff.mp h
  refine ⟨by rw [hd]; rfl, told_compileFrom_of_diagnostic hd, fun hnesting hconstants => ?_⟩
  cases diagnosed_compile hd with
  | limit hlimit =>
      have hnumber := (legible_finalState (fun _ => Lexer.isSome_read?_of_kind)
        (Lexer.start text)).problem d hd
      simp [Problem.limits, hnesting, hconstants, hnumber] at hlimit
  | @lexical clean e hlexical =>
      refine ⟨fun clean' e' hlexical' => ?_, fun hnot => absurd ⟨clean, e, hlexical⟩ hnot⟩
      obtain ⟨-, rfl⟩ := hlexical.1.unique hlexical'.1
      simp [Diagnostic.ofError, Diagnostic.ofToken, hlexical.1.isError]
  | @wrong front back t problem hwrong hnot hexpected =>
      refine ⟨fun clean e hlexical => absurd ⟨clean, e, hlexical⟩ hnot, fun _ => ?_⟩
      refine ⟨front, t, back, hwrong, rfl, ?_, hexpected⟩
      have hproper := hwrong.isProper
      unfold Diagnostic.ofToken
      cases hk : t.kind with
      | error => exact absurd hk hproper
      | _ => rfl

/-- In the first text an operand is missing in front of a parenthesis, and the error
behind the parenthesis is reported in its place.  In the second text a number stands
behind an operand, and the error behind the number is not reached. -/
theorem diagnostic_is_first_fault_of_two_texts :
    ((compile {} "(1 + ) @").result = .error ⟨1, .lexical, .lexical "Unexpected character."⟩ ∧
      Lexical (tokensOf "(1 + ) @")
        [⟨.leftParen, "(", 1⟩, ⟨.number, "1", 1⟩, ⟨.plus, "+", 1⟩, ⟨.rightParen, ")", 1⟩]
        (.failure "Unexpected character." 1) ∧
      (compile {} "(1 + ) @").diagnostic.toList =
        [⟨1, .lexical, .lexical "Unexpected character."⟩]) ∧
    (compile {} "(1 2 @").result = .error ⟨1, .token "2", .expectedClosing⟩ ∧
      (¬ ∃ clean e, Lexical (tokensOf "(1 2 @") clean e) ∧
      ∃ front t back, FirstWrong (tokensOf "(1 2 @") front t back ∧ 1 = t.line ∧
        .token "2" = (if t.kind = .eof then .atEnd else Location.token t.lexeme) ∧
        Expected (properTokens front) .expectedClosing := by
  have htokens : tokensOf "(1 + ) @" =
      [⟨.leftParen, "(", 1⟩, ⟨.number, "1", 1⟩, ⟨.plus, "+", 1⟩, ⟨.rightParen, ")", 1⟩,
        .failure "Unexpected character." 1, .endOfText 1] := by decide +kernel
  have htokens' : tokensOf "(1 2 @" =
      [⟨.leftParen, "(", 1⟩, ⟨.number, "1", 1⟩, ⟨.number, "2", 1⟩,
        .failure "Unexpected character." 1, .endOfText 1] := by decide +kernel
  have hresult : (compile {} "(1 + ) @").result =
      .error ⟨1, .lexical, .lexical "Unexpected character."⟩ :=
    Compilation.result_eq_error_iff.mpr (by decide +kernel)
  have hresult' : (compile {} "(1 2 @").result = .error ⟨1, .token "2", .expectedClosing⟩ :=
    Compilation.result_eq_error_iff.mpr (by decide +kernel)
  have hwrong : FirstWrong (tokensOf "(1 + ) @")
      [⟨.leftParen, "(", 1⟩, ⟨.number, "1", 1⟩, ⟨.plus, "+", 1⟩] ⟨.rightParen, ")", 1⟩
      [.failure "Unexpected character." 1, .endOfText 1] :=
    ⟨htokens, by decide, by decide, by decide⟩
  have hwrong' : FirstWrong (tokensOf "(1 2 @") [⟨.leftParen, "(", 1⟩, ⟨.number, "1", 1⟩]
      ⟨.number, "2", 1⟩ [.failure "Unexpected character." 1, .endOfText 1] :=
    ⟨htokens', by decide, by decide, by decide⟩
  have hlexical : Lexical (tokensOf "(1 + ) @")
      [⟨.leftParen, "(", 1⟩, ⟨.number, "1", 1⟩, ⟨.plus, "+", 1⟩, ⟨.rightParen, ")", 1⟩]
      (.failure "Unexpected character." 1) := by
    refine ⟨⟨⟨_, htokens⟩, rfl, by decide⟩, .inr ⟨_, _, _, hwrong, .inr ⟨?_, rfl⟩⟩⟩
    simp [OperandPosition, properTokens]
  have hnot : ¬ ∃ clean e, Lexical (tokensOf "(1 2 @") clean e :=
    not_lexical hwrong' (by decide) fun hposition =>
      absurd hposition (OperandComplete.not_operandPosition ⟨_, rfl, by decide⟩)
  obtain ⟨hone, -, hblamed⟩ := diagnostic_is_first_fault hresult
  have heq := (hblamed nofun nofun).1 _ _ hlexical
  exact ⟨⟨hresult, hlexical, heq ▸ hone⟩, hresult', hnot,
    ((diagnostic_is_first_fault hresult').2.2 nofun nofun).2 hnot⟩

end Compiler

end Abacus
