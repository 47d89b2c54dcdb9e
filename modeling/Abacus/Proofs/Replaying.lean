import Abacus.Proofs.Scanning
import Abacus.Proofs.SideBySide

/-!
# Listed tokens

The tokens of a text can be drawn from the text itself, or they can be listed first
and then be drawn from the list.  A lexer is a place in the text and a line, and a
replay is what is left of the list and the line of the token handed out last; all
that they have in common is what they hand out.  That is the same for ever: up to
the end, since the list was drawn from the lexer, and then the end over and over,
on one line, since the lexer does not move at the end of the text and the end is
the last token of the list (`Lexer.nth_replay`).
-/

namespace Abacus

open TokenSource

namespace Lexer

/-- At the end of a text a lexer hands out the end only. -/
theorem nth_of_end {l : Lexer} (h : l.next.1.kind = .eof) (n : Nat) : nth n l = l.next.1 := by
  induction n generalizing l with
  | zero => rfl
  | succ n ih =>
      have hnext := next_of_end h
      have hrest : nth n l.next.2 = l.next.2.next.1 := ih (by rw [hnext]; exact h)
      rw [hnext] at hrest
      exact hrest

end Lexer

namespace Replay

@[simp] theorem nth_nil (line : UInt32) (n : Nat) :
    nth n (⟨[], line⟩ : Replay) = .endOfText line := by
  induction n with
  | zero => rfl
  | succ n ih => exact ih

/-- Behind its last token a list that ends with an end hands out that end. -/
theorem nth_of_length_le {ts : List Token} {line : UInt32} {n : Nat} (h : ts.length ≤ n)
    (before : UInt32) : nth n (⟨ts ++ [.endOfText line], before⟩ : Replay) = .endOfText line := by
  induction ts generalizing n before with
  | nil =>
      cases n with
      | zero => rfl
      | succ n => exact nth_nil line n
  | cons t ts ih =>
      cases n with
      | zero => exact absurd h (Nat.not_succ_le_zero _)
      | succ n => exact ih (Nat.le_of_succ_le_succ h) t.line

/-- Lists that differ in their lines only hand out tokens that differ in their lines
only. -/
theorem sameTokens {see : UInt32 → UInt32} {r r' : Replay}
    (htokens : r.tokens.map (·.through see) = r'.tokens.map (·.through see))
    (hline : see r.lastLine = see r'.lastLine) : SameTokens see r r' := by
  rcases r with ⟨ts, line⟩
  rcases r' with ⟨ts', line'⟩
  dsimp only at htokens hline
  intro n
  induction ts generalizing n ts' line line' with
  | nil =>
      obtain rfl : ts' = [] := List.map_eq_nil_iff.mp htokens.symm
      rw [nth_nil, nth_nil]
      exact congrArg (fun line => (⟨.eof, "", line⟩ : Token)) hline
  | cons t ts ih =>
      cases ts' with
      | nil => cases htokens
      | cons t' ts' =>
          obtain ⟨hfirst, hrest⟩ := List.cons.inj htokens
          cases n with
          | zero => exact hfirst
          | succ n => exact ih _ _ _ hrest ((Token.through_eq_iff see).mp hfirst).2.2 n

end Replay

/-- A lexer hands out the tokens that are listed from it. -/
theorem Lexer.nth_replay (l : Lexer) (line : UInt32) (n : Nat) :
    nth n (⟨l.tokens, line⟩ : Replay) = nth n l := by
  induction n generalizing l line with
  | zero =>
      by_cases h : l.next.1.kind = .eof
      · rw [tokens_of_end h]
        rfl
      · rw [tokens_of_not_end h]
        rfl
  | succ n ih =>
      by_cases h : l.next.1.kind = .eof
      · obtain ⟨last, hnext⟩ := next_eq_of_end h
        rw [tokens_of_end h, nth_of_end h, hnext]
        exact Replay.nth_nil last n
      · rw [tokens_of_not_end h]
        exact ih l.next.2 l.next.1.line

/-- The end that a list of tokens has is the end of a text. -/
theorem Lexer.eq_endOfText_of_mem {l : Lexer} {t : Token} (ht : t ∈ l.tokens)
    (hk : t.kind = .eof) : t = .endOfText t.line := by
  fun_induction tokens l with
  | case1 l step h =>
      obtain rfl := List.mem_singleton.mp ht
      obtain ⟨line, hnext⟩ : ∃ line, step = (.endOfText line, ⟨[], line⟩) := next_eq_of_end h
      rw [hnext]
      rfl
  | case2 l step h ih =>
      rcases List.mem_cons.mp ht with rfl | ht
      · exact absurd hk h
      · exact ih ht

namespace Compiler

/-- Whether the tokens of a text are drawn from the text or from a list of them makes
no difference. -/
theorem listed_tokens_compile_alike (options : Options) (text : String) :
    let replay : Replay := { tokens := tokensOf text }
    (compileFrom options replay).chunk = (compile options text).chunk ∧
    (compileFrom options replay).diagnostic = (compile options text).diagnostic ∧
    (∀ n, nth n replay = nth n (Lexer.start text)) ∧
    ∃ ts line, tokensOf text = ts ++ [.endOfText line] ∧ (∀ t ∈ ts, t.kind ≠ .eof) ∧
      ∀ n, ts.length ≤ n →
        nth n replay = .endOfText line ∧ nth n (Lexer.start text) = .endOfText line := by
  intro replay
  have hnth (n : Nat) : nth n replay = nth n (Lexer.start text) :=
    (Lexer.start text).nth_replay 1 n
  obtain ⟨hchunk, hdiagnostic⟩ := compileFrom_eq options hnth
  obtain ⟨ts, e, htokens, he, hts⟩ := (Lexer.start text).tokens_shape
  have hmem : e ∈ (Lexer.start text).tokens := by simp [htokens]
  rw [Lexer.eq_endOfText_of_mem hmem he] at htokens
  refine ⟨hchunk, hdiagnostic, hnth, ts, e.line, htokens, hts, fun n hn => ?_⟩
  have hend : nth n replay = .endOfText e.line := by
    change nth n (⟨(Lexer.start text).tokens, 1⟩ : Replay) = _
    rw [htokens]
    exact Replay.nth_of_length_le hn 1
  exact ⟨hend, hnth n ▸ hend⟩

end Compiler

end Abacus
