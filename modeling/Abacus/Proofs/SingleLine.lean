import Abacus.Proofs.Columns
import Abacus.Proofs.Invariants
import Abacus.Proofs.Layout

/-!
# Texts on a single line

What the program says about an expression on one line fits on one line: the text of a
value has no line end in it, and neither has the text of a diagnostic of a source
without line ends.

*Values.*  A text of a value is put together from digits and a few signs, wherever the
point is placed and whatever is trimmed.

*Diagnostics.*  A diagnostic repeats the lexeme of a token, and the lexeme of a string
may run over lines.  It is a piece of the source in every case but two, the messages of
errors.  A compilation only reports the tokens it holds (`Finds`), so it suffices that
these are on one line, and that the rest of the source is (`State.SingleLine`).
-/

namespace Abacus

namespace Text

/-- The text has no line end. -/
def SingleLine (text : String) : Prop := '\n' ∉ text.toList

instance (text : String) : Decidable (SingleLine text) :=
  inferInstanceAs (Decidable ('\n' ∉ text.toList))

theorem singleLine_empty : SingleLine "" := by decide

/-- A text is on a single line if its parts are, and only then. -/
@[simp] theorem singleLine_append {a b : String} :
    SingleLine (a ++ b) ↔ SingleLine a ∧ SingleLine b := by
  simp [SingleLine, not_or]

theorem singleLine_ofList {text : List Char} : SingleLine (String.ofList text) ↔ '\n' ∉ text := by
  rw [SingleLine, String.toList_ofList]

end Text

open Text

/-! ## Numbers -/

/-- Digits have no line end among them. -/
theorem singleLine_repr (n : Nat) : SingleLine (Nat.repr n) := by
  rw [Nat.repr_eq_ofList_toDigits, singleLine_ofList]
  exact not_mem_toDigits (by decide) n

/-- A padded number is on a single line unless it is padded with line ends. -/
theorem singleLine_padLeft_repr (width : Nat) {fill : Char} (h : fill ≠ '\n') (n : Nat) :
    SingleLine (padLeft width fill (Nat.repr n)) := by
  rw [padLeft, singleLine_append, singleLine_ofList]
  exact ⟨fun hmem => h (List.eq_of_mem_replicate hmem).symm, singleLine_repr n⟩

theorem isDigit_of_mem_lastDigits {places n : Nat} {c : Char} (h : c ∈ lastDigits places n) :
    c.isDigit := by
  induction places generalizing n with
  | zero => cases h
  | succ places ih =>
      rcases List.mem_append.mp h with h | h
      · exact ih h
      · rw [List.mem_singleton.mp h, Nat.isDigit_digitChar, decide_eq_true_iff]
        exact Nat.mod_lt n (by decide)

namespace Layout

variable {text : List Char} {c : Char}

/-- Dropping characters at the end brings in none. -/
theorem mem_of_mem_dropLast {last : Char} (h : c ∈ dropLast last text) : c ∈ text := by
  have hdropped := (List.dropWhile_suffix _).subset (List.mem_reverse.mp h)
  exact List.mem_reverse.mp hdropped

theorem singleLine_spelledExponent (width : Nat) (x : Int) :
    SingleLine (spelledExponent width x) := by
  have hsign : SingleLine (if x < 0 then "-" else "+") := by split <;> decide
  have he : SingleLine "e" := by decide
  simp only [spelledExponent, singleLine_append]
  exact ⟨⟨he, hsign⟩, singleLine_padLeft_repr width (by decide) _⟩

end Layout

/-- Trimming brings in no characters. -/
theorem mem_of_mem_trimFraction {c : Char} {text : List Char} (h : c ∈ trimFraction text) :
    c ∈ text := by
  unfold trimFraction at h
  split at h
  next => exact Layout.mem_of_mem_dropLast (Layout.mem_of_mem_dropLast h)
  next => exact h

/-- Besides digits there is a point at most. -/
theorem newline_not_mem_withPlaces (places n : Nat) : '\n' ∉ withPlaces places n := by
  have hwhole (n : Nat) : '\n' ∉ Nat.toDigits 10 n := not_mem_toDigits (by decide) n
  have hplaces : '\n' ∉ lastDigits places n :=
    fun hmem => absurd (isDigit_of_mem_lastDigits hmem) (by decide)
  unfold withPlaces Layout.pointed
  split
  next => exact hwhole _
  next => simp [hwhole, hplaces]

namespace Value

/-- The text of a positive number has digits, a point and an exponent, and no line end. -/
theorem singleLine_positiveText (r : Ratio) : SingleLine (positiveText r) := by
  have htrimmed (places n : Nat) :
      SingleLine (String.ofList (trimFraction (withPlaces places n))) :=
    singleLine_ofList.mpr fun hmem =>
      newline_not_mem_withPlaces places n (mem_of_mem_trimFraction hmem)
  unfold positiveText
  dsimp only
  split
  next => exact htrimmed _ _
  next => exact singleLine_append.mpr ⟨htrimmed _ _, Layout.singleLine_spelledExponent 2 _⟩

/-- The text of a value has no line end, whatever its bits are. -/
theorem singleLine_text (v : Value) : SingleLine v.text := by
  have hsign : SingleLine v.signText := by
    unfold signText
    split <;> decide
  unfold text
  split
  next => decide
  split
  next => exact singleLine_append.mpr ⟨hsign, by decide⟩
  split
  next => exact singleLine_append.mpr ⟨hsign, by decide⟩
  next => exact singleLine_append.mpr ⟨hsign, singleLine_positiveText _⟩

end Value

/-! ## Diagnostics -/

/-- The text of a diagnostic quotes the lexeme of its token and the message of the problem,
and has no other part that could hold a line end. -/
theorem Diagnostic.singleLine_text_ofToken {t : Token} {problem : Problem}
    (ht : SingleLine t.lexeme) (hproblem : SingleLine problem.message) :
    SingleLine (ofToken t problem).text := by
  have hline : SingleLine "[line " ∧ SingleLine "] Error" ∧ SingleLine ": " := by decide
  have hquotes : SingleLine " at '" ∧ SingleLine "'" := by decide
  have hend : SingleLine " at end" := by decide
  unfold ofToken text
  cases t.kind <;> simp [hline, hquotes, hend, ht, hproblem, singleLine_repr]

/-- What the grammar has to say against a token is said on a single line. -/
theorem Compiler.Syntactic.singleLine_message {problem : Problem} (h : Syntactic problem) :
    SingleLine problem.message := by
  cases problem with
  | lexical message => exact absurd rfl (h message)
  | _ => decide

/-- A lexeme is a piece of the source, or one of two messages. -/
theorem Scanned.singleLine_lexeme {u rest : List Char} {kind : Token.Kind} {lexeme : String}
    (h : Scanned u rest kind lexeme) (hu : '\n' ∉ u) : SingleLine lexeme := by
  cases h with
  | unterminated => decide
  | unexpected => decide
  | _ => exact singleLine_ofList.mpr hu

/-- A lexer that has no line end in front of it gives lexemes on single lines. -/
theorem Lexer.singleLine_next {l : Lexer} (h : '\n' ∉ l.rest) :
    SingleLine l.next.1.lexeme ∧ '\n' ∉ l.next.2.rest := by
  rcases l.next_cases with ⟨line, -, -, hnext⟩ | ⟨w, u, rest, t, htext, -, -, hs, -, hnext⟩
  · rw [hnext]
    exact ⟨singleLine_empty, nofun⟩
  · rw [htext, List.mem_append, List.mem_append, not_or, not_or] at h
    obtain ⟨-, hu, hrest⟩ := h
    rw [hnext]
    exact ⟨hs.singleLine_lexeme hu, hrest⟩

namespace Compiler

/-- A compilation of a source on one line. -/
structure State.SingleLine (s : State Lexer) : Prop where
  rest : '\n' ∉ s.source.rest
  current : Text.SingleLine s.current.lexeme
  previous : Text.SingleLine s.previous.lexeme
  diagnostic : ∀ d, s.diagnostic = some d → Text.SingleLine d.text

namespace State.SingleLine

variable {s : State Lexer} {options : Options}

theorem report (h : s.SingleLine) {t : Token} {problem : Problem}
    (ht : Text.SingleLine t.lexeme) (hproblem : Text.SingleLine problem.message) :
    (s.report t problem).SingleLine := by
  unfold State.report
  split
  next => exact h
  next =>
    refine ⟨h.rest, h.current, h.previous, ?_⟩
    rintro d ⟨⟩
    exact Diagnostic.singleLine_text_ofToken ht hproblem

/-- Every problem that a compilation finds can be told on a single line. -/
theorem report_finds (h : s.SingleLine) {t : Token} {problem : Problem}
    (hfinds : Finds s t problem) : (s.report t problem).SingleLine := by
  refine h.report ?_ hfinds.problem.singleLine_message
  rcases hfinds.token with rfl | rfl
  · exact h.current
  · exact h.previous

theorem writeLiteral (h : s.SingleLine) (v : Value) :
    (s.writeLiteral options v).SingleLine := by
  unfold State.writeLiteral
  split
  next => exact ⟨h.rest, h.current, h.previous, h.diagnostic⟩
  next =>
    split
    next => exact ⟨h.rest, h.current, h.previous, h.diagnostic⟩
    next => exact h.report_finds ⟨.inr rfl, nofun⟩

/-- The token that is received next has its lexeme on a single line. -/
theorem receive_next (h : s.SingleLine) :
    (s.receive options s.source.next.1 s.source.next.2).SingleLine := by
  obtain ⟨hlexeme, hrest⟩ := Lexer.singleLine_next h.rest
  refine receive_induction ⟨hrest, hlexeme, h.previous, h.diagnostic⟩ (fun _ h => ?_)
    (fun h => h.report hlexeme hlexeme)
  exact ⟨h.rest, h.current, h.previous, h.diagnostic⟩

theorem fetch (h : s.SingleLine) : (s.fetch options).SingleLine := by
  fun_induction State.fetch options s with
  | case1 s step _ ih => exact ih h.receive_next
  | case2 s step _ => exact h.receive_next

theorem moveOn (h : s.SingleLine) : (s.moveOn options).SingleLine :=
  fetch ⟨h.rest, h.current, h.current, h.diagnostic⟩

end State.SingleLine

/-- On a text without line ends a compilation has nothing but single lines to report. -/
theorem invariant_singleLine (options : Options) : Invariant options State.SingleLine where
  report hfinds h := h.report_finds hfinds
  negate h := ⟨h.rest, h.current, h.previous, h.diagnostic⟩
  operator _ h := ⟨h.rest, h.current, h.previous, h.diagnostic⟩
  writeLiteral v h := h.writeLiteral v
  moveOn h := h.moveOn

/-- The diagnostic of a text without line ends is a single line. -/
theorem singleLine_text_of_diagnostic {options : Options} {text : String} {d : Diagnostic}
    (htext : SingleLine text) (h : (compile options text).diagnostic = some d) :
    SingleLine d.text := by
  have hinitial : (initial (Lexer.start text)).SingleLine :=
    ⟨htext, singleLine_empty, singleLine_empty, nofun⟩
  obtain ⟨s, hs, hfinal⟩ := (invariant_singleLine options).exists_before_return hinitial
  have hd : (finalState options (Lexer.start text)).diagnostic = some d := h
  rw [hfinal] at hd
  exact hs.diagnostic d hd

end Compiler

end Abacus
