import Abacus.Proofs.Translation

/-!
# Invariants of a compilation

A compilation consists of four kinds of steps: it reports a problem, writes an
operation, writes a literal, or moves on by one token.  What these keep holds of
every state that a compilation goes through, with or without a problem.  The
recursion of the compiler is gone through once, in `Invariant.parse`.

Outside of moving on, a problem is only found with one of the two tokens that the
compiler holds (`Finds`).  Errors of the lexer are reported while moving on.

The last step is apart from these.  A compilation ends by writing a `ret`, and
nowhere else does it write one.

A problem is told in the log when it is found.  A state holds one problem at most, and
that this is also all that has been told is an invariant (`State.TellsOnce`).
-/

namespace Abacus.Compiler

variable {σ : Type} [TokenSource σ] {options : Options}

/-- A problem that does not come from the lexer. -/
def Syntactic (problem : Problem) : Prop := ∀ message, problem ≠ .lexical message

/-- The compiler finds a problem with the token it looks at, or with the one it has read
last. -/
structure Finds (s : State σ) (t : Token) (problem : Problem) : Prop where
  token : t = s.current ∨ t = s.previous
  problem : Syntactic problem

/-- Every step of a compilation keeps the property. -/
structure Invariant (options : Options) (P : State σ → Prop) : Prop where
  report {s : State σ} {t : Token} {problem : Problem} :
    Finds s t problem → P s → P (s.report t problem)
  negate {s : State σ} : P s → P (s.write .negate)
  operator {s : State σ} (o : Operator) : P s → P (s.write (.operator o))
  writeLiteral {s : State σ} (v : Value) : P s → P (s.writeLiteral options v)
  moveOn {s : State σ} : P s → P (s.moveOn options)

namespace Invariant

variable {P : State σ → Prop} (h : Invariant options P)

include h

/-- A token that was expected is passed, and another one is reported. -/
theorem expect {s : State σ} (hs : P s) (kind : Token.Kind) {problem : Problem}
    (hp : Syntactic problem) : P (s.expect options kind problem) := by
  unfold State.expect
  split
  · exact h.moveOn hs
  · exact h.report ⟨.inl rfl, hp⟩ hs

section

variable {operand : Precedence → State σ → State σ}
  (hoperand : ∀ {least s}, P s → P (operand least s))

include hoperand

/-- Reading an operand keeps what its parts keep. -/
theorem openOperand {s : State σ} (hs : P s) (opening : Opening) :
    P (openOperand options operand s opening) := by
  have hnumber : Syntactic .invalidNumber := nofun
  have hclosing : Syntactic .expectedClosing := nofun
  cases opening with
  | number =>
      rw [Compiler.openOperand]
      split
      · exact h.writeLiteral _ hs
      · exact h.report ⟨.inr rfl, hnumber⟩ hs
  | group => exact h.expect (hoperand hs) _ hclosing
  | negation => exact h.negate (hoperand hs)

/-- Joining operands keeps what reading an operand keeps, by induction on the rounds. -/
theorem join {least : Precedence} {rounds : Nat} {s : State σ} (hs : P s) :
    P (join options operand least rounds s) := by
  induction rounds generalizing s with
  | zero => exact hs
  | succ rounds ih =>
      rw [Compiler.join]
      split
      · exact hs
      · next o _ =>
          split
          · exact ih (h.operator o (hoperand (h.moveOn hs)))
          · exact hs

end

/-- Parsing keeps an invariant, by induction on the room that is left. -/
theorem parse {rounds room : Nat} {least : Precedence} {s : State σ} (hs : P s) :
    P (parse options rounds room least s) := by
  have hdepth : Syntactic .nestingTooDeep := nofun
  have hexpression : Syntactic .expectedExpression := nofun
  induction room generalizing least s with
  | zero => exact h.report ⟨.inl rfl, hdepth⟩ hs
  | succ room ih =>
      have hmoved := h.moveOn hs
      rw [Compiler.parse]
      dsimp only
      split
      · exact h.report ⟨.inr rfl, hexpression⟩ hmoved
      · exact h.join ih (h.openOperand ih hmoved _)

/-- A compilation comes to a state with the property and then writes a `ret`. -/
theorem exists_before_return {source : σ} (hs : P (initial source)) :
    ∃ s, P s ∧ finalState options source = s.write .ret := by
  have hparsed : P (Compiler.parse options (TokenSource.left source) options.nestingLimit
      .assignment ((initial source).moveOn options)) := h.parse (h.moveOn hs)
  have hended : Syntactic .expectedEnd := nofun
  exact ⟨_, h.expect hparsed .eof hended, rfl⟩

end Invariant

end Abacus.Compiler

/-! ## What a step does to the chunk -/

namespace Abacus.Compiler.State

variable {σ : Type} [TokenSource σ] {options : Options}

omit [TokenSource σ] in
@[simp] theorem chunk_report (s : State σ) (t : Token) (problem : Problem) :
    (s.report t problem).chunk = s.chunk := by
  unfold report
  split
  · rfl
  · rfl

@[simp] theorem chunk_receive (s : State σ) (t : Token) (source : σ) :
    (s.receive options t source).chunk = s.chunk :=
  receive_induction (P := fun s' => s'.chunk = s.chunk) rfl (fun _ h => h)
    (fun h => (chunk_report ..).trans h)

omit [TokenSource σ] in
/-- A literal is loaded if the pool has a place for it, and left out otherwise. -/
theorem chunk_writeLiteral (s : State σ) (v : Value) :
    (s.writeLiteral options v).chunk =
      (s.chunk.load? options.shareConstants v s.previous.line).getD s.chunk := by
  unfold writeLiteral Chunk.load?
  cases if options.shareConstants then s.chunk.indexOf? v else none with
  | some index => rfl
  | none =>
      dsimp only
      split
      · rfl
      · exact chunk_report ..

@[simp] theorem chunk_fetch (s : State σ) : (s.fetch options).chunk = s.chunk := by
  fun_induction fetch options s with
  | case1 s step _ ih => rw [ih, chunk_receive]
  | case2 s step _ => exact chunk_receive ..

@[simp] theorem chunk_moveOn (s : State σ) : (s.moveOn options).chunk = s.chunk :=
  chunk_fetch _

/-! ## Telling of problems -/

omit [TokenSource σ]

variable {s : State σ}

/-- The problems that have been told in the log. -/
def told (s : State σ) : List Log.Record := s.log.toList.filter (·.level = .debug)

/-- What has been told is the problem that the state holds, and nothing else. -/
def TellsOnce (s : State σ) : Prop :=
  s.told = s.diagnostic.toList.map fun d => ⟨.debug, .compiler, d.text⟩

/-- A report tells of a problem only if none has been told of. -/
theorem TellsOnce.report (h : s.TellsOnce) (t : Token) (problem : Problem) :
    (s.report t problem).TellsOnce := by
  unfold State.report
  split
  next => exact h
  next hnone =>
    simp only [TellsOnce, told, hnone, Option.toList_none, List.map_nil] at h
    simp [TellsOnce, told, note, h]

theorem TellsOnce.writeLiteral (h : s.TellsOnce) (v : Value) :
    (s.writeLiteral options v).TellsOnce := by
  unfold State.writeLiteral
  split
  next => exact h
  next =>
    split
    next => exact h
    next => exact h.report _ _

/-- At most one problem is told of. -/
theorem TellsOnce.length_le (h : s.TellsOnce) : s.told.length ≤ 1 := by
  rw [h, List.length_map]
  cases s.diagnostic with
  | none => exact Nat.zero_le _
  | some d => exact Nat.le_refl _

variable [TokenSource σ]

/-- A token that is received is reported if it is an error, and otherwise tells nothing. -/
theorem TellsOnce.receive (h : s.TellsOnce) (t : Token) (source : σ) :
    (s.receive options t source).TellsOnce := by
  -- a token is noted below the level at which problems are told
  have hnote {s : State σ} (text : String) (h : s.TellsOnce) :
      (s.note ⟨.trace, .lexer, text⟩).TellsOnce := by
    simpa [TellsOnce, told, State.note] using h
  exact receive_induction h hnote fun h => h.report _ _

theorem TellsOnce.fetch (h : s.TellsOnce) : (s.fetch options).TellsOnce := by
  fun_induction State.fetch options s with
  | case1 s step _ ih => exact ih (h.receive _ _)
  | case2 s step _ => exact h.receive _ _

theorem TellsOnce.moveOn (h : s.TellsOnce) : (s.moveOn options).TellsOnce := by
  have hmoved : State.TellsOnce { s with previous := s.current } := h
  exact hmoved.fetch

end Abacus.Compiler.State

namespace Abacus.Compiler

variable {σ : Type} [TokenSource σ]

/-- No compilation tells of two problems. -/
theorem invariant_tellsOnce (options : Options) :
    Invariant options (State.TellsOnce (σ := σ)) where
  report _ h := h.report _ _
  negate h := h
  operator _ h := h
  writeLiteral v h := h.writeLiteral v
  moveOn h := h.moveOn

/-- A compilation tells of its problem and of no other. -/
theorem tellsOnce_finalState (options : Options) (source : σ) :
    (finalState options source).TellsOnce := by
  have hinitial : (initial source).TellsOnce := rfl
  obtain ⟨s, hs, hfinal⟩ := (invariant_tellsOnce options).exists_before_return hinitial
  rw [hfinal]
  exact hs

end Abacus.Compiler
