import Abacus.Proofs.Invariants

/-!
# Two compilations side by side

Two sources of tokens may be of different make and still hand out the same tokens,
or tokens that differ in their lines only.  Then what is compiled from one and what
is compiled from the other differ in their lines only.

*Lines.*  What is to be told of lines is a map `see`.  The identity tells all lines
apart and a constant map none, and nothing in a compilation depends on which map it
is: a line is copied from a token to a byte of code or to a diagnostic and is
otherwise not looked at.  Records of the log show lines in their texts and are left
out.

*Rounds.*  The rounds of a compilation are bounded by what its source has left, and
that is not the same number for two sources.  A bound that is high enough is never
reached (`Enough`), so two such bounds lead to the same result
(`State.Alike.join`).
-/

namespace Abacus

/-! ## The tokens of a source -/

namespace TokenSource

variable {σ : Type} [TokenSource σ]

/-- A source behind its next `n` tokens. -/
def after : Nat → σ → σ
  | 0, s => s
  | n + 1, s => after n (next s).2

/-- The token that a source hands out behind `n` others. -/
def nth (n : Nat) (s : σ) : Token := (next (after n s)).1

end TokenSource

/-! ## Seeing lines through a map -/

variable (see : UInt32 → UInt32)

/-- A token with its line seen through a map. -/
def Token.through (t : Token) : Token := { t with line := see t.line }

/-- A diagnostic with its line seen through a map. -/
def Diagnostic.through (d : Diagnostic) : Diagnostic := { d with line := see d.line }

/-- A chunk with its lines seen through a map. -/
def Chunk.through (c : Chunk) : Chunk := { c with lines := c.lines.map see }

/-- Tokens look alike exactly if they differ at most in lines that look alike. -/
theorem Token.through_eq_iff {t t' : Token} : t.through see = t'.through see ↔
    t.kind = t'.kind ∧ t.lexeme = t'.lexeme ∧ see t.line = see t'.line :=
  Token.mk.injEq .. ▸ .rfl

/-- Chunks look alike exactly if they differ at most in lines that look alike. -/
theorem Chunk.through_eq_iff {c c' : Chunk} : c.through see = c'.through see ↔
    c.code = c'.code ∧ c.lines.map see = c'.lines.map see ∧ c.consts = c'.consts :=
  Chunk.mk.injEq .. ▸ .rfl

theorem Chunk.through_push (c : Chunk) (byte : UInt8) (line : UInt32) :
    (c.push byte line).through see = (c.through see).push byte (see line) := by
  simp [through, push]

theorem Chunk.through_pushLoad (c : Chunk) (index : Nat) (line : UInt32) :
    (c.pushLoad index line).through see = (c.through see).pushLoad index (see line) := by
  unfold pushLoad
  cases operand? index with
  | none => rfl
  | some byte => simp only [pushOp, through_push]

theorem Chunk.through_addValue (c : Chunk) (v : Value) :
    (c.addValue v).through see = (c.through see).addValue v := rfl

/-- Two sources hand out the same tokens, but for their lines. -/
def SameTokens {σ τ : Type} [TokenSource σ] [TokenSource τ] (source : σ) (source' : τ) : Prop :=
  ∀ n, (TokenSource.nth n source).through see = (TokenSource.nth n source').through see

namespace SameTokens

variable {see} {σ τ : Type} [TokenSource σ] [TokenSource τ] {source : σ} {source' : τ}
  (h : SameTokens see source source')

include h

/-- The first tokens look alike. -/
theorem first :
    (TokenSource.next source).1.through see = (TokenSource.next source').1.through see := h 0

theorem rest : SameTokens see (TokenSource.next source).2 (TokenSource.next source').2 :=
  fun n => h (n + 1)

/-- The kinds of tokens do not depend on how their lines are seen. -/
theorem first_kind : (TokenSource.next source).1.kind = (TokenSource.next source').1.kind :=
  ((Token.through_eq_iff see).mp h.first).1

end SameTokens

namespace Compiler

variable {see} {σ τ : Type} [TokenSource σ] [TokenSource τ] {options : Options}

/-- Two states agree, but for their lines. -/
structure State.Alike (see : UInt32 → UInt32) (s : State σ) (s' : State τ) : Prop where
  source : SameTokens see s.source s'.source
  current : s.current.through see = s'.current.through see
  previous : s.previous.through see = s'.previous.through see
  chunk : s.chunk.through see = s'.chunk.through see
  diagnostic : s.diagnostic.map (·.through see) = s'.diagnostic.map (·.through see)

namespace State.Alike

variable {s : State σ} {s' : State τ} (h : s.Alike see s')

include h

theorem current_kind : s.current.kind = s'.current.kind :=
  ((Token.through_eq_iff see).mp h.current).1

theorem consts : s.chunk.consts = s'.chunk.consts :=
  ((Chunk.through_eq_iff see).mp h.chunk).2.2

/-! ## Reporting and writing -/

/-- Problems are reported on both sides or on neither. -/
theorem report {t t' : Token} (ht : t.through see = t'.through see) (problem : Problem) :
    (s.report t problem).Alike see (s'.report t' problem) := by
  have hd := h.diagnostic
  unfold State.report
  cases hs : s.diagnostic with
  | none =>
      rw [hs, Option.map_none, eq_comm, Option.map_eq_none_iff] at hd
      rw [hd]
      refine ⟨h.source, h.current, h.previous, h.chunk, ?_⟩
      exact congrArg (fun t => some (Diagnostic.ofToken t problem)) ht
  | some d =>
      cases hs' : s'.diagnostic with
      | none =>
          rw [hs, hs'] at hd
          cases hd
      | some d' => exact h

/-- Bytes are written with lines that look alike. -/
theorem writeByte (byte : UInt8) : (s.writeByte byte).Alike see (s'.writeByte byte) := by
  refine ⟨h.source, h.current, h.previous, ?_, h.diagnostic⟩
  obtain ⟨-, -, hline⟩ := (Token.through_eq_iff see).mp h.previous
  change (s.chunk.push _ _).through see = (s'.chunk.push _ _).through see
  rw [Chunk.through_push, Chunk.through_push, h.chunk, hline]

/-- A load is written on both sides or on neither, as the index has to fit. -/
theorem writeLoad (index : Nat) : (s.writeLoad index).Alike see (s'.writeLoad index) := by
  refine ⟨h.source, h.current, h.previous, ?_, h.diagnostic⟩
  obtain ⟨-, -, hline⟩ := (Token.through_eq_iff see).mp h.previous
  change (s.chunk.pushLoad _ _).through see = (s'.chunk.pushLoad _ _).through see
  rw [Chunk.through_pushLoad, Chunk.through_pushLoad, h.chunk, hline]

/-- A literal joins both pools or none, and has the same index in both. -/
theorem writeLiteral (v : Value) :
    (s.writeLiteral options v).Alike see (s'.writeLiteral options v) := by
  have hindex : s.chunk.indexOf? v = s'.chunk.indexOf? v := by
    rw [Chunk.indexOf?, Chunk.indexOf?, h.consts]
  unfold State.writeLiteral
  rw [hindex, h.consts]
  split
  next index _ => exact h.writeLoad index
  next =>
    split
    next =>
      have hadded : State.Alike see { s with chunk := s.chunk.addValue v }
          { s' with chunk := s'.chunk.addValue v } := by
        refine ⟨h.source, h.current, h.previous, ?_, h.diagnostic⟩
        change (s.chunk.addValue v).through see = (s'.chunk.addValue v).through see
        rw [Chunk.through_addValue, Chunk.through_addValue, h.chunk]
      exact hadded.writeLoad _
    next => exact h.report h.previous _

/-! ## Reading tokens -/

/-- A log does not matter, and one state may have noted what the other has not. -/
theorem note_if (b b' : Bool) (record record' : Log.Record) :
    (if b then s.note record else s).Alike see (if b' then s'.note record' else s') := by
  cases b <;> cases b' <;> exact ⟨h.source, h.current, h.previous, h.chunk, h.diagnostic⟩

/-- Both states take the next token of their sources. -/
theorem receive :
    (s.receive options (TokenSource.next s.source).1 (TokenSource.next s.source).2).Alike see
      (s'.receive options (TokenSource.next s'.source).1 (TokenSource.next s'.source).2) := by
  have ht := h.source.first
  obtain ⟨hkind, hlexeme, -⟩ := (Token.through_eq_iff see).mp ht
  have htaken : State.Alike see
      { s with source := (TokenSource.next s.source).2, current := (TokenSource.next s.source).1 }
      { s' with
        source := (TokenSource.next s'.source).2, current := (TokenSource.next s'.source).1 } :=
    ⟨h.source.rest, ht, h.previous, h.chunk, h.diagnostic⟩
  unfold State.receive
  dsimp only
  rw [hkind, hlexeme]
  split
  next => exact (htaken.note_if _ _ _ _).report ht _
  next => exact htaken.note_if _ _ _ _

/-- Errors are passed over on both sides until the same token comes up. -/
theorem fetch : (s.fetch options).Alike see (s'.fetch options) := by
  generalize hn : TokenSource.left s.source = n
  induction n using Nat.strongRecOn generalizing s s' with
  | ind n ih =>
      rw [State.fetch.eq_def options s, State.fetch.eq_def options s']
      dsimp only
      rw [← h.source.first_kind]
      split
      next herror =>
        refine ih _ ?_ h.receive rfl
        rw [State.source_receive, ← hn]
        exact TokenSource.left_next_lt s.source fun hend => nomatch herror.symm.trans hend
      next => exact h.receive

theorem moveOn : (s.moveOn options).Alike see (s'.moveOn options) := by
  have hmoved : State.Alike see { s with previous := s.current }
      { s' with previous := s'.current } :=
    ⟨h.source, h.current, h.current, h.chunk, h.diagnostic⟩
  exact hmoved.fetch

theorem expect (kind : Token.Kind) (problem : Problem) :
    (s.expect options kind problem).Alike see (s'.expect options kind problem) := by
  unfold State.expect
  rw [h.current_kind]
  split
  next => exact h.moveOn
  next => exact h.report h.current _

end State.Alike

/-! ## Bounds on the rounds -/

/-- What a state can still draw is bounded. -/
def State.Bounded (n : Nat) (s : State σ) : Prop := Enough n (s.current, s.source)

namespace State.Bounded

variable {n : Nat} {s : State σ}

/-- A report reads no token. -/
theorem report (h : s.Bounded n) (t : Token) (problem : Problem) :
    (s.report t problem).Bounded n := by
  unfold State.report
  split
  next => exact h
  next => exact h

/-- Writing reads no token. -/
theorem writeLiteral (h : s.Bounded n) (v : Value) : (s.writeLiteral options v).Bounded n := by
  unfold State.writeLiteral
  split
  next => exact h
  next =>
    split
    next => exact h
    next => exact h.report _ _

/-- What the source has left bounds what comes behind its next token. -/
theorem fetch (h : TokenSource.left s.source ≤ n) : (s.fetch options).Bounded n := by
  fun_induction State.fetch options s with
  | case1 s step _ ih =>
      refine ih ?_
      rw [State.source_receive]
      exact Nat.le_trans (TokenSource.left_next_le s.source) h
  | case2 s step _ =>
      have hnext : Enough n step :=
        ⟨Nat.le_trans (TokenSource.left_next_le s.source) h,
          fun hk => Nat.lt_of_lt_of_le (TokenSource.left_next_lt s.source hk) h⟩
      exact State.receive_induction (P := State.Bounded n) hnext (fun _ h => h)
        (fun h => h.report _ _)

/-- Moving on takes a token from those that are left. -/
theorem moveOn (h : s.Bounded n) : (s.moveOn options).Bounded n :=
  fetch h.left_le

/-- Every token before the end counts. -/
theorem moveOn_of_ne_eof (h : s.Bounded (n + 1)) (hk : s.current.kind ≠ .eof) :
    (s.moveOn options).Bounded n :=
  fetch (Nat.lt_succ_iff.mp (h.left_lt hk))

end State.Bounded

/-- However long a compilation goes on, there are no more tokens than at its start. -/
theorem invariant_bounded (options : Options) (n : Nat) :
    Invariant options (State.Bounded n : State σ → Prop) where
  report _ h := h.report _ _
  negate h := h
  operator _ h := h
  writeLiteral v h := h.writeLiteral v
  moveOn h := h.moveOn

namespace State.Bounded

variable {n rounds room : Nat} {s : State σ} (h : s.Bounded n)

include h

theorem parse {least : Precedence} : (parse options rounds room least s).Bounded n :=
  (invariant_bounded options n).parse h

theorem openOperand (opening : Opening) :
    (openOperand options (Compiler.parse options rounds room) s opening).Bounded n :=
  (invariant_bounded options n).openOperand (invariant_bounded options n).parse h opening

end State.Bounded

/-! ## Expressions -/

/-- Behind an operand no rounds are made without an operator that binds. -/
theorem join_of_not_binds {operand : Precedence → State σ → State σ} {least : Precedence}
    {s : State σ} (h : ¬ s.current.kind.Binds least) (count : Nat) :
    join options operand least count s = s := by
  cases count with
  | zero => rfl
  | succ count =>
      rw [join]
      split
      next => rfl
      next o ho => exact if_neg fun hle => h ⟨o, ho, hle⟩

/-- An operator that binds takes one round. -/
theorem join_of_binds {operand : Precedence → State σ → State σ} {least : Precedence}
    {s : State σ} {o : Operator} (ho : s.current.kind.operator? = some o)
    (hle : least ≤ o.precedence) (count : Nat) :
    join options operand least (count + 1) s =
      join options operand least count
        ((operand o.precedence.next (s.moveOn options)).write (.operator o)) := by
  rw [join, ho]
  exact if_pos hle

namespace State.Alike

section

variable {rounds rounds' room : Nat}
  (hoperand : ∀ {least} {s : State σ} {s' : State τ}, s.Bounded rounds → s'.Bounded rounds' →
    s.Alike see s' →
    (parse options rounds room least s).Alike see (parse options rounds' room least s'))

include hoperand

/-- An operand is read alike, also if the two sides are allowed different rounds. -/
theorem openOperand {s : State σ} {s' : State τ} (hn : s.Bounded rounds)
    (hn' : s'.Bounded rounds') (h : s.Alike see s') (opening : Opening) :
    (openOperand options (parse options rounds room) s opening).Alike see
      (openOperand options (parse options rounds' room) s' opening) := by
  cases opening with
  | number =>
      obtain ⟨-, hlexeme, -⟩ := (Token.through_eq_iff see).mp h.previous
      rw [Compiler.openOperand, Compiler.openOperand, hlexeme]
      split
      next v _ => exact h.writeLiteral v
      next => exact h.report h.previous _
  | group => exact (hoperand hn hn' h).expect _ _
  | negation => exact (hoperand hn hn' h).writeByte _

/-- Two loops with bounds that are high enough end after the same round. -/
theorem join {least : Precedence} {count count' : Nat} {s : State σ} {s' : State τ}
    (hn : s.Bounded rounds) (hn' : s'.Bounded rounds') (hc : s.Bounded count)
    (hc' : s'.Bounded count') (h : s.Alike see s') :
    (join options (parse options rounds room) least count s).Alike see
      (join options (parse options rounds' room) least count' s') := by
  induction count generalizing count' s s' with
  | zero =>
      have hstops : ¬ s.current.kind.Binds least := by
        rintro ⟨o, ho, -⟩
        exact Nat.not_lt_zero _ (hc.left_lt (Token.Kind.ne_eof_of_operator?_eq_some ho))
      rw [join_of_not_binds hstops, join_of_not_binds (h.current_kind ▸ hstops)]
      exact h
  | succ count ih =>
      by_cases hbinds : s.current.kind.Binds least
      · obtain ⟨o, ho, hle⟩ := hbinds
        have hk : s.current.kind ≠ .eof := Token.Kind.ne_eof_of_operator?_eq_some ho
        have ho' : s'.current.kind.operator? = some o := h.current_kind ▸ ho
        have hk' : s'.current.kind ≠ .eof := h.current_kind ▸ hk
        obtain ⟨count', rfl⟩ := hc'.exists_succ hk'
        rw [join_of_binds ho hle, join_of_binds ho' hle]
        have hm : (s.moveOn options).Bounded rounds := hn.moveOn
        have hm' : (s'.moveOn options).Bounded rounds' := hn'.moveOn
        exact ih hm.parse hm'.parse (hc.moveOn_of_ne_eof hk).parse
          (hc'.moveOn_of_ne_eof hk').parse ((hoperand hm hm' h.moveOn).writeByte _)
      · rw [join_of_not_binds hbinds, join_of_not_binds (h.current_kind ▸ hbinds)]
        exact h

end

/-- One level of two compilations. -/
theorem parse {rounds rounds' room : Nat} {least : Precedence} {s : State σ} {s' : State τ}
    (hn : s.Bounded rounds) (hn' : s'.Bounded rounds') (h : s.Alike see s') :
    (parse options rounds room least s).Alike see (parse options rounds' room least s') := by
  induction room generalizing least s s' with
  | zero => exact h.report h.current _
  | succ room ih =>
      have hmoved : (s.moveOn options).Alike see (s'.moveOn options) := h.moveOn
      have hm : (s.moveOn options).Bounded rounds := hn.moveOn
      have hm' : (s'.moveOn options).Bounded rounds' := hn'.moveOn
      obtain ⟨hkind, -, -⟩ := (Token.through_eq_iff see).mp hmoved.previous
      rw [Compiler.parse, Compiler.parse]
      dsimp only
      rw [hkind]
      split
      next => exact hmoved.report hmoved.previous _
      next opening _ =>
        exact join ih (hm.openOperand _) (hm'.openOperand _) (hm.openOperand _)
          (hm'.openOperand _) (openOperand ih hm hm' hmoved opening)

end State.Alike

/-- Two compilations from sources that hand out the same tokens, but for their lines,
come to the same chunk and the same diagnostic, but for their lines. -/
theorem compileFrom_alike (options : Options) {source : σ} {source' : τ}
    (h : SameTokens see source source') :
    (compileFrom options source).chunk.through see =
      (compileFrom options source').chunk.through see ∧
    (compileFrom options source).diagnostic.map (·.through see) =
      (compileFrom options source').diagnostic.map (·.through see) := by
  have hinitial : (initial source).Alike see (initial source') := ⟨h, rfl, rfl, rfl, rfl⟩
  have hn : ((initial source).moveOn options).Bounded (TokenSource.left source) :=
    .fetch (Nat.le_refl _)
  have hn' : ((initial source').moveOn options).Bounded (TokenSource.left source') :=
    .fetch (Nat.le_refl _)
  have hfinal : (finalState options source).Alike see (finalState options source') :=
    ((State.Alike.parse hn hn' hinitial.moveOn).expect _ _).writeByte _
  exact ⟨hfinal.chunk, hfinal.diagnostic⟩

/-- The same tokens give the same chunk and the same diagnostic. -/
theorem compileFrom_eq (options : Options) {source : σ} {source' : τ}
    (h : ∀ n, TokenSource.nth n source = TokenSource.nth n source') :
    (compileFrom options source).chunk = (compileFrom options source').chunk ∧
    (compileFrom options source).diagnostic = (compileFrom options source').diagnostic := by
  have hsame : SameTokens id source source' := fun n => congrArg (·.through id) (h n)
  obtain ⟨hchunk, hdiagnostic⟩ := compileFrom_alike options hsame
  have hall (c : Chunk) : c.through id = c := by simp [Chunk.through]
  have hall' (d : Option Diagnostic) : d.map (·.through id) = d := Option.map_id_apply
  rw [hall, hall] at hchunk
  rw [hall', hall'] at hdiagnostic
  exact ⟨hchunk, hdiagnostic⟩

end Compiler

end Abacus
