import Abacus.Proofs.Acceptance
import Abacus.Proofs.SideBySide
import Mathlib.Logic.Relation

/-!
# A compilation step by step

`Compiler.parse` calls itself, and it is given bounds that end its recursion: the
levels that may still be entered, and the rounds of a loop.  Here a compilation is
taken apart into steps that know no such bounds.  A step draws one token, reports one
problem, writes one operation, or decides what comes next.  What is left to do is an
agenda, and the open levels are counted by a counter that goes up where a level is
entered and down where it is left.  Only the counter is ever compared with the limit.

*The end.*  Every run of these steps comes to an end, and it is the end that
`compileFrom` gives (`steps_parse`).  The bounds of `parse` are therefore never what
ends a loop.  Steps are determined, so every stage of a run is on the way to that end
(`Stage.Steps.rejoins`).

*The counter.*  It counts the levels on the agenda that are still to be left
(`Stage.InHand`), and it never passes the limit.

*The code.*  A token other than the end pays for two bytes of code, the most that any
token is translated to.  `State.worth` is what has been written together with what the
tokens to come can pay for, and reading an operand never raises it
(`State.worth_parse_le`), not even where the compiler goes on behind a problem.
-/

namespace Abacus.Compiler

/-- Something left to do in a compilation. -/
inductive Duty where
  /-- Enter a level: read an operand and all that is joined to it. -/
  | enter (least : Precedence)
  /-- Draw a token to be looked at next. -/
  | draw
  /-- Read the operand that the token read last opens. -/
  | opening (least : Precedence)
  /-- Join what has been read with the operators that follow. -/
  | join (least : Precedence)
  | expect (kind : Token.Kind) (problem : Problem)
  | write (op : Opcode)
  /-- Leave a level. -/
  | leave
  deriving DecidableEq

/-- A compilation at some moment. -/
structure Stage (σ : Type) where
  state : State σ
  /-- The number of levels that are open. -/
  depth : Nat
  /-- What is left to do, the next thing first. -/
  agenda : List Duty

variable {σ : Type} [TokenSource σ] {options : Options}

/-- What doing one thing comes to.  The rest of the agenda is done later. -/
def Duty.perform (options : Options) (s : State σ) (depth : Nat) (rest : List Duty) :
    Duty → Stage σ
  | .enter least =>
      if options.nestingLimit ≤ depth then ⟨s.report s.current .nestingTooDeep, depth, rest⟩
      else ⟨{ s with previous := s.current }, depth + 1,
        .draw :: .opening least :: .leave :: rest⟩
  | .draw =>
      let step := TokenSource.next s.source
      ⟨s.receive options step.1 step.2, depth,
        if step.1.kind = .error then .draw :: rest else rest⟩
  | .opening least =>
      match s.previous.kind.opening? with
      | none => ⟨s.report s.previous .expectedExpression, depth, rest⟩
      | some .number =>
          ⟨openOperand options (fun _ s => s) s .number, depth, .join least :: rest⟩
      | some .group => ⟨s, depth,
          .enter .assignment :: .expect .rightParen .expectedClosing :: .join least :: rest⟩
      | some .negation => ⟨s, depth, .enter .unary :: .write .negate :: .join least :: rest⟩
  | .join least =>
      match s.current.kind.operator? with
      | none => ⟨s, depth, rest⟩
      | some o =>
          if least ≤ o.precedence then
            ⟨{ s with previous := s.current }, depth,
              .draw :: .enter o.precedence.next :: .write (.operator o) :: .join least :: rest⟩
          else ⟨s, depth, rest⟩
  | .expect kind problem =>
      if s.current.kind = kind then ⟨{ s with previous := s.current }, depth, .draw :: rest⟩
      else ⟨s.report s.current problem, depth, rest⟩
  | .write op => ⟨s.write op, depth, rest⟩
  | .leave => ⟨s, depth - 1, rest⟩

namespace Stage

/-- The stage behind the next step, if anything is left to do. -/
def next? (options : Options) (c : Stage σ) : Option (Stage σ) :=
  match c.agenda with
  | [] => none
  | duty :: rest => some (duty.perform options c.state c.depth rest)

/-- A number of steps lead from one stage to another. -/
abbrev Steps (options : Options) : Stage σ → Stage σ → Prop :=
  Relation.ReflTransGen fun c c' => c.next? options = some c'

/-- The stage before the first token. -/
def start (source : σ) : Stage σ where
  state := initial source
  depth := 0
  agenda := [.draw, .enter .assignment, .expect .eof .expectedEnd, .write .ret]

/-- The next thing on the agenda is done, and then the rest. -/
theorem Steps.perform {s : State σ} {depth : Nat} {duty : Duty} {rest : List Duty} {c : Stage σ}
    (h : Steps options (duty.perform options s depth rest) c) :
    Steps options ⟨s, depth, duty :: rest⟩ c :=
  .head rfl h

/-- Every stage of a run is on the way to its end. -/
theorem Steps.rejoins {c m e : Stage σ} (hend : Steps options c e) (he : e.next? options = none)
    (h : Steps options c m) : Steps options m e := by
  have hunique : Relator.RightUnique fun c c' : Stage σ => c.next? options = some c' := by
    intro a b b' hb hb'
    exact Option.some.inj (hb.symm.trans hb')
  rcases Relation.ReflTransGen.total_of_right_unique hunique h hend with hme | hem
  · exact hme
  · rcases hem.cases_head with rfl | ⟨m', hm', -⟩
    · exact .refl
    · cases he.symm.trans hm'

/-! ## The steps of an operand -/

section

variable {depth : Nat} {rest : List Duty}

theorem steps_fetch (s : State σ) :
    Steps options ⟨s, depth, .draw :: rest⟩ ⟨s.fetch options, depth, rest⟩ := by
  fun_induction State.fetch options s with
  | case1 s step herror ih =>
      refine .perform ?_
      rw [Duty.perform, if_pos herror]
      exact ih
  | case2 s step hgood =>
      refine .perform ?_
      rw [Duty.perform, if_neg hgood]

/-- Expecting a token is one step. -/
theorem steps_expect (s : State σ) (kind : Token.Kind) (problem : Problem) :
    Steps options ⟨s, depth, .expect kind problem :: rest⟩
      ⟨s.expect options kind problem, depth, rest⟩ := by
  refine .perform ?_
  rw [Duty.perform, State.expect]
  split
  · exact steps_fetch _
  · exact .refl

section

variable {rounds room : Nat}
  (hoperand : ∀ {least : Precedence} {s : State σ} {rest : List Duty}, s.Bounded rounds →
    Steps options ⟨s, depth, .enter least :: rest⟩
      ⟨parse options rounds room least s, depth, rest⟩)

include hoperand

/-- Reading an operand is a run of its own, behind which the operators are joined. -/
theorem steps_opening {least : Precedence} {s : State σ} {opening : Opening}
    (hs : s.Bounded rounds) (ho : s.previous.kind.opening? = some opening) :
    Steps options ⟨s, depth, .opening least :: rest⟩
      ⟨openOperand options (parse options rounds room) s opening, depth, .join least :: rest⟩ := by
  refine .perform ?_
  rw [Duty.perform, ho]
  cases opening with
  | number => exact .refl
  | group => exact (hoperand hs).trans (steps_expect _ _ _)
  | negation => exact (hoperand hs).trans (Steps.perform .refl)

/-- A bound on the rounds that is high enough is not what ends the loop. -/
theorem steps_join {least : Precedence} {count : Nat} {s : State σ} (hs : s.Bounded rounds)
    (hcount : s.Bounded count) :
    Steps options ⟨s, depth, .join least :: rest⟩
      ⟨join options (parse options rounds room) least count s, depth, rest⟩ := by
  induction count generalizing s with
  | zero =>
      refine .perform ?_
      cases ho : s.current.kind.operator? with
      | none => rw [Duty.perform, ho]; exact .refl
      | some o =>
          have hk := Token.Kind.ne_eof_of_operator?_eq_some ho
          exact absurd (hcount.left_lt hk) (Nat.not_lt_zero _)
  | succ count ih =>
      refine .perform ?_
      rw [Duty.perform, Compiler.join]
      cases ho : s.current.kind.operator? with
      | none => exact .refl
      | some o =>
          dsimp only
          split
          · have hk := Token.Kind.ne_eof_of_operator?_eq_some ho
            have hmoved : (s.moveOn options).Bounded rounds := hs.moveOn
            have hfewer : (s.moveOn options).Bounded count := hcount.moveOn_of_ne_eof hk
            refine (steps_fetch _).trans ((hoperand hmoved).trans (Steps.perform ?_))
            exact ih hmoved.parse hfewer.parse
          · exact .refl

end

/-- A level is entered and left again, and in between all is done that `parse` does. -/
theorem steps_parse {rounds room : Nat} {least : Precedence} {s : State σ} (hs : s.Bounded rounds)
    (hroom : room = options.nestingLimit - depth) :
    Steps options ⟨s, depth, .enter least :: rest⟩
      ⟨parse options rounds room least s, depth, rest⟩ := by
  induction room generalizing depth rest least s with
  | zero =>
      refine .perform ?_
      rw [Duty.perform, if_pos (by omega)]
      exact .refl
  | succ room ih =>
      have hdeeper : room = options.nestingLimit - (depth + 1) := by omega
      have hmoved : (s.moveOn options).Bounded rounds := hs.moveOn
      have hleave (s : State σ) :
          Steps options ⟨s, depth + 1, .leave :: rest⟩ ⟨s, depth, rest⟩ := .perform .refl
      refine .perform ?_
      rw [Duty.perform, if_neg (by omega), Compiler.parse]
      refine (steps_fetch _).trans ?_
      change Steps options ⟨s.moveOn options, _, _⟩ _
      dsimp only
      cases ho : (s.moveOn options).previous.kind.opening? with
      | none =>
          refine .perform ?_
          rw [Duty.perform, ho]
          exact hleave _
      | some opening =>
          have hopened : (openOperand options (parse options rounds room) (s.moveOn options)
              opening).Bounded rounds := hmoved.openOperand opening
          refine (steps_opening (fun hs => ih hs hdeeper) hmoved ho).trans ?_
          exact (steps_join (fun hs => ih hs hdeeper) hopened hopened).trans (hleave _)

end

/-- The run of a whole compilation. -/
theorem steps_finalState (source : σ) :
    Steps options (start source) ⟨finalState options source, 0, []⟩ := by
  have hn : ((initial source).moveOn options).Bounded (TokenSource.left source) :=
    .fetch (Nat.le_refl _)
  refine (steps_fetch _).trans ((steps_parse hn rfl).trans ?_)
  exact (steps_expect _ _ _).trans (Steps.perform .refl)

end Stage

/-! ## What every step keeps -/

namespace Stage

/-- The counter counts the levels to be left, within the limit, and one problem has been
told at most. -/
structure InHand (options : Options) (c : Stage σ) : Prop where
  depth_eq : c.depth = c.agenda.count .leave
  depth_le : c.depth ≤ options.nestingLimit
  tells : c.state.TellsOnce

omit [TokenSource σ] in
/-- At its start a compilation is in hand. -/
theorem inHand_start (source : σ) : InHand options (start source) where
  depth_eq := rfl
  depth_le := Nat.zero_le _
  tells := rfl

/-- Each duty keeps the count of the levels that are open, and reports no second problem. -/
theorem InHand.perform {s : State σ} {depth : Nat} {duty : Duty} {rest : List Duty}
    (h : InHand options ⟨s, depth, duty :: rest⟩) :
    InHand options (duty.perform options s depth rest) := by
  obtain ⟨heq, hle, htells⟩ := h
  simp only at heq hle htells
  cases duty with
  | enter least =>
      -- the only duty that opens a level, and it leaves behind the duty to close it
      simp only [List.count_cons] at heq
      rw [Duty.perform]
      split
      next => exact ⟨heq, hle, htells.report _ _⟩
      next hroom => exact ⟨by simpa using heq, Nat.lt_of_not_le hroom, htells⟩
  | draw =>
      refine ⟨?_, hle, htells.receive _ _⟩
      rw [Duty.perform]
      split
      next => exact heq
      next => simpa using heq
  | opening least =>
      have hrest : depth = rest.count .leave := by simpa using heq
      rw [Duty.perform]
      split
      next => exact ⟨hrest, hle, htells.report _ _⟩
      next =>
        refine ⟨by simpa using hrest, hle, ?_⟩
        rw [openOperand]
        split
        next => exact htells.writeLiteral _
        next => exact htells.report _ _
      next => exact ⟨by simpa using hrest, hle, htells⟩
      next => exact ⟨by simpa using hrest, hle, htells⟩
  | join least =>
      have hrest : depth = rest.count .leave := by simpa using heq
      rw [Duty.perform]
      split
      next => exact ⟨hrest, hle, htells⟩
      next =>
        split
        next => exact ⟨by simpa using hrest, hle, htells⟩
        next => exact ⟨hrest, hle, htells⟩
  | expect kind problem =>
      have hrest : depth = rest.count .leave := by simpa using heq
      rw [Duty.perform]
      split
      next => exact ⟨by simpa using hrest, hle, htells⟩
      next => exact ⟨hrest, hle, htells.report _ _⟩
  | write op =>
      have hrest : depth = rest.count .leave := by simpa using heq
      exact ⟨hrest, hle, htells⟩
  | leave =>
      have hrest : depth = rest.count .leave + 1 := by simpa using heq
      exact ⟨by rw [Duty.perform, hrest]; rfl, Nat.le_trans (Nat.sub_le _ _) hle, htells⟩

/-- So does any number of them. -/
theorem InHand.steps {c c' : Stage σ} (h : InHand options c) (hsteps : Steps options c c') :
    InHand options c' := by
  induction hsteps with
  | refl => exact h
  | @tail m e _ hstep ih =>
      obtain ⟨s, depth, agenda⟩ := m
      cases agenda with
      | nil => cases hstep
      | cons duty rest =>
          obtain rfl := Option.some.inj hstep
          exact ih.perform

end Stage

/-! ## The size of the code -/

namespace State

/-- The bytes that a token can be translated to. -/
def pays (t : Token) : Nat := if t.kind = .eof then 0 else 2

/-- The bytes that have been written, and those that the tokens to come can pay for. -/
def worth (s : State σ) : Nat :=
  s.chunk.code.size + 2 * TokenSource.left s.source + pays s.current

/-- A report is worth nothing. -/
theorem worth_report (s : State σ) (t : Token) (problem : Problem) :
    (s.report t problem).worth = s.worth := by
  unfold report
  split <;> rfl

/-- An operation is worth one. -/
theorem worth_write (s : State σ) (op : Opcode) : (s.write op).worth = s.worth + 1 := by
  simp only [worth, write, writeByte, Chunk.code_push, Array.size_push]
  omega

/-- Writing a literal is worth two at most: the operation and its operand. -/
theorem worth_writeLiteral_le (s : State σ) (v : Value) :
    (s.writeLiteral options v).worth ≤ s.worth + 2 := by
  have hload (s : State σ) (index : Nat) : (s.writeLoad index).worth ≤ s.worth + 2 := by
    have hsize := s.chunk.size_code_pushLoad_le index s.previous.line
    simp only [worth, writeLoad]
    omega
  unfold writeLiteral
  split
  next => exact hload _ _
  next =>
    split
    next => exact hload _ _
    next =>
      rw [worth_report]
      exact Nat.le_add_right _ _

section

variable (options)

/-- The next token is paid for by what the source has left. -/
theorem worth_receive_le (s : State σ) :
    (s.receive options (TokenSource.next s.source).1 (TokenSource.next s.source).2).worth ≤
      s.chunk.code.size + 2 * TokenSource.left s.source := by
  refine receive_induction (P := fun s' => s'.worth ≤ _) ?_ (fun _ h => h)
    (fun h => Nat.le_trans (Nat.le_of_eq (worth_report ..)) h)
  have hle := TokenSource.left_next_le s.source
  have hlt := TokenSource.left_next_lt s.source
  simp only [worth, pays]
  split
  next => omega
  next hk =>
    have := hlt hk
    omega

/-- Fetching a token spends what it was worth. -/
theorem worth_fetch_le (s : State σ) :
    (s.fetch options).worth ≤ s.chunk.code.size + 2 * TokenSource.left s.source := by
  fun_induction fetch options s with
  | case1 s step _ ih =>
      refine Nat.le_trans ih (Nat.le_trans ?_ (s.worth_receive_le options))
      exact Nat.le_add_right _ _
  | case2 s step _ => exact s.worth_receive_le options

/-- Moving on gives away what the token passed over can pay for. -/
theorem worth_moveOn_le (s : State σ) : (s.moveOn options).worth + pays s.current ≤ s.worth :=
  Nat.add_le_add_right (worth_fetch_le options _) _

/-- Expecting a token adds nothing. -/
theorem worth_expect_le (s : State σ) (kind : Token.Kind) (problem : Problem) :
    (s.expect options kind problem).worth ≤ s.worth := by
  unfold expect
  split
  next => exact Nat.le_of_add_right_le (s.worth_moveOn_le options)
  next => exact Nat.le_of_eq (worth_report ..)

end

/-- A token that begins an operand pays for two bytes. -/
theorem pays_of_opening? {t : Token} {opening : Opening} (h : t.kind.opening? = some opening) :
    pays t = 2 := by
  rw [pays, if_neg]
  intro hk
  rw [hk] at h
  cases h

/-- A token that joins operands pays for two bytes. -/
theorem pays_of_operator? {t : Token} {o : Operator} (h : t.kind.operator? = some o) :
    pays t = 2 :=
  if_neg (Token.Kind.ne_eof_of_operator?_eq_some h)

section

variable {operand : Precedence → State σ → State σ}
  (hoperand : ∀ (least : Precedence) (s : State σ), (operand least s).worth ≤ s.worth)

include hoperand

/-- An operand costs no more than the tokens that it was read from. -/
theorem worth_openOperand_le (s : State σ) (opening : Opening) :
    (openOperand options operand s opening).worth ≤ s.worth + 2 := by
  cases opening with
  | number =>
      rw [openOperand]
      split
      next => exact s.worth_writeLiteral_le _
      next =>
        rw [worth_report]
        exact Nat.le_add_right _ _
  | group =>
      rw [openOperand]
      exact Nat.le_add_right_of_le (Nat.le_trans (worth_expect_le options _ _ _) (hoperand _ s))
  | negation =>
      rw [openOperand, worth_write]
      have hright := hoperand .unary s
      omega

/-- So does a chain of operands. -/
theorem worth_join_le (least : Precedence) (rounds : Nat) (s : State σ) :
    (join options operand least rounds s).worth ≤ s.worth := by
  induction rounds generalizing s with
  | zero => exact Nat.le_refl _
  | succ rounds ih =>
      rw [join]
      split
      next => exact Nat.le_refl _
      next o ho =>
        split
        next =>
          have hmoved := s.worth_moveOn_le options
          have hright := hoperand o.precedence.next (s.moveOn options)
          refine Nat.le_trans (ih _) ?_
          rw [worth_write]
          rw [pays_of_operator? ho] at hmoved
          omega
        next => exact Nat.le_refl _

end

/-- An operand does not get more code than its tokens pay for. -/
theorem worth_parse_le (options : Options) (rounds room : Nat) (least : Precedence) (s : State σ) :
    (parse options rounds room least s).worth ≤ s.worth := by
  induction room generalizing least s with
  | zero => exact Nat.le_of_eq (worth_report ..)
  | succ room ih =>
      have hmoved := s.worth_moveOn_le options
      have hprevious : (s.moveOn options).previous = s.current := previous_fetch _
      rw [parse]
      dsimp only
      split
      next =>
        rw [worth_report]
        exact Nat.le_of_add_right_le hmoved
      next opening ho =>
        rw [hprevious] at ho
        rw [pays_of_opening? ho] at hmoved
        refine Nat.le_trans (worth_join_le ih _ _ _) ?_
        exact Nat.le_trans (worth_openOperand_le ih _ _) hmoved

end State

/-- Every token is translated to two bytes at most, and a `ret` stands at the end. -/
theorem size_code_finalState_le (options : Options) (source : σ) :
    (finalState options source).chunk.code.size ≤ 2 * TokenSource.left source + 1 := by
  have hfirst : ((initial source).moveOn options).worth ≤ 2 * TokenSource.left source := by
    have h := (initial source).worth_fetch_le options
    rwa [show (initial source).chunk.code.size = 0 from rfl, Nat.zero_add] at h
  have hparsed := State.worth_parse_le options (TokenSource.left source)
    options.nestingLimit .assignment ((initial source).moveOn options)
  have hended := State.worth_expect_le options
    (parse options (TokenSource.left source) options.nestingLimit .assignment
      ((initial source).moveOn options)) .eof .expectedEnd
  have hfinal : (finalState options source).worth ≤ 2 * TokenSource.left source + 1 := by
    rw [finalState, State.worth_write]
    omega
  exact Nat.le_trans (Nat.le_add_right _ _) (Nat.le_of_add_right_le hfinal)

/-- Every compilation of a list of tokens comes to an end, whatever the tokens are.  Every
stage of its run is on the way to that end, with no more levels open than the limit allows and
no more than one problem told, and a level that is entered is left with the counter as it was.
At the end no level is open, and the code has two bytes for each token at most and one more. -/
theorem every_compilation_ends (options : Options) (r : Replay) :
    ∃ s : State Replay,
      compileFrom options r =
        ⟨s.chunk, s.diagnostic, s.log ++ closingLog options s.chunk s.diagnostic⟩ ∧
      s.chunk.code.size ≤ 2 * r.tokens.length + 1 ∧
      (Stage.mk s 0 []).next? options = none ∧
      ∀ c, Stage.Steps options (.start r) c →
        c.Steps options ⟨s, 0, []⟩ ∧
        c.depth ≤ options.nestingLimit ∧ c.depth = c.agenda.count .leave ∧
        c.state.told.length ≤ 1 ∧
        ∀ least rest, c.agenda = .enter least :: rest →
          ∃ s', c.Steps options ⟨s', c.depth, rest⟩ ∧
            s' = parse options (TokenSource.left c.state.source + 1)
              (options.nestingLimit - c.depth) least c.state := by
  refine ⟨finalState options r, rfl, size_code_finalState_le options r, rfl, ?_⟩
  intro c hc
  have hends : Stage.Steps options (.start r) ⟨finalState options r, 0, []⟩ :=
    Stage.steps_finalState r
  have hin : c.InHand options := (Stage.inHand_start r).steps hc
  refine ⟨hends.rejoins rfl hc, hin.depth_le, hin.depth_eq, hin.tells.length_le, ?_⟩
  intro least rest hagenda
  obtain ⟨s, depth, agenda⟩ := c
  obtain rfl : agenda = .enter least :: rest := hagenda
  have hbounded : s.Bounded (TokenSource.left s.source + 1) :=
    ⟨Nat.le_succ _, fun _ => Nat.lt_succ_self _⟩
  exact ⟨_, Stage.steps_parse hbounded rfl, rfl⟩

/-- Three signs and no number, with an error and an end among them.  One level may be entered, so
the second sign is too deep for an operand, and the code goes on all the same. -/
theorem every_compilation_ends_at_three_signs :
    let minus : Token := ⟨.minus, "-", 1⟩
    let r : Replay := ⟨[minus, ⟨.error, "?", 1⟩, minus, .endOfText 1, minus], 1⟩
    Stage.Steps { nestingLimit := 1 } (.start r) (.start r) ∧
    (compileFrom { nestingLimit := 1 } r).chunk.code.size ≤ 2 * r.tokens.length + 1 ∧
    (compileFrom { nestingLimit := 1 } r).chunk.code = #[6, 3, 0] ∧
    ∃ s, Stage.Steps { nestingLimit := 1 } (.start r) ⟨s, 0, []⟩ ∧ s.told.length ≤ 1 := by
  intro minus r
  obtain ⟨s, hcompiled, hsize, -, hstages⟩ := every_compilation_ends { nestingLimit := 1 } r
  have hends := (hstages _ .refl).1
  refine ⟨.refl, ?_, by decide +kernel, s, hends, (hstages _ hends).2.2.2.1⟩
  rw [hcompiled]
  exact hsize

end Abacus.Compiler
