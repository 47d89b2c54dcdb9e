import Abacus.Proofs.Acceptance
import Abacus.Proofs.Beginnings

/-!
# What a problem is blamed on

A compilation reports the first problem it comes to.  This module says at which token
that is and what the problem is, for any source of tokens.

The compiler follows an expression in the sense of `Abacus.Proofs.Beginnings`: what it
has read so far has led to a stance.  `Cause` lists what can go wrong in a stance, and
`Blames` adds the tokens that were read before.  `Reads` is the statement about a part
of the compiler: it brings one stance to another, or reports a problem that is to
blame.  Such statements are put together by `Reads.andThen`, and `reads_parse` goes
through the levels and rounds of the compiler with it.

*Looking ahead.*  A token that cannot open an operand is only found after the next
token has been fetched, so that an error behind it is reported in its place.  A token
that cannot stand behind an operand is found before anything else is fetched.
-/

namespace Abacus

variable {σ : Type}

namespace Compiler.State

/-- Where a compilation is, as long as there is no problem. -/
def position? (s : State σ) : Option (Position σ) := s.view.map (·.position)

theorem position?_eq_some_iff {s : State σ} {p : Position σ} :
    s.position? = some p ↔ s.diagnostic = none ∧ (s.current, s.source) = p := by
  unfold position? view
  split
  next h => simp [h]
  next d h => simp [h]

theorem current_of_position? {s : State σ} {p : Position σ} (hs : s.position? = some p) :
    s.current = p.1 := congrArg Prod.fst (position?_eq_some_iff.mp hs).2

@[simp] theorem position?_write (s : State σ) (op : Opcode) :
    (s.write op).position? = s.position? := by
  rw [position?, view_write, Option.map_map]
  rfl

end Compiler.State

variable [TokenSource σ]

/-- The problems that no single token is to blame for, and numbers that cannot be
read. -/
def Problem.limits : List Problem := [.nestingTooDeep, .tooManyConstants, .invalidNumber]

/-- What is said of an error in a source. -/
def Diagnostic.ofError (e : Token) : Diagnostic := .ofToken e (.lexical e.lexeme)

/-- What can go wrong at a position in a stance. -/
inductive Cause : Stance → Position σ → Diagnostic → Prop where
  | limit {s : Stance} {p : Position σ} {d : Diagnostic} :
      d.problem ∈ Problem.limits → Cause s p d
  | operand {n : Nat} {p : Position σ} :
      (Stance.operand n).step? p.1.kind = none → p.step?.isSome →
      Cause (.operand n) p (.ofToken p.1 .expectedExpression)
  | operator {n : Nat} {p : Position σ} :
      (Stance.operator n).step? p.1.kind = none →
      Cause (.operator n) p (.ofToken p.1 (if n = 0 then .expectedEnd else .expectedClosing))
  | lexical {s : Stance} {p : Position σ} :
      (s.step? p.1.kind).isSome ∨ (∃ n, s = .operand n) →
      (TokenSource.next p.2).1.kind = .error → Cause s p (.ofError (TokenSource.next p.2).1)

/-- Reading on from a position in a stance comes to a cause of the diagnostic. -/
def Blames (s : Stance) (p : Position σ) (d : Diagnostic) : Prop :=
  ∃ ts q s', Passes p ts q ∧ s.run? ts = some s' ∧ Cause s' q d

theorem Cause.blames {s : Stance} {p : Position σ} {d : Diagnostic} (h : Cause s p d) :
    Blames s p d := ⟨[], p, s, .nil p, rfl, h⟩

theorem Blames.after {s s' : Stance} {p q : Position σ} {d : Diagnostic} {ts : List Token}
    (hpass : Passes p ts q) (hrun : s.run? ts = some s') (h : Blames s' q d) : Blames s p d := by
  obtain ⟨us, r, s'', hus, hrun', hcause⟩ := h
  exact ⟨ts ++ us, r, s'', Passes.append_iff.mpr ⟨q, hpass, hus⟩,
    Stance.run?_append_eq_some hrun hrun', hcause⟩

namespace Compiler

namespace State

/-- Moving on where an error comes next reports that error. -/
theorem diagnostic_moveOn_of_error {s : State σ} {p : Position σ} (options : Options)
    (hs : s.position? = some p) (herror : (TokenSource.next p.2).1.kind = .error) :
    (s.moveOn options).diagnostic = some (.ofError (TokenSource.next p.2).1) := by
  obtain ⟨hd, rfl⟩ := position?_eq_some_iff.mp hs
  rw [moveOn, fetch, if_pos herror]
  refine diagnostic_fetch_of_some ?_ options
  unfold receive
  dsimp only
  rw [if_pos herror]
  refine diagnostic_report_of_none ?_ ..
  split <;> exact hd

theorem position?_moveOn {s : State σ} {p : Position σ} (options : Options)
    (hs : s.position? = some p) : (s.moveOn options).position? = p.step? := by
  obtain ⟨v, hv, rfl⟩ := Option.map_eq_some_iff.mp hs
  rw [position?, view_moveOn, hv, Option.bind_some, Option.map_map]
  exact congrFun Option.map_id _

end State

/-- A part of a compilation has come from one stance to another, or to a problem that
is to blame. -/
def Reads (st st' : Stance) (p : Position σ) (s : State σ) : Prop :=
  (∃ ts q, s.position? = some q ∧ Passes p ts q ∧ st.run? ts = some st') ∨
    ∃ d, s.diagnostic = some d ∧ Blames st p d

namespace Reads

variable {options : Options} {st st' st'' : Stance} {p : Position σ} {s : State σ}

theorem refl (hs : s.position? = some p) : Reads st st p s := .inl ⟨[], p, hs, .nil p, rfl⟩

theorem of_cause {d : Diagnostic} (hd : s.diagnostic = some d) (h : Cause st p d) :
    Reads st st' p s := .inr ⟨d, hd, h.blames⟩

/-- One part after another. -/
theorem andThen (h : Reads st st' p s) {f : State σ → State σ}
    (hkeeps : ∀ {d}, s.diagnostic = some d → (f s).diagnostic = some d)
    (hnext : ∀ {ts q}, s.position? = some q → Passes p ts q → Reads st' st'' q (f s)) :
    Reads st st'' p (f s) := by
  rcases h with ⟨ts, q, hs, hpass, hrun⟩ | ⟨d, hd, hblames⟩
  · rcases hnext hs hpass with ⟨us, r, hr, hpass', hrun'⟩ | ⟨d, hd, hblames⟩
    · exact .inl ⟨ts ++ us, r, hr, Passes.append_iff.mpr ⟨q, hpass, hpass'⟩,
        Stance.run?_append_eq_some hrun hrun'⟩
    · exact .inr ⟨d, hd, hblames.after hpass hrun⟩
  · exact .inr ⟨d, hkeeps hd, hblames⟩

theorem write (h : Reads st st' p s) (op : Opcode) : Reads st st' p (s.write op) := by
  rcases h with ⟨ts, q, hs, hread⟩ | ⟨d, hd, hblames⟩
  · exact .inl ⟨ts, q, by rw [State.position?_write, hs], hread⟩
  · exact .inr ⟨d, hd, hblames⟩

/-- A problem of which no token is to blame. -/
theorem limit (h : Reads st st' p s) {problem : Problem} (hp : problem ∈ Problem.limits)
    (t : Token) : Reads st st'' p (s.report t problem) := by
  refine h.andThen (f := fun s => s.report t problem)
    (fun hd => State.diagnostic_report_of_some hd t problem) fun hs _ => ?_
  obtain ⟨hd, -⟩ := State.position?_eq_some_iff.mp hs
  exact of_cause (State.diagnostic_report_of_none hd t problem) (.limit hp)

theorem writeLiteral (h : Reads st st' p s) (v : Value) :
    Reads st st' p (s.writeLiteral options v) := by
  refine h.andThen (f := fun s => s.writeLiteral options v)
    (fun hd => State.diagnostic_writeLiteral_of_some hd options v) fun {_ q} hs _ => ?_
  have hstays := State.position?_eq_some_iff.mp hs
  unfold State.writeLiteral
  split
  · exact refl (State.position?_eq_some_iff.mpr hstays)
  · split
    · exact refl (State.position?_eq_some_iff.mpr hstays)
    · exact (refl hs : Reads st' st' q s).limit (by decide) _

end Reads

section

variable {options : Options}

/-- Moving on over a token that may stand here. -/
theorem reads_moveOn {st st' : Stance} {p : Position σ} {s : State σ}
    (hs : s.position? = some p) (hstep : st.step? p.1.kind = some st') :
    Reads st st' p (s.moveOn options) := by
  by_cases herror : (TokenSource.next p.2).1.kind = .error
  · refine .of_cause (State.diagnostic_moveOn_of_error options hs herror) ?_
    exact .lexical (.inl (by rw [hstep]; rfl)) herror
  · have hq : p.step? = some (TokenSource.next p.2) :=
      Position.step?_eq_some_iff.mpr ⟨rfl, herror⟩
    refine .inl ⟨[p.1], TokenSource.next p.2, ?_, Passes.singleton_iff.mpr ⟨rfl, hq⟩, ?_⟩
    · rw [State.position?_moveOn options hs, hq]
    · exact Stance.run?_cons_eq_some hstep rfl

/-- The token that has to come behind an operand, if no operator comes: a parenthesis
that closes, or the end. -/
theorem reads_expect {n : Nat} {st' : Stance} {kind : Token.Kind} {p : Position σ} {s : State σ}
    (hs : s.position? = some p) (hkind : kind = if n = 0 then .eof else .rightParen)
    (hstep : (Stance.operator n).step? kind = some st')
    (hstops : ¬ p.1.kind.Binds .assignment) :
    Reads (.operator n) st' p
      (s.expect options kind (if n = 0 then .expectedEnd else .expectedClosing)) := by
  have hd := (State.position?_eq_some_iff.mp hs).1
  unfold State.expect
  rw [State.current_of_position? hs]
  split
  next hk => exact reads_moveOn hs (by rw [hk, hstep])
  next hk =>
    have hoperator : p.1.kind.operator? = none := by
      cases ho : p.1.kind.operator? with
      | none => rfl
      | some o => exact absurd ⟨o, ho, by cases o <;> decide⟩ hstops
    refine .of_cause (State.diagnostic_report_of_none hd ..) (.operator ?_)
    exact Stance.step?_operator_eq_none hoperator fun h => hk (h.trans hkind.symm)

/-- Nothing that an expression would go on with stands behind what has been read. -/
theorem stops_parse {rounds room : Nat} {least : Precedence} {s : State σ} {p q : Position σ}
    (hn : Enough rounds p) (hs : s.position? = some p)
    (hq : (parse options rounds room least s).position? = some q) : ¬ q.1.kind.Binds least := by
  obtain ⟨v, hv, rfl⟩ := Option.map_eq_some_iff.mp hs
  obtain ⟨w, hw, rfl⟩ := Option.map_eq_some_iff.mp hq
  rw [view_parse, hv, Option.bind_some] at hw
  obtain ⟨⟨t, q⟩, hread, hafter⟩ := Option.bind_eq_some_iff.mp hw
  obtain ⟨c, -, rfl⟩ := Option.map_eq_some_iff.mp hafter
  exact (Tree.read_sound hn hread).stops

section

variable {rounds room : Nat}
  (hoperand : ∀ {least n} {s : State σ} {p}, Enough rounds p → s.position? = some p →
    Reads (.operand n) (.operator n) p (parse options rounds room least s))

include hoperand

/-- The operand that a token opens. -/
theorem reads_openOperand {n : Nat} {p : Position σ} {s : State σ} {opening : Opening}
    (hn : Enough rounds p) (hs : s.position? = some p)
    (ho : p.1.kind.opening? = some opening) :
    Reads (.operand n) (.operator n) p
      (openOperand options (parse options rounds room) (s.moveOn options) opening) := by
  have hk := Tree.opening?_eq_some ho
  cases opening with
  | number =>
      have hmoved : Reads (.operand n) (.operator n) p (s.moveOn options) :=
        reads_moveOn hs (by rw [hk]; rfl)
      rw [openOperand]
      split
      next v _ => exact hmoved.writeLiteral v
      next => exact hmoved.limit (by decide) _
  | group =>
      have hmoved : Reads (.operand n) (.operand (n + 1)) p (s.moveOn options) :=
        reads_moveOn hs (by rw [hk]; rfl)
      refine hmoved.andThen (f := fun s =>
          openOperand options (parse options rounds room) s .group)
        (fun hd => diagnostic_openOperand_of_some diagnostic_parse_of_some hd .group)
        fun {_ q} hq hpass => ?_
      refine (hoperand (n := n + 1) (hn.passes hpass) hq).andThen
        (f := fun s => s.expect options .rightParen .expectedClosing)
        (fun hd => State.diagnostic_expect_of_some hd ..) fun hr _ => ?_
      -- an operator here would have been read with the expression inside
      exact reads_expect (n := n + 1) hr rfl rfl (stops_parse (hn.passes hpass) hq hr)
  | negation =>
      have hmoved : Reads (.operand n) (.operand n) p (s.moveOn options) :=
        reads_moveOn hs (by rw [hk]; rfl)
      refine hmoved.andThen (f := fun s =>
          openOperand options (parse options rounds room) s .negation)
        (fun hd => diagnostic_openOperand_of_some diagnostic_parse_of_some hd .negation)
        fun hq hpass => ?_
      exact (hoperand (hn.passes hpass) hq).write .negate

/-- Operators and their right operands, one round after another. -/
theorem reads_join {n count : Nat} {least : Precedence} {p : Position σ} {s : State σ}
    (hn : Enough rounds p) (hs : s.position? = some p) :
    Reads (.operator n) (.operator n) p
      (join options (parse options rounds room) least count s) := by
  induction count generalizing p s with
  | zero => exact .refl hs
  | succ count ih =>
      rw [join, State.current_of_position? hs]
      split
      next => exact .refl hs
      next o ho =>
        split
        next =>
          have hmoved : Reads (.operator n) (.operand n) p (s.moveOn options) :=
            reads_moveOn hs (Stance.step?_eq_some_iff.mpr (.operator ho))
          have hround : Reads (.operator n) (.operator n) p
              ((parse options rounds room o.precedence.next (s.moveOn options)).write
                (.operator o)) := by
            refine Reads.write ?_ _
            exact hmoved.andThen diagnostic_parse_of_some
              fun hq hpass => hoperand (hn.passes hpass) hq
          exact hround.andThen (diagnostic_join_of_some diagnostic_parse_of_some)
            fun hq hpass => ih (hn.passes hpass) hq
        next => exact .refl hs

end

/-- A level of the compiler reads an operand and what is joined to it. -/
theorem reads_parse {rounds room n : Nat} {least : Precedence} {p : Position σ} {s : State σ}
    (hn : Enough rounds p) (hs : s.position? = some p) :
    Reads (.operand n) (.operator n) p (parse options rounds room least s) := by
  induction room generalizing least n p s with
  | zero =>
      have hsame : Reads (.operand n) (.operand n) p s := .refl hs
      exact hsame.limit (by decide) _
  | succ room ih =>
      have hprevious : (s.moveOn options).previous = p.1 := by
        rw [State.moveOn, State.previous_fetch]
        exact State.current_of_position? hs
      rw [parse]
      dsimp only
      rw [hprevious]
      split
      next ho =>
        have hnone : (Stance.operand n).step? p.1.kind = none :=
          Stance.step?_operand_eq_none_iff.mpr ho
        -- the token has been passed already, so an error behind it comes up first
        by_cases herror : (TokenSource.next p.2).1.kind = .error
        · refine .of_cause ?_ (.lexical (.inr ⟨n, rfl⟩) herror)
          exact State.diagnostic_report_of_some
            (State.diagnostic_moveOn_of_error options hs herror) ..
        · have hq : p.step? = some (TokenSource.next p.2) :=
            Position.step?_eq_some_iff.mpr ⟨rfl, herror⟩
          have hmoved := (State.position?_moveOn options hs).trans hq
          refine .of_cause ?_ (.operand hnone (by rw [hq]; rfl))
          exact State.diagnostic_report_of_none (State.position?_eq_some_iff.mp hmoved).1 ..
      next opening ho =>
        exact (reads_openOperand ih hn hs ho).andThen
          (diagnostic_join_of_some diagnostic_parse_of_some)
          fun hq hpass => reads_join ih (hn.passes hpass) hq

/-- A problem of a compilation is an error at the very start, or something in the text
is to blame for it. -/
theorem blames_of_diagnostic {source : σ} {d : Diagnostic}
    (h : (finalState options source).diagnostic = some d) :
    ((TokenSource.next source).1.kind = .error ∧ d = .ofError (TokenSource.next source).1) ∨
    ((TokenSource.next source).1.kind ≠ .error ∧
      Blames (.operand 0) (TokenSource.next source) d) := by
  have hinitial : (initial source).position? = some (.endOfText 1, source) := rfl
  have hkeeps {s : State σ} {d : Diagnostic} (hd : s.diagnostic = some d) :
      (((parse options (TokenSource.left source) options.nestingLimit .assignment s).expect
        options .eof .expectedEnd).write .ret).diagnostic = some d :=
    State.diagnostic_expect_of_some (diagnostic_parse_of_some hd) options .eof .expectedEnd
  by_cases herror : (TokenSource.next source).1.kind = .error
  · have hfirst := hkeeps (State.diagnostic_moveOn_of_error options hinitial herror)
    exact .inl ⟨herror, Option.some.inj (h.symm.trans hfirst)⟩
  · have hn := Enough.next source
    have hmoved : ((initial source).moveOn options).position? = some (TokenSource.next source) :=
      (State.position?_moveOn options hinitial).trans
        (Position.step?_eq_some_iff.mpr ⟨rfl, herror⟩)
    have hreads : Reads (.operand 0) .ended (TokenSource.next source)
        (finalState options source) := by
      refine Reads.write ?_ _
      exact (reads_parse hn hmoved).andThen
        (f := fun s => s.expect options .eof .expectedEnd)
        (fun hd => State.diagnostic_expect_of_some hd ..)
        fun hq _ => reads_expect (n := 0) hq rfl rfl (stops_parse hn hmoved hq)
    rcases hreads with ⟨_, q, hq, -⟩ | ⟨d', hd', hblames⟩
    · cases h.symm.trans (State.position?_eq_some_iff.mp hq).1
    · cases h.symm.trans hd'
      exact .inr ⟨herror, hblames⟩

end

end Compiler

end Abacus
