import Abacus.Compiler
import Abacus.Proofs.Generation
import Abacus.Proofs.Reader

/-!
# Compiling is reading a tree and writing its code

The compiler reads tokens and writes code in one pass.  Here the two are taken
apart: what the compiler does, as long as it finds no problem, is to read the
tree that stands in the source (`Tree.read`) and to write the code of that tree
(`Tree.generate?`).

`State.view` is what a state amounts to: the token read last, the position and
the chunk, or nothing once a problem has been reported.  Each operation of the
compiler is a function on views, and the statement about `parse` is one equation,
`view_parse`, proved along the levels and the rounds of the compiler.

A problem is never taken back.  The first part of this module says so of every
operation, and it is why a state without a view has no successor with one.
-/

namespace Abacus.Compiler

variable {σ : Type}

namespace State

/-! ## A problem is never taken back -/

/-- The first problem stays when another one is reported. -/
theorem diagnostic_report_of_some {s : State σ} {d : Diagnostic} (h : s.diagnostic = some d)
    (t : Token) (problem : Problem) : (s.report t problem).diagnostic = some d := by
  rw [report, h]
  exact h

/-- Without a problem before it a report is kept. -/
theorem diagnostic_report_of_none {s : State σ} (h : s.diagnostic = none) (t : Token)
    (problem : Problem) : (s.report t problem).diagnostic = some (.ofToken t problem) := by
  rw [report, h]
  rfl

theorem diagnostic_writeLiteral_of_some {s : State σ} {d : Diagnostic}
    (h : s.diagnostic = some d) (options : Options) (v : Value) :
    (s.writeLiteral options v).diagnostic = some d := by
  unfold writeLiteral
  split
  next => exact h
  next =>
    split
    next => exact h
    next => exact diagnostic_report_of_some h ..

variable [TokenSource σ]

/-- A token is taken, then it may be noted, and then it may be reported. -/
theorem receive_induction {options : Options} {P : State σ → Prop} {s : State σ} {t : Token}
    {source : σ}
    (taken : P { s with source, current := t })
    (note : ∀ {s} (text : String), P s → P (s.note ⟨.trace, .lexer, text⟩))
    (report : ∀ {s}, P s → P (s.report t (.lexical t.lexeme))) :
    P (s.receive options t source) := by
  have hnoted : P (if options.traceTokens && TokenSource.isLexer σ then
      { s with source, current := t }.note ⟨.trace, .lexer, "token " ++ t.text⟩
      else { s with source, current := t }) := by
    split
    · exact note _ taken
    · exact taken
  unfold receive
  dsimp only
  split
  · exact report hnoted
  · exact hnoted

theorem diagnostic_receive_of_some {s : State σ} {d : Diagnostic} (h : s.diagnostic = some d)
    (options : Options) (t : Token) (source : σ) :
    (s.receive options t source).diagnostic = some d :=
  receive_induction (P := fun s => s.diagnostic = some d) h (fun _ h => h)
    fun h => diagnostic_report_of_some h ..

theorem diagnostic_fetch_of_some {s : State σ} {d : Diagnostic} (h : s.diagnostic = some d)
    (options : Options) : (s.fetch options).diagnostic = some d := by
  fun_induction fetch options s with
  | case1 s step _ ih => exact ih (diagnostic_receive_of_some h ..)
  | case2 s step _ => exact diagnostic_receive_of_some h ..

theorem diagnostic_moveOn_of_some {s : State σ} {d : Diagnostic} (h : s.diagnostic = some d)
    (options : Options) : (s.moveOn options).diagnostic = some d := by
  refine diagnostic_fetch_of_some ?_ options
  exact h

theorem diagnostic_expect_of_some {s : State σ} {d : Diagnostic} (h : s.diagnostic = some d)
    (options : Options) (kind : Token.Kind) (problem : Problem) :
    (s.expect options kind problem).diagnostic = some d := by
  unfold expect
  split
  next => exact diagnostic_moveOn_of_some h options
  next => exact diagnostic_report_of_some h ..

end State

section

variable [TokenSource σ] {options : Options}

section

variable {operand : Precedence → State σ → State σ}
  (hoperand : ∀ {least s d}, s.diagnostic = some d → (operand least s).diagnostic = some d)

include hoperand

/-- Reading an operand takes back no problem. -/
theorem diagnostic_openOperand_of_some {s : State σ} {d : Diagnostic}
    (h : s.diagnostic = some d) (opening : Opening) :
    (openOperand options operand s opening).diagnostic = some d := by
  cases opening with
  | number =>
      rw [openOperand]
      split
      next => exact State.diagnostic_writeLiteral_of_some h ..
      next => exact State.diagnostic_report_of_some h ..
  | group => exact State.diagnostic_expect_of_some (hoperand h) ..
  | negation => exact hoperand h

/-- Joining operands takes back no problem. -/
theorem diagnostic_join_of_some {least : Precedence} {rounds : Nat} {s : State σ}
    {d : Diagnostic} (h : s.diagnostic = some d) :
    (join options operand least rounds s).diagnostic = some d := by
  induction rounds generalizing s with
  | zero => exact h
  | succ rounds ih =>
      rw [join]
      split
      next => exact h
      next =>
        split
        next => exact ih (hoperand (State.diagnostic_moveOn_of_some h options))
        next => exact h

end

/-- Once a problem has been reported, reading on reports no other one. -/
theorem diagnostic_parse_of_some {rounds room : Nat} {least : Precedence} {s : State σ}
    {d : Diagnostic} (h : s.diagnostic = some d) :
    (parse options rounds room least s).diagnostic = some d := by
  induction room generalizing least s d with
  | zero => exact State.diagnostic_report_of_some h ..
  | succ room ih =>
      have hmove := State.diagnostic_moveOn_of_some h options
      rw [parse]
      dsimp only
      split
      next => exact State.diagnostic_report_of_some hmove ..
      next => exact diagnostic_join_of_some ih (diagnostic_openOperand_of_some ih hmove _)

end

/-! ## Views -/

/-- What a compilation without a problem has come to. -/
structure View (σ : Type) where
  /-- The token read last. -/
  previous : Token
  position : Position σ
  chunk : Chunk

namespace State

/-- What a state amounts to, as long as there is no problem. -/
def view (s : State σ) : Option (View σ) :=
  match s.diagnostic with
  | none => some ⟨s.previous, (s.current, s.source), s.chunk⟩
  | some _ => none

/-- A state with a problem has no view. -/
theorem view_eq_none {s : State σ} {d : Diagnostic} (h : s.diagnostic = some d) :
    s.view = none := by
  rw [view, h]

/-- Only a problem takes the view away. -/
theorem exists_diagnostic_of_view {s : State σ} (h : s.view = none) :
    ∃ d, s.diagnostic = some d := by
  unfold view at h
  split at h
  next => cases h
  next d hd => exact ⟨d, hd⟩

/-- The view of a state is what is left of it when there is no problem. -/
theorem view_eq_some_iff {s : State σ} {v : View σ} :
    s.view = some v ↔ s.diagnostic = none ∧
      v = ⟨s.previous, (s.current, s.source), s.chunk⟩ := by
  unfold view
  split
  next h => rw [Option.some.injEq, eq_comm, and_iff_right h]
  next d h => simp [h]

/-- A report takes the view away, also if it is not the first. -/
@[simp] theorem view_report (s : State σ) (t : Token) (problem : Problem) :
    (s.report t problem).view = none := by
  cases h : s.diagnostic with
  | none => exact view_eq_none (diagnostic_report_of_none h t problem)
  | some d => exact view_eq_none (diagnostic_report_of_some h t problem)

/-- An operation is written into the chunk of the view. -/
theorem view_write (s : State σ) (op : Opcode) :
    (s.write op).view =
      s.view.map fun v => { v with chunk := v.chunk.pushOp op v.previous.line } := by
  cases h : s.diagnostic <;> simp [view, write, writeByte, h, Chunk.pushOp]

/-- A load is written into the chunk of the view. -/
theorem view_writeLoad (s : State σ) (index : Nat) :
    (s.writeLoad index).view =
      s.view.map fun v => { v with chunk := v.chunk.pushLoad index v.previous.line } := by
  cases h : s.diagnostic <;> simp [view, writeLoad, h]

/-- A literal is loaded into the chunk of the view, unless the pool is full. -/
theorem view_writeLiteral (options : Options) (s : State σ) (x : Value) :
    (s.writeLiteral options x).view = s.view.bind fun v =>
      (v.chunk.load? options.shareConstants x v.previous.line).map fun c =>
        { v with chunk := c } := by
  cases h : s.view with
  | none =>
      obtain ⟨d, hd⟩ := exists_diagnostic_of_view h
      exact view_eq_none (diagnostic_writeLiteral_of_some hd options x)
  | some v =>
      obtain ⟨hd, rfl⟩ := view_eq_some_iff.mp h
      simp only [writeLiteral, Chunk.load?, Option.bind_some]
      generalize (if options.shareConstants then s.chunk.indexOf? x else none) = place
      cases place with
      | some index => simp [view_writeLoad, h]
      | none =>
          dsimp only
          split
          next =>
            rw [view_writeLoad]
            simp [view, hd]
          next => simp

variable [TokenSource σ]

/-- An error token takes the view away; any other one becomes the position. -/
theorem view_receive (options : Options) (s : State σ) (t : Token) (source : σ) :
    (s.receive options t source).view =
      if t.kind = .error then none
      else s.view.map fun v => { v with position := (t, source) } := by
  unfold receive
  dsimp only
  by_cases hk : t.kind = .error
  · rw [if_pos hk, if_pos hk, view_report]
  · rw [if_neg hk, if_neg hk]
    cases h : s.diagnostic <;> split <;> simp [view, note, h]

/-- Fetching moves the position by one token. -/
theorem view_fetch (options : Options) (s : State σ) :
    (s.fetch options).view = s.view.bind fun v =>
      v.position.step?.map fun q => { v with position := q } := by
  rw [fetch]
  split
  next hk =>
    have hfailed : (s.receive options (TokenSource.next s.source).1
        (TokenSource.next s.source).2).view = none := by
      rw [view_receive, if_pos hk]
    obtain ⟨d, hd⟩ := exists_diagnostic_of_view hfailed
    rw [view_eq_none (diagnostic_fetch_of_some hd options)]
    cases h : s.view with
    | none => rfl
    | some v =>
        obtain ⟨-, rfl⟩ := view_eq_some_iff.mp h
        simp [Position.step?, hk]
  next hk =>
    rw [view_receive, if_neg hk]
    cases h : s.view with
    | none => rfl
    | some v =>
        obtain ⟨-, rfl⟩ := view_eq_some_iff.mp h
        simp [Position.step?, hk]

/-- Moving on keeps the token that was passed. -/
theorem view_moveOn (options : Options) (s : State σ) :
    (s.moveOn options).view = s.view.bind fun v =>
      v.position.step?.map fun q => { v with previous := v.position.1, position := q } := by
  rw [moveOn, view_fetch]
  cases h : s.diagnostic <;> simp [view, h]

/-- A token that was expected is passed; another one takes the view away. -/
theorem view_expect (options : Options) (kind : Token.Kind) (problem : Problem) (s : State σ) :
    (s.expect options kind problem).view = s.view.bind fun v =>
      if v.position.1.kind = kind then
        v.position.step?.map fun q => { v with previous := v.position.1, position := q }
      else none := by
  cases h : s.view with
  | none =>
      obtain ⟨d, hd⟩ := exists_diagnostic_of_view h
      exact view_eq_none (diagnostic_expect_of_some hd options kind problem)
  | some v =>
      obtain ⟨-, rfl⟩ := view_eq_some_iff.mp h
      unfold expect
      split
      next hk => rw [view_moveOn, h, Option.bind_some, Option.bind_some, if_pos hk]
      next hk => rw [view_report, Option.bind_some, if_neg hk]

end State

/-! ## The compiler as a reader -/

/-- The view after a tree has been read, with its code written to a chunk. -/
def View.after (share : Bool) (c : Chunk) (read : Tree × Position σ) : Option (View σ) :=
  (read.1.generate? share c).map fun c => ⟨read.1.last, read.2, c⟩

/-- An operand that cannot be written spoils every tree it is part of. -/
theorem View.after_readJoin_eq_none [TokenSource σ] {share : Bool} {c : Chunk}
    {read : Precedence → Position σ → Option (Tree × Position σ)} {least : Precedence}
    {rounds : Nat} {l : Tree} (h : l.generate? share c = none) (p : Position σ) :
    (Tree.readJoin read least rounds l p).bind (View.after share c) = none := by
  induction rounds generalizing l p with
  | zero => simp [Tree.readJoin, View.after, h]
  | succ rounds ih =>
      rw [Tree.readJoin]
      split
      next => simp [View.after, h]
      next o _ =>
        split
        next =>
          cases p.step? with
          | none => rfl
          | some q =>
              rw [Option.bind_some]
              cases read o.precedence.next q with
              | none => rfl
              | some found => exact ih (by simp [Tree.generate?, h]) found.2
        next => simp [View.after, h]

section

variable [TokenSource σ] {options : Options} {operand : Precedence → State σ → State σ}
  {read : Precedence → Position σ → Option (Tree × Position σ)}
  (hview : ∀ least s, (operand least s).view = s.view.bind fun v =>
    (read least v.position).bind (View.after options.shareConstants v.chunk))

include hview

/-- An operand is read and then written, just as the reader of trees and the generator do. -/
theorem view_openOperand (s : State σ) (opening : Opening) :
    (openOperand options operand s opening).view = s.view.bind fun v =>
      (Tree.readOpening read v.previous v.position opening).bind
        (View.after options.shareConstants v.chunk) := by
  cases opening with
  | number =>
      rw [openOperand]
      cases h : s.view with
      | none =>
          obtain ⟨d, hd⟩ := State.exists_diagnostic_of_view h
          split
          next => rw [State.view_writeLiteral, h]; rfl
          next => rw [State.view_report]; rfl
      | some v =>
          obtain ⟨-, rfl⟩ := State.view_eq_some_iff.mp h
          split
          next x hx =>
            rw [State.view_writeLiteral, h]
            simp [Tree.readOpening, View.after, Tree.generate?, Tree.last, hx]
          next hx =>
            rw [State.view_report]
            simp [Tree.readOpening, View.after, Tree.generate?, hx]
  | group =>
      rw [openOperand, State.view_expect, hview]
      cases s.view with
      | none => rfl
      | some v =>
          simp only [Option.bind_some, Tree.readOpening]
          cases read .assignment v.position with
          | none => rfl
          | some found =>
              obtain ⟨e, q⟩ := found
              simp only [Option.bind_some, View.after]
              by_cases hk : q.1.kind = .rightParen
              · cases hs : q.step? <;> cases hg : e.generate? options.shareConstants v.chunk <;>
                  simp [hk, hs, hg, View.after, Tree.generate?, Tree.last]
              · cases e.generate? options.shareConstants v.chunk <;> simp [hk]
  | negation =>
      rw [openOperand, State.view_write, hview]
      cases s.view with
      | none => rfl
      | some v =>
          simp only [Option.bind_some, Tree.readOpening]
          cases read .unary v.position with
          | none => rfl
          | some found => simp [View.after, Tree.generate?, Tree.last, Function.comp_def]

end

/-- A loop that begins with a problem ends with it. -/
theorem view_join_eq_none [TokenSource σ] {options : Options}
    {operand : Precedence → State σ → State σ}
    (hstays : ∀ {least s d}, s.diagnostic = some d → (operand least s).diagnostic = some d)
    {least : Precedence} {rounds : Nat} {s : State σ} (h : s.view = none) :
    (join options operand least rounds s).view = none := by
  obtain ⟨d, hd⟩ := State.exists_diagnostic_of_view h
  exact State.view_eq_none (diagnostic_join_of_some hstays hd)

/-- The loop reads on from a tree whose code has been written. -/
theorem view_join [TokenSource σ] {options : Options} {operand : Precedence → State σ → State σ}
    {read : Precedence → Position σ → Option (Tree × Position σ)}
    (hview : ∀ least s, (operand least s).view = s.view.bind fun v =>
      (read least v.position).bind (View.after options.shareConstants v.chunk))
    (hstays : ∀ {least s d}, s.diagnostic = some d → (operand least s).diagnostic = some d)
    {least : Precedence} {rounds : Nat} {s : State σ} {c : Chunk} {l : Tree} {p : Position σ}
    (h : s.view = View.after options.shareConstants c (l, p)) :
    (join options operand least rounds s).view =
      (Tree.readJoin read least rounds l p).bind (View.after options.shareConstants c) := by
  induction rounds generalizing s l p with
  | zero => exact h
  | succ rounds ih =>
      -- without a left operand there is a problem already, and the loop keeps it
      cases hg : l.generate? options.shareConstants c with
      | none =>
          have hfailed : s.view = none := by simp [h, View.after, hg]
          rw [view_join_eq_none hstays hfailed, View.after_readJoin_eq_none hg]
      | some c' =>
          have hs : s.view = some ⟨l.last, p, c'⟩ := by simp [h, View.after, hg]
          have hcurrent : s.current = p.1 :=
            (congrArg (·.position.1) (State.view_eq_some_iff.mp hs).2).symm
          have hmoved := State.view_moveOn options s
          rw [hs, Option.bind_some] at hmoved
          rw [join, Tree.readJoin, hcurrent]
          cases ho : p.1.kind.operator? with
          | none => exact h
          | some o =>
              dsimp only
              split
              next hl =>
                cases hq : p.step? with
                | none =>
                    refine view_join_eq_none hstays ?_
                    rw [State.view_write, hview, hmoved, hq]
                    rfl
                | some q =>
                    rw [Option.bind_some]
                    cases hr : read o.precedence.next q with
                    | none =>
                        refine view_join_eq_none hstays ?_
                        rw [State.view_write, hview, hmoved, hq, Option.map_some,
                          Option.bind_some, hr]
                        rfl
                    | some found =>
                        refine ih ?_
                        rw [State.view_write, hview, hmoved, hq, Option.map_some,
                          Option.bind_some, hr]
                        cases hw : found.1.generate? options.shareConstants c' <;>
                          simp [View.after, Tree.generate?, Tree.last, hg, ho, hw]
              next hl => exact h

/-- What the compiler does without a problem is to read a tree and to write its
code. -/
theorem view_parse [TokenSource σ] (options : Options) (rounds room : Nat) (least : Precedence)
    (s : State σ) :
    (parse options rounds room least s).view = s.view.bind fun v =>
      (Tree.read rounds room least v.position).bind
        (View.after options.shareConstants v.chunk) := by
  induction room generalizing least s with
  | zero => cases s.view <;> simp [parse, Tree.read]
  | succ room ih =>
      have hstays {least : Precedence} {s : State σ} {d : Diagnostic}
          (h : s.diagnostic = some d) :
          (parse options rounds room least s).diagnostic = some d := diagnostic_parse_of_some h
      have hmoved := State.view_moveOn options s
      rw [parse]
      dsimp only
      -- the level fails as a whole if an error comes up behind its first token
      cases hv : (s.moveOn options).view with
      | none =>
          have hread : (s.view.bind fun v => (Tree.read rounds (room + 1) least v.position).bind
              (View.after options.shareConstants v.chunk)) = none := by
            cases hs : s.view with
            | none => rfl
            | some v =>
                rw [hv, hs, Option.bind_some, eq_comm, Option.map_eq_none_iff] at hmoved
                simp [Tree.read, hmoved]
          rw [hread]
          split
          next => exact State.view_report ..
          next opening _ =>
            refine view_join_eq_none hstays ?_
            rw [view_openOperand ih, hv]
            rfl
      | some v₁ =>
          rw [hv, eq_comm, Option.bind_eq_some_iff] at hmoved
          obtain ⟨v, hs, hmoved⟩ := hmoved
          obtain ⟨q, hq, rfl⟩ := Option.map_eq_some_iff.mp hmoved
          have hprevious : (s.moveOn options).previous = v.position.1 :=
            (congrArg (·.previous) (State.view_eq_some_iff.mp hv).2).symm
          rw [hprevious, hs, Option.bind_some, Tree.read, hq, Option.bind_some]
          cases v.position.1.kind.opening? with
          | none => exact State.view_report ..
          | some opening =>
              dsimp only
              have hopened := view_openOperand ih (s.moveOn options) opening
              rw [hv, Option.bind_some] at hopened
              dsimp only at hopened
              rw [Option.bind_some]
              cases hfound : Tree.readOpening (Tree.read rounds room) v.position.1 q opening with
              | none =>
                  refine view_join_eq_none hstays ?_
                  rw [hopened, hfound]
                  rfl
              | some found =>
                  rw [hfound, Option.bind_some] at hopened
                  exact view_join ih hstays hopened

/-! ## Whole compilations -/

/-- What a compilation without a problem comes to: the tree, the end of the text
behind it, and the code. -/
structure Compiled [TokenSource σ] (options : Options) (source : σ) (t : Tree)
    (q : Position σ) (c : Chunk) : Prop where
  derives : Derives .expression t
  depth_le : t.depth ≤ options.nestingLimit
  passes : Passes (TokenSource.next source) t.tokens q
  ends : q.1.kind = .eof
  /-- The source is asked once more behind the end. -/
  goes_on : q.step?.isSome
  code : (t.generate? options.shareConstants .empty).map (·.pushOp .ret q.1.line) = some c

/-- A compilation gives its chunk if it has found no problem. -/
theorem Compilation.result_eq_ok_iff {compilation : Compilation} {c : Chunk} :
    compilation.result = .ok c ↔ compilation.diagnostic = none ∧ compilation.chunk = c := by
  unfold result
  split
  next h => simp [h]
  next h => simp [h]

/-- The state in which a compilation ends. -/
def finalState [TokenSource σ] (options : Options) (source : σ) : State σ :=
  ((parse options (TokenSource.left source) options.nestingLimit .assignment
    ((initial source).moveOn options)).expect options .eof .expectedEnd).write .ret

/-- A compilation gives a chunk exactly if its last state has a view. -/
theorem compileFrom_result_eq_ok_iff_view [TokenSource σ] {options : Options} {source : σ}
    {c : Chunk} :
    (compileFrom options source).result = .ok c ↔
      (finalState options source).view.map (·.chunk) = some c := by
  rw [Compilation.result_eq_ok_iff]
  change (finalState options source).diagnostic = none ∧ (finalState options source).chunk = c ↔ _
  cases h : (finalState options source).diagnostic <;> simp [State.view, h]

/-- The first token of a tree is no error. -/
theorem first_kind_ne_error [TokenSource σ] {t : Tree} (h : Derives .expression t)
    {p q : Position σ} (hp : Passes p t.tokens q) : p.1.kind ≠ .error := by
  cases ht : t.tokens with
  | nil => cases t <;> simp [Tree.tokens] at ht
  | cons u us =>
      rw [ht] at hp
      rw [(Passes.cons_iff.mp hp).1]
      exact h.kind_ne_error (ht ▸ List.mem_cons_self)

/-- A compilation ends without a problem exactly if the source gives a tree of
the grammar and then the end of the text, the tree is not too deep, and its
numbers fit into the pool. -/
theorem compileFrom_result_eq_ok_iff [TokenSource σ] {options : Options} {source : σ}
    {c : Chunk} :
    (compileFrom options source).result = .ok c ↔ ∃ t q, Compiled options source t q c := by
  have hn := Enough.next source
  rw [compileFrom_result_eq_ok_iff_view, finalState, State.view_write, State.view_expect,
    view_parse, State.view_moveOn]
  have hinitial : (initial source).view =
      some ⟨.endOfText 1, (.endOfText 1, source), .empty⟩ := rfl
  rw [hinitial]
  constructor
  · intro h
    obtain ⟨_, hwritten, hc⟩ := Option.map_eq_some_iff.mp h
    obtain ⟨v, hexpected, rfl⟩ := Option.map_eq_some_iff.mp hwritten
    obtain ⟨w, hparsed, hended⟩ := Option.bind_eq_some_iff.mp hexpected
    obtain ⟨u, hmoved, hparsed⟩ := Option.bind_eq_some_iff.mp hparsed
    obtain ⟨p, hp, rfl⟩ := Option.map_eq_some_iff.mp hmoved
    obtain ⟨⟨t, q⟩, hread, hafter⟩ := Option.bind_eq_some_iff.mp hparsed
    obtain ⟨d, hd, rfl⟩ := Option.map_eq_some_iff.mp hafter
    dsimp only at hended
    split at hended
    next hk =>
      obtain ⟨q', hq', rfl⟩ := Option.map_eq_some_iff.mp hended
      obtain ⟨rfl, -⟩ := Position.step?_eq_some_iff.mp hp
      have stands := Tree.read_sound hn hread
      refine ⟨t, q, stands.derives, stands.depth_le, stands.passes, hk, by rw [hq']; rfl, ?_⟩
      rw [← hc]
      exact Option.map_eq_some_iff.mpr ⟨d, hd, rfl⟩
    next => cases hended
  · rintro ⟨t, q, h⟩
    have stands : Tree.Stands options.nestingLimit .assignment (TokenSource.next source) t q := by
      refine ⟨h.derives, h.depth_le, h.passes, ?_⟩
      rw [h.ends]
      exact Token.Kind.not_binds_of_operator?_eq_none rfl
    have hread := Tree.read_complete hn stands
    have hstep : Position.step? (Token.endOfText 1, source) = some (TokenSource.next source) :=
      Position.step?_eq_some_iff.mpr ⟨rfl, first_kind_ne_error h.derives h.passes⟩
    obtain ⟨q', hq'⟩ := Option.isSome_iff_exists.mp h.goes_on
    obtain ⟨d, hd, rfl⟩ := Option.map_eq_some_iff.mp h.code
    simp [hstep, hread, View.after, hd, h.ends, hq']

end Abacus.Compiler
