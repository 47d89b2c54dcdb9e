import Abacus.Chunk.Listing
import Abacus.Diagnostic
import Abacus.Log
import Abacus.Precedence
import Abacus.Token.Lexer

/-!
# Compiling expressions

The compiler reads tokens and writes code in one pass, without building a tree.
It looks one token ahead.  An operand is read by the token that opens it, and
then joined with what follows it for as long as the next operator binds tightly
enough; the code of an operator is written behind the code of its operands.

Only the first problem is reported.  The compiler goes on after it and still
writes a chunk, which may then be of no use but is always well formed.

*Nesting.*  `parse` is given the number of levels it may still enter, and calls
itself with one less for a group, for the operand of a negation, and for a right
operand.  At zero it reports a problem and reads nothing.  The recursion is on
that number.

*Joining.*  The operators of one level are read by a loop.  Every round takes a
token from the source, so the bound that the source gives on its tokens before
the first is read also bounds the rounds of every loop.  It is taken once.

*Lines.*  A byte of code has the line of the token read last.
-/

namespace Abacus.Compiler

/-- The choices of a compilation. -/
structure Options where
  /-- Whether equal literals share an entry of the pool. -/
  shareConstants : Bool := false
  /-- Whether the listing of the finished chunk is logged. -/
  showCode : Bool := false
  /-- How many levels of operands may be open at once. -/
  nestingLimit : Nat := 256
  /-- Whether every token is logged that a source makes itself. -/
  traceTokens : Bool := false
  deriving DecidableEq

/-- A compilation under way. -/
structure State (σ : Type) where
  /-- Where tokens come from. -/
  source : σ
  /-- The token to be looked at next. -/
  current : Token
  /-- The token read last. -/
  previous : Token
  /-- The code written so far. -/
  chunk : Chunk
  /-- The first problem found.  There are no others: from the first one on nothing is
  reported, so a list of problems would never have more than one entry. -/
  diagnostic : Option Diagnostic
  log : Log

namespace State

variable {σ : Type}

/-! ## Reporting and writing -/

/-- Log a record. -/
def note (s : State σ) (record : Log.Record) : State σ :=
  { s with log := s.log.push record }

/-- Report a problem with a token, unless there was one before. -/
def report (s : State σ) (t : Token) (problem : Problem) : State σ :=
  match s.diagnostic with
  | some _ => s
  | none =>
      let d := Diagnostic.ofToken t problem
      { s with diagnostic := some d }.note ⟨.debug, .compiler, d.text⟩

/-- Write a byte on the line of the token read last. -/
def writeByte (s : State σ) (byte : UInt8) : State σ :=
  { s with chunk := s.chunk.push byte s.previous.line }

/-- Write an operation code. -/
def write (s : State σ) (op : Opcode) : State σ :=
  s.writeByte op.byte

/-- Write an instruction that loads the given pool entry, if a byte can name it. -/
def writeLoad (s : State σ) (index : Nat) : State σ :=
  { s with chunk := s.chunk.pushLoad index s.previous.line }

/-- Write an instruction that loads a value, which joins the pool if it has to.
Nothing is written when the pool is full. -/
def writeLiteral (options : Options) (s : State σ) (v : Value) : State σ :=
  match if options.shareConstants then s.chunk.indexOf? v else none with
  | some index => s.writeLoad index
  | none =>
      if s.chunk.consts.size < Chunk.poolLimit then
        { s with chunk := s.chunk.addValue v }.writeLoad s.chunk.consts.size
      else s.report s.previous .tooManyConstants

/-! ## Reading tokens -/

@[simp] theorem source_note (s : State σ) (record : Log.Record) :
    (s.note record).source = s.source := rfl

@[simp] theorem source_report (s : State σ) (t : Token) (problem : Problem) :
    (s.report t problem).source = s.source := by
  unfold report
  split <;> rfl

variable [TokenSource σ]

/-- Take a token to look at, and report it if it is an error. -/
def receive (options : Options) (s : State σ) (t : Token) (source : σ) : State σ :=
  let s := { s with source, current := t }
  let s :=
    if options.traceTokens && TokenSource.isLexer σ then
      s.note ⟨.trace, .lexer, "token " ++ t.text⟩
    else s
  if t.kind = .error then s.report t (.lexical t.lexeme) else s

@[simp] theorem source_receive (options : Options) (s : State σ) (t : Token) (source : σ) :
    (s.receive options t source).source = source := by
  simp only [receive]
  repeat' split
  all_goals simp

/-- Draw tokens up to the first that is not an error. -/
def fetch (options : Options) (s : State σ) : State σ :=
  let step := TokenSource.next s.source
  if step.1.kind = .error then fetch options (s.receive options step.1 step.2)
  else s.receive options step.1 step.2
termination_by TokenSource.left s.source
decreasing_by
  rename_i isError
  rw [source_receive]
  exact TokenSource.left_next_lt s.source fun isEnd => nomatch isError.symm.trans isEnd

/-- Move on by one token. -/
def moveOn (options : Options) (s : State σ) : State σ :=
  fetch options { s with previous := s.current }

/-- Move on if the next token is of the given kind; otherwise report a problem
with it. -/
def expect (options : Options) (kind : Token.Kind) (problem : Problem) (s : State σ) : State σ :=
  if s.current.kind = kind then s.moveOn options else s.report s.current problem

end State

/-! ## Expressions -/

section

variable {σ : Type} [TokenSource σ]

/-- The operand that the token read last opens.  Operands inside it are read by
`operand`. -/
def openOperand (options : Options) (operand : Precedence → State σ → State σ) (s : State σ) :
    Opening → State σ
  | .number =>
      match Value.read? s.previous.lexeme.toList with
      | some v => s.writeLiteral options v
      | none => s.report s.previous .invalidNumber
  | .group => (operand .assignment s).expect options .rightParen .expectedClosing
  | .negation => (operand .unary s).write .negate

/-- Join what has been read with the operators that follow and bind at least at
the given level.  The count bounds the rounds. -/
def join (options : Options) (operand : Precedence → State σ → State σ) (least : Precedence) :
    Nat → State σ → State σ
  | 0, s => s
  | rounds + 1, s =>
      match s.current.kind.operator? with
      | none => s
      | some o =>
          if least ≤ o.precedence then
            join options operand least rounds
              ((operand o.precedence.next (s.moveOn options)).write (.operator o))
          else s

/-- Read an operand and all that is joined to it at the given level or above.
The count is the number of levels that may still be entered; on every level at
most `rounds` operators are read. -/
def parse (options : Options) (rounds : Nat) : Nat → Precedence → State σ → State σ
  | 0, _, s => s.report s.current .nestingTooDeep
  | room + 1, least, s =>
      let s := s.moveOn options
      match s.previous.kind.opening? with
      | none => s.report s.previous .expectedExpression
      | some opening =>
          let operand := parse options rounds room
          join options operand least rounds (openOperand options operand s opening)

end

/-! ## Compilations -/

/-- A finished compilation. -/
structure Compilation where
  /-- The code, of no use if there was a problem. -/
  chunk : Chunk
  /-- The first problem, if there was one. -/
  diagnostic : Option Diagnostic
  log : Log

namespace Compilation

/-- The chunk of a compilation without a problem. -/
def result (c : Compilation) : Except Diagnostic Chunk :=
  match c.diagnostic with
  | none => .ok c.chunk
  | some d => .error d

end Compilation

/-- The state before the first token. -/
def initial {σ : Type} (source : σ) : State σ where
  source
  current := .endOfText 1
  previous := .endOfText 1
  chunk := .empty
  diagnostic := none
  log := #[]

/-- What is logged at the end of a compilation. -/
def closingLog (options : Options) (c : Chunk) (d : Option Diagnostic) : Log :=
  let listing : Log :=
    if options.showCode && d.isNone then #[⟨.debug, .compiler, c.listing "code"⟩] else #[]
  let count := if d.isSome then 1 else 0
  listing.push ⟨.trace, .compiler,
    s!"compiled {c.code.size} bytes, {c.consts.size} constants, {count} diagnostic(s)"⟩

/-- Compile the expression that a source of tokens gives. -/
def compileFrom {σ : Type} [TokenSource σ] (options : Options) (source : σ) : Compilation :=
  let rounds := TokenSource.left source
  let s := (initial source).moveOn options
  let s := parse options rounds options.nestingLimit .assignment s
  let s := (s.expect options .eof .expectedEnd).write .ret
  ⟨s.chunk, s.diagnostic, s.log ++ closingLog options s.chunk s.diagnostic⟩

/-- Compile the expression in a text. -/
def compile (options : Options) (text : String) : Compilation :=
  compileFrom options (Lexer.start text)

end Abacus.Compiler
