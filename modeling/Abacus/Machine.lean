import Abacus.Chunk.Listing
import Abacus.Log

/-!
# The stack machine

The machine reads the code of a chunk from its start, one instruction after the
other, and keeps a stack of values.  A constant is pushed, an operator takes the
right value and then the left one from the stack and pushes its result, and a
`ret` ends the run with the topmost value, or with none if the stack is empty.
The stack may not grow past a bound.

The machine runs any code.  Bytes that are not instructions, operands that are
missing or out of range, and code that does not end in a `ret` are faults, found
when the run reaches them.  Code has no jumps, so a run takes at most one step
per byte, and `exec` recurses on the code that is left.

A run keeps the moments it went through: before each instruction the offset and
the stack.  The trace of a run is written from these, so asking for a trace
cannot change what a run does.
-/

namespace Abacus

/-- Why a run stopped without a result. -/
inductive Fault where
  /-- An instruction needed more values than the stack held. -/
  | stackUnderflow (offset : Nat)
  /-- A value was to be pushed on a stack that was full. -/
  | stackOverflow (offset limit : Nat)
  /-- A byte in instruction position is no operation code. -/
  | unknownOpcode (byte : UInt8) (offset : Nat)
  /-- The code ends where an operand should stand. -/
  | missingOperand (offset : Nat)
  /-- An operand names no entry of the pool. -/
  | badConstant (index offset : Nat)
  /-- The code ended before a `ret`. -/
  | ranPastEnd
  deriving DecidableEq, Repr

/-- What is said of a fault. -/
def Fault.message : Fault → String
  | .stackUnderflow offset => s!"stack underflow at offset {offset}"
  | .stackOverflow offset limit => s!"stack overflow at offset {offset} (limit {limit})"
  | .unknownOpcode byte offset => s!"unknown opcode {byte.toNat} at offset {offset}"
  | .missingOperand offset => s!"missing operand for instruction at offset {offset}"
  | .badConstant index offset => s!"constant {index} out of range at offset {offset}"
  | .ranPastEnd => "execution ran past the end of the code"

namespace Machine

/-- What a run is allowed and what it records. -/
structure Options where
  /-- Whether every instruction and the stack before it are logged. -/
  trace : Bool := false
  /-- The bound on the number of values on the stack. -/
  stackLimit : Nat := 256
  deriving DecidableEq

/-- The state before an instruction. -/
structure Moment where
  /-- The offset of the instruction. -/
  offset : Nat
  /-- The stack, topmost value first. -/
  stack : List Value
  deriving DecidableEq

/-- A finished run. -/
structure Run where
  /-- The moments before each instruction that was read. -/
  moments : Array Moment
  /-- The result, if the run came to a `ret`. -/
  outcome : Except Fault (Option Value)

/-- The stack with one more value. -/
def push (limit offset : Nat) (v : Value) (stack : List Value) : Except Fault (List Value) :=
  if stack.length < limit then .ok (v :: stack) else .error (.stackOverflow offset limit)

/-- The stack after an operator. -/
def operate (limit offset : Nat) (o : Operator) : List Value → Except Fault (List Value)
  | b :: a :: stack => push limit offset (o.apply a b) stack
  | _ => .error (.stackUnderflow offset)

/-- The stack after a negation. -/
def negate (limit offset : Nat) : List Value → Except Fault (List Value)
  | a :: stack => push limit offset (-a) stack
  | [] => .error (.stackUnderflow offset)

/-- The rest of a run: the code that is left, its offset, the stack, and the
moments gone through. -/
def exec (pool : Array Value) (limit : Nat) :
    List UInt8 → Nat → List Value → Array Moment → Run
  | [], _, _, moments => ⟨moments, .error .ranPastEnd⟩
  | byte :: rest, offset, stack, moments =>
      let moments := moments.push ⟨offset, stack⟩
      match Opcode.ofByte? byte with
      | none => ⟨moments, .error (.unknownOpcode byte offset)⟩
      | some .ret => ⟨moments, .ok stack.head?⟩
      | some .constant =>
          match rest with
          | [] => ⟨moments, .error (.missingOperand offset)⟩
          | index :: rest =>
              match pool[index.toNat]? with
              | none => ⟨moments, .error (.badConstant index.toNat offset)⟩
              | some v =>
                  match push limit offset v stack with
                  | .ok stack => exec pool limit rest (offset + 2) stack moments
                  | .error f => ⟨moments, .error f⟩
      | some (.operator o) =>
          match operate limit offset o stack with
          | .ok stack => exec pool limit rest (offset + 1) stack moments
          | .error f => ⟨moments, .error f⟩
      | some .negate =>
          match negate limit offset stack with
          | .ok stack => exec pool limit rest (offset + 1) stack moments
          | .error f => ⟨moments, .error f⟩

/-- Run a chunk from its first instruction with an empty stack. -/
def run (c : Chunk) (options : Options) : Run :=
  exec c.consts options.stackLimit c.code.toList 0 [] #[]

/-! ## The log of a run -/

/-- A stack as a trace shows it, topmost value last. -/
def stackText (stack : List Value) : String :=
  "          " ++ String.join (stack.reverse.map fun v => "[ " ++ v.text ++ " ]")

/-- The two records of a moment: the stack, and the line of the listing. -/
def momentLog (c : Chunk) (m : Moment) : Log :=
  #[⟨.trace, .machine, stackText m.stack⟩, ⟨.trace, .machine, c.listingLine m.offset⟩]

/-- The record of a result. -/
def resultLog : Except Fault (Option Value) → Log
  | .ok (some v) => #[⟨.debug, .machine, "returned " ++ v.text⟩]
  | _ => #[]

/-- What a run leaves in the log. -/
def Run.log (r : Run) (c : Chunk) (options : Options) : Log :=
  (if options.trace then r.moments.flatMap (momentLog c) else #[]) ++ resultLog r.outcome

end Machine

end Abacus
