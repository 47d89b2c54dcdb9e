import Abacus.Machine
import Abacus.Proofs.Instructions

/-!
# One instruction at a time

What the machine does at an instruction is said here once.  An instruction stands for an
`Operation`, in which the value that is loaded takes the place of its index, and
`Machine.step` is what an operation does to the stack, or how it ends the run.

A run that comes to an instruction does its operation (`Machine.exec_bytes_append`), and a
run that comes to a flaw ends there (`Machine.exec_of_flaw`).  By the division of code into
instructions and flaws these two equations cover every run, and no other module looks into
the loop of the machine to find out what an instruction does.

The moments that a run records do not change its outcome.  `Machine.outcome` leaves them
out, and has the equation for an instruction that a run has.
-/

namespace Abacus

/-- What an instruction does, with the value that is loaded in place of its index. -/
inductive Operation where
  | ret
  | load (v : Value)
  | operator (o : Operator)
  | negate
  deriving DecidableEq, Repr

/-- How many bytes of code an operation has. -/
def Operation.width : Operation → Nat
  | .load _ => 2
  | _ => 1

namespace Instruction

/-- What an instruction does, if its operand names an entry of the pool. -/
def operation? (pool : Array Value) : Instruction → Option Operation
  | .ret => some .ret
  | .load index => pool[index.toNat]?.map .load
  | .operator o => some (.operator o)
  | .negate => some .negate

theorem operation?_load {pool : Array Value} {index : UInt8} {v : Value}
    (h : pool[index.toNat]? = some v) : (load index).operation? pool = some (.load v) := by
  rw [operation?, h]
  rfl

/-- An instruction has as many bytes as what it does. -/
theorem width_of_operation? {pool : Array Value} {i : Instruction} {op : Operation}
    (h : i.operation? pool = some op) : op.width = i.bytes.length := by
  cases i with
  | load index =>
      obtain ⟨v, -, rfl⟩ := Option.map_eq_some_iff.mp h
      rfl
  | ret =>
      cases h
      rfl
  | operator o =>
      cases h
      rfl
  | negate =>
      cases h
      rfl

/-- An instruction in order does something. -/
theorem Within.exists_operation {pool : Array Value} {i : Instruction} (h : i.Within pool.size) :
    ∃ op, i.operation? pool = some op := by
  cases i with
  | load index =>
      exact ⟨.load pool[index.toNat], operation?_load (Array.getElem?_eq_getElem h)⟩
  | ret => exact ⟨.ret, rfl⟩
  | operator o => exact ⟨.operator o, rfl⟩
  | negate => exact ⟨.negate, rfl⟩

end Instruction

/-- The flaw as the machine reports it. -/
def Flaw.fault (offset : Nat) : Flaw → Fault
  | .unknownOpcode byte => .unknownOpcode byte offset
  | .missingOperand => .missingOperand offset
  | .badConstant index => .badConstant index.toNat offset

namespace Machine

variable {pool : Array Value} {limit : Nat}

/-! ## Steps -/

/-- What an operation does to the stack, or how it ends the run. -/
def step (limit offset : Nat) (stack : List Value) :
    Operation → Except (Except Fault (Option Value)) (List Value)
  | .ret => .error (.ok stack.head?)
  | .load v => (push limit offset v stack).mapError .error
  | .operator o => (operate limit offset o stack).mapError .error
  | .negate => (negate limit offset stack).mapError .error

theorem push_of_lt {offset : Nat} {v : Value} {stack : List Value} (h : stack.length < limit) :
    push limit offset v stack = .ok (v :: stack) := if_pos h

theorem push_of_not_lt {offset : Nat} {v : Value} {stack : List Value}
    (h : ¬ stack.length < limit) :
    push limit offset v stack = .error (.stackOverflow offset limit) := if_neg h

variable (offset : Nat) {stack : List Value}

theorem step_load_of_lt (v : Value) (h : stack.length < limit) :
    step limit offset stack (.load v) = .ok (v :: stack) := by
  rw [step, push_of_lt h]
  rfl

theorem step_load_of_not_lt (v : Value) (h : ¬ stack.length < limit) :
    step limit offset stack (.load v) = .error (.error (.stackOverflow offset limit)) := by
  rw [step, push_of_not_lt h]
  rfl

/-- Two values are taken away, so there is room for one on a stack that held them. -/
theorem step_operator_of_le (o : Operator) (a b : Value) (h : (b :: a :: stack).length ≤ limit) :
    step limit offset (b :: a :: stack) (.operator o) = .ok (o.apply a b :: stack) := by
  rw [step, operate, push_of_lt (Nat.lt_of_succ_lt h)]
  rfl

theorem step_negate_of_le (a : Value) (h : (a :: stack).length ≤ limit) :
    step limit offset (a :: stack) .negate = .ok (-a :: stack) := by
  rw [step, negate, push_of_lt h]
  rfl

/-! ## Runs -/

/-- A run that comes to an instruction does its operation. -/
theorem exec_bytes_append {i : Instruction} {op : Operation} (h : i.operation? pool = some op)
    (rest : List UInt8) (stack : List Value) (moments : Array Moment) :
    exec pool limit (i.bytes ++ rest) offset stack moments =
      match step limit offset stack op with
      | .ok stack' => exec pool limit rest (offset + op.width) stack' (moments.push ⟨offset, stack⟩)
      | .error outcome => ⟨moments.push ⟨offset, stack⟩, outcome⟩ := by
  rw [exec.eq_def]
  cases i with
  | ret =>
      cases h
      rfl
  | load index =>
      obtain ⟨v, hv, rfl⟩ := Option.map_eq_some_iff.mp h
      simp only [Instruction.bytes, List.cons_append, List.nil_append, Opcode.ofByte?_byte, hv,
        step]
      cases push limit offset v stack <;> rfl
  | operator o =>
      cases h
      simp only [Instruction.bytes, List.cons_append, List.nil_append, Opcode.ofByte?_byte, step]
      cases operate limit offset o stack <;> rfl
  | negate =>
      cases h
      simp only [Instruction.bytes, List.cons_append, List.nil_append, Opcode.ofByte?_byte, step]
      cases negate limit offset stack <;> rfl

/-- A run that comes to a flaw ends there. -/
theorem exec_of_flaw {tail : List UInt8} {f : Flaw} (h : Flaw.At pool.size tail f)
    (stack : List Value) (moments : Array Moment) :
    exec pool limit tail offset stack moments =
      ⟨moments.push ⟨offset, stack⟩, .error (f.fault offset)⟩ := by
  rw [exec.eq_def]
  cases h with
  | unknownOpcode hop => simp [hop, Flaw.fault]
  | missingOperand => simp [Flaw.fault]
  | badConstant hlt => simp [Array.getElem?_eq_none hlt, Flaw.fault]

/-! ## Outcomes -/

/-- How the rest of a run ends. -/
def outcome (pool : Array Value) (limit : Nat) (code : List UInt8) (offset : Nat)
    (stack : List Value) : Except Fault (Option Value) :=
  (exec pool limit code offset stack #[]).outcome

theorem outcome_run (c : Chunk) (options : Options) :
    (run c options).outcome = outcome c.consts options.stackLimit c.code.toList 0 [] := rfl

/-- How a run ends does not depend on what it recorded before. -/
theorem outcome_exec (pool : Array Value) (limit : Nat) (code : List UInt8) (offset : Nat)
    (stack : List Value) (moments : Array Moment) :
    (exec pool limit code offset stack moments).outcome =
      outcome pool limit code offset stack := by
  have hany (moments moments' : Array Moment) :
      (exec pool limit code offset stack moments).outcome =
        (exec pool limit code offset stack moments').outcome := by
    fun_induction exec pool limit code offset stack moments generalizing moments'
    all_goals conv => rhs; rw [exec.eq_def]
    all_goals simp only [*]
    -- a load, an operator and a negation that went well: the run goes on
    case case6 ih => exact ih _
    case case8 ih => exact ih _
    case case10 ih => exact ih _
  exact hany moments #[]

theorem outcome_bytes_append {i : Instruction} {op : Operation} (h : i.operation? pool = some op)
    (rest : List UInt8) (stack : List Value) :
    outcome pool limit (i.bytes ++ rest) offset stack =
      match step limit offset stack op with
      | .ok stack' => outcome pool limit rest (offset + op.width) stack'
      | .error ended => ended := by
  rw [outcome, exec_bytes_append offset h]
  cases step limit offset stack op with
  | ok stack' => exact outcome_exec ..
  | error ended => rfl

theorem outcome_of_flaw {tail : List UInt8} {f : Flaw} (h : Flaw.At pool.size tail f)
    (stack : List Value) : outcome pool limit tail offset stack = .error (f.fault offset) := by
  rw [outcome, exec_of_flaw offset h]

end Machine

end Abacus
