import Abacus.Value

/-!
# Operation codes

The seven instructions of the machine and the byte that stands for each.  Four
of them apply an operator to two values.  Only `constant` has an operand, one
byte that follows it in the code.
-/

namespace Abacus

/-- An operator on two values. -/
inductive Operator where
  | add | subtract | multiply | divide
  deriving DecidableEq, Repr

/-- The result of an operator on its left and its right value. -/
def Operator.apply : Operator → Value → Value → Value
  | .add, a, b => a + b
  | .subtract, a, b => a - b
  | .multiply, a, b => a * b
  | .divide, a, b => a / b

/-- An instruction of the machine, without its operand. -/
inductive Opcode where
  /-- End the run with the topmost value. -/
  | ret
  /-- Push a value of the pool; the operand is its index. -/
  | constant
  /-- Replace the two topmost values by the result of an operator. -/
  | operator (o : Operator)
  /-- Turn over the sign of the topmost value. -/
  | negate
  deriving DecidableEq, Repr

namespace Opcode

/-- The byte that stands for an instruction. -/
def byte : Opcode → UInt8
  | .ret => 0
  | .constant => 1
  | .operator .add => 2
  | .operator .subtract => 3
  | .operator .multiply => 4
  | .operator .divide => 5
  | .negate => 6

/-- The instructions in the order of their bytes. -/
def all : List Opcode :=
  [.ret, .constant, .operator .add, .operator .subtract, .operator .multiply,
   .operator .divide, .negate]

/-- The instruction that a byte stands for. -/
def ofByte? (b : UInt8) : Option Opcode := all[b.toNat]?

@[simp] theorem ofByte?_byte (op : Opcode) : ofByte? op.byte = some op := by
  rcases op with _ | _ | (_ | _ | _ | _) | _ <;> rfl

/-- An instruction has one byte. -/
theorem ofByte?_eq_some_iff {b : UInt8} {op : Opcode} : ofByte? b = some op ↔ b = op.byte := by
  refine ⟨fun h => ?_, fun h => h ▸ ofByte?_byte op⟩
  have place : all.idxOf op = op.byte.toNat := by
    rcases op with _ | _ | (_ | _ | _ | _) | _ <;> rfl
  have nodup : all.Nodup := by decide
  obtain ⟨hb, hop⟩ := List.getElem?_eq_some_iff.mp h
  rw [← hop, nodup.idxOf_getElem] at place
  exact UInt8.toNat_inj.mp (hop ▸ place)

/-- The name of an instruction. -/
def name : Opcode → String
  | .ret => "Return"
  | .constant => "Constant"
  | .operator .add => "Add"
  | .operator .subtract => "Subtract"
  | .operator .multiply => "Multiply"
  | .operator .divide => "Divide"
  | .negate => "Negate"

/-- The name of an instruction in a listing. -/
def mnemonic : Opcode → String
  | .ret => "OP_RETURN"
  | .constant => "OP_CONSTANT"
  | .operator .add => "OP_ADD"
  | .operator .subtract => "OP_SUBTRACT"
  | .operator .multiply => "OP_MULTIPLY"
  | .operator .divide => "OP_DIVIDE"
  | .negate => "OP_NEGATE"

/-- How many operand bytes follow an instruction. -/
def operandCount : Opcode → Nat
  | .constant => 1
  | _ => 0

end Opcode

end Abacus
