import Abacus.Opcode
import Abacus.Value

/-!
# Chunks

A chunk is a stretch of compiled code: the code bytes, a table with the source
line of each byte, and the pool of values that the code refers to by index.

Nothing ties the three together here.  `Chunk.push` adds a byte along with its
line, so code and line table grow in step, but a chunk may hold any bytes at
all.  What makes the bytes a sequence of instructions is stated in
`Abacus.Chunk.Validity`.
-/

namespace Abacus

/-- A stretch of compiled code. -/
structure Chunk where
  /-- The code bytes. -/
  code : Array UInt8 := #[]
  /-- The source line of each code byte. -/
  lines : Array UInt32 := #[]
  /-- The pool of values. -/
  consts : Array Value := #[]
  deriving DecidableEq, Inhabited

namespace Chunk

/-- The chunk with nothing in it. -/
def empty : Chunk := {}

/-- How many pool entries a one-byte operand can name. -/
def poolLimit : Nat := 256

/-- The chunk with one more byte, which comes from the given source line. -/
def push (c : Chunk) (byte : UInt8) (line : UInt32) : Chunk :=
  { c with code := c.code.push byte, lines := c.lines.push line }

/-- The chunk with one more operation code. -/
def pushOp (c : Chunk) (op : Opcode) (line : UInt32) : Chunk :=
  c.push op.byte line

/-- The chunk with one more value at the end of its pool. -/
def addValue (c : Chunk) (v : Value) : Chunk :=
  { c with consts := c.consts.push v }

/-- The operand that names a pool entry, if a byte can name the entry. -/
def operand? (index : Nat) : Option UInt8 :=
  if index < UInt8.size then some index.toUInt8 else none

/-- The chunk with one more instruction, which loads a pool entry, if a byte can name the
entry. -/
def pushLoad (c : Chunk) (index : Nat) (line : UInt32) : Chunk :=
  match operand? index with
  | some byte => (c.pushOp .constant line).push byte line
  | none => c

/-- The first pool index of a value with the same bits. -/
def indexOf? (c : Chunk) (v : Value) : Option Nat :=
  c.consts.findIdx? (· = v)

/-- The source line of a code byte. -/
def lineAt? (c : Chunk) (offset : Nat) : Option UInt32 :=
  c.lines[offset]?

/-- Whether two chunks hold the same code and lines and pools of equal numbers. -/
def same (c d : Chunk) : Bool :=
  c.code = d.code && c.lines = d.lines && c.consts.size = d.consts.size
    && (c.consts.zip d.consts).all fun (a, b) => a.same b

/-- A byte can name every entry of a pool that keeps to its limit. -/
theorem operand?_of_lt {index : Nat} (h : index < poolLimit) :
    operand? index = some index.toUInt8 := if_pos h

theorem pushLoad_of_lt {index : Nat} (h : index < poolLimit) (c : Chunk) (line : UInt32) :
    c.pushLoad index line = (c.pushOp .constant line).push index.toUInt8 line := by
  rw [pushLoad, operand?_of_lt h]

@[simp] theorem code_push (c : Chunk) (byte : UInt8) (line : UInt32) :
    (c.push byte line).code = c.code.push byte := rfl

@[simp] theorem lines_push (c : Chunk) (byte : UInt8) (line : UInt32) :
    (c.push byte line).lines = c.lines.push line := rfl

@[simp] theorem consts_push (c : Chunk) (byte : UInt8) (line : UInt32) :
    (c.push byte line).consts = c.consts := rfl

@[simp] theorem consts_pushLoad (c : Chunk) (index : Nat) (line : UInt32) :
    (c.pushLoad index line).consts = c.consts := by
  unfold pushLoad
  split <;> rfl

@[simp] theorem code_addValue (c : Chunk) (v : Value) :
    (c.addValue v).code = c.code := rfl

@[simp] theorem lines_addValue (c : Chunk) (v : Value) :
    (c.addValue v).lines = c.lines := rfl

@[simp] theorem consts_addValue (c : Chunk) (v : Value) :
    (c.addValue v).consts = c.consts.push v := rfl

end Chunk

end Abacus
