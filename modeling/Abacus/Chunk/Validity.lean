import Abacus.Chunk.Basic

/-!
# Valid chunks

A chunk is valid when its line table has one entry per code byte and its code
divides into instructions: every byte in instruction position is an operation
code, every `constant` has its operand, and that operand names an entry of the
pool.  `Chunk.defect?` finds the first place where this fails, reading the code
from the start, or nothing.

The check does not say which offsets it looks at.  `Chunk.inspect` is the check with
these offsets written down, and finds the same (`Chunk.inspect_snd`).
-/

namespace Abacus

/-- A way in which a chunk fails to be valid. -/
inductive Defect where
  /-- The line table has another length than the code. -/
  | lineCount (lines bytes : Nat)
  /-- A byte in instruction position is no operation code. -/
  | unknownOpcode (byte : UInt8) (offset : Nat)
  /-- The code ends where an operand should stand. -/
  | missingOperand (op : Opcode) (offset : Nat)
  /-- An operand names no entry of the pool. -/
  | badConstant (offset index poolSize : Nat)
  deriving DecidableEq, Repr

/-- What is said of a defect. -/
def Defect.message : Defect → String
  | .lineCount lines bytes => s!"line/code length mismatch ({lines} lines for {bytes} bytes)"
  | .unknownOpcode byte offset => s!"unknown opcode {byte.toNat} at {offset}"
  | .missingOperand op offset => s!"{op.mnemonic} at {offset} is missing its operand"
  | .badConstant offset index poolSize =>
      s!"op {offset} references const {index} but pool size is {poolSize}"

namespace Chunk

/-- The first defect of code that begins at `offset`, with a pool of the given
size. -/
def codeDefect? (poolSize : Nat) : List UInt8 → Nat → Option Defect
  | [], _ => none
  | byte :: rest, offset =>
      match Opcode.ofByte? byte with
      | none => some (.unknownOpcode byte offset)
      | some .constant =>
          match rest with
          | [] => some (.missingOperand .constant offset)
          | index :: rest =>
              if index.toNat < poolSize then codeDefect? poolSize rest (offset + 2)
              else some (.badConstant offset index.toNat poolSize)
      | some _ => codeDefect? poolSize rest (offset + 1)

/-- The check of code that begins at `offset`, with the offsets at which it looks
for an instruction. -/
def inspect (poolSize : Nat) : List UInt8 → Nat → List Nat × Option Defect
  | [], _ => ([], none)
  | byte :: rest, offset =>
      match Opcode.ofByte? byte with
      | none => ([offset], some (.unknownOpcode byte offset))
      | some .constant =>
          match rest with
          | [] => ([offset], some (.missingOperand .constant offset))
          | index :: rest =>
              if index.toNat < poolSize then
                (inspect poolSize rest (offset + 2)).map (offset :: ·) id
              else ([offset], some (.badConstant offset index.toNat poolSize))
      | some _ => (inspect poolSize rest (offset + 1)).map (offset :: ·) id

/-- Writing down the offsets does not change the check. -/
theorem inspect_snd (poolSize : Nat) (code : List UInt8) (offset : Nat) :
    (inspect poolSize code offset).2 = codeDefect? poolSize code offset := by
  fun_induction codeDefect? poolSize code offset with
  | case1 => rw [inspect]
  | case2 _ byte rest hop => rw [inspect.eq_def]; simp only [hop]
  | case3 _ byte hop => rw [inspect.eq_def]; simp only [hop]
  | case4 _ byte hop index rest hlt ih =>
      rw [inspect.eq_def]
      simp only [hop, if_pos hlt, Prod.map_snd, ih, id]
  | case5 _ byte hop index rest hlt => rw [inspect.eq_def]; simp only [hop, if_neg hlt]
  | case6 _ byte rest op hconst hop ih =>
      rw [inspect.eq_def]
      simp only [hop, Prod.map_snd, ih, id]

/-- The offsets at which the check of a chunk looks for an instruction. -/
def visited (c : Chunk) : List Nat := (inspect c.consts.size c.code.toList 0).1

/-- The first defect of a chunk. -/
def defect? (c : Chunk) : Option Defect :=
  if c.code.size ≠ c.lines.size then some (.lineCount c.lines.size c.code.size)
  else codeDefect? c.consts.size c.code.toList 0

/-- Whether a chunk is valid. -/
def isValid (c : Chunk) : Bool := c.defect?.isNone

end Chunk

end Abacus
