import Abacus.Chunk.Validity
import Abacus.Proofs.Generation

/-!
# Instructions

Code is a string of bytes.  This module reads it as a sequence of instructions,
each with its operand, and says what can be in the way.

Every code divides into instructions that are in order and a tail.  The tail is
empty, or it begins with a flaw: a byte that stands for no operation, a load
without an operand, or a load from outside the pool (`Instruction.exists_split`).
The check of a chunk passes over the instructions and finds the flaw, and nothing
but the flaw (`Chunk.codeDefect?_encode_append`, `Chunk.codeDefect?_of_flaw`).
What else reads code is compared with the check along this division.
-/

namespace Abacus

/-- An instruction with its operand. -/
inductive Instruction where
  | ret
  | load (index : UInt8)
  | operator (o : Operator)
  | negate
  deriving DecidableEq, Repr

namespace Instruction

/-- The bytes of an instruction. -/
def bytes : Instruction → List UInt8
  | .ret => [Opcode.ret.byte]
  | .load index => [Opcode.constant.byte, index]
  | .operator o => [(Opcode.operator o).byte]
  | .negate => [Opcode.negate.byte]

/-- The code of a sequence of instructions. -/
def encode (is : List Instruction) : List UInt8 := is.flatMap bytes

@[simp] theorem encode_nil : encode [] = [] := rfl

@[simp] theorem encode_cons (i : Instruction) (is : List Instruction) :
    encode (i :: is) = i.bytes ++ encode is := rfl

theorem encode_append (is js : List Instruction) :
    encode (is ++ js) = encode is ++ encode js := List.flatMap_append

/-- The instructions that a code consists of. -/
def decode? : List UInt8 → Option (List Instruction)
  | [] => some []
  | byte :: rest =>
      match Opcode.ofByte? byte with
      | none => none
      | some .ret => (decode? rest).map (.ret :: ·)
      | some .constant =>
          match rest with
          | [] => none
          | index :: rest => (decode? rest).map (.load index :: ·)
      | some (.operator o) => (decode? rest).map (.operator o :: ·)
      | some .negate => (decode? rest).map (.negate :: ·)

theorem decode?_bytes_append (i : Instruction) (rest : List UInt8) :
    decode? (i.bytes ++ rest) = (decode? rest).map (i :: ·) := by
  rw [decode?.eq_def]
  cases i with
  | ret => simp only [bytes, List.singleton_append, Opcode.ofByte?_byte]
  | load index => simp only [bytes, List.cons_append, List.nil_append, Opcode.ofByte?_byte]
  | operator o => simp only [bytes, List.singleton_append, Opcode.ofByte?_byte]
  | negate => simp only [bytes, List.singleton_append, Opcode.ofByte?_byte]

theorem decode?_encode (is : List Instruction) : decode? (encode is) = some is := by
  induction is with
  | nil => simp [decode?]
  | cons i is ih => rw [encode_cons, decode?_bytes_append, ih, Option.map_some]

/-- The offsets at which the instructions of a sequence begin. -/
def starts : Nat → List Instruction → List Nat
  | _, [] => []
  | offset, i :: is => offset :: starts (offset + i.bytes.length) is

theorem length_bytes_pos (i : Instruction) : 0 < i.bytes.length := by
  cases i <;> exact Nat.zero_lt_succ _

/-- Every instruction begins before the sequence ends. -/
theorem lt_of_mem_starts {offset o : Nat} {is : List Instruction} (h : o ∈ starts offset is) :
    o < offset + (encode is).length := by
  induction is generalizing offset with
  | nil => cases h
  | cons i is ih =>
      rw [encode_cons, List.length_append]
      rcases List.mem_cons.mp h with rfl | h
      · have := i.length_bytes_pos
        omega
      · have := ih h
        omega

theorem starts_append (offset : Nat) (is js : List Instruction) :
    starts offset (is ++ js) = starts offset is ++ starts (offset + (encode is).length) js := by
  induction is generalizing offset with
  | nil => rfl
  | cons i is ih =>
      rw [List.cons_append, starts, starts, ih, encode_cons, List.length_append, Nat.add_assoc,
        List.cons_append]

theorem le_of_mem_starts {offset o : Nat} {is : List Instruction} (h : o ∈ starts offset is) :
    offset ≤ o := by
  induction is generalizing offset with
  | nil => cases h
  | cons i is ih =>
      rcases List.mem_cons.mp h with rfl | h
      · exact Nat.le_refl _
      · exact Nat.le_trans (Nat.le_add_right _ _) (ih h)

/-- The instruction names an entry of a pool of the given size, if it names one. -/
def Within (poolSize : Nat) : Instruction → Prop
  | .load index => index.toNat < poolSize
  | _ => True

instance (poolSize : Nat) (i : Instruction) : Decidable (i.Within poolSize) :=
  match i with
  | .load index => inferInstanceAs (Decidable (index.toNat < poolSize))
  | .ret => .isTrue trivial
  | .operator _ => .isTrue trivial
  | .negate => .isTrue trivial

end Instruction

/-! ## Flaws -/

/-- What can be wrong where an instruction should stand. -/
inductive Flaw where
  | unknownOpcode (byte : UInt8)
  | missingOperand
  | badConstant (index : UInt8)
  deriving DecidableEq, Repr

namespace Flaw

/-- The flaw as the check of a chunk reports it. -/
def defect (poolSize offset : Nat) : Flaw → Defect
  | .unknownOpcode byte => .unknownOpcode byte offset
  | .missingOperand => .missingOperand .constant offset
  | .badConstant index => .badConstant offset index.toNat poolSize

/-- The code begins with a flaw. -/
inductive At (poolSize : Nat) : List UInt8 → Flaw → Prop where
  | unknownOpcode {byte : UInt8} {rest : List UInt8} :
      Opcode.ofByte? byte = none → At poolSize (byte :: rest) (.unknownOpcode byte)
  | missingOperand : At poolSize [Opcode.constant.byte] .missingOperand
  | badConstant {index : UInt8} {rest : List UInt8} :
      poolSize ≤ index.toNat →
      At poolSize (Opcode.constant.byte :: index :: rest) (.badConstant index)

end Flaw

namespace Instruction

/-- Code that has not come to its end begins with an instruction or with a flaw. -/
theorem exists_instruction_or_flaw (poolSize : Nat) (byte : UInt8) (rest : List UInt8) :
    (∃ (i : Instruction) (rest' : List UInt8),
      i.Within poolSize ∧ byte :: rest = i.bytes ++ rest') ∨
      ∃ f, Flaw.At poolSize (byte :: rest) f := by
  cases hop : Opcode.ofByte? byte with
  | none => exact .inr ⟨_, .unknownOpcode hop⟩
  | some op =>
      obtain rfl := Opcode.ofByte?_eq_some_iff.mp hop
      cases op with
      | ret => exact .inl ⟨.ret, rest, trivial, rfl⟩
      | operator o => exact .inl ⟨.operator o, rest, trivial, rfl⟩
      | negate => exact .inl ⟨.negate, rest, trivial, rfl⟩
      | constant =>
          cases rest with
          | nil => exact .inr ⟨_, .missingOperand⟩
          | cons index rest =>
              by_cases h : index.toNat < poolSize
              · exact .inl ⟨.load index, rest, h, rfl⟩
              · exact .inr ⟨_, .badConstant (Nat.le_of_not_lt h)⟩

/-- Every code is a sequence of instructions and then nothing, or a flaw. -/
theorem exists_split (poolSize : Nat) (code : List UInt8) :
    ∃ is tail, (∀ i ∈ is, i.Within poolSize) ∧ code = encode is ++ tail ∧
      (tail = [] ∨ ∃ f, Flaw.At poolSize tail f) := by
  generalize hn : code.length = n
  induction n using Nat.strongRecOn generalizing code with
  | ind n ih =>
      cases code with
      | nil => exact ⟨[], [], by simp, rfl, .inl rfl⟩
      | cons byte rest =>
          rcases exists_instruction_or_flaw poolSize byte rest with ⟨i, rest', hi, heq⟩ | hflaw
          · have hlt : rest'.length < n := by
              have := i.length_bytes_pos
              rw [← hn, heq, List.length_append]
              omega
            obtain ⟨is, tail, his, rfl, htail⟩ := ih rest'.length hlt rest' rfl
            refine ⟨i :: is, tail, List.forall_mem_cons.mpr ⟨hi, his⟩, ?_, htail⟩
            rw [heq, encode_cons, List.append_assoc]
          · exact ⟨[], byte :: rest, by simp, rfl, .inr hflaw⟩

end Instruction

/-! ## The check of a chunk -/

namespace Chunk

theorem codeDefect?_bytes_append {poolSize : Nat} {i : Instruction} (h : i.Within poolSize)
    (rest : List UInt8) (offset : Nat) :
    codeDefect? poolSize (i.bytes ++ rest) offset =
      codeDefect? poolSize rest (offset + i.bytes.length) := by
  cases i with
  | ret => exact codeDefect?_byte poolSize .ret nofun rest offset
  | load index => exact codeDefect?_load h rest offset
  | operator o => exact codeDefect?_byte poolSize (.operator o) nofun rest offset
  | negate => exact codeDefect?_byte poolSize .negate nofun rest offset

/-- Instructions in order have no defect. -/
theorem codeDefect?_encode_append {poolSize : Nat} {is : List Instruction}
    (h : ∀ i ∈ is, i.Within poolSize) (tail : List UInt8) (offset : Nat) :
    codeDefect? poolSize (Instruction.encode is ++ tail) offset =
      codeDefect? poolSize tail (offset + (Instruction.encode is).length) := by
  induction is generalizing offset with
  | nil => rfl
  | cons i is ih =>
      obtain ⟨hi, his⟩ := List.forall_mem_cons.mp h
      rw [Instruction.encode_cons, List.append_assoc, codeDefect?_bytes_append hi, ih his,
        List.length_append, Nat.add_assoc]

/-- A flaw is what the check finds. -/
theorem codeDefect?_of_flaw {poolSize : Nat} {code : List UInt8} {f : Flaw}
    (h : Flaw.At poolSize code f) (offset : Nat) :
    codeDefect? poolSize code offset = some (f.defect poolSize offset) := by
  rw [codeDefect?.eq_def]
  cases h with
  | unknownOpcode hop => simp only [hop, Flaw.defect]
  | missingOperand => simp only [Opcode.ofByte?_byte, Flaw.defect]
  | badConstant hlt =>
      simp only [Opcode.ofByte?_byte, if_neg (Nat.not_lt.mpr hlt), Flaw.defect]

end Chunk

end Abacus
