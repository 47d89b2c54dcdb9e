import Abacus.Proofs.Boundaries
import Abacus.Proofs.Execution

/-!
# Code as instructions

A chunk is valid exactly if its code is a sequence of instructions, and there is
only one such sequence (`Chunk.defect?_eq_none_iff`, `Instruction.encode_injective`).
Running the code is running the sequence.

`Instruction.run` is a machine that knows no bytes.  It takes its instructions from
a list, and it asks whether the stack is full only where a value is added to it.
The machine of `Abacus.Machine` asks with every push.  An operator and a negation
take values away before they push one, so on a stack within its bound they never
find it full (`Machine.outcome_encode`).
-/

namespace Abacus

namespace Instruction

theorem encode_injective {is js : List Instruction} (h : encode is = encode js) : is = js := by
  have hdecoded := congrArg decode? h
  rw [decode?_encode, decode?_encode] at hdecoded
  exact Option.some.inj hdecoded

/-- The rest of a run: the instructions that are left, the offset in the code at which
they begin, and the stack, topmost value first. -/
def run (pool : Array Value) (limit : Nat) :
    List Instruction → Nat → List Value → Except Fault (Option Value)
  | [], _, _ => .error .ranPastEnd
  | i :: is, offset, stack =>
      match i, stack with
      | .ret, stack => .ok stack.head?
      | .load index, stack =>
          match pool[index.toNat]? with
          | none => .error (.badConstant index.toNat offset)
          | some v =>
              if stack.length < limit then run pool limit is (offset + i.bytes.length) (v :: stack)
              else .error (.stackOverflow offset limit)
      | .operator o, b :: a :: stack =>
          run pool limit is (offset + i.bytes.length) (o.apply a b :: stack)
      | .negate, a :: stack => run pool limit is (offset + i.bytes.length) (-a :: stack)
      | .operator _, _ => .error (.stackUnderflow offset)
      | .negate, [] => .error (.stackUnderflow offset)

end Instruction

open Instruction

namespace Machine

variable {pool : Array Value} {limit : Nat}

/-- The machine does what the sequence of instructions says, on every stack within the
bound. -/
theorem outcome_encode (is : List Instruction) (offset : Nat) {stack : List Value}
    (h : stack.length ≤ limit) :
    outcome pool limit (encode is) offset stack = Instruction.run pool limit is offset stack := by
  induction is generalizing offset stack with
  | nil => rfl
  | cons i is ih =>
      cases i with
      | ret => exact outcome_bytes_append offset (i := .ret) rfl _ stack
      | load index =>
          rw [Instruction.run]
          cases hget : pool[index.toNat]? with
          | none =>
              have hsize : pool.size ≤ index.toNat := Array.getElem?_eq_none_iff.mp hget
              exact outcome_of_flaw offset (.badConstant hsize) stack
          | some v =>
              refine (outcome_bytes_append offset (operation?_load hget) _ stack).trans ?_
              dsimp only
              by_cases hroom : stack.length < limit
              · rw [if_pos hroom, step_load_of_lt offset v hroom]
                exact ih _ hroom
              · rw [if_neg hroom, step_load_of_not_lt offset v hroom]
      | operator o =>
          refine (outcome_bytes_append offset (i := .operator o) rfl _ stack).trans ?_
          rcases stack with _ | ⟨b, _ | ⟨a, stack⟩⟩
          · rfl
          · rfl
          · rw [step_operator_of_le offset o a b h]
            exact ih _ (Nat.le_of_succ_le h)
      | negate =>
          refine (outcome_bytes_append offset (i := .negate) rfl _ stack).trans ?_
          rcases stack with _ | ⟨a, stack⟩
          · rfl
          · rw [step_negate_of_le offset a h]
            exact ih _ h

end Machine

namespace Chunk

/-- A chunk is valid exactly if its code is a sequence of instructions. -/
theorem defect?_eq_none_iff {c : Chunk} :
    c.defect? = none ↔ c.lines.size = c.code.size ∧ ∃ is, c.Divides is [] := by
  constructor
  · intro h
    have hlines : c.lines.size = c.code.size := by
      unfold defect? at h
      split at h
      next => cases h
      next heq => exact (Decidable.not_not.mp heq).symm
    obtain ⟨is, tail, hwithin, hcode, htail⟩ := exists_split c.consts.size c.code.toList
    have hc : c.Divides is tail := ⟨hwithin, hcode⟩
    rcases htail with rfl | ⟨f, hf⟩
    · exact ⟨hlines, is, hc⟩
    · rw [hc.defect?_eq hlines, codeDefect?_of_flaw hf] at h
      cases h
  · rintro ⟨hlines, is, hc⟩
    rw [hc.defect?_eq hlines]
    rfl

/-- A chunk is valid exactly if it has a line for each byte and its code is a sequence
of instructions with indexes in the pool.  There is one such sequence, and a run of
the chunk is a run of that sequence. -/
theorem valid_code_is_its_instructions (c : Chunk) :
    (c.defect? = none ↔ c.lines.size = c.code.size ∧
      ∃ is, (∀ i ∈ is, i.Within c.consts.size) ∧ c.code.toList = encode is) ∧
    (∀ is js, c.code.toList = encode is → c.code.toList = encode js → is = js) ∧
    ∀ is, c.code.toList = encode is → ∀ options : Machine.Options,
      (Machine.run c options).outcome =
        Instruction.run c.consts options.stackLimit is 0 [] := by
  refine ⟨?_, ?_, ?_⟩
  · have hdivides (is : List Instruction) : c.Divides is [] ↔
        (∀ i ∈ is, i.Within c.consts.size) ∧ c.code.toList = encode is := by
      constructor
      · exact fun hc => ⟨hc.within, hc.code_eq.trans (List.append_nil _)⟩
      · exact fun hc => ⟨hc.1, hc.2.trans (List.append_nil _).symm⟩
    rw [defect?_eq_none_iff]
    simp only [hdivides]
  · intro is js his hjs
    exact encode_injective (his.symm.trans hjs)
  · intro is his options
    rw [Machine.outcome_run, his]
    exact Machine.outcome_encode is 0 (Nat.zero_le _)

/-- Two loads and an operator.  The second load finds a stack for one value full. -/
theorem valid_code_is_its_instructions_of_two_loads :
    let c : Chunk := { code := #[1, 0, 1, 0, 2], lines := #[1, 1, 1, 1, 1], consts := #[⟨0⟩] }
    c.defect? = none ∧
      (Machine.run c { stackLimit := 1 }).outcome = .error (.stackOverflow 2 1) := by
  intro c
  obtain ⟨hvalid, -, hrun⟩ := valid_code_is_its_instructions c
  refine ⟨hvalid.mpr ⟨rfl, [.load 0, .load 0, .operator .add], by decide, rfl⟩, ?_⟩
  rw [hrun [.load 0, .load 0, .operator .add] rfl]
  rfl

end Chunk

end Abacus
