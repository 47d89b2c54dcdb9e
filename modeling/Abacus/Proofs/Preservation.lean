import Abacus.Evaluation
import Abacus.Proofs.Acceptance
import Abacus.Proofs.Execution

/-!
# Compiling preserves meaning

The chunk of a text that compiles, run by the machine, gives the value of the
only tree that the text can be read as, provided that the machine has room for
what the tree needs.  Less room leads to an overflow and to nothing else.

A tree needs no more room than it is deep.  If the machine is allowed as many
values as the compiler allows levels, the overflow is excluded too, and what is
left of the failures of an evaluation are those of the compiler.
-/

namespace Abacus

namespace Compiler.Accepted

variable {options : Options} {text : String} {t : Tree} {e : Token} {c : Chunk}

/-- A chunk is the code of its tree and an instruction to return. -/
theorem exists_codes (h : Accepted options text t e c) :
    ∃ code, c.code.toList = code ++ [Opcode.ret.byte] ∧ Codes c.consts t code := by
  obtain ⟨d, hd, rfl⟩ := Option.map_eq_some_iff.mp h.code
  obtain ⟨code, -, hcode, -, -, hcodes⟩ := Tree.exists_code (Nat.zero_le _) hd
  refine ⟨code, ?_, hcodes⟩
  simp [Chunk.pushOp, hcode, Chunk.empty]

/-- A text that compiles can be read in one way only. -/
theorem tree_unique (h : Accepted options text t e c) {t' : Tree}
    (ht' : Derives .expression t') (htokens : t'.tokens = tokensBeforeEnd text) : t' = t :=
  ht'.unique h.derives (htokens.trans h.tokens_eq.symm)

theorem exists_value (h : Accepted options text t e c) : ∃ v, t.value? = some v := by
  obtain ⟨code, -, hcodes⟩ := h.exists_codes
  exact hcodes.exists_value

variable {limits : Machine.Options}

theorem outcome_of_need_le (h : Accepted options text t e c) {v : Value}
    (hv : t.value? = some v) (hneed : t.need ≤ limits.stackLimit) :
    (Machine.run c limits).outcome = .ok (some v) := by
  obtain ⟨code, hcode, hcodes⟩ := h.exists_codes
  have hroom : ([] : List Value).length + t.need ≤ limits.stackLimit := by
    rw [List.length_nil, Nat.zero_add]
    exact hneed
  rw [Machine.outcome_run, hcode, hcodes.outcome_of_need_le hv hroom]
  exact Machine.outcome_bytes_append _ (i := .ret) rfl [] [v]

/-- The code of a text does not fail if the machine may hold as many values as
the compiler may open levels. -/
theorem exists_outcome (h : Accepted options text t e c)
    (hlimits : options.nestingLimit ≤ limits.stackLimit) :
    ∃ v, (Machine.run c limits).outcome = .ok (some v) := by
  obtain ⟨v, hv⟩ := h.exists_value
  have hneed : t.need ≤ limits.stackLimit :=
    calc t.need ≤ t.depth := t.need_le_depth
      _ ≤ options.nestingLimit := h.depth_le
      _ ≤ limits.stackLimit := hlimits
  exact ⟨v, h.outcome_of_need_le hv hneed⟩

end Compiler.Accepted

open Compiler

end Abacus
