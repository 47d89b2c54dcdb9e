import Abacus.Proofs.Operations

/-!
# Running the code of a tree

The machine runs the code of a tree with whatever stands behind it and whatever
is on the stack.  If there is room on the stack for what the tree needs, the run
goes on behind the code with the value of the tree on top; if not, it ends with
an overflow.
-/

namespace Abacus

namespace Codes

open Machine Instruction

variable {pool : Array Value} {limit : Nat} {t : Tree} {code : List UInt8}

/-- With room on the stack, the code of a tree leaves the value of the tree there. -/
theorem outcome_of_need_le (h : Codes pool t code) {v : Value} (hv : t.value? = some v)
    {stack : List Value} (hroom : stack.length + t.need ≤ limit) (rest : List UInt8)
    (offset : Nat) :
    outcome pool limit (code ++ rest) offset stack =
      outcome pool limit rest (offset + code.length) (v :: stack) := by
  induction h generalizing v stack rest offset with
  | number hread hget =>
      cases hread.symm.trans hv
      refine (outcome_bytes_append offset (operation?_load hget) rest stack).trans ?_
      rw [step_load_of_lt _ _ hroom]
      rfl
  | group _ ih => exact ih hv hroom rest offset
  | @negation _ e _ _ ih =>
      obtain ⟨a, ha, rfl⟩ := Option.map_eq_some_iff.mp hv
      have hheld : (a :: stack).length ≤ limit := by
        have := e.need_pos
        rw [Tree.need] at hroom
        rw [List.length_cons]
        omega
      rw [List.append_assoc, ih ha hroom]
      refine (outcome_bytes_append _ (i := .negate) rfl rest _).trans ?_
      rw [step_negate_of_le _ _ hheld, List.length_append, ← Nat.add_assoc]
      rfl
  | @binary l r _ op _ _ _ _ hop ihl ihr =>
      obtain ⟨op', hop', hv⟩ := Option.bind_eq_some_iff.mp hv
      cases hop.symm.trans hop'
      obtain ⟨a, ha, hv⟩ := Option.bind_eq_some_iff.mp hv
      obtain ⟨b, hb, rfl⟩ := Option.map_eq_some_iff.mp hv
      rw [Tree.need] at hroom
      have hleft : stack.length + l.need ≤ limit := by omega
      -- the left value waits below while the right operand is computed
      have hright : (a :: stack).length + r.need ≤ limit := by
        rw [List.length_cons]
        omega
      have hheld : (b :: a :: stack).length ≤ limit := by
        have := r.need_pos
        simp only [List.length_cons] at hright ⊢
        omega
      rw [List.append_assoc, List.append_assoc, ihl ha hleft, ihr hb hright]
      refine (outcome_bytes_append _ (i := .operator op) rfl rest _).trans ?_
      rw [step_operator_of_le _ _ _ _ hheld]
      simp only [List.length_append, List.length_singleton, Nat.add_assoc]
      rfl

end Codes

end Abacus
