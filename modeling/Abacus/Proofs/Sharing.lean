import Abacus.Proofs.Emission
import Mathlib.Algebra.GroupWithZero.Nat

/-!
# Sharing constants

Equal numbers may share an entry of the pool.  The code then names other entries, and
nothing else changes: once every load is read as the value that it loads, the code with
sharing and the code without are the same operations (`Chunk.operations?`).  A machine
does not see the difference, since all it takes from an entry is the value
(`Machine.exec_eq_of_operations`).

Sharing does not make a compilation fail.  A pool without repetition is not longer than
the same pool with it, so there is room for it wherever there is room for the other.
-/

namespace Abacus

namespace Instruction

/-- What a sequence of instructions does. -/
def operations? (pool : Array Value) : List Instruction → Option (List Operation)
  | [] => some []
  | i :: is => (i.operation? pool).bind fun op => (operations? pool is).map (op :: ·)

theorem operations?_cons_eq_some_iff {pool : Array Value} {i : Instruction}
    {is : List Instruction} {op : Operation} {ops : List Operation} :
    operations? pool (i :: is) = some (op :: ops) ↔
      i.operation? pool = some op ∧ operations? pool is = some ops := by
  constructor
  · intro h
    obtain ⟨op', hop, h⟩ := Option.bind_eq_some_iff.mp h
    obtain ⟨ops', hops, heq⟩ := Option.map_eq_some_iff.mp h
    obtain ⟨rfl, rfl⟩ := List.cons.inj heq
    exact ⟨hop, hops⟩
  · rintro ⟨hop, hops⟩
    rw [operations?, hop, Option.bind_some, hops, Option.map_some]

/-- Only no instructions at all do nothing. -/
theorem eq_nil_of_operations? {pool : Array Value} {is : List Instruction}
    (h : operations? pool is = some []) : is = [] := by
  cases is with
  | nil => rfl
  | cons i is =>
      obtain ⟨op, -, h⟩ := Option.bind_eq_some_iff.mp h
      obtain ⟨ops, -, heq⟩ := Option.map_eq_some_iff.mp h
      cases heq

theorem exists_cons_of_operations? {pool : Array Value} {is : List Instruction} {op : Operation}
    {ops : List Operation} (h : operations? pool is = some (op :: ops)) :
    ∃ i is', is = i :: is' ∧ i.operation? pool = some op ∧ operations? pool is' = some ops := by
  cases is with
  | nil => cases h
  | cons i is' => exact ⟨i, is', rfl, operations?_cons_eq_some_iff.mp h⟩

end Instruction

namespace Operation

/-- Instructions whose places hold the values to be loaded do what they are meant to. -/
theorem operations?_instructions {pool : Array Value} {place : Nat → Value → Nat} {n : Nat}
    {ops : List Operation}
    (h : ∀ k v, (loaded ops)[k]? = some v →
      place (n + k) v < Chunk.poolLimit ∧ pool[place (n + k) v]? = some v) :
    Instruction.operations? pool (instructions place n ops) = some ops := by
  induction ops generalizing n with
  | nil => rfl
  | cons op ops ih =>
      cases op with
      | load v =>
          obtain ⟨hlt, hget⟩ := h 0 v rfl
          refine Instruction.operations?_cons_eq_some_iff.mpr ⟨?_, ih fun k w hk => ?_⟩
          · have hplace : (place n v).toUInt8.toNat = place n v := Chunk.toNat_toUInt8_of_lt hlt
            rw [Instruction.operation?, hplace]
            exact Option.map_eq_some_iff.mpr ⟨v, hget, rfl⟩
          · rw [Nat.add_assoc, Nat.add_comm 1 k]
            exact h (k + 1) w hk
      | ret => exact Instruction.operations?_cons_eq_some_iff.mpr ⟨rfl, ih h⟩
      | operator o => exact Instruction.operations?_cons_eq_some_iff.mpr ⟨rfl, ih h⟩
      | negate => exact Instruction.operations?_cons_eq_some_iff.mpr ⟨rfl, ih h⟩

end Operation

namespace Instruction

/-- Instructions that do the same have codes of the same length. -/
theorem length_encode_of_operations? {pool : Array Value} {is : List Instruction}
    {ops : List Operation} (h : operations? pool is = some ops) :
    (encode is).length = (ops.map Operation.width).sum := by
  induction ops generalizing is with
  | nil =>
      obtain rfl := eq_nil_of_operations? h
      rfl
  | cons op ops ih =>
      obtain ⟨i, is', rfl, hi, his⟩ := exists_cons_of_operations? h
      rw [encode_cons, List.length_append, ih his, List.map_cons, List.sum_cons,
        width_of_operation? hi]

end Instruction

namespace Machine

/-- A run depends on what the instructions do, and not on the entries that they name. -/
theorem exec_eq_of_operations {pool pool' : Array Value} {limit : Nat}
    {is is' : List Instruction} {ops : List Operation}
    (h : Instruction.operations? pool is = some ops)
    (h' : Instruction.operations? pool' is' = some ops)
    (offset : Nat) (stack : List Value) (moments : Array Moment) :
    exec pool limit (Instruction.encode is) offset stack moments =
      exec pool' limit (Instruction.encode is') offset stack moments := by
  induction ops generalizing is is' offset stack moments with
  | nil =>
      obtain rfl := Instruction.eq_nil_of_operations? h
      obtain rfl := Instruction.eq_nil_of_operations? h'
      rfl
  | cons op ops ih =>
      obtain ⟨i, is, rfl, hi, his⟩ := Instruction.exists_cons_of_operations? h
      obtain ⟨i', is', rfl, hi', his'⟩ := Instruction.exists_cons_of_operations? h'
      rw [Instruction.encode_cons, Instruction.encode_cons, exec_bytes_append offset hi,
        exec_bytes_append offset hi']
      cases step limit offset stack op with
      | ok stack' => exact ih his his' ..
      | error outcome => rfl

end Machine

/-! ## Chunks with and without sharing -/

namespace Chunk

/-- What the code of a chunk does, with values in place of pool entries. -/
def operations? (c : Chunk) : Option (List Operation) :=
  (Instruction.decode? c.code.toList).bind (Instruction.operations? c.consts)

namespace Emitted

variable {share : Bool} {t : Tree} {line : UInt32} {c : Chunk}

/-- The place of every number holds its value. -/
theorem getElem?_place (h : c.Emitted share t line) {k : Nat} {v : Value}
    (hk : t.values[k]? = some v) :
    Pool.place share c.consts.toList k v < poolLimit ∧
      c.consts[Pool.place share c.consts.toList k v]? = some v := by
  have hget : c.consts[Pool.place share c.consts.toList k v]? = some v := by
    rw [← Array.getElem?_toList, h.consts]
    cases share with
    | false => exact hk
    | true => exact List.getElem?_idxOf (List.mem_eraseDups.mpr (List.mem_of_getElem? hk))
  exact ⟨Nat.lt_of_lt_of_le (Array.getElem?_eq_some_iff.mp hget).1 h.fits, hget⟩

/-- Whatever entries it names, the code of a tree does the operations of the tree. -/
theorem operations_eq (h : c.Emitted share t line) :
    Instruction.operations? c.consts (Operation.instructions (Pool.place share c.consts.toList) 0
      (t.emission.map Prod.fst ++ [.ret])) = some (t.emission.map Prod.fst ++ [.ret]) := by
  refine Operation.operations?_instructions fun k v hk => ?_
  rw [Operation.loaded_append, t.loaded_emission] at hk
  rw [Nat.zero_add]
  exact h.getElem?_place (by simpa [Operation.loaded] using hk)

theorem operations?_eq (h : c.Emitted share t line) :
    c.operations? = some (t.emission.map Prod.fst ++ [.ret]) := by
  rw [operations?, h.code, Instruction.decode?_encode, Option.bind_some, h.operations_eq]

theorem code_size_eq (h : c.Emitted share t line) :
    c.code.size = ((t.emission.map Prod.fst ++ [Operation.ret]).map Operation.width).sum := by
  rw [← Array.length_toList, h.code]
  exact Instruction.length_encode_of_operations? h.operations_eq

/-- Two chunks of one tree run alike. -/
theorem run_eq {share' : Bool} {c' : Chunk} (h : c.Emitted share t line)
    (h' : c'.Emitted share' t line) (limits : Machine.Options) :
    Machine.run c limits = Machine.run c' limits := by
  unfold Machine.run
  rw [h.code, h'.code]
  exact Machine.exec_eq_of_operations h.operations_eq h'.operations_eq ..

end Emitted

end Chunk

namespace Compiler

variable {σ : Type} [TokenSource σ]

/-- A tree that can be compiled without sharing can be compiled with it. -/
theorem Compiled.exists_shared {options : Options} {source : σ} {t : Tree} {q : Position σ}
    {c : Chunk} (h : Compiled { options with shareConstants := false } source t q c) :
    ∃ d, Compiled { options with shareConstants := true } source t q d := by
  obtain ⟨c', hc', -⟩ := Option.map_eq_some_iff.mp h.code
  have hvalue : t.value?.isSome := by
    obtain ⟨code, -, -, -, -, hcodes⟩ := Tree.exists_code (Nat.zero_le _) hc'
    exact Option.isSome_iff_exists.mpr hcodes.exists_value
  obtain ⟨hplain, -⟩ := (Tree.isSome_generate?_empty_iff hvalue).mp (by rw [hc']; rfl)
  have hshared : t.values.dedup.length ≤ Chunk.poolLimit :=
    calc t.values.dedup.length ≤ t.values.length := t.values.dedup_sublist.length_le
      _ = t.literals.length := Tree.length_values hvalue
      _ ≤ Chunk.poolLimit := hplain rfl
  have hgenerated : (t.generate? true .empty).isSome :=
    (Tree.isSome_generate?_empty_iff hvalue).mpr ⟨nofun, fun _ => hshared⟩
  obtain ⟨d, hd⟩ := Option.isSome_iff_exists.mp hgenerated
  exact ⟨d.pushOp .ret q.1.line, h.derives, h.depth_le, h.passes, h.ends, h.goes_on,
    by rw [hd]; rfl⟩

/-- Sharing constants changes which pool entries are named, and nothing else. -/
theorem sharing_is_transparent (options : Options) (source : σ)
    (h : (compileFrom { options with shareConstants := false } source).diagnostic = none) :
    let plain := (compileFrom { options with shareConstants := false } source).chunk
    let shared := (compileFrom { options with shareConstants := true } source).chunk
    (compileFrom { options with shareConstants := true } source).diagnostic = none ∧
    shared.code.size = plain.code.size ∧ shared.lines = plain.lines ∧
    (∃ ops, plain.operations? = some ops ∧ shared.operations? = some ops) ∧
    shared.consts.toList = plain.consts.toList.eraseDups ∧
    ∀ limits : Machine.Options, Machine.run shared limits = Machine.run plain limits := by
  intro plain shared
  have hresult : (compileFrom { options with shareConstants := false } source).result = .ok plain :=
    Compilation.result_eq_ok_iff.mpr ⟨h, rfl⟩
  obtain ⟨t, q, hplain⟩ := compileFrom_result_eq_ok_iff.mp hresult
  obtain ⟨d, hshared⟩ := hplain.exists_shared
  obtain ⟨hnone, rfl⟩ := Compilation.result_eq_ok_iff.mp
    (compileFrom_result_eq_ok_iff.mpr ⟨t, q, hshared⟩)
  have hp : plain.Emitted false t q.1.line := Tree.emitted_of_generate? hplain.code
  have hs : shared.Emitted true t q.1.line := Tree.emitted_of_generate? hshared.code
  refine ⟨hnone, hs.code_size_eq.trans hp.code_size_eq.symm, ?_,
    ⟨_, hp.operations?_eq, hs.operations?_eq⟩, ?_, hs.run_eq hp⟩
  · exact Array.toList_inj.mp (hs.lines.trans hp.lines.symm)
  · rw [hs.consts, hp.consts]
    rfl

/-- Two zeros of different sign stay apart, and two undefined numbers with the same bits do
not. -/
theorem sharing_is_transparent_of_zeros :
    let tokens : List Token :=
      [⟨.number, "nan", 1⟩, ⟨.plus, "+", 1⟩, ⟨.number, "0", 2⟩, ⟨.star, "*", 2⟩,
       ⟨.number, "-0", 3⟩, ⟨.minus, "-", 3⟩, ⟨.number, "nan", 4⟩]
    let plain := (compileFrom {} ({ tokens } : Replay)).chunk
    let shared := (compileFrom { shareConstants := true } ({ tokens } : Replay)).chunk
    (compileFrom {} ({ tokens } : Replay)).diagnostic = none ∧
    shared.consts.toList = plain.consts.toList.eraseDups ∧
    plain.consts.size = 4 ∧ plain.consts.toList.eraseDups.length = 3 ∧
    Machine.run shared {} = Machine.run plain {} := by
  intro tokens plain shared
  have hplain : (compileFrom {} ({ tokens } : Replay)).diagnostic = none := by decide +kernel
  obtain ⟨-, -, -, -, hconsts, hrun⟩ :=
    sharing_is_transparent {} ({ tokens } : Replay) hplain
  exact ⟨hplain, hconsts, by decide +kernel, by decide +kernel, hrun {}⟩

end Compiler

end Abacus
