import Abacus.Proofs.Preservation
import Mathlib.Data.List.Induction

/-!
# The code that is written

Which bytes a compilation writes, and on which lines, can be read off the tree of the
text.  `Tree.emission` is the postfix order of a tree: the operands from left to right
and then the operation, each with its line.  A number comes on its own line, and a
negation or an operator on the line of the last token of the operand before it, be it a
parenthesis that closes a group.

*Numbers.*  An operation that loads a number names its value.  The code names a place in
the pool.  Without sharing the places are counted off, and with sharing a number has the
place at which its value stands in the pool (`Pool.place`).  The pool holds the values in
the order of the text, and with sharing each of them where it comes first.

A place is chosen when the pool is not complete.  It does not change when the pool grows:
the place of a value is the first one at which it stands (`Pool.place_of_prefix`).  So
the code of a tree can be compared with the whole pool, and the induction over the tree
is `Tree.generate?_emission`.
-/

namespace Abacus

namespace Operation

/-- The values that are loaded, in order. -/
def loaded : List Operation → List Value
  | [] => []
  | .load v :: ops => v :: loaded ops
  | _ :: ops => loaded ops

/-- The instructions for some operations, of which the first load is the `n`-th of its
code.  The pool entry of a load depends on its number and on its value. -/
def instructions (place : Nat → Value → Nat) : Nat → List Operation → List Instruction
  | _, [] => []
  | n, .load v :: ops => .load (place n v).toUInt8 :: instructions place (n + 1) ops
  | n, .ret :: ops => .ret :: instructions place n ops
  | n, .operator o :: ops => .operator o :: instructions place n ops
  | n, .negate :: ops => .negate :: instructions place n ops

theorem loaded_append (ops ops' : List Operation) :
    loaded (ops ++ ops') = loaded ops ++ loaded ops' := by
  induction ops with
  | nil => rfl
  | cons op ops ih => cases op <;> simp [loaded, ih]

theorem instructions_append (place : Nat → Value → Nat) (n : Nat) (ops ops' : List Operation) :
    instructions place n (ops ++ ops') =
      instructions place n ops ++ instructions place (n + (loaded ops).length) ops' := by
  induction ops generalizing n with
  | nil => rfl
  | cons op ops ih =>
      cases op with
      | load v =>
          simp only [List.cons_append, instructions, ih, loaded, List.length_cons]
          rw [Nat.add_right_comm, Nat.add_assoc]
      | ret => simp only [List.cons_append, instructions, ih, loaded]
      | operator o => simp only [List.cons_append, instructions, ih, loaded]
      | negate => simp only [List.cons_append, instructions, ih, loaded]

end Operation

/-- The operations of a tree in postfix order, each with its line. -/
def Tree.emission : Tree → List (Operation × UInt32)
  | .number t => (Value.read? t.lexeme.toList).toList.map fun v => (.load v, t.line)
  | .group _ e _ => e.emission
  | .negation _ e => e.emission ++ [(.negate, e.last.line)]
  | .binary l o r =>
      l.emission ++ r.emission ++
        o.kind.operator?.toList.map fun op => (.operator op, r.last.line)

/-- The lines of the bytes of some operations. -/
def linesOf (steps : List (Operation × UInt32)) : List UInt32 :=
  steps.flatMap fun step => List.replicate step.1.width step.2

/-- A tree loads its numbers. -/
theorem Tree.loaded_emission (t : Tree) :
    Operation.loaded (t.emission.map Prod.fst) = t.values := by
  induction t with
  | number t =>
      cases h : Value.read? t.lexeme.toList <;> simp [emission, values, h, Operation.loaded]
  | group _ e _ ih => exact ih
  | negation _ e ih => simp [emission, values, Operation.loaded_append, Operation.loaded, ih]
  | binary l o r ihl ihr =>
      cases h : o.kind.operator? <;>
        simp [emission, values, Operation.loaded_append, Operation.loaded, ihl, ihr, h]

/-! ## Places in the pool -/

namespace Pool

/-- The pool entry that the `n`-th number of a text is loaded from. -/
def place (share : Bool) (pool : List Value) (n : Nat) (v : Value) : Nat :=
  if share then pool.idxOf v else n

/-- The place of a value does not change while the pool grows. -/
theorem place_of_prefix {share : Bool} {pool pool' : List Value} (h : pool <+: pool') {v : Value}
    (hv : v ∈ pool) (n : Nat) : place share pool' n v = place share pool n v := by
  obtain ⟨more, rfl⟩ := h
  unfold place
  rw [List.idxOf_append_of_mem hv]

/-- With sharing a pool has each value where it comes first. -/
theorem foldl_add_true (vs : List Value) : vs.foldl (add true) [] = vs.eraseDups := by
  induction vs using List.reverseRecOn with
  | nil => rfl
  | append_singleton vs v ih =>
      rw [List.foldl_append, ih, List.foldl_cons, List.foldl_nil, List.eraseDups_append, add]
      by_cases hv : v ∈ vs
      · simp [hv, List.removeAll]
      · simp [hv, List.removeAll, List.eraseDups_cons]

end Pool

namespace Chunk

theorem indexOf?_eq_some_idxOf {c : Chunk} {v : Value} {index : Nat}
    (h : c.indexOf? v = some index) : v ∈ c.consts.toList ∧ index = c.consts.toList.idxOf v := by
  have hget := Array.mem_of_getElem? (indexOf?_eq_some h)
  have harray : c.consts.toList.toArray = c.consts := Array.toArray_toList
  rw [indexOf?, ← harray, List.findIdx?_toArray] at h
  obtain ⟨-, hindex⟩ := List.findIdx?_eq_some_iff_findIdx_eq.mp h
  refine ⟨Array.mem_def.mp hget, hindex.symm.trans ?_⟩
  rfl

theorem code_pushLoad_of_lt {index : Nat} (h : index < poolLimit) (c : Chunk) (line : UInt32) :
    (c.pushLoad index line).code.toList =
      c.code.toList ++ (Instruction.load index.toUInt8).bytes := by
  simp [pushLoad_of_lt h, pushOp, Instruction.bytes]

/-- A load names the place of its value. -/
theorem code_load? {share : Bool} {c c' : Chunk} {v : Value} {line : UInt32}
    (hc : c.consts.size ≤ poolLimit) (h : c.load? share v line = some c') {n : Nat}
    (hn : share = false → n = c.consts.size) :
    c'.code.toList = c.code.toList ++
      (Instruction.load (Pool.place share c'.consts.toList n v).toUInt8).bytes := by
  unfold load? at h
  cases share with
  | false =>
      obtain rfl := hn rfl
      simp only [Bool.false_eq_true, if_false] at h
      split at h
      next hlt =>
        cases h
        exact code_pushLoad_of_lt hlt (c.addValue v) line
      next => cases h
  | true =>
      simp only [if_true] at h
      split at h
      next index hindex =>
        cases h
        obtain ⟨hmem, rfl⟩ := indexOf?_eq_some_idxOf hindex
        have hlt : c.consts.toList.idxOf v < poolLimit :=
          Nat.lt_of_lt_of_le (List.idxOf_lt_length_iff.mpr hmem) hc
        rw [code_pushLoad_of_lt hlt, consts_pushLoad, Pool.place, if_pos rfl]
      next hnone =>
        split at h
        next hlt =>
          cases h
          have hnew : v ∉ c.consts.toList := indexOf?_eq_none hnone
          have hplace : (c.consts.push v).toList.idxOf v = c.consts.size := by
            rw [Array.toList_push, List.idxOf_append_of_notMem hnew, List.idxOf_cons_self,
              Array.length_toList, Nat.add_zero]
          rw [code_pushLoad_of_lt hlt, consts_pushLoad, Pool.place, if_pos rfl, consts_addValue,
            hplace, code_addValue]
        next => cases h

end Chunk

/-! ## The code of a tree -/

namespace Tree

/-- What writing a tree adds to a chunk, seen from a pool that may have grown since. -/
theorem generate?_emission {share : Bool} {t : Tree} {c c' : Chunk}
    (hc : c.consts.size ≤ Chunk.poolLimit) (h : t.generate? share c = some c')
    {pool : List Value} (hpool : c'.consts.toList <+: pool) {n : Nat}
    (hn : share = false → n = c.consts.size) :
    c'.code.toList = c.code.toList ++ Instruction.encode
      (Operation.instructions (Pool.place share pool) n (t.emission.map Prod.fst)) ∧
    c'.lines.toList = c.lines.toList ++ linesOf t.emission := by
  induction t generalizing c c' n with
  | number t =>
      obtain ⟨v, hv, h⟩ := Option.bind_eq_some_iff.mp h
      have hloaded := Chunk.loaded_of_load? hc h
      have hmem : v ∈ c'.consts.toList := by
        rw [hloaded.consts]
        exact Pool.mem_add.mpr (.inr rfl)
      rw [Chunk.code_load? hc h hn, hloaded.lines]
      simp [emission, hv, Operation.instructions, linesOf, Operation.width,
        Pool.place_of_prefix hpool hmem, List.replicate]
  | group _ e _ ih => exact ih hc h hpool hn
  | negation _ e ih =>
      obtain ⟨d, hd, rfl⟩ := Option.map_eq_some_iff.mp h
      obtain ⟨hcode, hlines⟩ := ih hc hd hpool hn
      constructor
      · simp [Chunk.pushOp, hcode, emission, Operation.instructions_append, Operation.instructions,
          Instruction.encode_append, Instruction.bytes]
      · simp [Chunk.pushOp, hlines, emission, linesOf, Operation.width]
  | binary l o r ihl ihr =>
      obtain ⟨d, hd, h⟩ := Option.bind_eq_some_iff.mp h
      obtain ⟨d', hd', h⟩ := Option.bind_eq_some_iff.mp h
      obtain ⟨op, hop, rfl⟩ := Option.map_eq_some_iff.mp h
      obtain ⟨hl, hdc⟩ := generate?_consts hc hd
      have hgrow : d.consts.toList <+: d'.consts.toList := by
        rw [(generate?_consts hdc hd').1]
        exact Pool.prefix_foldl_add ..
      -- without sharing the right operand counts on behind the numbers of the left one
      have hcount : share = false → n + l.values.length = d.consts.size := by
        rintro rfl
        have hlength := congrArg List.length hl
        rw [Pool.foldl_add_false, List.length_append] at hlength
        rw [hn rfl]
        exact hlength.symm
      obtain ⟨hcode, hlines⟩ := ihl hc hd (hgrow.trans hpool) hn
      obtain ⟨hcode', hlines'⟩ := ihr hdc hd' hpool hcount
      constructor
      · simp [Chunk.pushOp, hcode, hcode', emission, hop, Operation.instructions_append,
          Operation.instructions, Instruction.encode_append, Instruction.bytes, loaded_emission]
      · simp [Chunk.pushOp, hlines, hlines', emission, hop, linesOf, Operation.width]

end Tree

/-- The chunk of a tree whose text ends on the given line. -/
structure Chunk.Emitted (share : Bool) (t : Tree) (lastLine : UInt32) (c : Chunk) : Prop where
  /-- The values of the numbers in order, with sharing each where it comes first. -/
  consts : c.consts.toList = if share then t.values.eraseDups else t.values
  /-- Every place in the pool can be named by a byte. -/
  fits : c.consts.size ≤ 256
  code : c.code.toList = Instruction.encode (Operation.instructions
    (Pool.place share c.consts.toList) 0 (t.emission.map Prod.fst ++ [.ret]))
  lines : c.lines.toList = linesOf (t.emission ++ [(.ret, lastLine)])

/-- What is generated for a tree and closed with a `ret` is its emission. -/
theorem Tree.emitted_of_generate? {share : Bool} {t : Tree} {c : Chunk} {line : UInt32}
    (h : (t.generate? share .empty).map (·.pushOp .ret line) = some c) :
    c.Emitted share t line := by
  obtain ⟨d, hd, rfl⟩ := Option.map_eq_some_iff.mp h
  obtain ⟨hconsts, hfits⟩ := generate?_consts (Nat.zero_le _) hd
  obtain ⟨hcode, hlines⟩ := generate?_emission (Nat.zero_le _) hd (List.prefix_refl _)
    (n := 0) (fun _ => rfl)
  refine ⟨?_, hfits, ?_, ?_⟩
  · rw [show (d.pushOp .ret line).consts = d.consts from rfl, hconsts]
    cases share with
    | false => exact Pool.foldl_add_false [] t.values
    | true => exact Pool.foldl_add_true t.values
  · simp [Chunk.pushOp, hcode, Chunk.empty, Operation.instructions_append, Operation.instructions,
      Instruction.encode_append, Instruction.bytes]
  · simp [Chunk.pushOp, hlines, Chunk.empty, linesOf, Operation.width]

namespace Compiler

/-- The code of a text that compiles is the postfix order of its tree, and a `ret` on the
line of the end.  The numbers stand in the pool in the order of the text, with sharing
each value once, and a load names the place of its number. -/
theorem compiled_code_is_postfix {options : Options} {text : String}
    (h : (compile options text).diagnostic = none) :
    ∃ t e, (Derives .expression t ∧ tokensOf text = t.tokens ++ [e] ∧ e.kind = .eof) ∧
      (∀ t', Derives .expression t' → t'.tokens = tokensBeforeEnd text → t' = t) ∧
      t.literals.map (fun u => Value.read? u.lexeme.toList) = t.values.map some ∧
      (compile options text).chunk.Emitted options.shareConstants t e.line := by
  have hresult : (compile options text).result = .ok (compile options text).chunk :=
    Compilation.result_eq_ok_iff.mpr ⟨h, rfl⟩
  obtain ⟨t, e, ha⟩ := compile_result_eq_ok_iff.mp hresult
  refine ⟨t, e, ⟨ha.derives, ha.tokens, ha.ends⟩, fun t' => ha.tree_unique, ?_, ?_⟩
  · exact Tree.map_read?_literals (isSome_value?_of_tokens ha.derives ha.tokens)
  · exact Tree.emitted_of_generate? ha.code

/-- Two equal numbers share an entry.  The group ends on the second line, and with it the
negation and the difference. -/
theorem compiled_code_is_postfix_of_group :
    (compile { shareConstants := true } "1 - -(1\n)").diagnostic = none ∧
    (compile { shareConstants := true } "1 - -(1\n)").chunk.code.toList = [1, 0, 1, 0, 6, 3, 0] ∧
    (compile { shareConstants := true } "1 - -(1\n)").chunk.lines.toList =
      [1, 1, 1, 1, 2, 2, 2] := by
  let t : Tree := .binary (.number ⟨.number, "1", 1⟩) ⟨.minus, "-", 1⟩
    (.negation ⟨.minus, "-", 1⟩
      (.group ⟨.leftParen, "(", 1⟩ (.number ⟨.number, "1", 1⟩) ⟨.rightParen, ")", 2⟩))
  have ht : Derives .expression t :=
    .sum (.term (.unary (.primary (.number rfl)))) (.inr rfl)
      (.unary (.negation rfl (.primary (.group rfl
        (.term (.unary (.primary (.number rfl)))) rfl))))
  have hcompiles : (compile { shareConstants := true } "1 - -(1\n)").diagnostic = none := by
    decide +kernel
  obtain ⟨u, e, ⟨-, htokens, -⟩, hunique, -, hemitted⟩ := compiled_code_is_postfix hcompiles
  obtain rfl : t = u := hunique t ht (by decide +kernel)
  obtain rfl : e = .endOfText 2 := by
    have hlist : tokensOf "1 - -(1\n)" = t.tokens ++ [.endOfText 2] := by decide +kernel
    simpa using htokens.symm.trans hlist
  refine ⟨hcompiles, ?_, ?_⟩
  · rw [hemitted.code, hemitted.consts]
    decide +kernel
  · rw [hemitted.lines]
    decide +kernel

end Compiler

end Abacus
