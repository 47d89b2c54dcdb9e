import Abacus.Chunk.Validity
import Abacus.Proofs.Grammar

/-!
# The code of a tree

`Tree.generate?` writes the code of a tree behind what a chunk already holds: the
code of the operands from left to right, and then the operation.  Nothing is
written for a group.  It fails if a number cannot be read, or if the pool is full
when a number needs a new entry of it.

*The pool.*  `Pool.add` is the pool after one more number.  A pool only grows,
so a number finds its place exactly if there is room for the whole tree, and the
entries that the code of a tree names stay where they are while more code is
written.

*The code.*  `Codes pool t code` says that the bytes `code` are the operations of
`t` in postfix order, each number given as the index of its value in `pool`.
This is all that a machine or a check of the code needs to know: which index
stands for a number does not matter.
-/

namespace Abacus

/-! ## Writing code -/

namespace Pool

/-- A pool after one more number.  If equal numbers share an entry, one that is
there already needs no new one. -/
def add (share : Bool) (pool : List Value) (v : Value) : List Value :=
  if share ∧ v ∈ pool then pool else pool ++ [v]

theorem prefix_add (share : Bool) (pool : List Value) (v : Value) :
    pool <+: add share pool v := by
  unfold add
  split
  next => exact List.prefix_refl pool
  next => exact List.prefix_append pool [v]

theorem prefix_foldl_add (share : Bool) (pool vs : List Value) :
    pool <+: vs.foldl (add share) pool := by
  induction vs generalizing pool with
  | nil => exact List.prefix_refl pool
  | cons v vs ih => exact (prefix_add share pool v).trans (ih (add share pool v))

end Pool

namespace Chunk

theorem size_code_pushLoad_le (c : Chunk) (index : Nat) (line : UInt32) :
    (c.pushLoad index line).code.size ≤ c.code.size + 2 := by
  unfold pushLoad
  split
  next => simp [pushOp]
  next => exact Nat.le_add_right _ _

/-- The chunk with one more instruction, which loads a value, unless the pool has
no place for it. -/
def load? (share : Bool) (c : Chunk) (v : Value) (line : UInt32) : Option Chunk :=
  match if share then c.indexOf? v else none with
  | some index => some (c.pushLoad index line)
  | none =>
      if c.consts.size < poolLimit then some ((c.addValue v).pushLoad c.consts.size line)
      else none

theorem indexOf?_eq_some {c : Chunk} {v : Value} {index : Nat} (h : c.indexOf? v = some index) :
    c.consts[index]? = some v := by
  obtain ⟨hi, hv, -⟩ := Array.findIdx?_eq_some_iff_getElem.mp h
  rw [Array.getElem?_eq_getElem hi, of_decide_eq_true hv]

theorem indexOf?_eq_none {c : Chunk} {v : Value} (h : c.indexOf? v = none) :
    v ∉ c.consts.toList := by
  intro hv
  have := Array.findIdx?_eq_none_iff.mp h v (Array.mem_def.mpr hv)
  simp at this

/-- What a load adds to a chunk. -/
structure Loaded (share : Bool) (v : Value) (line : UInt32) (c c' : Chunk) : Prop where
  consts : c'.consts.toList = Pool.add share c.consts.toList v
  lines : c'.lines.toList = c.lines.toList ++ [line, line]
  code : ∃ index : UInt8, c'.code.toList = c.code.toList ++ [Opcode.constant.byte, index] ∧
    c'.consts[index.toNat]? = some v

/-- A load names an entry that is there, or a new one at the end of the pool. -/
theorem load?_cases (share : Bool) (c : Chunk) (v : Value) (line : UInt32) :
    (share ∧ ∃ index, c.consts[index]? = some v ∧
      c.load? share v line = some (c.pushLoad index line)) ∨
    (¬ (share ∧ v ∈ c.consts.toList) ∧
      c.load? share v line =
        if c.consts.size < poolLimit then some ((c.addValue v).pushLoad c.consts.size line)
        else none) := by
  cases share with
  | false => exact .inr ⟨by simp, rfl⟩
  | true =>
      cases hi : c.indexOf? v with
      | none => exact .inr ⟨fun h => indexOf?_eq_none hi h.2, by simp [load?, hi]⟩
      | some index =>
          exact .inl ⟨rfl, index, indexOf?_eq_some hi, by simp [load?, hi]⟩

/-- An index below the limit of a pool fits into a byte. -/
theorem toNat_toUInt8_of_lt {index : Nat} (h : index < poolLimit) :
    index.toUInt8.toNat = index := by
  rw [Nat.toUInt8_eq, UInt8.toNat_ofNat']
  exact Nat.mod_eq_of_lt h

theorem loaded_of_load? {share : Bool} {c c' : Chunk} {v : Value} {line : UInt32}
    (hc : c.consts.size ≤ poolLimit) (h : c.load? share v line = some c') :
    Loaded share v line c c' := by
  rcases load?_cases share c v line with ⟨hshare, index, hget, hload⟩ | ⟨hnew, hload⟩
  · cases hload.symm.trans h
    have hlt : index < poolLimit :=
      Nat.lt_of_lt_of_le (Array.getElem?_eq_some_iff.mp hget).1 hc
    have hmem : v ∈ c.consts.toList := Array.mem_def.mp (Array.mem_of_getElem? hget)
    rw [pushLoad_of_lt hlt]
    refine ⟨?_, by simp [pushOp], index.toUInt8, by simp [pushOp], ?_⟩
    · simp [pushOp, Pool.add, hmem, hshare]
    · rw [toNat_toUInt8_of_lt hlt]
      exact hget
  · rw [hload] at h
    split at h
    next hlt =>
      cases h
      rw [pushLoad_of_lt hlt]
      refine ⟨?_, by simp [pushOp], c.consts.size.toUInt8, by simp [pushOp], ?_⟩
      · rw [Pool.add, if_neg hnew]
        simp [pushOp]
      · rw [toNat_toUInt8_of_lt hlt]
        simp [pushOp]
    next => cases h

/-- A load finds its place exactly if the pool does not outgrow its limit. -/
theorem isSome_load?_iff {share : Bool} {c : Chunk} {v : Value} {line : UInt32}
    (hc : c.consts.size ≤ poolLimit) :
    (c.load? share v line).isSome ↔ (Pool.add share c.consts.toList v).length ≤ poolLimit := by
  rcases load?_cases share c v line with ⟨hshare, index, hget, hload⟩ | ⟨hnew, hload⟩
  · have hmem : v ∈ c.consts.toList := Array.mem_def.mp (Array.mem_of_getElem? hget)
    rw [hload, Pool.add, if_pos ⟨hshare, hmem⟩]
    exact ⟨fun _ => hc, fun _ => rfl⟩
  · rw [hload, Pool.add, if_neg hnew, List.length_append, List.length_singleton,
      Array.length_toList]
    split
    next hlt => exact ⟨fun _ => hlt, fun _ => rfl⟩
    next hlt => exact ⟨(nomatch ·), fun h => absurd h hlt⟩

end Chunk

namespace Tree

/-- The chunk with the code of a tree added. -/
def generate? (share : Bool) : Tree → Chunk → Option Chunk
  | .number t, c => (Value.read? t.lexeme.toList).bind fun v => c.load? share v t.line
  | .group _ e _, c => e.generate? share c
  | .negation _ e, c => (e.generate? share c).map fun c => c.pushOp .negate e.last.line
  | .binary l o r, c =>
      (l.generate? share c).bind fun c =>
        (r.generate? share c).bind fun c =>
          o.kind.operator?.map fun op => c.pushOp (.operator op) r.last.line

/-- The values of the numbers of a tree. -/
def values : Tree → List Value
  | .number t => (Value.read? t.lexeme.toList).toList
  | .group _ e _ => e.values
  | .negation _ e => e.values
  | .binary l _ r => l.values ++ r.values

/-! ## The pool -/

/-- The numbers of a tree join the pool in the order of the text. -/
theorem generate?_consts {share : Bool} {t : Tree} {c c' : Chunk}
    (hc : c.consts.size ≤ Chunk.poolLimit) (h : t.generate? share c = some c') :
    c'.consts.toList = t.values.foldl (Pool.add share) c.consts.toList ∧
      c'.consts.size ≤ Chunk.poolLimit := by
  induction t generalizing c c' with
  | number t =>
      obtain ⟨v, hv, h⟩ := Option.bind_eq_some_iff.mp h
      have hconsts := (Chunk.loaded_of_load? hc h).consts
      refine ⟨by simp [values, hv, hconsts], ?_⟩
      rw [← Array.length_toList, hconsts]
      exact (Chunk.isSome_load?_iff hc).mp (by rw [h]; rfl)
  | group _ e _ ih => exact ih hc h
  | negation _ e ih =>
      obtain ⟨d, hd, rfl⟩ := Option.map_eq_some_iff.mp h
      have he := ih hc hd
      exact he
  | binary l o r ihl ihr =>
      obtain ⟨d, hd, h⟩ := Option.bind_eq_some_iff.mp h
      obtain ⟨d', hd', h⟩ := Option.bind_eq_some_iff.mp h
      obtain ⟨op, -, rfl⟩ := Option.map_eq_some_iff.mp h
      obtain ⟨hl, hlc⟩ := ihl hc hd
      obtain ⟨hr, hrc⟩ := ihr hlc hd'
      refine ⟨?_, hrc⟩
      rw [values, List.foldl_append, ← hl, ← hr]
      rfl

theorem value?_binary {l r : Tree} {o : Token} (h : (Tree.binary l o r).value?.isSome) :
    ∃ op a b, o.kind.operator? = some op ∧ l.value? = some a ∧ r.value? = some b := by
  obtain ⟨v, hv⟩ := Option.isSome_iff_exists.mp h
  obtain ⟨op, hop, hv⟩ := Option.bind_eq_some_iff.mp hv
  obtain ⟨a, ha, hv⟩ := Option.bind_eq_some_iff.mp hv
  obtain ⟨b, hb, -⟩ := Option.map_eq_some_iff.mp hv
  exact ⟨op, a, b, hop, ha, hb⟩

/-- The code of a tree that has a value can be written exactly if the pool has
room for all its numbers: a pool that is full on the way stays full. -/
theorem isSome_generate?_iff {share : Bool} {t : Tree} (ht : t.value?.isSome) {c : Chunk}
    (hc : c.consts.size ≤ Chunk.poolLimit) :
    (t.generate? share c).isSome ↔
      (t.values.foldl (Pool.add share) c.consts.toList).length ≤ Chunk.poolLimit := by
  induction t generalizing c with
  | number t =>
      obtain ⟨v, hv⟩ := Option.isSome_iff_exists.mp ht
      rw [value?] at hv
      simp only [generate?, hv, Option.bind_some, Chunk.isSome_load?_iff hc, values,
        Option.toList_some, List.foldl_cons, List.foldl_nil]
  | group _ e _ ih => exact ih ht hc
  | negation _ e ih =>
      rw [value?, Option.isSome_map] at ht
      rw [generate?, Option.isSome_map]
      exact ih ht hc
  | binary l o r ihl ihr =>
      obtain ⟨op, a, b, hop, ha, hb⟩ := value?_binary ht
      rw [values, List.foldl_append]
      cases hd : l.generate? share c with
      | none =>
          have hfull : ¬ (l.values.foldl (Pool.add share) c.consts.toList).length ≤
              Chunk.poolLimit := by
            rw [← ihl (by rw [ha]; rfl) hc, hd]
            exact Bool.false_ne_true
          -- the numbers of the right operand do not make the pool smaller
          have hgrow := (Pool.prefix_foldl_add share
            (l.values.foldl (Pool.add share) c.consts.toList) r.values).length_le
          refine ⟨fun h => ?_, fun h => absurd (Nat.le_trans hgrow h) hfull⟩
          rw [generate?, hd] at h
          exact nomatch h
      | some d =>
          obtain ⟨hconsts, hdc⟩ := generate?_consts hc hd
          rw [← hconsts, ← ihr (by rw [hb]; rfl) hdc, generate?, hd, hop]
          cases hd' : r.generate? share d with
          | none => rw [Option.bind_some, hd', Option.bind_none]
          | some d' => simp [hd']

end Tree

/-! ## The code -/

namespace Chunk

/-- An instruction without an operand has no defect of its own. -/
theorem codeDefect?_byte (poolSize : Nat) (op : Opcode) (h : op ≠ .constant)
    (rest : List UInt8) (offset : Nat) :
    codeDefect? poolSize (op.byte :: rest) offset = codeDefect? poolSize rest (offset + 1) := by
  rw [codeDefect?.eq_def]
  simp only [Opcode.ofByte?_byte]

theorem codeDefect?_load {poolSize : Nat} {index : UInt8} (h : index.toNat < poolSize)
    (rest : List UInt8) (offset : Nat) :
    codeDefect? poolSize (Opcode.constant.byte :: index :: rest) offset =
      codeDefect? poolSize rest (offset + 2) := by
  rw [codeDefect?.eq_def]
  simp only [Opcode.ofByte?_byte, if_pos h]

end Chunk

/-- The bytes are the operations of a tree in postfix order. -/
inductive Codes (pool : Array Value) : Tree → List UInt8 → Prop where
  | number {t : Token} {v : Value} {index : UInt8} :
      Value.read? t.lexeme.toList = some v → pool[index.toNat]? = some v →
      Codes pool (.number t) [Opcode.constant.byte, index]
  | group {l r : Token} {e : Tree} {code : List UInt8} :
      Codes pool e code → Codes pool (.group l e r) code
  | negation {m : Token} {e : Tree} {code : List UInt8} :
      Codes pool e code → Codes pool (.negation m e) (code ++ [Opcode.negate.byte])
  | binary {l r : Tree} {o : Token} {op : Operator} {code code' : List UInt8} :
      Codes pool l code → Codes pool r code' → o.kind.operator? = some op →
      Codes pool (.binary l o r) (code ++ code' ++ [(Opcode.operator op).byte])

namespace Codes

/-- The code of a tree stays its code while the pool grows. -/
theorem mono {pool pool' : Array Value} (hp : pool.toList <+: pool'.toList) {t : Tree}
    {code : List UInt8} (h : Codes pool t code) : Codes pool' t code := by
  induction h with
  | number hv hget =>
      obtain ⟨more, hmore⟩ := hp
      refine .number hv ?_
      rw [← Array.getElem?_toList] at hget ⊢
      rw [← hmore, List.getElem?_append_left (List.getElem?_eq_some_iff.mp hget).1]
      exact hget
  | group _ ih => exact .group ih
  | negation _ ih => exact .negation ih
  | binary _ _ hop ihl ihr => exact .binary ihl ihr hop

/-- A tree that has a code has a value. -/
theorem exists_value {pool : Array Value} {t : Tree} {code : List UInt8}
    (h : Codes pool t code) : ∃ v, t.value? = some v := by
  induction h with
  | number hv _ => exact ⟨_, hv⟩
  | group _ ih => exact ih
  | negation _ ih =>
      obtain ⟨a, ha⟩ := ih
      exact ⟨-a, by rw [Tree.value?, ha]; rfl⟩
  | @binary _ _ _ op _ _ _ _ hop ihl ihr =>
      obtain ⟨a, ha⟩ := ihl
      obtain ⟨b, hb⟩ := ihr
      exact ⟨op.apply a b, by rw [Tree.value?, hop, ha, hb]; rfl⟩

/-- The code of a tree has no defect. -/
theorem codeDefect?_append {pool : Array Value} {t : Tree} {code : List UInt8}
    (h : Codes pool t code) (rest : List UInt8) (offset : Nat) :
    Chunk.codeDefect? pool.size (code ++ rest) offset =
      Chunk.codeDefect? pool.size rest (offset + code.length) := by
  induction h generalizing rest offset with
  | number _ hget => exact Chunk.codeDefect?_load (Array.getElem?_eq_some_iff.mp hget).1 ..
  | group _ ih => exact ih rest offset
  | negation _ ih =>
      rw [List.append_assoc, ih, List.singleton_append, Chunk.codeDefect?_byte _ .negate nofun,
        List.length_append, Nat.add_assoc]
      rfl
  | @binary _ _ _ op _ _ _ _ _ ihl ihr =>
      rw [List.append_assoc, List.append_assoc, ihl, ihr, List.singleton_append,
        Chunk.codeDefect?_byte _ (.operator op) nofun, List.length_append, List.length_append,
        Nat.add_assoc, Nat.add_assoc, Nat.add_assoc]
      rfl

end Codes

namespace Tree

/-- Writing the code of a tree adds its code, with one line for each byte. -/
theorem exists_code {share : Bool} {t : Tree} {c c' : Chunk}
    (hc : c.consts.size ≤ Chunk.poolLimit) (h : t.generate? share c = some c') :
    ∃ code lines, c'.code.toList = c.code.toList ++ code ∧
      c'.lines.toList = c.lines.toList ++ lines ∧ lines.length = code.length ∧
      Codes c'.consts t code := by
  induction t generalizing c c' with
  | number t =>
      obtain ⟨v, hv, h⟩ := Option.bind_eq_some_iff.mp h
      have hload := Chunk.loaded_of_load? hc h
      obtain ⟨index, hcode, hget⟩ := hload.code
      exact ⟨_, _, hcode, hload.lines, rfl, .number hv hget⟩
  | group _ e _ ih =>
      obtain ⟨code, lines, hcode, hlines, hlen, he⟩ := ih hc h
      exact ⟨code, lines, hcode, hlines, hlen, .group he⟩
  | negation _ e ih =>
      obtain ⟨d, hd, rfl⟩ := Option.map_eq_some_iff.mp h
      obtain ⟨code, lines, hcode, hlines, hlen, he⟩ := ih hc hd
      refine ⟨code ++ [Opcode.negate.byte], lines ++ [e.last.line], ?_, ?_, ?_, .negation he⟩
      · simp [Chunk.pushOp, hcode]
      · simp [Chunk.pushOp, hlines]
      · simp [hlen]
  | binary l o r ihl ihr =>
      obtain ⟨d, hd, h⟩ := Option.bind_eq_some_iff.mp h
      obtain ⟨d', hd', h⟩ := Option.bind_eq_some_iff.mp h
      obtain ⟨op, hop, rfl⟩ := Option.map_eq_some_iff.mp h
      have hdc := (generate?_consts hc hd).2
      obtain ⟨code, lines, hcode, hlines, hlen, hl⟩ := ihl hc hd
      obtain ⟨code', lines', hcode', hlines', hlen', hr⟩ := ihr hdc hd'
      have hgrow : d.consts.toList <+: d'.consts.toList := by
        rw [(generate?_consts hdc hd').1]
        exact Pool.prefix_foldl_add ..
      refine ⟨code ++ code' ++ [(Opcode.operator op).byte], lines ++ lines' ++ [r.last.line],
        ?_, ?_, ?_, .binary (hl.mono hgrow) hr hop⟩
      · simp [Chunk.pushOp, hcode, hcode']
      · simp [Chunk.pushOp, hlines, hlines']
      · simp [hlen, hlen']

end Tree

end Abacus
