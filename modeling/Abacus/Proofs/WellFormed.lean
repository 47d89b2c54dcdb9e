import Abacus.Proofs.Acceptance
import Abacus.Proofs.Instructions
import Abacus.Proofs.Invariants
import Abacus.Proofs.Tokenizing

/-!
# Every compilation leaves a well-formed chunk

The compiler goes on behind a problem, and what it writes then is of no use.  It is
a well-formed chunk all the same.  `Chunk.Open` says what a chunk is like while it
is being written: whole instructions, none of them a `ret`, and a pool that has the
entries they name.  Every step keeps this, whatever the tokens are, and the `ret` at
the end closes the chunk.

*Lines.*  For a text the lines of a chunk come in order.  Code takes its line from
the token read last, the tokens take theirs from the lexer, and the lexer counts up.
`State.Ordered` is this chain; it needs that the count does not run over.
-/

namespace Abacus

namespace Chunk

/-- A chunk that is being written. -/
structure Open (share : Bool) (c : Chunk) : Prop where
  code : ∃ is, c.code.toList = Instruction.encode is ∧ .ret ∉ is ∧
    ∀ i ∈ is, i.Within c.consts.size
  lines : c.lines.size = c.code.size
  pool : c.consts.size ≤ poolLimit
  distinct : share = true → c.consts.toList.Nodup

/-- A chunk that can be run. -/
structure WellFormed (share : Bool) (c : Chunk) : Prop where
  valid : c.defect? = none
  lines : c.lines.size = c.code.size
  pool : c.consts.size ≤ poolLimit
  /-- There is one `ret`, at the end. -/
  code : ∃ is, Instruction.decode? c.code.toList = some (is ++ [.ret]) ∧ .ret ∉ is
  distinct : share = true → c.consts.toList.Nodup

theorem Open.empty (share : Bool) : Open share .empty where
  code := ⟨[], rfl, by simp, by simp⟩
  lines := rfl
  pool := Nat.zero_le _
  distinct _ := List.nodup_nil

end Chunk

theorem Instruction.Within.mono {m n : Nat} (hmn : m ≤ n) {i : Instruction} (h : i.Within m) :
    i.Within n := by
  cases i with
  | load index => exact Nat.lt_of_lt_of_le h hmn
  | ret => trivial
  | operator o => trivial
  | negate => trivial

namespace Chunk.Open

variable {share : Bool} {c c' : Chunk}

/-- One more instruction with its lines, and possibly more of the pool. -/
theorem extend (h : Open share c) {i : Instruction} (hi : i ≠ .ret)
    (hcode : c'.code.toList = c.code.toList ++ i.bytes)
    (hlines : c'.lines.size = c.lines.size + i.bytes.length)
    (hgrow : c.consts.size ≤ c'.consts.size) (hwithin : i.Within c'.consts.size)
    (hpool : c'.consts.size ≤ poolLimit) (hdistinct : share = true → c'.consts.toList.Nodup) :
    Open share c' := by
  obtain ⟨is, his, hret, hall⟩ := h.code
  refine ⟨⟨is ++ [i], ?_, ?_, ?_⟩, ?_, hpool, hdistinct⟩
  · rw [hcode, his, Instruction.encode_append, Instruction.encode_cons, Instruction.encode_nil,
      List.append_nil]
  · simp [hret, hi.symm]
  · intro j hj
    rcases List.mem_append.mp hj with hj | hj
    · exact (hall j hj).mono hgrow
    · rw [List.mem_singleton.mp hj]
      exact hwithin
  · rw [hlines, h.lines, ← Array.length_toList, ← Array.length_toList, hcode, List.length_append]

theorem negate (h : Open share c) (line : UInt32) : Open share (c.pushOp .negate line) :=
  h.extend (i := .negate) nofun (by simp [pushOp, Instruction.bytes])
    (by simp [pushOp, Instruction.bytes]) (Nat.le_refl _) trivial h.pool h.distinct

theorem operator (h : Open share c) (o : Operator) (line : UInt32) :
    Open share (c.pushOp (.operator o) line) :=
  h.extend (i := .operator o) nofun (by simp [pushOp, Instruction.bytes])
    (by simp [pushOp, Instruction.bytes]) (Nat.le_refl _) trivial h.pool h.distinct

theorem load (h : Open share c) {v : Value} {line : UInt32}
    (hload : c.load? share v line = some c') : Open share c' := by
  have hloaded := loaded_of_load? h.pool hload
  have hfits : (Pool.add share c.consts.toList v).length ≤ poolLimit :=
    (isSome_load?_iff h.pool).mp (by rw [hload]; rfl)
  obtain ⟨index, hcode, hget⟩ := hloaded.code
  refine h.extend (i := .load index) nofun hcode ?_ ?_ ?_ ?_ ?_
  · rw [← Array.length_toList, hloaded.lines, List.length_append, Array.length_toList]
    rfl
  · rw [← Array.length_toList, ← Array.length_toList, hloaded.consts]
    exact (Pool.prefix_add share _ v).length_le
  · exact (Array.getElem?_eq_some_iff.mp hget).1
  · rw [← Array.length_toList, hloaded.consts]
    exact hfits
  · rintro rfl
    rw [hloaded.consts]
    exact Pool.nodup_foldl_add (h.distinct rfl) [v]

/-- A `ret` closes a chunk. -/
theorem close (h : Open share c) (line : UInt32) : WellFormed share (c.pushOp .ret line) := by
  obtain ⟨is, his, hret, hall⟩ := h.code
  have hlines : (c.pushOp .ret line).lines.size = (c.pushOp .ret line).code.size := by
    simp [pushOp, h.lines]
  have hcode : (c.pushOp .ret line).code.toList = Instruction.encode (is ++ [.ret]) := by
    rw [Instruction.encode_append, ← his]
    simp [pushOp, Instruction.bytes]
  refine ⟨?_, hlines, h.pool, ⟨is, ?_, hret⟩, h.distinct⟩
  · have hwithin : ∀ i ∈ is ++ [.ret], i.Within c.consts.size := by
      intro i hi
      rcases List.mem_append.mp hi with hi | hi
      · exact hall i hi
      · rw [List.mem_singleton.mp hi]
        trivial
    have hchecked := codeDefect?_encode_append hwithin [] 0
    rw [List.append_nil] at hchecked
    rw [defect?, if_neg (not_not.mpr hlines.symm), hcode]
    exact hchecked
  · rw [hcode, Instruction.decode?_encode]

end Chunk.Open

namespace Compiler

/-- The chunk is open from the first step to the last. -/
theorem invariant_open {σ : Type} [TokenSource σ] (options : Options) :
    Invariant options fun s : State σ => s.chunk.Open options.shareConstants where
  report _ h := by rwa [State.chunk_report]
  negate h := h.negate _
  operator o h := h.operator o _
  writeLiteral {s} v h := by
    rw [State.chunk_writeLiteral]
    cases hload : s.chunk.load? options.shareConstants v s.previous.line with
    | none => exact h
    | some c => exact h.load hload
  moveOn h := by rwa [State.chunk_moveOn]

theorem wellFormed_compileFrom {σ : Type} [TokenSource σ] (options : Options) (source : σ) :
    (compileFrom options source).chunk.WellFormed options.shareConstants := by
  have hinitial : (initial source).chunk.Open options.shareConstants := Chunk.Open.empty _
  obtain ⟨s, hs, hfinal⟩ := (invariant_open options).exists_before_return hinitial
  change (finalState options source).chunk.WellFormed _
  rw [hfinal]
  exact hs.close _

end Compiler

/-! ## Lines -/

namespace Lexer

/-- A token ends where the lexer goes on, and lines are counted up to there. -/
theorem next_line (l : Lexer) :
    l.next.1.line = l.next.2.line ∧ ∃ front, l.rest = front ++ l.next.2.rest ∧
      l.next.2.line = l.line + (front.count '\n').toUInt32 := by
  rcases l.next_cases with ⟨line, -, hline, hnext⟩ | ⟨w, u, rest, t, htext, -, -, -, ht, hnext⟩
  · rw [hnext]
    exact ⟨rfl, l.rest, (List.append_nil _).symm, hline⟩
  · rw [hnext]
    exact ⟨rfl, w ++ u, by rw [htext, List.append_assoc], ht⟩

/-- The lexer has counted some of the line ends of a text and has the others before
it. -/
structure Counts (total : Nat) (l : Lexer) : Prop where
  pos : 1 ≤ l.line
  sum : l.line.toNat + l.rest.count '\n' = 1 + total

variable {total : Nat} {l : Lexer}

theorem Counts.next (h : l.Counts total) (hlt : 1 + total < UInt32.size) :
    l.next.2.Counts total ∧ l.line ≤ l.next.2.line := by
  obtain ⟨-, front, htext, hline⟩ := l.next_line
  have hpos : 1 ≤ l.line.toNat := h.pos
  have hsum := h.sum
  rw [htext, List.count_append] at hsum
  have hnat : l.next.2.line.toNat = 1 + (l.line.toNat - 1 + front.count '\n') := by
    rw [hline]
    exact toNat_line_add (by omega) (by omega)
  have hle : l.line ≤ l.next.2.line := by
    rw [UInt32.le_iff_toNat_le]
    omega
  exact ⟨⟨UInt32.le_trans h.pos hle, by omega⟩, hle⟩

end Lexer

namespace Compiler

/-- What is written has the lines of tokens read before, in their order, and the
tokens have the lines that the lexer has counted. -/
structure State.Ordered (total : Nat) (s : State Lexer) : Prop where
  counts : s.source.Counts total
  previous_le : s.previous.line ≤ s.current.line
  current_le : s.current.line ≤ s.source.line
  sorted : s.chunk.lines.toList.Pairwise (· ≤ ·)
  written : ∀ line ∈ s.chunk.lines.toList, 1 ≤ line ∧ line ≤ s.previous.line
  pos : 1 ≤ s.previous.line

namespace State.Ordered

variable {total : Nat} {options : Options} {s : State Lexer}

theorem initial {l : Lexer} (h : l.Counts total) : (initial l).Ordered total where
  counts := h
  previous_le := UInt32.le_refl 1
  current_le := h.pos
  sorted := .nil
  written := nofun
  pos := UInt32.le_refl 1

theorem report (h : s.Ordered total) (t : Token) (problem : Problem) :
    (s.report t problem).Ordered total := by
  unfold State.report
  split
  · exact h
  · exact ⟨h.counts, h.previous_le, h.current_le, h.sorted, h.written, h.pos⟩

/-- One more byte has the line of the token read last. -/
theorem writeByte (h : s.Ordered total) (byte : UInt8) : (s.writeByte byte).Ordered total := by
  refine ⟨h.counts, h.previous_le, h.current_le, ?_, ?_, h.pos⟩
  · change (s.chunk.lines.push s.previous.line).toList.Pairwise (· ≤ ·)
    rw [Array.toList_push]
    refine List.pairwise_append.mpr ⟨h.sorted, List.pairwise_singleton _ _, ?_⟩
    intro line hline last hlast
    rw [List.mem_singleton.mp hlast]
    exact (h.written line hline).2
  · intro line hline
    change line ∈ (s.chunk.lines.push s.previous.line).toList at hline
    rw [Array.toList_push, List.mem_append, List.mem_singleton] at hline
    rcases hline with hline | rfl
    · exact h.written line hline
    · exact ⟨h.pos, UInt32.le_refl _⟩

theorem writeLoad (h : s.Ordered total) (index : Nat) : (s.writeLoad index).Ordered total := by
  unfold State.writeLoad Chunk.pushLoad
  split
  next operand _ => exact (h.writeByte Opcode.constant.byte).writeByte operand
  next => exact h

theorem writeLiteral (h : s.Ordered total) (v : Value) :
    (s.writeLiteral options v).Ordered total := by
  unfold State.writeLiteral
  split
  · exact h.writeLoad _
  · split
    · have hadded : ({ s with chunk := s.chunk.addValue v } : State Lexer).Ordered total :=
        ⟨h.counts, h.previous_le, h.current_le, h.sorted, h.written, h.pos⟩
      exact hadded.writeLoad _
    · exact h.report _ _

theorem receive (h : s.Ordered total) (hlt : 1 + total < UInt32.size) :
    (s.receive options s.source.next.1 s.source.next.2).Ordered total := by
  obtain ⟨hcounts, hle⟩ := h.counts.next hlt
  -- a token has the line to which the lexer has counted behind it
  have hline := s.source.next_line.1
  have hprevious : s.previous.line ≤ s.source.next.1.line := by
    rw [hline]
    exact UInt32.le_trans h.previous_le (UInt32.le_trans h.current_le hle)
  refine State.receive_induction ?_ (fun _ h => ?_) (fun h => h.report _ _)
  · exact ⟨hcounts, hprevious, hline ▸ UInt32.le_refl _, h.sorted, h.written, h.pos⟩
  · exact ⟨h.counts, h.previous_le, h.current_le, h.sorted, h.written, h.pos⟩

theorem fetch (h : s.Ordered total) (hlt : 1 + total < UInt32.size) :
    (s.fetch options).Ordered total := by
  fun_induction State.fetch options s with
  | case1 s step _ ih => exact ih (h.receive hlt)
  | case2 s step _ => exact h.receive hlt

theorem moveOn (h : s.Ordered total) (hlt : 1 + total < UInt32.size) :
    (s.moveOn options).Ordered total := by
  have hmoved : ({ s with previous := s.current } : State Lexer).Ordered total :=
    ⟨h.counts, UInt32.le_refl _, h.current_le, h.sorted,
      fun line hline => ⟨(h.written line hline).1,
        UInt32.le_trans (h.written line hline).2 h.previous_le⟩,
      UInt32.le_trans h.pos h.previous_le⟩
  exact hmoved.fetch hlt

/-- No line that is written is behind the end of the text. -/
theorem line_le (h : s.Ordered total) {line : UInt32} (hline : line ∈ s.chunk.lines.toList) :
    1 ≤ line.toNat ∧ line.toNat ≤ 1 + total := by
  obtain ⟨hpos, hle⟩ := h.written line hline
  have hlast := UInt32.le_trans (UInt32.le_trans hle h.previous_le) h.current_le
  rw [UInt32.le_iff_toNat_le] at hpos hlast
  have := h.counts.sum
  exact ⟨hpos, by omega⟩

end State.Ordered

theorem invariant_ordered (options : Options) {total : Nat} (hlt : 1 + total < UInt32.size) :
    Invariant options (State.Ordered total) where
  report _ h := h.report _ _
  negate h := h.writeByte _
  operator _ h := h.writeByte _
  writeLiteral v h := h.writeLiteral v
  moveOn h := h.moveOn hlt

/-- The lines of a text compiled are in order, and are lines of the text. -/
theorem lines_compile (options : Options) {text : String}
    (h : text.toList.count '\n' < UInt32.size - 1) :
    (compile options text).chunk.lines.toList.Pairwise (· ≤ ·) ∧
    ∀ line ∈ (compile options text).chunk.lines.toList,
      1 ≤ line.toNat ∧ line.toNat ≤ 1 + text.toList.count '\n' := by
  have hcounts : (Lexer.start text).Counts (text.toList.count '\n') := ⟨UInt32.le_refl 1, rfl⟩
  obtain ⟨s, hs, hfinal⟩ := (invariant_ordered options (by omega)).exists_before_return
    (State.Ordered.initial hcounts)
  have hwritten : (finalState options (Lexer.start text)).Ordered (text.toList.count '\n') := by
    rw [hfinal]
    exact hs.writeByte _
  exact ⟨hwritten.sorted, fun line hline => hwritten.line_le hline⟩

/-- Every compilation leaves a well-formed chunk, with or without a problem, and for a
text its lines are in order. -/
theorem compilations_leave_well_formed_chunks :
    (∀ (options : Options) (tokens : Replay),
      (compileFrom options tokens).chunk.WellFormed options.shareConstants) ∧
    ∀ (options : Options) (text : String),
      (compile options text).chunk.WellFormed options.shareConstants ∧
      (text.toList.count '\n' < UInt32.size - 1 →
        (compile options text).chunk.lines.toList.Pairwise (· ≤ ·) ∧
        ∀ line ∈ (compile options text).chunk.lines.toList,
          1 ≤ line.toNat ∧ line.toNat ≤ 1 + text.toList.count '\n') :=
  ⟨fun options tokens => wellFormed_compileFrom options tokens,
    fun options _ => ⟨wellFormed_compileFrom options _, lines_compile options⟩⟩

/-- A character of no use and behind it a missing operand: the sum is written all the
same, on the second line. -/
theorem compilations_leave_well_formed_chunks_at_missing_operand :
    "1 +\n@ * 1".toList.count '\n' < UInt32.size - 1 ∧
    (compile { shareConstants := true } "1 +\n@ * 1").diagnostic.isSome ∧
    (compile { shareConstants := true } "1 +\n@ * 1").chunk.WellFormed true ∧
    (compile { shareConstants := true } "1 +\n@ * 1").chunk.lines.toList.Pairwise (· ≤ ·) ∧
    2 ∈ (compile { shareConstants := true } "1 +\n@ * 1").chunk.lines.toList ∧
    (2 : UInt32).toNat ≤ 1 + "1 +\n@ * 1".toList.count '\n' := by
  have hcount : "1 +\n@ * 1".toList.count '\n' < UInt32.size - 1 := by decide
  have hproblem : (compile { shareConstants := true } "1 +\n@ * 1").diagnostic.isSome := by
    decide +kernel
  have hmem : 2 ∈ (compile { shareConstants := true } "1 +\n@ * 1").chunk.lines.toList := by
    decide +kernel
  obtain ⟨hformed, hlines⟩ :=
    compilations_leave_well_formed_chunks.2 { shareConstants := true } "1 +\n@ * 1"
  obtain ⟨hsorted, hbounds⟩ := hlines hcount
  exact ⟨hcount, hproblem, hformed, hsorted, hmem, (hbounds 2 hmem).2⟩

end Compiler

end Abacus
