import Abacus.Proofs.Refinement
import Abacus.Proofs.Statements
import Mathlib.Data.List.Forall2
import Mathlib.Data.List.Induction

/-!
# What a text of assembly means

`Abacus.Proofs.Statements` says what a single line says.  Here the lines of a text are
put together.  The values of the `CONSTANT` lines, in order, are the pool.  The
instructions, in order, are the code: a `CONSTANT` line loads the entry that it has put
into the pool, and every other line stands for an instruction as it is.

*Lines.*  An instruction goes with the number of its line, which all its bytes carry.
The numbers here are natural numbers.  Those in a chunk have thirty-two bits, and a text
with fewer lines than these can count has the same numbers in both.  Such a text is
never too long.

*Refusal.*  A line can be refused for what it says, or because the pool is full.  The
first such line is the one that is reported, and what follows it does not matter
(`RefusedAt`).  A `CONSTANT` line that finds room in the pool is never refused for its
index: the index is below 256, and the check that it fits into a byte cannot fail
(`assembleLine_cases`).
-/

namespace Abacus

namespace Instruction

/-- What the bytes of some instructions carry, if every instruction carries it for all of
its bytes. -/
def spread {α : Type} (l : List (Instruction × α)) : List α :=
  l.flatMap fun e => List.replicate e.1.bytes.length e.2

theorem spread_append {α : Type} (l l' : List (Instruction × α)) :
    spread (l ++ l') = spread l ++ spread l' := List.flatMap_append

theorem length_spread {α : Type} (l : List (Instruction × α)) :
    (spread l).length = (encode (l.map Prod.fst)).length := by
  induction l with
  | nil => rfl
  | cons e l ih =>
      simp only [spread, List.flatMap_cons, List.length_append, List.length_replicate,
        List.map_cons, encode_cons]
      exact congrArg _ ih

end Instruction

open Instruction

namespace Assembly

/-- The values that some lines put into the pool. -/
def values (said : List (Option Item)) : List Value :=
  said.filterMap fun
    | some (.constant v) => some v
    | _ => none

/-- The instructions of some lines, each with the number of its line.  The first of the lines
has the given number, and the pool has the given size before it. -/
def instructions (line size : Nat) : List (Option Item) → List (Instruction × Nat)
  | [] => []
  | none :: rest => instructions (line + 1) size rest
  | some (.constant _) :: rest =>
      (.load size.toUInt8, line) :: instructions (line + 1) (size + 1) rest
  | some (.instruction i) :: rest => (i, line) :: instructions (line + 1) size rest

/-- One line after the other. -/
theorem instructions_cons (line size : Nat) (said : Option Item) (rest : List (Option Item)) :
    instructions line size (said :: rest) = instructions line size [said] ++
      instructions (line + 1) (size + (values [said]).length) rest := by
  rcases said with _ | (v | i) <;> rfl

theorem values_cons (said : Option Item) (rest : List (Option Item)) :
    values (said :: rest) = values [said] ++ values rest := by
  rcases said with _ | (v | i) <;> rfl

/-- One chunk has what some lines say behind what another has. -/
structure Extended (line : Nat) (said : List (Option Item)) (c c' : Chunk) : Prop where
  consts : c'.consts.toList = c.consts.toList ++ values said
  code : c'.code.toList =
    c.code.toList ++ encode ((instructions line c.consts.size said).map Prod.fst)
  lines : c'.lines.toList.map UInt32.toNat =
    c.lines.toList.map UInt32.toNat ++ spread (instructions line c.consts.size said)

namespace Extended

variable {line : Nat} {said : List (Option Item)} {c c' c'' : Chunk}

theorem nil (line : Nat) (c : Chunk) : Extended line [] c c where
  consts := (List.append_nil _).symm
  code := (List.append_nil _).symm
  lines := (List.append_nil _).symm

theorem size_eq (h : Extended line said c c') :
    c'.consts.size = c.consts.size + (values said).length := by
  rw [← Array.length_toList, h.consts, List.length_append, Array.length_toList]

theorem cons {first : Option Item} (h : Extended line [first] c c')
    (h' : Extended (line + 1) said c' c'') : Extended line (first :: said) c c'' := by
  have hinstructions := instructions_cons line c.consts.size first said
  rw [← h.size_eq] at hinstructions
  constructor
  · rw [h'.consts, h.consts, values_cons first said, List.append_assoc]
  · rw [h'.code, h.code, hinstructions, List.map_append, encode_append, List.append_assoc]
  · rw [h'.lines, h.lines, hinstructions, spread_append, List.append_assoc]

/-- There is one such chunk. -/
theorem unique (h : Extended line said c c') (h' : Extended line said c c'') : c' = c'' := by
  have hconsts := h.consts.trans h'.consts.symm
  have hcode := h.code.trans h'.code.symm
  have hlines : c'.lines.toList = c''.lines.toList :=
    List.map_injective_iff.mpr (fun _ _ => UInt32.toNat_inj.mp) (h.lines.trans h'.lines.symm)
  cases c'
  cases c''
  simp only [Array.toList_inj] at hconsts hcode hlines
  rw [hconsts, hcode, hlines]

end Extended

/-! ## One line -/

/-- An instruction is added with its bytes, all of them on one line. -/
theorem append_instruction (c : Chunk) (line : UInt32) (i : Instruction) :
    ∃ c', append c line (Item.instruction i).statement = .ok c' ∧ c'.consts = c.consts ∧
      c'.code.toList = c.code.toList ++ i.bytes ∧
      c'.lines.toList = c.lines.toList ++ List.replicate i.bytes.length line := by
  cases i with
  | ret => exact ⟨_, rfl, rfl, by simp [Chunk.pushOp, bytes], by simp [Chunk.pushOp, bytes]⟩
  | load index =>
      exact ⟨_, rfl, rfl, by simp [Chunk.pushOp, bytes],
        by simp [Chunk.pushOp, bytes, List.replicate]⟩
  | operator o => exact ⟨_, rfl, rfl, by simp [Chunk.pushOp, bytes], by simp [Chunk.pushOp, bytes]⟩
  | negate => exact ⟨_, rfl, rfl, by simp [Chunk.pushOp, bytes], by simp [Chunk.pushOp, bytes]⟩

/-- A value that finds room in the pool is loaded by an index that fits into a byte. -/
theorem append_constant_of_lt {c : Chunk} (h : c.consts.size < Chunk.poolLimit) (line : UInt32)
    (v : Value) :
    append c line (.constant v) = .ok ((c.addValue v).pushLoad c.consts.size line) := by
  rw [append, if_pos h, Chunk.pushLoad_of_lt h, Chunk.operand?_of_lt h]

/-- What is on a line by itself is never an index that does not fit into a byte. -/
theorem ne_indexTooWide_of_readLine {text : List Char} {e : Complaint}
    (h : readLine text = .error e) : e ≠ .indexTooWide := by
  rintro rfl
  unfold readLine at h
  split at h
  next => cases h
  next => cases h
  next =>
    dsimp only at h
    split at h
    next =>
      unfold readPlain at h
      split at h
      next => cases h
      next => split at h <;> cases h
    next =>
      unfold readApplied at h
      split at h
      next => split at h <;> cases h
      next =>
        split at h
        next => split at h <;> cases h
        next => cases h

/-- What is said on a line is added to the chunk if it is understood and the pool has room for
it, and otherwise the line is refused, but not for the width of an index. -/
theorem assembleLine_cases {c : Chunk} (hpool : c.consts.size ≤ 256) (line : UInt32)
    (text : List Char) :
    (∃ said c', Says text said ∧ c.consts.size + (values [said]).length ≤ 256 ∧
      assembleLine c line text = .ok c' ∧ Extended line.toNat [said] c c') ∨
    ∃ e, assembleLine c line text = .error e ∧ e ≠ .indexTooWide ∧
      ((∀ said, ¬ Says text said) ∨
        c.consts.size = 256 ∧ ∃ v, Says text (some (.constant v))) := by
  unfold assembleLine
  cases hread : readLine text with
  | error e =>
      refine .inr ⟨e, rfl, ne_indexTooWide_of_readLine hread, .inl fun said hsays => ?_⟩
      cases hread.symm.trans hsays.readLine_eq
  | ok s =>
      obtain ⟨said, hsays, rfl⟩ := says_of_readLine hread
      rcases said with _ | (v | i)
      · have hsilent : Extended line.toNat [none] c c :=
          ⟨(List.append_nil _).symm, (List.append_nil _).symm, (List.append_nil _).symm⟩
        exact .inl ⟨none, c, hsays, hpool, rfl, hsilent⟩
      · by_cases hroom : c.consts.size < Chunk.poolLimit
        · refine .inl ⟨_, _, hsays, hroom, append_constant_of_lt hroom line v, ?_⟩
          rw [Chunk.pushLoad_of_lt hroom]
          constructor
          · simp [Chunk.pushOp, values]
          · simp [Chunk.pushOp, instructions, bytes]
          · simp [Chunk.pushOp, instructions, spread, bytes, List.replicate]
        · have hfull : c.consts.size = 256 := Nat.le_antisymm hpool (Nat.le_of_not_lt hroom)
          exact .inr ⟨.tooManyConstants, if_neg hroom, by decide, .inr ⟨hfull, v, hsays⟩⟩
      · obtain ⟨c', hadded, hconsts, hcode, hlines⟩ := append_instruction c line i
        refine .inl ⟨_, c', hsays, hpool, hadded, ?_⟩
        constructor
        · simp [hconsts, values]
        · simp [hcode, instructions]
        · simp [hlines, instructions, spread]

/-! ## All lines -/

/-- Lines that are understood are added one after the other, as far as the pool goes. -/
theorem assembleFrom_append {front : List (List Char)} {said : List (Option Item)}
    (h : List.Forall₂ Says front said) {number : Nat}
    (hnumber : number + front.length < UInt32.size) {c : Chunk}
    (hpool : c.consts.size + (values said).length ≤ 256) (rest : List (List Char)) :
    ∃ c', Extended number said c c' ∧
      assembleFrom number (front ++ rest) c = assembleFrom (number + front.length) rest c' := by
  induction h generalizing number c with
  | nil => exact ⟨c, .nil _ c, rfl⟩
  | @cons text first front said hsays hfront ih =>
      rw [values_cons, List.length_append] at hpool
      rw [List.length_cons] at hnumber
      have hlt : number < UInt32.size := by omega
      have hline : number.toUInt32.toNat = number := UInt32.toNat_ofNat_of_lt' hlt
      rcases assembleLine_cases (c := c) (by omega) number.toUInt32 text with
        ⟨first', c₁, hsays', -, hadded, hextended⟩ | ⟨e, -, -, hrefused | ⟨hfull, v, hv⟩⟩
      · obtain rfl : first' = first := hsays'.unique hsays
        have hsize := hextended.size_eq
        rw [hline] at hextended
        have hnext : number + 1 + front.length < UInt32.size := by omega
        obtain ⟨c₂, hrest, hassembled⟩ := ih hnext (c := c₁) (by omega)
        refine ⟨c₂, hextended.cons hrest, ?_⟩
        rw [List.cons_append, assembleFrom, if_pos hlt, hadded, List.length_cons,
          Nat.add_comm front.length, ← Nat.add_assoc]
        exact hassembled
      · exact absurd hsays (hrefused first)
      · obtain rfl : first = some (.constant v) := hsays.unique hv
        simp only [values, List.filterMap_cons, List.filterMap_nil, List.length_singleton] at hpool
        omega

/-- The number of the first line that is refused: it is not understood, or it is a `CONSTANT`
line and there are 256 before it. -/
def RefusedAt (texts : List (List Char)) (number : Nat) : Prop :=
  ∃ front text rest said, texts = front ++ text :: rest ∧ number = front.length + 1 ∧
    List.Forall₂ Says front said ∧ (values said).length ≤ 256 ∧
    ((∀ s, ¬ Says text s) ∨ (values said).length = 256 ∧ ∃ v, Says text (some (.constant v)))

/-- Lines that are understood, and whose values the pool has room for. -/
def Understood (texts : List (List Char)) (said : List (Option Item)) : Prop :=
  List.Forall₂ Says texts said ∧ (values said).length ≤ 256

/-- A text is understood, or there is a first line that is refused. -/
theorem understood_or_refused (texts : List (List Char)) :
    (∃ said, Understood texts said) ∨ ∃ number, RefusedAt texts number := by
  induction texts using List.reverseRecOn with
  | nil => exact .inl ⟨[], .nil, Nat.zero_le _⟩
  | append_singleton front text ih =>
      rcases ih with ⟨said, hfront, hvalues⟩ | ⟨number, before, refused, rest, said, rfl, hrefused⟩
      · by_cases hsays : ∃ s, Says text s
        · obtain ⟨s, hs⟩ := hsays
          have hboth : List.Forall₂ Says (front ++ [text]) (said ++ [s]) :=
            List.rel_append hfront (.cons hs .nil)
          rcases s with _ | (v | i)
          · exact .inl ⟨_, hboth, by simpa [values] using hvalues⟩
          · by_cases hfull : (values said).length = 256
            · exact .inr ⟨_, front, text, [], said, rfl, rfl, hfront, hvalues, .inr ⟨hfull, v, hs⟩⟩
            · refine .inl ⟨_, hboth, ?_⟩
              have hlength : (values (said ++ [some (.constant v)])).length =
                  (values said).length + 1 := by simp [values]
              omega
          · exact .inl ⟨_, hboth, by simpa [values] using hvalues⟩
        · exact .inr ⟨_, front, text, [], said, rfl, rfl, hfront, hvalues,
            .inl fun s hs => hsays ⟨s, hs⟩⟩
      · refine .inr ⟨number, before, refused, rest ++ [text], said, ?_, hrefused⟩
        rw [List.append_assoc, List.cons_append]

/-- A text that is understood is assembled. -/
theorem Understood.assemble {text : String}
    (hlines : (Text.lines text.toList).length < UInt32.size - 1) {said : List (Option Item)}
    (h : Understood (Text.lines text.toList) said) :
    ∃ c, assemble text = .ok c ∧ Extended 1 said .empty c := by
  have hpool : Chunk.empty.consts.size + (values said).length ≤ 256 := by
    simpa [Chunk.empty] using h.2
  have hfirst : 1 + (Text.lines text.toList).length < UInt32.size := by omega
  obtain ⟨c, hextended, hassembled⟩ := assembleFrom_append h.1 hfirst hpool []
  rw [List.append_nil] at hassembled
  exact ⟨c, hassembled, hextended⟩

/-- A text with a line that is refused is refused there, and not for the width of an index. -/
theorem RefusedAt.assemble {text : String}
    (hlines : (Text.lines text.toList).length < UInt32.size - 1) {number : Nat}
    (h : RefusedAt (Text.lines text.toList) number) :
    ∃ line complaint, assemble text = .error (.refused line complaint) ∧ line.toNat = number ∧
      complaint ≠ .indexTooWide := by
  obtain ⟨front, refused, rest, said, htexts, rfl, hfront, hvalues, hrefused⟩ := h
  rw [htexts, List.length_append, List.length_cons] at hlines
  have hpool : Chunk.empty.consts.size + (values said).length ≤ 256 := by
    simpa [Chunk.empty] using hvalues
  have hfirst : 1 + front.length < UInt32.size := by omega
  obtain ⟨c, hextended, hassembled⟩ :=
    assembleFrom_append hfront hfirst hpool (refused :: rest)
  have hsize : c.consts.size = (values said).length := by
    rw [hextended.size_eq]
    simp [Chunk.empty]
  rw [Assembly.assemble, htexts, hassembled, assembleFrom, if_pos hfirst]
  rcases assembleLine_cases (c := c) (by omega) (1 + front.length).toUInt32 refused with
    ⟨s, c', hs, hroom, -⟩ | ⟨complaint, hrefusal, hindex, -⟩
  · rcases hrefused with hnever | ⟨hfull, v, hv⟩
    · exact absurd hs (hnever s)
    · obtain rfl : s = some (.constant v) := hs.unique hv
      simp only [values, List.filterMap_cons, List.filterMap_nil, List.length_singleton] at hroom
      omega
  · rw [hrefusal]
    refine ⟨_, complaint, rfl, ?_, hindex⟩
    rw [Nat.add_comm front.length]
    exact UInt32.toNat_ofNat_of_lt' hfirst

/-! ## The check of what is assembled -/

theorem within_iff {i : Instruction} {poolSize : Nat} :
    i.Within poolSize ↔ ∀ index, i = .load index → index.toNat < poolSize := by
  cases i with
  | load index =>
      constructor
      · rintro h _ ⟨rfl⟩
        exact h
      · intro h
        exact h index rfl
  | ret => exact ⟨fun _ => nofun, fun _ => trivial⟩
  | operator o => exact ⟨fun _ => nofun, fun _ => trivial⟩
  | negate => exact ⟨fun _ => nofun, fun _ => trivial⟩

/-- What a `CONSTANT` line loads is in the pool, so only `LOAD` lines can miss it. -/
theorem within_instructions_iff (line size : Nat) {poolSize : Nat} {said : List (Option Item)}
    (hsize : size + (values said).length ≤ poolSize) (hpool : poolSize ≤ 256) :
    (∀ i ∈ (instructions line size said).map Prod.fst, i.Within poolSize) ↔
      ∀ index, some (.instruction (.load index)) ∈ said → index.toNat < poolSize := by
  induction said generalizing line size with
  | nil => simp [instructions]
  | cons first rest ih =>
      rw [values_cons, List.length_append] at hsize
      rcases first with _ | (v | i)
      · have hrest := ih (line + 1) size (by omega)
        simpa [instructions] using hrest
      · have hone : (values [some (.constant v)]).length = 1 := rfl
        have hrest := ih (line + 1) (size + 1) (by omega)
        have hload : (Instruction.load size.toUInt8).Within poolSize := by
          change size.toUInt8.toNat < poolSize
          have hlimit : size < Chunk.poolLimit := Nat.lt_of_lt_of_le (by omega) hpool
          rw [Chunk.toNat_toUInt8_of_lt hlimit]
          omega
        simpa [instructions, hload] using hrest
      · have hrest := ih (line + 1) size (by omega)
        rw [instructions, List.map_cons, List.forall_mem_cons, hrest, within_iff]
        constructor
        · rintro ⟨hi, hothers⟩ index hindex
          rcases List.mem_cons.mp hindex with heq | hindex
          · exact hi index (Item.instruction.inj (Option.some.inj heq)).symm
          · exact hothers index hindex
        · intro h
          refine ⟨?_, fun index hindex => h index (List.mem_cons_of_mem _ hindex)⟩
          rintro index rfl
          exact h index List.mem_cons_self

/-- An assembled chunk is valid exactly if every `LOAD` line names a value of the pool, which may
stand before that line or behind it. -/
theorem Extended.defect?_eq_none_iff {said : List (Option Item)} {c : Chunk}
    (h : Extended 1 said .empty c) (hvalues : (values said).length ≤ 256) :
    c.defect? = none ↔
      ∀ index, some (.instruction (.load index)) ∈ said → index.toNat < (values said).length := by
  have hsize : c.consts.size = (values said).length := by
    rw [h.size_eq]
    simp [Chunk.empty]
  have hcode : c.code.toList = encode ((instructions 1 0 said).map Prod.fst) := h.code
  have hnumbers : c.lines.toList.map UInt32.toNat = spread (instructions 1 0 said) := h.lines
  have hlines : c.lines.size = c.code.size := by
    rw [← Array.length_toList, ← Array.length_toList, hcode, ← length_spread, ← hnumbers,
      List.length_map]
  rw [← within_instructions_iff 1 0 (by omega) hvalues, ← hsize,
    Chunk.defect?_eq_none_iff]
  constructor
  · rintro ⟨-, is, hdivides⟩
    have heq : encode is = encode ((instructions 1 0 said).map Prod.fst) := by
      rw [← hcode, hdivides.code_eq, List.append_nil]
    rw [← encode_injective heq]
    exact hdivides.within
  · intro hwithin
    exact ⟨hlines, _, hwithin, by rw [hcode, List.append_nil]⟩

/-- No other complaint has the text of the one about an index. -/
theorem eq_indexTooWide_of_message {complaint : Complaint}
    (h : complaint.message = "constant index does not fit one byte") :
    complaint = .indexTooWide := by
  have hfirst : complaint.message.toList.head? = some 'c' := by rw [h]; rfl
  delta Complaint.message at hfirst
  cases complaint with
  | invalidNumber text => simp at hfirst
  | invalidIndex text => simp at hfirst
  | missingOperand name => simp at hfirst
  | unexpectedOperand name => simp at hfirst
  | unsupported name => simp at hfirst
  | tooManyConstants => simp at hfirst
  | indexTooWide => rfl

/-- A text is assembled exactly if all its lines are understood and no more than 256 of them are
`CONSTANT` lines.  The chunk then has their values for its pool and the instructions of all lines
for its code, each byte with the number of its line, and it is valid exactly if no `LOAD` line
names a place outside of the whole pool.  A text that is not assembled is refused at its first
line that is not understood or is one `CONSTANT` line too many.  It is never too long, and no
line is refused because an index does not fit into a byte. -/
theorem text_is_assembled_line_by_line {text : String}
    (hlines : (Text.lines text.toList).length < UInt32.size - 1) :
    (∀ c, assemble text = .ok c ↔ ∃ said, List.Forall₂ Says (Text.lines text.toList) said ∧
      (values said).length ≤ 256 ∧ c.consts.toList = values said ∧
      c.code.toList = encode ((instructions 1 0 said).map Prod.fst) ∧
      c.lines.toList.map UInt32.toNat = spread (instructions 1 0 said)) ∧
    (∀ c said, assemble text = .ok c → List.Forall₂ Says (Text.lines text.toList) said →
      (c.defect? = none ↔ ∀ index, some (.instruction (.load index)) ∈ said →
        index.toNat < (values said).length)) ∧
    (∀ number, (∃ line complaint, assemble text = .error (.refused line complaint) ∧
      line.toNat = number) ↔ RefusedAt (Text.lines text.toList) number) ∧
    ∀ e, assemble text = .error e → ∃ line complaint, e = .refused line complaint ∧
      complaint.message ≠ "constant index does not fit one byte" := by
  have hunderstood {c : Chunk} (hc : assemble text = .ok c) :
      ∃ said, Understood (Text.lines text.toList) said ∧ Extended 1 said .empty c := by
    rcases understood_or_refused (Text.lines text.toList) with ⟨said, hsaid⟩ | ⟨number, hrefused⟩
    · obtain ⟨c', hc', hextended⟩ := hsaid.assemble hlines
      obtain rfl := Except.ok.inj (hc.symm.trans hc')
      exact ⟨said, hsaid, hextended⟩
    · obtain ⟨line, complaint, he, -⟩ := hrefused.assemble hlines
      cases hc.symm.trans he
  have hrefusal {e : AssemblyError} (he : assemble text = .error e) :
      ∃ number, RefusedAt (Text.lines text.toList) number := by
    rcases understood_or_refused (Text.lines text.toList) with ⟨said, hsaid⟩ | hrefused
    · obtain ⟨c, hc, -⟩ := hsaid.assemble hlines
      cases he.symm.trans hc
    · exact hrefused
  refine ⟨fun c => ⟨?_, ?_⟩, ?_, fun number => ⟨?_, ?_⟩, ?_⟩
  · intro hc
    obtain ⟨said, hsaid, hextended⟩ := hunderstood hc
    exact ⟨said, hsaid.1, hsaid.2, hextended.consts, hextended.code, hextended.lines⟩
  · rintro ⟨said, hsaid, hvalues, hconsts, hcode, hnumbers⟩
    obtain ⟨c', hc', hextended⟩ := Understood.assemble hlines ⟨hsaid, hvalues⟩
    have hc : Extended 1 said .empty c := ⟨hconsts, hcode, hnumbers⟩
    rw [hc', hextended.unique hc]
  · intro c said hc hsaid
    obtain ⟨said', hsaid', hextended⟩ := hunderstood hc
    have hunique : Relator.RightUnique Says := fun _ _ _ h h' => h.unique h'
    obtain rfl : said' = said := hunique.forall₂ hsaid'.1 hsaid
    exact hextended.defect?_eq_none_iff hsaid'.2
  · rintro ⟨line, complaint, he, rfl⟩
    obtain ⟨number, hrefused⟩ := hrefusal he
    obtain ⟨line', complaint', he', rfl, -⟩ := hrefused.assemble hlines
    obtain ⟨rfl, -⟩ := AssemblyError.refused.inj (Except.error.inj (he.symm.trans he'))
    exact hrefused
  · intro hrefused
    obtain ⟨line, complaint, he, hline, -⟩ := hrefused.assemble hlines
    exact ⟨line, complaint, he, hline⟩
  · intro e he
    obtain ⟨number, hrefused⟩ := hrefusal he
    obtain ⟨line, complaint, he', -, hindex⟩ := hrefused.assemble hlines
    exact ⟨line, complaint, Except.error.inj (he.symm.trans he'),
      fun hmessage => hindex (eq_indexTooWide_of_message hmessage)⟩

/-- The first line loads what the last one puts into the pool, and the second line is a comment.
With an operand too many in place of the comment the text is refused there. -/
theorem text_is_assembled_line_by_line_of_forward_load :
    ((Text.lines "load 1\n; one\n constant 1\nCONSTANT\t2".toList).length < UInt32.size - 1 ∧
      ∃ c, assemble "load 1\n; one\n constant 1\nCONSTANT\t2" = .ok c ∧
        c.code.toList = [1, 1, 1, 0, 1, 1] ∧
        c.lines.toList.map UInt32.toNat = [1, 1, 3, 3, 4, 4] ∧ c.defect? = none) ∧
    ((Text.lines "load 1\nADD one\n constant 1".toList).length < UInt32.size - 1 ∧
      ∃ line complaint, assemble "load 1\nADD one\n constant 1" =
        .error (.refused line complaint) ∧ line.toNat = 2) := by
  have hload : Says ([] ++ ("load".toList ++ [' '] ++ ['1']) ++ [])
      (some (.instruction (.load 1))) :=
    .item (by decide) (.load (by decide) (by decide) (by decide) (by decide)) (by decide)
  constructor
  · have hlines : (Text.lines "load 1\n; one\n constant 1\nCONSTANT\t2".toList).length <
        UInt32.size - 1 := by decide
    obtain ⟨hok, hvalid, -⟩ := text_is_assembled_line_by_line hlines
    let said : List (Option Item) := [some (.instruction (.load 1)), none,
      some (.constant ⟨0x3FF0000000000000⟩), some (.constant ⟨0x4000000000000000⟩)]
    have hone : Says ([' '] ++ ("constant".toList ++ [' '] ++ ['1']) ++ [])
        (some (.constant ⟨0x3FF0000000000000⟩)) :=
      .item (by decide) (.constant (by decide) (by decide) (by decide) (by decide +kernel))
        (by decide)
    have htwo : Says ([] ++ ("CONSTANT".toList ++ ['\t'] ++ ['2']) ++ [])
        (some (.constant ⟨0x4000000000000000⟩)) :=
      .item (by decide) (.constant (by decide) (by decide) (by decide) (by decide +kernel))
        (by decide)
    have hsaid : List.Forall₂ Says
        (Text.lines "load 1\n; one\n constant 1\nCONSTANT\t2".toList) said :=
      .cons hload (.cons (.comment (w := []) " one".toList (by decide))
        (.cons hone (.cons htwo .nil)))
    let c : Chunk := ⟨#[1, 1, 1, 0, 1, 1], #[1, 1, 3, 3, 4, 4],
      #[⟨0x3FF0000000000000⟩, ⟨0x4000000000000000⟩]⟩
    have hc : assemble "load 1\n; one\n constant 1\nCONSTANT\t2" = .ok c :=
      (hok c).mpr ⟨said, hsaid, by decide, rfl, rfl, rfl⟩
    refine ⟨hlines, c, hc, rfl, rfl, (hvalid c said hc hsaid).mpr ?_⟩
    intro index hindex
    obtain rfl : index = 1 := by simpa [said] using hindex
    decide
  · have hlines : (Text.lines "load 1\nADD one\n constant 1".toList).length < UInt32.size - 1 := by
      decide
    obtain ⟨-, -, hrefused, -⟩ := text_is_assembled_line_by_line hlines
    refine ⟨hlines, (hrefused 2).mpr ?_⟩
    refine ⟨["load 1".toList], "ADD one".toList, [" constant 1".toList],
      [some (.instruction (.load 1))], by decide, rfl, .cons hload .nil, by decide, .inl ?_⟩
    intro s hs
    have hread : readLine "ADD one".toList = .error (.unexpectedOperand "ADD") := by decide
    cases hread.symm.trans hs.readLine_eq

end Assembly

end Abacus
