import Abacus.Proofs.Columns
import Abacus.Proofs.Operations

/-!
# Where instructions begin

Three things read the code of a chunk by instructions: the check of a chunk, the
listing, and the machine.  They are written apart from each other and agree on
any code, however broken: on where instructions begin, and on what is the first
thing that is wrong.

*Offsets.*  The offsets at which the check looks for an instruction are those that
`Chunk.inspect` writes down.  The listing goes on behind a flaw and the check does not,
so they agree on all offsets up to the first flaw.

*Flaws.*  A flaw is a `Defect` to the check, a `Fault` to the machine and the end of
a line in a listing, which is its header and then one line for each offset.  No
instruction in order has the text of a flaw, and no two flaws have the same text
(`Flaw.text_injective`), so that a listing can be read back.

*Runs.*  A run may end before it comes to a flaw, with a value or because of its
stack.  The moments of a run tell at which instruction it ended.
-/

namespace Abacus

open Instruction

/-! ## The offsets of the check -/

namespace Chunk

/-- The check looks at an instruction in order, and goes on behind it. -/
theorem inspect_bytes_append {poolSize : Nat} {i : Instruction} (h : i.Within poolSize)
    (rest : List UInt8) (offset : Nat) :
    (inspect poolSize (i.bytes ++ rest) offset).1 =
      offset :: (inspect poolSize rest (offset + i.bytes.length)).1 := by
  rw [inspect.eq_def]
  cases i with
  | ret => simp [bytes]
  | load index => simp [bytes, if_pos (show index.toNat < poolSize from h)]
  | operator o => simp [bytes]
  | negate => simp [bytes]

/-- The check looks at each instruction of a sequence where it begins. -/
theorem inspect_encode_append {poolSize : Nat} {is : List Instruction}
    (h : ∀ i ∈ is, i.Within poolSize) (tail : List UInt8) (offset : Nat) :
    (inspect poolSize (encode is ++ tail) offset).1 =
      starts offset is ++ (inspect poolSize tail (offset + (encode is).length)).1 := by
  induction is generalizing offset with
  | nil => rfl
  | cons i is ih =>
      obtain ⟨hi, his⟩ := List.forall_mem_cons.mp h
      rw [encode_cons, List.append_assoc, inspect_bytes_append hi, ih his, List.length_append,
        Nat.add_assoc, starts, List.cons_append]

/-! ## The offsets of a listing -/

/-- The bytes or the lines of a chunk from an offset on. -/
theorem getElem?_of_drop {α : Type} {entries : Array α} {offset : Nat} {left : List α}
    (h : entries.toList.drop offset = left) (k : Nat) : entries[offset + k]? = left[k]? := by
  rw [← Array.getElem?_toList, ← List.getElem?_drop, h]

/-- What is left of the code behind its first instructions. -/
theorem drop_code {c : Chunk} {offset : Nat} {front left : List UInt8}
    (h : c.code.toList.drop offset = front ++ left) :
    c.code.toList.drop (offset + front.length) = left := by
  rw [← List.drop_drop, h, List.drop_left]

/-- No code is left behind the last byte. -/
theorem drop_code_eq_nil_iff {c : Chunk} {offset : Nat} :
    c.code.toList.drop offset = [] ↔ c.code.size ≤ offset := by
  rw [List.drop_eq_nil_iff, Array.length_toList]

/-- Where code is left the offset is inside the code. -/
theorem lt_size_of_drop {c : Chunk} {offset : Nat} {byte : UInt8} {left : List UInt8}
    (h : c.code.toList.drop offset = byte :: left) : offset < c.code.size := by
  have hget := getElem?_of_drop h 0
  exact (Array.getElem?_eq_some_iff.mp hget).1

/-- The listing goes on behind an instruction and its operand. -/
theorem nextOffset_of_drop {c : Chunk} {offset : Nat} {i : Instruction} {rest : List UInt8}
    (h : c.code.toList.drop offset = i.bytes ++ rest) :
    c.nextOffset offset = offset + i.bytes.length := by
  have hbyte := getElem?_of_drop h 0
  rw [Nat.add_zero] at hbyte
  rw [nextOffset, hbyte]
  cases i with
  | ret => simp [bytes]
  | load index => simp [bytes]
  | operator o => simp [bytes]
  | negate => simp [bytes]

/-- A listing that comes to an instruction shows its offset, and goes on behind it. -/
theorem listedFrom_of_drop {c : Chunk} {offset : Nat} {i : Instruction} {rest : List UInt8}
    (h : c.code.toList.drop offset = i.bytes ++ rest) :
    c.listedFrom offset = offset :: c.listedFrom (offset + i.bytes.length) := by
  have hlt : offset < c.code.size := by
    cases i with
    | ret => exact lt_size_of_drop h
    | load index => exact lt_size_of_drop h
    | operator o => exact lt_size_of_drop h
    | negate => exact lt_size_of_drop h
  rw [listedFrom_of_lt hlt, nextOffset_of_drop h]

/-- A listing shows each instruction of a sequence where it begins. -/
theorem listedFrom_encode {c : Chunk} {offset : Nat} {is : List Instruction} {tail : List UInt8}
    (h : c.code.toList.drop offset = encode is ++ tail) :
    c.listedFrom offset = starts offset is ++ c.listedFrom (offset + (encode is).length) := by
  induction is generalizing offset with
  | nil => rfl
  | cons i is ih =>
      rw [encode_cons, List.append_assoc] at h
      rw [listedFrom_of_drop h, ih (drop_code h), encode_cons, List.length_append, Nat.add_assoc,
        starts, List.cons_append]

theorem listedFrom_of_drop_nil {c : Chunk} {offset : Nat} (h : c.code.toList.drop offset = []) :
    c.listedFrom offset = [] :=
  listedFrom_of_le (drop_code_eq_nil_iff.mp h)

/-- A listing goes forward. -/
theorem le_of_mem_listedFrom {c : Chunk} {offset o : Nat} (h : o ∈ c.listedFrom offset) :
    offset ≤ o := by
  fun_induction c.listedFrom offset with
  | case1 offset hlt ih =>
      rcases List.mem_cons.mp h with rfl | h
      · exact Nat.le_refl _
      · exact Nat.le_trans (Nat.le_of_lt (c.lt_nextOffset offset)) (ih h)
  | case2 => cases h

end Chunk

/-! ## The text of a flaw -/

namespace Flaw

/-- The flaw as a listing shows it. -/
def text : Flaw → String
  | .unknownOpcode byte => "Unknown opcode " ++ Nat.repr byte.toNat
  | .missingOperand => Text.padRight 16 ' ' "OP_CONSTANT" ++ " <missing operand>"
  | .badConstant index =>
      Text.padRight 16 ' ' "OP_CONSTANT" ++ " "
        ++ (Text.padLeft 4 ' ' (Nat.repr index.toNat) ++ " <invalid constant>")

-- The equations that Lean makes from the definition take seconds: it compares the
-- strings byte by byte.
@[simp] theorem text_unknownOpcode (byte : UInt8) :
    (unknownOpcode byte).text = "Unknown opcode " ++ Nat.repr byte.toNat := by
  delta text
  rfl

@[simp] theorem text_missingOperand :
    missingOperand.text = Text.padRight 16 ' ' "OP_CONSTANT" ++ " <missing operand>" := by
  delta text
  rfl

@[simp] theorem text_badConstant (index : UInt8) :
    (badConstant index).text = Text.padRight 16 ' ' "OP_CONSTANT" ++ " "
      ++ (Text.padLeft 4 ' ' (Nat.repr index.toNat) ++ " <invalid constant>") := by
  delta text
  rfl

/-- A flaw shows at the first letter of its text or at the last one: the text of an
instruction in order begins with `O` and does not end with `>`. -/
theorem text_marks (f : Flaw) :
    f.text.toList.head? = some 'U' ∨ f.text.toList.getLast? = some '>' := by
  cases f with
  | unknownOpcode byte => exact .inl (by simp)
  | missingOperand => exact .inr (by decide)
  | badConstant index =>
      refine .inr ?_
      simp only [text_badConstant, String.toList_append, List.getLast?_append]
      rfl

/-- An operand that is missing is not shown like an index. -/
theorem missingOperand_text_ne (index : UInt8) :
    missingOperand.text ≠ (badConstant index).text := by
  intro h
  -- the texts differ in the last letter
  have hmissing : missingOperand.text.toList.reverse.take 2 = ['>', 'd'] := by decide
  have hbad : (badConstant index).text.toList.reverse.take 2 = ['>', 't'] := by
    simp only [text_badConstant, String.toList_append, List.reverse_append]
    rfl
  rw [h, hbad] at hmissing
  exact absurd hmissing (by decide)

/-- The text of a flaw tells the flaw, with its byte or its index. -/
theorem text_injective {f g : Flaw} (h : f.text = g.text) : f = g := by
  have hfirst := congrArg (fun s => s.toList.head?) h
  cases f with
  | unknownOpcode a =>
      cases g with
      | unknownOpcode b =>
          have hrepr : Nat.repr a.toNat = Nat.repr b.toNat := (String.append_right_inj _).mp h
          rw [UInt8.toNat_inj.mp (repr_inj hrepr)]
      | missingOperand => simp [Text.padRight] at hfirst
      | badConstant b => simp [Text.padRight] at hfirst
  | missingOperand =>
      cases g with
      | unknownOpcode b => simp [Text.padRight] at hfirst
      | missingOperand => rfl
      | badConstant b => exact absurd h (missingOperand_text_ne b)
  | badConstant a =>
      cases g with
      | unknownOpcode b => simp [Text.padRight] at hfirst
      | missingOperand => exact absurd h.symm (missingOperand_text_ne a)
      | badConstant b =>
          rw [text_badConstant, text_badConstant, String.append_right_inj,
            String.append_left_inj] at h
          rw [UInt8.toNat_inj.mp (padLeft_repr_inj h)]

end Flaw

namespace Chunk

/-! ## What a listing shows -/

variable {c : Chunk} {offset : Nat}

/-- A listing shows a flaw by its text. -/
theorem instructionText_of_flaw {tail : List UInt8} {f : Flaw}
    (h : c.code.toList.drop offset = tail) (hf : Flaw.At c.consts.size tail f) :
    c.instructionText offset = f.text := by
  have hbyte := getElem?_of_drop h 0
  have hoperand := getElem?_of_drop h 1
  rw [Nat.add_zero] at hbyte
  rw [instructionText, hbyte]
  cases hf with
  | unknownOpcode hop => simp [hop]
  | missingOperand => simp [operandText, hoperand, Opcode.mnemonic, String.append_assoc]
  | badConstant hlt =>
      simp [operandText, hoperand, Opcode.mnemonic, Array.getElem?_eq_none hlt]

/-- A listing does not show a flaw where an instruction is in order. -/
theorem instructionText_ne_text {i : Instruction} {rest : List UInt8}
    (h : c.code.toList.drop offset = i.bytes ++ rest) (hi : i.Within c.consts.size) (f : Flaw) :
    c.instructionText offset ≠ f.text := by
  have hmarks : (c.instructionText offset).toList.head? = some 'O' ∧
      (c.instructionText offset).toList.getLast? ≠ some '>' := by
    have hbyte := getElem?_of_drop h 0
    have hoperand := getElem?_of_drop h 1
    rw [Nat.add_zero] at hbyte
    rw [instructionText, hbyte]
    cases i with
    | ret => simp [bytes]; decide
    | load index =>
        have htext : c.operandText offset = Text.padLeft 4 ' ' (Nat.repr index.toNat) ++ " '"
            ++ c.consts[index.toNat].text ++ "'" := by
          simp [operandText, hoperand, bytes, Array.getElem?_eq_getElem hi]
        constructor
        · simp [bytes, Opcode.mnemonic, Text.padRight]
        · simp only [bytes, List.cons_append, List.getElem?_cons_zero, Opcode.ofByte?_byte, htext,
            String.toList_append, List.getLast?_append]
          simp
    | operator o => cases o <;> simp [bytes] <;> decide
    | negate => simp [bytes]; decide
  intro heq
  rw [heq] at hmarks
  rcases f.text_marks with hf | hf
  · rw [hf] at hmarks
    exact absurd hmarks.1 (by decide)
  · exact hmarks.2 hf

/-- No instruction of a sequence is shown as a flaw. -/
theorem instructionText_ne_text_of_mem {is : List Instruction} {tail : List UInt8}
    (h : c.code.toList.drop offset = encode is ++ tail) (his : ∀ i ∈ is, i.Within c.consts.size)
    {o : Nat} (ho : o ∈ starts offset is) (f : Flaw) : c.instructionText o ≠ f.text := by
  induction is generalizing offset with
  | nil => cases ho
  | cons i is ih =>
      obtain ⟨hi, his⟩ := List.forall_mem_cons.mp his
      rw [encode_cons, List.append_assoc] at h
      rcases List.mem_cons.mp ho with rfl | ho
      · exact instructionText_ne_text h hi f
      · exact ih (drop_code h) his ho

end Chunk

namespace Machine

/-! ## Runs -/

/-- The ways in which a run can end at an instruction that is in order. -/
inductive Ends (limit offset : Nat) : Except Fault (Option Value) → Prop where
  | value (v : Option Value) : Ends limit offset (.ok v)
  | underflow : Ends limit offset (.error (.stackUnderflow offset))
  | overflow : Ends limit offset (.error (.stackOverflow offset limit))

/-- A run that ends at an instruction in order does not end with a flaw. -/
theorem Ends.ne_fault {limit offset : Nat} {outcome : Except Fault (Option Value)}
    (h : Ends limit offset outcome) (f : Flaw) (o : Nat) : outcome ≠ .error (f.fault o) := by
  intro heq
  cases h with
  | value => cases heq
  | underflow => cases f <;> cases heq
  | overflow => cases f <;> cases heq

/-- An operation leaves a stack, or the run ends in one of these ways. -/
theorem step_cases (limit offset : Nat) (stack : List Value) (op : Operation) :
    (∃ stack', step limit offset stack op = .ok stack') ∨
      ∃ outcome, step limit offset stack op = .error outcome ∧ Ends limit offset outcome := by
  -- an operator and a negation push their results, as a load does
  have hpush (v : Value) (stack : List Value) :
      (∃ stack', step limit offset stack (.load v) = .ok stack') ∨
        ∃ outcome, step limit offset stack (.load v) = .error outcome ∧
          Ends limit offset outcome := by
    by_cases hroom : stack.length < limit
    · exact .inl ⟨v :: stack, step_load_of_lt offset v hroom⟩
    · exact .inr ⟨_, step_load_of_not_lt offset v hroom, .overflow⟩
  cases op with
  | ret => exact .inr ⟨_, rfl, .value stack.head?⟩
  | load v => exact hpush v stack
  | operator o =>
      rcases stack with _ | ⟨b, _ | ⟨a, stack⟩⟩
      · exact .inr ⟨_, rfl, .underflow⟩
      · exact .inr ⟨_, rfl, .underflow⟩
      · exact hpush (o.apply a b) stack
  | negate =>
      rcases stack with _ | ⟨a, stack⟩
      · exact .inr ⟨_, rfl, .underflow⟩
      · exact hpush (-a) stack

variable {pool : Array Value}

/-- A run comes to the end of a sequence of instructions in order, or it ends at one of
them, which is the last that it has recorded. -/
theorem exec_encode_append (limit : Nat) {is : List Instruction} (h : ∀ i ∈ is, i.Within pool.size)
    (tail : List UInt8) (offset : Nat) (stack : List Value) (moments : Array Moment) :
    (∃ stack' moments', exec pool limit (encode is ++ tail) offset stack moments =
      exec pool limit tail (offset + (encode is).length) stack' moments') ∨
    ∃ m, (exec pool limit (encode is ++ tail) offset stack moments).moments.back? = some m ∧
      m.offset ∈ starts offset is ∧
      Ends limit m.offset (exec pool limit (encode is ++ tail) offset stack moments).outcome := by
  induction is generalizing offset stack moments with
  | nil => exact .inl ⟨stack, moments, rfl⟩
  | cons i is ih =>
      obtain ⟨hi, his⟩ := List.forall_mem_cons.mp h
      obtain ⟨op, hop⟩ := hi.exists_operation
      rw [encode_cons, List.append_assoc, exec_bytes_append offset hop, width_of_operation? hop]
      rcases step_cases limit offset stack op with ⟨stack', hs⟩ | ⟨outcome, hs, he⟩
      · rw [hs, List.length_append, ← Nat.add_assoc]
        rcases ih his (offset + i.bytes.length) stack' (moments.push ⟨offset, stack⟩) with
          hrun | ⟨m, hm, hmem, he⟩
        · exact .inl hrun
        · exact .inr ⟨m, hm, List.mem_cons_of_mem _ hmem, he⟩
      · rw [hs]
        exact .inr ⟨⟨offset, stack⟩, Array.back?_push .., List.mem_cons_self, he⟩

end Machine

/-! ## Agreement -/

namespace Chunk

/-- The code of a chunk is a sequence of instructions in order, and a tail. -/
structure Divides (c : Chunk) (is : List Instruction) (tail : List UInt8) : Prop where
  within : ∀ i ∈ is, i.Within c.consts.size
  code_eq : c.code.toList = encode is ++ tail

namespace Divides

variable {c : Chunk} {is : List Instruction} {tail : List UInt8}

theorem drop_length (h : c.Divides is tail) : c.code.toList.drop (encode is).length = tail := by
  rw [h.code_eq, List.drop_left]

/-- The check finds in the code what it finds in the tail. -/
theorem defect?_eq (h : c.Divides is tail) (hlines : c.lines.size = c.code.size) :
    c.defect? = codeDefect? c.consts.size tail (encode is).length := by
  rw [defect?, if_neg (not_not_intro hlines.symm), h.code_eq,
    codeDefect?_encode_append h.within, Nat.zero_add]

/-- The check visits the instructions and then what it visits of the tail. -/
theorem visited_eq (h : c.Divides is tail) :
    c.visited = starts 0 is ++ (inspect c.consts.size tail (encode is).length).1 := by
  rw [visited, h.code_eq, inspect_encode_append h.within, Nat.zero_add]

/-- The listing shows the instructions and then what it shows of the tail. -/
theorem listed_eq (h : c.Divides is tail) :
    c.listed = starts 0 is ++ c.listedFrom (encode is).length := by
  have hdrop : c.code.toList.drop 0 = encode is ++ tail := h.code_eq
  rw [listed, listedFrom_encode hdrop, Nat.zero_add]

theorem instructionText_ne (h : c.Divides is tail) {o : Nat} (ho : o ∈ starts 0 is) (f : Flaw) :
    c.instructionText o ≠ f.text := by
  have hdrop : c.code.toList.drop 0 = encode is ++ tail := h.code_eq
  exact instructionText_ne_text_of_mem hdrop h.within ho f

/-- A run comes to the tail, or ends before it. -/
theorem run_cases (h : c.Divides is tail) (options : Machine.Options) :
    (∃ stack moments, Machine.run c options =
      Machine.exec c.consts options.stackLimit tail (encode is).length stack moments) ∨
    ∃ m, (Machine.run c options).moments.back? = some m ∧ m.offset < (encode is).length ∧
      Machine.Ends options.stackLimit m.offset (Machine.run c options).outcome := by
  have hexec := Machine.exec_encode_append options.stackLimit h.within tail 0 [] #[]
  rw [← h.code_eq, Nat.zero_add] at hexec
  rcases hexec with hreached | ⟨m, hm, hmem, hends⟩
  · exact .inl hreached
  · have hlt := lt_of_mem_starts hmem
    rw [Nat.zero_add] at hlt
    exact .inr ⟨m, hm, hlt, hends⟩

end Divides

/-- The check, the listing and the machine agree on every chunk.  The listing is its header
and one line for each listed offset, which ends in the text of the instruction there.  If
the check finds nothing, the listed offsets are those that the check has visited, no line
shows a flaw, and no run comes to one.  If the check finds a flaw, it is the first that the
listing shows, in the same place, and a run ends before that place or with that flaw. -/
theorem check_listing_and_run_agree {c : Chunk} (h : c.lines.size = c.code.size)
    (options : Machine.Options) :
    c.defect? = (inspect c.consts.size c.code.toList 0).2 ∧
    (∀ title, c.listing title = "== " ++ title ++ " ==\n" ++
      String.join (c.listed.map fun o => c.listingLine o ++ "\n")) ∧
    (∀ o, c.listingLine o = Text.padLeft 4 '0' (Nat.repr o) ++ " " ++ c.lineColumn o ++ " " ++
      c.instructionText o) ∧
    (c.defect? = none →
      c.listed = c.visited ∧
      (∀ o ∈ c.listed, ∀ f : Flaw, c.instructionText o ≠ f.text) ∧
      ∀ (f : Flaw) (o : Nat), (Machine.run c options).outcome ≠ .error (f.fault o)) ∧
    ∀ d, c.defect? = some d → ∃ (f : Flaw) (o : Nat),
      d = f.defect c.consts.size o ∧
      o ∈ c.listed ∧ (∀ g : Flaw, c.instructionText o = g.text ↔ g = f) ∧
      (∀ o' ∈ c.listed, o' < o → ∀ g : Flaw, c.instructionText o' ≠ g.text) ∧
      ((∃ m, (Machine.run c options).moments.back? = some m ∧ m.offset < o ∧
          Machine.Ends options.stackLimit m.offset (Machine.run c options).outcome) ∨
        (Machine.run c options).outcome = .error (f.fault o)) := by
  obtain ⟨is, tail, hwithin, hcode, htail⟩ := exists_split c.consts.size c.code.toList
  have hc : c.Divides is tail := ⟨hwithin, hcode⟩
  have hinspect : c.defect? = (inspect c.consts.size c.code.toList 0).2 := by
    rw [inspect_snd, defect?, if_neg (not_not_intro h.symm)]
  refine ⟨hinspect, fun _ => rfl, fun _ => rfl, ?_⟩
  rw [hc.defect?_eq h]
  rcases htail with rfl | ⟨f, hf⟩
  · have hlisted : c.listed = starts 0 is := by
      rw [hc.listed_eq, listedFrom_of_drop_nil hc.drop_length, List.append_nil]
    have hsound : codeDefect? c.consts.size [] (encode is).length = none := by rw [codeDefect?]
    rw [hsound]
    refine ⟨fun _ => ⟨?_, ?_, ?_⟩, fun d hd => absurd hd.symm (Option.some_ne_none d)⟩
    · rw [hlisted, hc.visited_eq, inspect, List.append_nil]
    · intro o ho
      exact hc.instructionText_ne (hlisted ▸ ho)
    · intro f o
      rcases hc.run_cases options with ⟨stack, moments, hrun⟩ | ⟨m, -, -, hends⟩
      · rw [hrun, Machine.exec]
        intro heq
        cases f <;> cases heq
      · exact hends.ne_fault f o
  · rw [codeDefect?_of_flaw hf]
    refine ⟨fun hnone => absurd hnone (Option.some_ne_none _), ?_⟩
    rintro d ⟨rfl⟩
    have htext := instructionText_of_flaw hc.drop_length hf
    have hlisted := hc.listed_eq
    refine ⟨f, (encode is).length, rfl, ?_, ?_, ?_, ?_⟩
    · have hlt : (encode is).length < c.code.size := by
        cases hf with
        | unknownOpcode => exact lt_size_of_drop hc.drop_length
        | missingOperand => exact lt_size_of_drop hc.drop_length
        | badConstant => exact lt_size_of_drop hc.drop_length
      rw [hlisted, listedFrom_of_lt hlt]
      exact List.mem_append_right _ List.mem_cons_self
    · intro g
      rw [htext]
      exact ⟨fun heq => (Flaw.text_injective heq).symm, fun heq => heq ▸ rfl⟩
    · intro o' ho' hlt
      rw [hlisted, List.mem_append] at ho'
      rcases ho' with ho' | ho'
      · exact hc.instructionText_ne ho'
      · exact absurd hlt (Nat.not_lt.mpr (le_of_mem_listedFrom ho'))
    · rcases hc.run_cases options with ⟨stack, moments, hrun⟩ | hended
      · exact .inr (by rw [hrun, Machine.exec_of_flaw _ hf])
      · exact .inl hended

/-- A load from outside the pool, behind an instruction to return. -/
theorem check_listing_and_run_agree_at_stray_load :
    let c : Chunk := { code := #[1, 0, 0, 1, 7], lines := #[1, 1, 1, 1, 2], consts := #[⟨0⟩] }
    c.lines.size = c.code.size ∧ c.defect? = some (.badConstant 3 7 1) ∧
      3 ∈ c.listed ∧ c.instructionText 3 = (Flaw.badConstant 7).text ∧
      c.listingLine 3 = "0003    | " ++ (Flaw.badConstant 7).text ∧
      ∀ o ∈ c.listed, o < 3 → ∀ g : Flaw, c.instructionText o ≠ g.text := by
  intro c
  have hdefect : c.defect? = some (.badConstant 3 7 1) := by decide
  obtain ⟨-, -, hline, -, hflaw⟩ := check_listing_and_run_agree (c := c) rfl {}
  obtain ⟨f, o, hd, hlisted, htext, hbefore, -⟩ := hflaw _ hdefect
  cases f with
  | unknownOpcode => cases hd
  | missingOperand => cases hd
  | badConstant index =>
      obtain ⟨rfl, hindex, -⟩ := Defect.badConstant.inj hd
      obtain rfl : index = 7 := UInt8.toNat_inj.mp hindex.symm
      have hshown : c.instructionText 3 = (Flaw.badConstant 7).text := (htext _).mpr rfl
      exact ⟨rfl, hdefect, hlisted, hshown, by rw [hline, hshown]; rfl, hbefore⟩

end Chunk

end Abacus
