import Abacus.Proofs.ReadBack

/-!
# The trace of a run

A run can be traced.  Before each instruction the trace shows the stack, and then the
line that a listing has for the instruction.  A traced run ends like a run that is not
traced, and the lines that it shows are the first lines of the listing, on any code.

*Writing along the way.*  `Machine.run` keeps the moments of a run, and its log is made
from them at the end.  `Machine.narrate` writes the log while it runs, and it finds its
way by the operands of the instructions, from one offset to the next.  The two have the
same result and leave the same log (`Machine.narrateFrom_eq`).

*Offsets.*  The listing has its own way to the next offset.  At each instruction that
does not end the run the two come to the same place (`Machine.offset_of_turn`),
so the offsets of a run are the first ones of the listing
(`Machine.offsets_prefix_listed_run`).  The line of an instruction that ends the run is shown
before it does.

*Line ends.*  A line is written with a line end and trimmed again.  It ends with a
character that is no blank (`Chunk.endsVisibly_listingLine`), so that nothing else is
lost.
-/

namespace Abacus

namespace Text

/-! ## Lines that end visibly -/

/-- The last character of the text can be seen. -/
def EndsVisibly (text : String) : Prop := ∃ last, text.toList.getLast? = some last ∧ Visible last

theorem EndsVisibly.append {b : String} (h : EndsVisibly b) (a : String) :
    EndsVisibly (a ++ b) := by
  obtain ⟨last, hlast, hvisible⟩ := h
  exact ⟨last, by simp [hlast], hvisible⟩

/-- A line end is all that is trimmed off such a text. -/
theorem EndsVisibly.trimEnd_newline {text : String} (h : EndsVisibly text) :
    String.ofList (trimEnd (text ++ "\n").toList) = text := by
  obtain ⟨last, hlast, hvisible⟩ := h
  obtain ⟨front, hfront⟩ := List.getLast?_eq_some_iff.mp hlast
  have hend : Blanks ['\n'] := by decide
  have htext : (text ++ "\n").toList = text.toList ++ ['\n'] := String.toList_append
  rw [htext, trimEnd_append hend, hfront,
    trimEnd_of_visible (by simpa using hvisible) front (by simp), ← hfront, String.ofList_toList]

/-- The last digit of a number can be seen. -/
theorem endsVisibly_repr (n : Nat) : EndsVisibly (Nat.repr n) := by
  have hne : Nat.toDigits 10 n ≠ [] := Nat.toDigits_ne_nil
  refine ⟨(Nat.toDigits 10 n).getLast hne, ?_, ?_⟩
  · rw [Nat.repr_eq_ofList_toDigits, String.toList_ofList, List.getLast?_eq_some_getLast hne]
  · exact visible_of_isDigit (isDigit_of_mem_toDigits (List.getLast_mem hne))

end Text

open Text

namespace Chunk

/-- The text of an operand ends with a quote or a bracket. -/
theorem endsVisibly_operandText (c : Chunk) (offset : Nat) :
    EndsVisibly (c.operandText offset) := by
  unfold operandText
  split
  next => exact ⟨'>', by decide, by decide⟩
  next index _ =>
    dsimp only
    split
    next => exact EndsVisibly.append ⟨'\'', by decide, by decide⟩ _
    next => exact EndsVisibly.append ⟨'>', by decide, by decide⟩ _

/-- What is shown for an instruction ends visibly, and so does what is shown for a flaw. -/
theorem endsVisibly_instructionText (c : Chunk) (offset : Nat) :
    EndsVisibly (c.instructionText offset) := by
  unfold instructionText
  split
  next => exact ⟨'>', by decide, by decide⟩
  next byte _ =>
    split
    next => exact (c.endsVisibly_operandText offset).append _
    next op _ _ =>
      rcases op with _ | _ | (_ | _ | _ | _) | _ <;> exact ⟨_, rfl, by decide⟩
    next => exact (endsVisibly_repr _).append _

/-- A line of a listing has no blank at its end. -/
theorem endsVisibly_listingLine (c : Chunk) (offset : Nat) : EndsVisibly (c.listingLine offset) :=
  (c.endsVisibly_instructionText offset).append _

end Chunk

namespace Machine

/-! ## A run that writes its log as it goes -/

/-- The operation that stands at an offset, where the byte of an instruction was found. -/
def operationAt (c : Chunk) (offset : Nat) : Opcode → Except Flaw Operation
  | .ret => .ok .ret
  | .constant =>
      match c.code[offset + 1]? with
      | none => .error .missingOperand
      | some index =>
          match c.consts[index.toNat]? with
          | none => .error (.badConstant index)
          | some v => .ok (.load v)
  | .operator o => .ok (.operator o)
  | .negate => .ok .negate

/-- What stands at an offset where a byte was found: a flaw, or an operation and the offset
behind its operands. -/
def fetch (c : Chunk) (offset : Nat) (byte : UInt8) : Except Flaw (Operation × Nat) :=
  match Opcode.ofByte? byte with
  | none => .error (.unknownOpcode byte)
  | some op => (operationAt c offset op).map fun found => (found, offset + 1 + op.operandCount)

/-- What the machine does at a moment where it has found a byte: it ends the run, or it
goes on behind the operation. -/
def turn (c : Chunk) (limit : Nat) (m : Moment) (byte : UInt8) :
    Except (Except Fault (Option Value)) Moment :=
  match fetch c m.offset byte with
  | .error f => .error (.error (f.fault m.offset))
  | .ok (op, next) => (step limit m.offset m.stack op).map fun stack => ⟨next, stack⟩

/-- What is fetched is the flaw or the instruction that the rest of the code begins with. -/
theorem fetch_cases {c : Chunk} {offset : Nat} {byte : UInt8}
    (hbyte : c.code[offset]? = some byte) :
    (∃ f, fetch c offset byte = .error f ∧
      Flaw.At c.consts.size (c.code.toList.drop offset) f) ∨
    ∃ (i : Instruction) (op : Operation) (rest : List UInt8),
      fetch c offset byte = .ok (op, offset + i.bytes.length) ∧
      i.operation? c.consts = some op ∧
      c.code.toList.drop offset = i.bytes ++ rest := by
  obtain ⟨rest, hrest⟩ : ∃ rest, c.code.toList.drop offset = byte :: rest := by
    obtain ⟨hlt, hget⟩ := Array.getElem?_eq_some_iff.mp hbyte
    refine ⟨c.code.toList.drop (offset + 1), ?_⟩
    rw [List.drop_eq_getElem_cons (by simpa using hlt), Array.getElem_toList, hget]
  -- the array and the rest of the code have the same byte for an operand
  have hoperand : c.code[offset + 1]? = rest[0]? := Chunk.getElem?_of_drop hrest 1
  rw [hrest]
  rcases Instruction.exists_instruction_or_flaw c.consts.size byte rest with
    ⟨i, rest', hwithin, heq⟩ | ⟨f, hflaw⟩
  · obtain ⟨op, hop⟩ := hwithin.exists_operation
    refine .inr ⟨i, op, rest', ?_, hop, heq⟩
    cases i with
    | ret =>
        cases heq
        cases hop
        simp only [fetch, Opcode.ofByte?_byte, operationAt, Except.map]
        rfl
    | load index =>
        cases heq
        obtain ⟨v, hv, rfl⟩ := Option.map_eq_some_iff.mp hop
        have hindex : c.code[offset + 1]? = some index := hoperand
        simp only [fetch, Opcode.ofByte?_byte, operationAt, hindex, hv, Except.map]
        rfl
    | operator o =>
        cases heq
        cases hop
        simp only [fetch, Opcode.ofByte?_byte, operationAt, Except.map]
        rfl
    | negate =>
        cases heq
        cases hop
        simp only [fetch, Opcode.ofByte?_byte, operationAt, Except.map]
        rfl
  · refine .inl ⟨f, ?_, hflaw⟩
    cases hflaw with
    | unknownOpcode hop => simp only [fetch, hop]
    | missingOperand =>
        simp only [fetch, Opcode.ofByte?_byte, operationAt, hoperand, List.getElem?_nil,
          Except.map]
    | badConstant hle =>
        simp only [fetch, Opcode.ofByte?_byte, operationAt, hoperand, List.getElem?_cons_zero,
          Array.getElem?_eq_none hle, Except.map]

/-- The machine and the listing go on at the same offset. -/
theorem offset_of_turn {c : Chunk} {limit : Nat} {m m' : Moment} {byte : UInt8}
    (hbyte : c.code[m.offset]? = some byte) (h : turn c limit m byte = .ok m') :
    m'.offset = c.nextOffset m.offset := by
  rw [turn] at h
  rcases fetch_cases hbyte with ⟨f, hfetch, -⟩ | ⟨i, op, rest, hfetch, hop, hdrop⟩
  · simp only [hfetch] at h
    cases h
  · simp only [hfetch] at h
    rw [Chunk.nextOffset_of_drop hdrop]
    cases hstep : step limit m.offset m.stack op with
    | error ended =>
        rw [hstep] at h
        cases h
    | ok stack =>
        rw [hstep] at h
        cases h
        rfl

/-- The two records before an instruction.  The line is written like that of a listing,
with its line end, and trimmed. -/
def turnLog (c : Chunk) (m : Moment) : Log :=
  #[⟨.trace, .machine, stackText m.stack⟩,
    ⟨.trace, .machine, String.ofList (trimEnd (c.listingLine m.offset ++ "\n").toList)⟩]

theorem turnLog_eq (c : Chunk) (m : Moment) : turnLog c m = momentLog c m := by
  rw [turnLog, (c.endsVisibly_listingLine m.offset).trimEnd_newline, momentLog]

/-- The rest of a run that writes its log as it goes, and what has been written. -/
def narrateFrom (c : Chunk) (options : Options) (m : Moment) (log : Log) :
    Except Fault (Option Value) × Log :=
  match _ : c.code[m.offset]? with
  | none => (.error .ranPastEnd, log)
  | some byte =>
      let log := if options.trace then log ++ turnLog c m else log
      match _ : turn c options.stackLimit m byte with
      | .error outcome => (outcome, log ++ resultLog outcome)
      | .ok m' => narrateFrom c options m' log
termination_by c.code.size - m.offset
decreasing_by
  have hbyte : c.code[m.offset]? = some byte := ‹_›
  have hturn : turn c options.stackLimit m byte = .ok m' := ‹_›
  have hlt : m.offset < c.code.size := (Array.getElem?_eq_some_iff.mp hbyte).1
  have hnext : m.offset < m'.offset := offset_of_turn hbyte hturn ▸ c.lt_nextOffset m.offset
  omega

/-- Run a chunk and write the log along the way. -/
def narrate (c : Chunk) (options : Options) : Except Fault (Option Value) × Log :=
  narrateFrom c options ⟨0, []⟩ #[]

/-! ## The same run -/

/-- A run goes on where a turn says. -/
theorem exec_drop_of_byte {c : Chunk} {m : Moment} {byte : UInt8}
    (hbyte : c.code[m.offset]? = some byte) (limit : Nat) (moments : Array Moment) :
    exec c.consts limit (c.code.toList.drop m.offset) m.offset m.stack moments =
      match turn c limit m byte with
      | .error outcome => ⟨moments.push m, outcome⟩
      | .ok m' => exec c.consts limit (c.code.toList.drop m'.offset) m'.offset m'.stack
          (moments.push m) := by
  rw [turn]
  rcases fetch_cases hbyte with ⟨f, hfetch, hflaw⟩ | ⟨i, op, rest, hfetch, hop, hdrop⟩
  · rw [exec_of_flaw m.offset hflaw, hfetch]
  · have hbehind : c.code.toList.drop (m.offset + i.bytes.length) = rest :=
      Chunk.drop_code hdrop
    rw [hdrop, exec_bytes_append m.offset hop, hfetch, Instruction.width_of_operation? hop]
    dsimp only
    cases step limit m.offset m.stack op with
    | error ended => rfl
    | ok stack =>
        rw [← hbehind]
        rfl

/-- What has been written of a trace when a run has gone through some moments. -/
def tracedSoFar (c : Chunk) (options : Options) (moments : Array Moment) : Log :=
  if options.trace then moments.flatMap (momentLog c) else #[]

/-- One more moment adds its two records, if there is a trace. -/
theorem tracedSoFar_push (c : Chunk) (options : Options) (moments : Array Moment) (m : Moment) :
    tracedSoFar c options (moments.push m) =
      if options.trace then tracedSoFar c options moments ++ turnLog c m
      else tracedSoFar c options moments := by
  rw [turnLog_eq]
  cases htrace : options.trace with
  | false => simp [tracedSoFar, htrace]
  | true => simp [tracedSoFar, htrace]

/-- Writing the log along the way changes neither the run nor the log. -/
theorem narrateFrom_eq (c : Chunk) (options : Options) (m : Moment) (moments : Array Moment) :
    let r := exec c.consts options.stackLimit (c.code.toList.drop m.offset) m.offset m.stack moments
    narrateFrom c options m (tracedSoFar c options moments) = (r.outcome, r.log c options) := by
  generalize hlog : tracedSoFar c options moments = log
  fun_induction narrateFrom c options m log generalizing moments with
  | case1 m log hbyte =>
      have hend : c.code.toList.drop m.offset = [] :=
        Chunk.drop_code_eq_nil_iff.mpr (Array.getElem?_eq_none_iff.mp hbyte)
      rw [hend, ← hlog]
      simp [exec, Run.log, resultLog, tracedSoFar]
  | case2 m log byte hbyte log' outcome hturn =>
      have hpushed : tracedSoFar c options (moments.push m) = log' := by
        rw [tracedSoFar_push, hlog]
        rfl
      rw [exec_drop_of_byte hbyte, hturn, ← hpushed]
      rfl
  | case3 m log byte hbyte log' m' hturn ih =>
      have hpushed : tracedSoFar c options (moments.push m) = log' := by
        rw [tracedSoFar_push, hlog]
        rfl
      rw [exec_drop_of_byte hbyte, hturn]
      exact ih (moments.push m) hpushed

/-- Written along the way or at the end, the log is the same. -/
theorem narrate_eq (c : Chunk) (options : Options) :
    narrate c options = ((run c options).outcome, (run c options).log c options) := by
  have hempty : tracedSoFar c options #[] = #[] := by simp [tracedSoFar]
  rw [narrate, ← hempty]
  exact narrateFrom_eq c options ⟨0, []⟩ #[]

/-! ## The first lines of the listing -/

/-- The offsets of a run are the first ones of the listing. -/
theorem offsets_prefix_listed_exec (c : Chunk) (limit offset : Nat) (stack : List Value)
    (moments : Array Moment) :
    (exec c.consts limit (c.code.toList.drop offset) offset stack moments).moments.toList.map
      Moment.offset <+: moments.toList.map Moment.offset ++ c.listedFrom offset := by
  fun_induction c.listedFrom offset generalizing stack moments with
  | case1 offset hlt ih =>
      have hbyte : c.code[offset]? = some c.code[offset] := Array.getElem?_eq_getElem hlt
      rw [exec_drop_of_byte (m := ⟨offset, stack⟩) hbyte]
      cases hturn : turn c limit ⟨offset, stack⟩ c.code[offset] with
      | error outcome =>
          refine ⟨c.listedFrom (c.nextOffset offset), ?_⟩
          simp
      | ok m' =>
          have hnext : m'.offset = c.nextOffset offset := offset_of_turn hbyte hturn
          have hrest := ih m'.stack (moments.push ⟨offset, stack⟩)
          rw [← hnext] at hrest ⊢
          simpa using hrest
  | case2 offset hge =>
      have hend : c.code.toList.drop offset = [] :=
        Chunk.drop_code_eq_nil_iff.mpr (Nat.not_lt.mp hge)
      rw [hend, List.append_nil]
      exact List.prefix_refl _

theorem offsets_prefix_listed_run (c : Chunk) (options : Options) :
    (run c options).moments.toList.map Moment.offset <+: c.listed :=
  offsets_prefix_listed_exec c options.stackLimit 0 [] #[]

/-- The records of a trace, oldest first. -/
def traceRecords (log : Log) : List Log.Record := log.toList.filter (·.level = .trace)

theorem traceRecords_append (log log' : Log) :
    traceRecords (log ++ log') = traceRecords log ++ traceRecords log' := by
  simp [traceRecords]

theorem traceRecords_resultLog (outcome : Except Fault (Option Value)) :
    traceRecords (resultLog outcome) = [] := by
  rcases outcome with f | (_ | v) <;> rfl

/-- A moment has nothing but records of the trace. -/
theorem traceRecords_flatMap (c : Chunk) (moments : Array Moment) :
    traceRecords (moments.flatMap (momentLog c)) =
      moments.toList.flatMap fun m => (momentLog c m).toList := by
  have hall (m : Moment) : traceRecords (momentLog c m) = (momentLog c m).toList := rfl
  simp only [← hall]
  simp [traceRecords, List.filter_flatMap]

/-- A run ends in the same way whether it is traced or not, and also if the log is
written along the way.  If it is traced there are two records for each instruction that
was read, the stack before it, its values from the bottom to the top, and its line, and
there are none otherwise.  The lines are the first ones of the listing, under any title. -/
theorem trace_follows_listing (c : Chunk) (title : String) (limit : Nat) :
    let on : Options := { trace := true, stackLimit := limit }
    let off : Options := { trace := false, stackLimit := limit }
    let outcome := (run c on).outcome
    let moments := (run c on).moments.toList
    let shown := moments.map fun m => c.listingLine m.offset
    (run c off).outcome = outcome ∧
    narrate c on = (outcome, (run c on).log c on) ∧
    narrate c off = (outcome, (run c off).log c off) ∧
    traceRecords ((run c off).log c off) = [] ∧
    traceRecords ((run c on).log c on) = moments.flatMap (fun m =>
      [⟨.trace, .machine,
          "          " ++ String.join (m.stack.reverse.map fun v => "[ " ++ v.text ++ " ]")⟩,
        ⟨.trace, .machine, c.listingLine m.offset⟩]) ∧
    shown <+: c.listed.map c.listingLine ∧
    (∀ line ∈ shown, SingleLine line) ∧
    ∃ rest, c.listing title =
      "== " ++ title ++ " ==\n" ++ String.join (shown.map (· ++ "\n")) ++ rest := by
  intro on off outcome moments shown
  have hshown : shown <+: c.listed.map c.listingLine := by
    have hlines := (offsets_prefix_listed_run c on).map c.listingLine
    rwa [List.map_map] at hlines
  refine ⟨rfl, narrate_eq c on, narrate_eq c off, ?_, ?_, hshown, ?_, ?_⟩
  · show traceRecords (#[] ++ resultLog _) = []
    rw [traceRecords_append, traceRecords_resultLog]
    rfl
  · show traceRecords ((run c on).moments.flatMap (momentLog c) ++ resultLog _) = _
    rw [traceRecords_append, traceRecords_resultLog, List.append_nil, traceRecords_flatMap]
    rfl
  · intro line hline
    obtain ⟨m, -, rfl⟩ := List.mem_map.mp hline
    exact c.singleLine_listingLine m.offset
  · obtain ⟨others, hothers⟩ := hshown
    refine ⟨String.join (others.map (· ++ "\n")), ?_⟩
    have hlines : c.listed.map (fun offset => c.listingLine offset ++ "\n") =
        shown.map (· ++ "\n") ++ others.map (· ++ "\n") := by
      rw [← List.map_append, hothers, List.map_map]
      rfl
    rw [Chunk.listing, hlines, String.join_append, ← String.append_assoc]

/-- A run that ends at a byte that is no instruction.  The byte has its two records too, and
the negated number is the last one of the stack that they show. -/
theorem trace_follows_listing_to_unknown_byte :
    let c : Chunk :=
      { code := #[1, 0, 1, 1, 6, 9], lines := #[1, 1, 1, 1, 2, 2]
        consts := #[⟨0x3FF0000000000000⟩, ⟨0x4000000000000000⟩] }
    let on : Options := { trace := true, stackLimit := 2 }
    (run c on).outcome = .error (.unknownOpcode 9 5) ∧
    (traceRecords ((run c on).log c on)).map (·.message) =
      ["          ",
        "0000    1 OP_CONSTANT         0 '1'",
        "          [ 1 ]",
        "0002    | OP_CONSTANT         1 '2'",
        "          [ 1 ][ 2 ]",
        "0004    2 OP_NEGATE",
        "          [ 1 ][ -2 ]",
        "0005    | Unknown opcode 9"] := by
  intro c on
  obtain ⟨-, -, -, -, hrecords, -, -, -⟩ := trace_follows_listing c "" 2
  have hmoments : (run c on).moments = #[⟨0, []⟩, ⟨2, [⟨0x3FF0000000000000⟩]⟩,
      ⟨4, [⟨0x4000000000000000⟩, ⟨0x3FF0000000000000⟩]⟩,
      ⟨5, [⟨0xC000000000000000⟩, ⟨0x3FF0000000000000⟩]⟩] := by decide
  refine ⟨by rfl, ?_⟩
  rw [hrecords, hmoments]
  decide +kernel

end Machine

end Abacus
