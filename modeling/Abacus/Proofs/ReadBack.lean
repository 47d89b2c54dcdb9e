import Abacus.Proofs.Assembling
import Abacus.Proofs.SingleLine

/-!
# A listing can be read back

Two chunks with the same listing have the same code, whatever their bytes are, and if
operands are on the lines of their operations they have the same lines too.

*Columns.*  The columns of a listing are set to a width, and a field that is wider than
its column runs over it, so that columns do not stand at fixed places.  What sets them
apart is that a field has no space in it and a space behind it (`field_inj`).  This
holds of offsets, of source lines and of the operand of a load, even of one that is
missing.

*Bars.*  A bar stands for the line of the byte before.  The listing is read from the
front, so that line is known already, provided that the byte before is not an operand on
a line of its own.  No listing shows that line.  A chunk that has been compiled or
assembled has no such operand (`Chunk.Holds`).
-/

namespace Abacus

open Text Instruction

/-! ## Lines of a text -/

/-- The lines of a text can be told apart. -/
theorem lines_inj {xs ys : List String} (hx : ∀ x ∈ xs, SingleLine x) (hy : ∀ y ∈ ys, SingleLine y)
    (h : String.join (xs.map (· ++ "\n")) = String.join (ys.map (· ++ "\n"))) : xs = ys := by
  have hend (x : String) : (x ++ "\n").toList = x.toList ++ ['\n'] := String.toList_append
  have hlist := congrArg String.toList h
  clear h
  rw [String.toList_join, String.toList_join] at hlist
  induction xs generalizing ys with
  | nil =>
      cases ys with
      | nil => rfl
      | cons y ys => simp at hlist
  | cons x xs ih =>
      cases ys with
      | nil => simp at hlist
      | cons y ys =>
          obtain ⟨hx, hxs⟩ := List.forall_mem_cons.mp hx
          obtain ⟨hy, hys⟩ := List.forall_mem_cons.mp hy
          simp only [List.map_cons, List.flatMap_cons, hend, List.append_assoc,
            List.singleton_append] at hlist
          obtain ⟨hfirst, hrest⟩ := append_cons_inj hx hy hlist
          rw [String.toList_injective hfirst, ih hxs hys hrest]

namespace Chunk

variable {c d : Chunk} {offset : Nat}

/-! ## The parts of a line -/

/-- What stands in the column of source lines. -/
def lineMark (c : Chunk) (offset : Nat) : List Char :=
  if 0 < offset ∧ c.lineAt? (offset - 1) = some ((c.lineAt? offset).getD 0) then ['|']
  else Nat.toDigits 10 ((c.lineAt? offset).getD 0).toNat

theorem unspaced_lineMark (c : Chunk) (offset : Nat) : Unspaced (c.lineMark offset) := by
  unfold lineMark
  split
  · exact ⟨nofun, by decide⟩
  · exact unspaced_toDigits _

/-- The line column is padding in front of the mark. -/
theorem toList_lineColumn (c : Chunk) (offset : Nat) :
    ∃ k, (c.lineColumn offset).toList = List.replicate k ' ' ++ c.lineMark offset := by
  unfold lineColumn lineMark
  dsimp only
  split
  · exact ⟨3, rfl⟩
  · exact toList_padLeft_repr 4 ' ' _

/-- What stands in the column of operands. -/
def operandMark : Option UInt8 → List Char
  | none => "<missing".toList
  | some index => Nat.toDigits 10 index.toNat

theorem unspaced_operandMark (operand : Option UInt8) : Unspaced (operandMark operand) := by
  cases operand with
  | none => exact ⟨by decide, by decide⟩
  | some index => exact unspaced_toDigits _

/-- The mark of an operand tells the operand, and whether it is missing. -/
theorem operandMark_inj {a b : Option UInt8} (h : operandMark a = operandMark b) : a = b := by
  have hmissing (index : UInt8) : operandMark none ≠ operandMark (some index) := by
    intro heq
    have hmem : '<' ∈ Nat.toDigits 10 index.toNat := by
      change '<' ∈ operandMark (some index)
      rw [← heq]
      decide
    exact not_mem_toDigits (by decide) _ hmem
  cases a with
  | none =>
      cases b with
      | none => rfl
      | some index => exact absurd h (hmissing index)
  | some index =>
      cases b with
      | none => exact absurd h.symm (hmissing index)
      | some index' => rw [UInt8.toNat_inj.mp (toDigits_inj h)]

/-- The text of an operand begins with its mark, with a blank behind it. -/
theorem toList_operandText (c : Chunk) (offset : Nat) :
    ∃ k rest, (c.operandText offset).toList =
      List.replicate k ' ' ++ operandMark c.code[offset + 1]? ++ ' ' :: rest := by
  unfold operandText
  cases c.code[offset + 1]? with
  | none =>
      have hmissing : "<missing operand>".toList =
          List.replicate 0 ' ' ++ operandMark none ++ ' ' :: "operand>".toList := by decide
      exact ⟨0, _, hmissing⟩
  | some index =>
      obtain ⟨k, hk⟩ := toList_padLeft_repr 4 ' ' index.toNat
      dsimp only
      split
      · exact ⟨k, _, by simp only [String.toList_append, hk, List.append_assoc]; rfl⟩
      · exact ⟨k, _, by simp only [String.toList_append, hk]; rfl⟩

/-- The letters by which the text of an instruction can be told from others. -/
def stem : Option Opcode → List Char
  | none => "Unkn".toList
  | some op => op.mnemonic.toList.take 4

/-- The first letters of a name tell the operation. -/
theorem stem_injective {a b : Option Opcode} (h : stem a = stem b) : a = b := by
  revert h
  rcases a with _ | (_ | _ | (_ | _ | _ | _) | _) <;>
    rcases b with _ | (_ | _ | (_ | _ | _ | _) | _) <;> decide

/-- A line shows the first letters of what its byte stands for. -/
theorem take_instructionText {byte : UInt8} (h : c.code[offset]? = some byte) :
    (c.instructionText offset).toList.take 4 = stem (Opcode.ofByte? byte) := by
  unfold instructionText
  rw [h]
  dsimp only
  split
  next hop =>
    rw [hop]
    simp only [String.toList_append]
    rfl
  next op _ hop => rw [hop]; rfl
  next hop =>
    rw [hop]
    simp only [String.toList_append]
    rfl

/-- The text of an instruction tells its bytes. -/
theorem instructionText_inj {byte byte' : UInt8} (hc : c.code[offset]? = some byte)
    (hd : d.code[offset]? = some byte') (h : c.instructionText offset = d.instructionText offset) :
    byte = byte' ∧
      (byte = Opcode.constant.byte → c.code[offset + 1]? = d.code[offset + 1]?) := by
  have hop : Opcode.ofByte? byte = Opcode.ofByte? byte' := by
    apply stem_injective
    rw [← take_instructionText hc, ← take_instructionText hd, h]
  have hbyte : byte = byte' := by
    cases hbyte : Opcode.ofByte? byte with
    | some op =>
        rw [hbyte] at hop
        rw [Opcode.ofByte?_eq_some_iff.mp hbyte, Opcode.ofByte?_eq_some_iff.mp hop.symm]
    | none =>
        rw [hbyte] at hop
        simp only [instructionText, hc, hd, hbyte, ← hop] at h
        have hrepr : Nat.repr byte.toNat = Nat.repr byte'.toNat := (String.append_right_inj _).mp h
        exact UInt8.toNat_inj.mp (repr_inj hrepr)
  refine ⟨hbyte, ?_⟩
  rintro rfl
  subst hbyte
  simp only [instructionText, hc, hd, Opcode.ofByte?_byte] at h
  have htext := congrArg String.toList ((String.append_right_inj _).mp h)
  obtain ⟨j, s, hj⟩ := c.toList_operandText offset
  obtain ⟨k, t, hk⟩ := d.toList_operandText offset
  rw [hj, hk] at htext
  exact operandMark_inj (field_inj (unspaced_operandMark _) (unspaced_operandMark _) htext).1

/-- A line of a listing tells what stands in its columns. -/
theorem listingLine_inj (h : c.listingLine offset = d.listingLine offset) :
    c.lineMark offset = d.lineMark offset ∧
      c.instructionText offset = d.instructionText offset := by
  unfold listingLine at h
  have htext := congrArg String.toList h
  obtain ⟨j, hj⟩ := c.toList_lineColumn offset
  obtain ⟨k, hk⟩ := d.toList_lineColumn offset
  have hspace : " ".toList = [' '] := by decide
  simp only [String.toList_append, List.append_assoc, List.append_cancel_left_eq, hj, hk, hspace,
    List.singleton_append] at htext
  obtain ⟨hmark, hrest⟩ := field_inj (c.unspaced_lineMark offset) (d.unspaced_lineMark offset)
    (List.cons.inj htext).2
  exact ⟨hmark, String.toList_injective hrest⟩

/-! ## The code -/

/-- The way of a listing is told by the code bytes. -/
theorem nextOffset_eq (h : c.code[offset]? = d.code[offset]?) :
    c.nextOffset offset = d.nextOffset offset := by
  rw [nextOffset, nextOffset, h]

/-- Listings of the same code show the same offsets. -/
theorem listedFrom_eq (h : c.code = d.code) (offset : Nat) :
    c.listedFrom offset = d.listedFrom offset := by
  fun_induction c.listedFrom offset with
  | case1 offset hlt ih =>
      rw [listedFrom_of_lt (c := d) (h ▸ hlt), ih, nextOffset_eq (congrArg (·[offset]?) h)]
  | case2 offset hge => rw [listedFrom_of_le (h ▸ Nat.le_of_not_lt hge)]

/-- Listings that agree from an offset on come from code that agrees from there on. -/
theorem getElem?_code_of_listed
    (h : (c.listedFrom offset).map c.listingLine = (d.listedFrom offset).map d.listingLine) :
    ∀ k, offset ≤ k → c.code[k]? = d.code[k]? := by
  fun_induction c.listedFrom offset with
  | case1 offset hlt ih =>
      have hlt' : offset < d.code.size := by
        by_contra hge
        rw [listedFrom_of_le (Nat.le_of_not_lt hge)] at h
        exact List.cons_ne_nil _ _ h
      rw [listedFrom_of_lt hlt', List.map_cons, List.map_cons] at h
      obtain ⟨hline, hlines⟩ := List.cons.inj h
      obtain ⟨hbyte, hoperand⟩ := instructionText_inj (Array.getElem?_eq_getElem hlt)
        (Array.getElem?_eq_getElem hlt') (listingLine_inj hline).2
      have hfirst : c.code[offset]? = d.code[offset]? := by
        rw [Array.getElem?_eq_getElem hlt, Array.getElem?_eq_getElem hlt', hbyte]
      rw [← nextOffset_eq hfirst] at hlines
      intro k hk
      -- the byte is the first of this line, its operand, or on a later line
      by_cases hnext : c.nextOffset offset ≤ k
      · exact ih hlines k hnext
      · unfold nextOffset at hnext
        split at hnext
        next hop =>
          rcases Nat.eq_or_lt_of_le hk with rfl | hk
          · exact hfirst
          · obtain rfl : k = offset + 1 := by omega
            rw [Array.getElem?_eq_getElem hlt, Option.bind_some] at hop
            exact hoperand (Opcode.ofByte?_eq_some_iff.mp hop)
        next =>
          obtain rfl : k = offset := by omega
          exact hfirst
  | case2 offset hge =>
      have hge' : ¬ offset < d.code.size := by
        intro hlt
        rw [listedFrom_of_lt hlt] at h
        exact List.cons_ne_nil _ _ h.symm
      intro k hk
      rw [Array.getElem?_eq_none (by omega), Array.getElem?_eq_none (by omega)]

/-! ## The lines -/

/-- Every operand is on the line of its operation. -/
def OperandsInLine (c : Chunk) : Prop :=
  ∀ o ∈ c.listed, c.code[o]? = some Opcode.constant.byte → o + 1 < c.code.size →
    c.lineAt? (o + 1) = c.lineAt? o

/-- A mark tells a line, if the line before is known. -/
theorem lineAt?_of_lineMark {line line' : UInt32} (hc : c.lineAt? offset = some line)
    (hd : d.lineAt? offset = some line')
    (hbefore : 0 < offset → c.lineAt? (offset - 1) = d.lineAt? (offset - 1))
    (h : c.lineMark offset = d.lineMark offset) : line = line' := by
  have hbar (n : Nat) : ['|'] ≠ Nat.toDigits 10 n := by
    intro heq
    exact not_mem_toDigits (by decide) n (heq ▸ List.mem_cons_self : '|' ∈ Nat.toDigits 10 n)
  simp only [lineMark, hc, hd, Option.getD_some] at h
  split at h
  next hc' =>
    split at h
    next hd' =>
      rw [hbefore hc'.1, hd'.2] at hc'
      exact (Option.some.inj hc'.2).symm
    next => exact absurd h (hbar _)
  next =>
    split at h
    next => exact absurd h.symm (hbar _)
    next => exact UInt32.toNat_inj.mp (toDigits_inj h)

/-- The lines of two listings are compared from the front. -/
theorem lineAt?_of_listed (hcode : c.code = d.code) (hc : c.lines.size = c.code.size)
    (hd : d.lines.size = d.code.size)
    (hmarks : ∀ o ∈ c.listedFrom offset, c.lineMark o = d.lineMark o)
    (hoperands : ∀ o ∈ c.listedFrom offset, c.code[o]? = some Opcode.constant.byte →
      o + 1 < c.code.size → c.lineAt? (o + 1) = c.lineAt? o ∧ d.lineAt? (o + 1) = d.lineAt? o)
    (hbefore : ∀ k < offset, c.lineAt? k = d.lineAt? k) (k : Nat) : c.lineAt? k = d.lineAt? k := by
  have hend {k : Nat} (hk : c.code.size ≤ k) : c.lineAt? k = d.lineAt? k := by
    rw [lineAt?, lineAt?, Array.getElem?_eq_none (by omega),
      Array.getElem?_eq_none (by rw [hd, ← hcode]; exact hk)]
  fun_induction c.listedFrom offset with
  | case1 offset hlt ih =>
      have hline : c.lineAt? offset = d.lineAt? offset := by
        have hlc : offset < c.lines.size := hc ▸ hlt
        have hld : offset < d.lines.size := by rw [hd, ← hcode]; exact hlt
        have hmark := hmarks offset List.mem_cons_self
        have heq := lineAt?_of_lineMark (Array.getElem?_eq_getElem hlc)
          (Array.getElem?_eq_getElem hld) (fun hpos => hbefore _ (by omega)) hmark
        rw [lineAt?, lineAt?, Array.getElem?_eq_getElem hlc, Array.getElem?_eq_getElem hld, heq]
      refine ih (fun o ho => hmarks o (List.mem_cons_of_mem _ ho))
        (fun o ho => hoperands o (List.mem_cons_of_mem _ ho)) ?_
      intro k hk
      -- the only byte that is passed without a line of its own is an operand
      by_cases hnew : offset ≤ k
      · unfold nextOffset at hk
        split at hk
        next hop =>
          rcases Nat.eq_or_lt_of_le hnew with rfl | hnew
          · exact hline
          · obtain rfl : k = offset + 1 := by omega
            by_cases hin : offset + 1 < c.code.size
            · have hbyte : c.code[offset]? = some Opcode.constant.byte := by
                rw [Array.getElem?_eq_getElem hlt, Option.bind_some] at hop
                rw [Array.getElem?_eq_getElem hlt, Opcode.ofByte?_eq_some_iff.mp hop]
              obtain ⟨hoc, hod⟩ := hoperands offset List.mem_cons_self hbyte hin
              rw [hoc, hod, hline]
            · exact hend (Nat.le_of_not_lt hin)
        next =>
          obtain rfl : k = offset := by omega
          exact hline
      · exact hbefore k (Nat.lt_of_not_le hnew)
  | case2 offset hge =>
      by_cases hk : k < offset
      · exact hbefore k hk
      · exact hend (by omega)

/-! ## Chunks written by instructions -/

/-- The chunk has been written by instructions, each on a line of its own. -/
structure Holds (c : Chunk) (l : List (Instruction × UInt32)) : Prop where
  code : c.code.toList = encode (l.map Prod.fst)
  lines : c.lines.toList = spread l

/-- One more instruction. -/
theorem Holds.push {l : List (Instruction × UInt32)} (h : c.Holds l) (i : Instruction)
    (line : UInt32) (hcode : d.code.toList = c.code.toList ++ i.bytes)
    (hlines : d.lines.toList = c.lines.toList ++ List.replicate i.bytes.length line) :
    d.Holds (l ++ [(i, line)]) where
  code := by
    rw [hcode, h.code, List.map_append, encode_append]
    exact congrArg _ (List.append_nil _).symm
  lines := by
    rw [hlines, h.lines, spread_append]
    exact congrArg _ (List.append_nil _).symm

/-- Instructions have their operands on their lines. -/
theorem lineAt?_operand {l : List (Instruction × UInt32)}
    (hcode : c.code.toList.drop offset = encode (l.map Prod.fst))
    (hlines : c.lines.toList.drop offset = spread l) {o : Nat} (ho : o ∈ c.listedFrom offset)
    (hop : c.code[o]? = some Opcode.constant.byte) : c.lineAt? (o + 1) = c.lineAt? o := by
  induction l generalizing offset with
  | nil =>
      rw [listedFrom_of_drop_nil hcode] at ho
      cases ho
  | cons e l ih =>
      obtain ⟨i, line⟩ := e
      rw [List.map_cons, encode_cons] at hcode
      have hspread : c.lines.toList.drop offset =
          List.replicate i.bytes.length line ++ spread l := hlines
      rw [listedFrom_of_drop hcode] at ho
      rcases List.mem_cons.mp ho with rfl | ho
      · have hbyte := getElem?_of_drop hcode 0
        rw [Nat.add_zero, hop] at hbyte
        cases i with
        | load index =>
            have hfirst := getElem?_of_drop hspread 0
            have hsecond := getElem?_of_drop hspread 1
            rw [Nat.add_zero] at hfirst
            rw [lineAt?, lineAt?, hfirst, hsecond]
            rfl
        | ret => cases hbyte
        | operator o => cases o <;> cases hbyte
        | negate => cases hbyte
      · refine ih (drop_code hcode) ?_ ho
        rw [← List.drop_drop, hspread]
        exact List.drop_left' List.length_replicate

/-- Code written by whole instructions has each operand in the line of its operation. -/
theorem Holds.operandsInLine {l : List (Instruction × UInt32)} (h : c.Holds l) :
    c.OperandsInLine := by
  intro o ho hop _
  have hcode : c.code.toList.drop 0 = encode (l.map Prod.fst) := h.code
  exact lineAt?_operand hcode h.lines ho hop

/-- A load is written as one instruction. -/
theorem Holds.pushLoad {l : List (Instruction × UInt32)} (h : c.Holds l) (index : Nat)
    (line : UInt32) : ∃ l, (c.pushLoad index line).Holds l := by
  unfold Chunk.pushLoad
  cases Chunk.operand? index with
  | none => exact ⟨l, h⟩
  | some byte =>
      exact ⟨_, h.push (.load byte) line (by simp [pushOp, bytes])
        (by simp [pushOp, bytes, List.replicate])⟩

/-- So is a load of a new value. -/
theorem Holds.load? {share : Bool} {v : Value} {line : UInt32} {l : List (Instruction × UInt32)}
    (h : c.Holds l) (hload : c.load? share v line = some d) : ∃ l, d.Holds l := by
  unfold Chunk.load? at hload
  split at hload
  next index _ =>
    obtain rfl := Option.some.inj hload
    exact h.pushLoad index line
  next =>
    split at hload
    next =>
      obtain rfl := Option.some.inj hload
      have hadded : (c.addValue v).Holds l := ⟨h.code, h.lines⟩
      exact hadded.pushLoad _ line
    next => cases hload

end Chunk

/-- A compilation writes by instructions, whatever it reads. -/
theorem Compiler.invariant_holds {σ : Type} [TokenSource σ] (options : Options) :
    Invariant options fun s : State σ => ∃ l, s.chunk.Holds l where
  report _ h := by rwa [State.chunk_report]
  negate {s} h := by
    obtain ⟨l, hl⟩ := h
    exact ⟨_, hl.push .negate s.previous.line Array.toList_push Array.toList_push⟩
  operator {s} o h := by
    obtain ⟨l, hl⟩ := h
    exact ⟨_, hl.push (.operator o) s.previous.line Array.toList_push Array.toList_push⟩
  writeLiteral {s} v h := by
    rw [State.chunk_writeLiteral]
    cases hload : s.chunk.load? options.shareConstants v s.previous.line with
    | none => exact h
    | some c =>
        obtain ⟨l, hl⟩ := h
        exact hl.load? hload
  moveOn h := by rwa [State.chunk_moveOn]

/-- The compiler writes operands in the lines of their operations. -/
theorem Compiler.operandsInLine_compileFrom {σ : Type} [TokenSource σ] (options : Options)
    (source : σ) : (compileFrom options source).chunk.OperandsInLine := by
  have hinitial : ∃ l, (initial source).chunk.Holds l := ⟨[], rfl, rfl⟩
  obtain ⟨s, ⟨l, hl⟩, hfinal⟩ := (invariant_holds options).exists_before_return hinitial
  change (finalState options source).chunk.OperandsInLine
  rw [hfinal]
  exact (hl.push .ret s.previous.line Array.toList_push Array.toList_push).operandsInLine

namespace Assembly

/-- Whatever is assembled from a line is an instruction. -/
theorem exists_holds_of_append {c c' : Chunk} {line : UInt32} {item : Item}
    (h : append c line item.statement = .ok c') {l : List (Instruction × UInt32)}
    (hc : c.Holds l) : ∃ l, c'.Holds l := by
  cases item with
  | constant v =>
      by_cases hroom : c.consts.size < Chunk.poolLimit
      · obtain rfl := Except.ok.inj ((append_constant_of_lt hroom line v).symm.trans h)
        have hadded : (c.addValue v).Holds l := ⟨hc.code, hc.lines⟩
        exact hadded.pushLoad _ line
      · cases (if_neg hroom).symm.trans h
  | instruction i =>
      obtain ⟨c'', hadded, -, hcode, hlines⟩ := append_instruction c line i
      obtain rfl := Except.ok.inj (h.symm.trans hadded)
      exact ⟨_, hc.push i line hcode hlines⟩

/-- What is said on a line is written as one instruction, if it is one. -/
theorem exists_holds_of_assembleLine {c c' : Chunk} {line : UInt32} {text : List Char}
    (h : assembleLine c line text = .ok c') {l : List (Instruction × UInt32)} (hc : c.Holds l) :
    ∃ l, c'.Holds l := by
  unfold assembleLine at h
  cases hread : readLine text with
  | error e =>
      rw [hread] at h
      cases h
  | ok s =>
      rw [hread] at h
      obtain ⟨said, -, rfl⟩ := says_of_readLine hread
      cases said with
      | none =>
          obtain rfl := Except.ok.inj h
          exact ⟨l, hc⟩
      | some item => exact exists_holds_of_append h hc

/-- Assembled lines are written by instructions. -/
theorem exists_holds_of_assembleFrom {texts : List (List Char)} {number : Nat} {c c' : Chunk}
    (h : assembleFrom number texts c = .ok c') {l : List (Instruction × UInt32)} (hc : c.Holds l) :
    ∃ l, c'.Holds l := by
  induction texts generalizing number c l with
  | nil =>
      obtain rfl := Except.ok.inj h
      exact ⟨l, hc⟩
  | cons text texts ih =>
      rw [assembleFrom] at h
      split at h
      next =>
        split at h
        next c₁ hline =>
          obtain ⟨l₁, hc₁⟩ := exists_holds_of_assembleLine hline hc
          exact ih h hc₁
        next => cases h
      next => cases h

/-- The assembler writes operands in the lines of their operations. -/
theorem operandsInLine_of_assemble {text : String} {c : Chunk} (h : assemble text = .ok c) :
    c.OperandsInLine := by
  have hempty : Chunk.empty.Holds [] := ⟨rfl, rfl⟩
  obtain ⟨l, hl⟩ := exists_holds_of_assembleFrom h hempty
  exact hl.operandsInLine

end Assembly

namespace Chunk

/-! ## Listings -/

/-- No value and no name has a line end in its text. -/
theorem singleLine_instructionText (c : Chunk) (offset : Nat) :
    SingleLine (c.instructionText offset) := by
  have hoperand : SingleLine (c.operandText offset) := by
    unfold operandText
    split
    · decide
    · have hcolumn (index : UInt8) := singleLine_padLeft_repr 4
        (show ' ' ≠ '\n' by decide) index.toNat
      have hquotes : SingleLine " '" ∧ SingleLine "'" ∧ SingleLine " <invalid constant>" := by
        decide
      dsimp only
      split
      · simp [hcolumn, hquotes, Value.singleLine_text]
      · simp [hcolumn, hquotes]
  unfold instructionText
  split
  · decide
  · split
    · have hname : SingleLine (padRight 16 ' ' Opcode.constant.mnemonic) ∧ SingleLine " " := by
        decide
      simp [hname, hoperand]
    · next op _ _ => rcases op with _ | _ | (_ | _ | _ | _) | _ <;> decide
    · have hname : SingleLine "Unknown opcode " := by decide
      simp [hname, singleLine_repr]

/-- A line of a listing is a single line. -/
theorem singleLine_listingLine (c : Chunk) (offset : Nat) : SingleLine (c.listingLine offset) := by
  have hoffset : SingleLine (padLeft 4 '0' (Nat.repr offset)) :=
    singleLine_padLeft_repr 4 (by decide) offset
  have hspace : SingleLine " " := by decide
  have hline : SingleLine (c.lineColumn offset) := by
    unfold lineColumn
    dsimp only
    split
    · decide
    · exact singleLine_padLeft_repr _ (by decide) _
  unfold listingLine
  simp [hoffset, hspace, hline, singleLine_instructionText]

/-- Listings under the same title are the same line by line. -/
theorem map_listingLine_eq {c d : Chunk} {title : String} (h : c.listing title = d.listing title) :
    c.listed.map c.listingLine = d.listed.map d.listingLine := by
  unfold listing at h
  have hlines := (String.append_right_inj _).mp h
  refine lines_inj ?_ ?_ ?_
  · simp [singleLine_listingLine]
  · simp [singleLine_listingLine]
  · simpa [List.map_map, Function.comp_def] using hlines

/-- Two chunks with the same listing have the same code, and the same lines if no operand is on a
line of its own.  No chunk that has been compiled or assembled has such an operand. -/
theorem listing_tells_the_code :
    (∀ {c d : Chunk} {title : String}, c.lines.size = c.code.size → d.lines.size = d.code.size →
      c.listing title = d.listing title →
      c.code = d.code ∧ (c.OperandsInLine → d.OperandsInLine → c.lines = d.lines)) ∧
    (∀ (σ : Type) [TokenSource σ] (options : Compiler.Options) (source : σ),
      (Compiler.compileFrom options source).chunk.OperandsInLine) ∧
    ∀ (text : String) (c : Chunk), Assembly.assemble text = .ok c → c.OperandsInLine := by
  refine ⟨?_, fun _ _ => Compiler.operandsInLine_compileFrom,
    fun _ _ => Assembly.operandsInLine_of_assemble⟩
  intro c d title hc hd h
  have hlisted := map_listingLine_eq h
  have hcode : c.code = d.code :=
    Array.ext_getElem? fun k => getElem?_code_of_listed hlisted k (Nat.zero_le _)
  refine ⟨hcode, fun hoc hod => ?_⟩
  have hsame : c.listed = d.listed := listedFrom_eq hcode 0
  rw [← hsame] at hlisted
  have hmarks : ∀ o ∈ c.listed, c.lineMark o = d.lineMark o :=
    fun o ho => (listingLine_inj (List.map_inj_left.mp hlisted o ho)).1
  refine Array.ext_getElem? fun k => lineAt?_of_listed hcode hc hd hmarks ?_ nofun k
  intro o ho hop hin
  exact ⟨hoc o ho hop hin, hod o (hsame ▸ ho) (hcode ▸ hop) (hcode ▸ hin)⟩

/-- Two numbers next to each other, both shown as `0.1`: the chunks differ, but not in code or
lines.  The last load has no operand. -/
theorem listing_tells_the_code_of_close_numbers :
    let c : Chunk :=
      { code := #[6, 1, 0, 1], lines := #[7, 7, 7, 8], consts := #[⟨0x3FB999999999999A⟩] }
    let d : Chunk := { c with consts := #[⟨0x3FB999999999999B⟩] }
    (c.lines.size = c.code.size ∧ d.lines.size = d.code.size ∧
      c.listing "code" = d.listing "code" ∧ c.OperandsInLine ∧ d.OperandsInLine) ∧
    c ≠ d ∧ c.code = d.code ∧ c.lines = d.lines := by
  intro c d
  have hlisting : c.listing "code" = d.listing "code" := by decide +kernel
  have hoperands (c : Chunk) (h : c.listed = [0, 1, 3])
      (hlines : c.lineAt? 2 = c.lineAt? 1) (hcode : c.code = #[6, 1, 0, 1]) :
      c.OperandsInLine := by
    intro o ho hop hin
    simp only [h, List.mem_cons, List.not_mem_nil, or_false] at ho
    rcases ho with rfl | rfl | rfl
    · rw [hcode] at hop
      cases hop
    · exact hlines
    · rw [hcode] at hin
      exact absurd hin (by decide)
  have hc : c.OperandsInLine := hoperands c (by decide +kernel) rfl rfl
  have hd : d.OperandsInLine := hoperands d (by decide +kernel) rfl rfl
  obtain ⟨hcode, hlines⟩ := listing_tells_the_code.1 (c := c) (d := d) rfl rfl hlisting
  exact ⟨⟨rfl, rfl, hlisting, hc, hd⟩, by decide, hcode, hlines hc hd⟩

end Chunk

end Abacus
