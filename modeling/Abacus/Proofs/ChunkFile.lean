import Abacus.Chunk.File
import Abacus.Proofs.Fields
import Abacus.Proofs.Preservation

/-!
# Chunk files

Chunk files and valid chunks are in one-to-one correspondence, as far as a chunk
can be stored at all (`Chunk.Storable`): the counts of a file are words of four
bytes, and a file has as many lines as bytes of code.

The proof follows the layers of a file from the inside out.  Each layer is read
exactly, in the sense of `Abacus.Proofs.Fields`: the counted sequences, the parts
that make up the chunk, what the checksum covers, and the whole file.
-/

namespace Abacus.Chunk

/-- What is needed for a chunk to be stored. -/
structure Storable (c : Chunk) : Prop where
  consts_lt : c.consts.size < UInt32.size
  code_lt : c.code.size < UInt32.size
  lines_eq : c.lines.size = c.code.size

/-! ## Sequences -/

/-- A computation of two steps gives a result if both do. -/
theorem bind_eq_ok_iff {ε α β : Type} {x : Except ε α} {f : α → Except ε β} {b : β} :
    (x >>= f) = .ok b ↔ ∃ a, x = .ok a ∧ f a = .ok b := by
  cases x with
  | error e => exact ⟨nofun, nofun⟩
  | ok a => exact ⟨fun h => ⟨a, rfl, h⟩, fun ⟨_, ha, h⟩ => by cases ha; exact h⟩

theorem mapError_eq_ok_iff {ε ε' α : Type} {x : Except ε α} {f : ε → ε'} {a : α} :
    x.mapError f = .ok a ↔ x = .ok a := by
  cases x with
  | error e => exact ⟨nofun, nofun⟩
  | ok b => rw [Except.mapError, Except.ok.injEq, Except.ok.injEq]

/-- A check that has been passed leaves the rest of a computation. -/
theorem check_eq_ok_iff {ε α : Type} {p : Prop} [Decidable p] {e : ε}
    {x : Except ε α} {a : α} :
    (if p then (throw e >>= fun _ : PUnit => x) else x) = .ok a ↔ ¬ p ∧ x = .ok a := by
  by_cases hp : p
  · rw [if_pos hp]
    exact ⟨nofun, fun h => absurd hp h.1⟩
  · rw [if_neg hp]
    exact ⟨fun h => ⟨hp, h⟩, fun h => h.2⟩

section

variable {α : Type} {read : Cursor → Except Shortage (α × Cursor)} {write : α → List UInt8}
  (hread : Cursor.Exact read write)

include hread

theorem readMany_eq_ok_iff_exists {n : Nat} {done out : Array α} {c c' : Cursor} :
    readMany read n done c = .ok (out, c') ↔
      ∃ xs : List α, xs.length = n ∧ out = done ++ xs ∧ c.Reads (xs.flatMap write) c' := by
  induction n generalizing done c with
  | zero =>
      rw [readMany]
      constructor
      · intro h
        cases h
        exact ⟨[], rfl, by simp, Cursor.Reads.nil_iff.mpr rfl⟩
      · rintro ⟨xs, hlen, rfl, hreads⟩
        obtain rfl := List.length_eq_zero_iff.mp hlen
        rw [Cursor.Reads.nil_iff.mp hreads]
        simp
  | succ n ih =>
      have hstep : readMany read (n + 1) done c = .ok (out, c') ↔
          ∃ a m, read c = .ok (a, m) ∧ readMany read n (done.push a) m = .ok (out, c') := by
        rw [readMany]
        cases read c with
        | error e => simp
        | ok r => simp [Prod.ext_iff]
      rw [hstep]
      constructor
      · rintro ⟨a, m, ha, hmany⟩
        obtain ⟨xs, hlen, rfl, hreads⟩ := ih.mp hmany
        refine ⟨a :: xs, by rw [List.length_cons, hlen], by simp, ?_⟩
        exact Cursor.Reads.append_iff.mpr ⟨m, (hread c a m).mp ha, hreads⟩
      · rintro ⟨xs, hlen, rfl, hreads⟩
        obtain ⟨a, xs, rfl⟩ := List.exists_cons_of_length_eq_add_one hlen
        obtain ⟨m, ha, hreads⟩ := Cursor.Reads.append_iff.mp hreads
        exact ⟨a, m, (hread c a m).mpr ha,
          ih.mpr ⟨xs, Nat.succ.inj hlen, by simp, hreads⟩⟩

/-- A counted sequence is read exactly. -/
theorem readMany_eq_ok_iff {n : Nat} {out : Array α} {c c' : Cursor} :
    readMany read n #[] c = .ok (out, c') ↔
      out.size = n ∧ c.Reads (out.toList.flatMap write) c' := by
  rw [readMany_eq_ok_iff_exists hread]
  constructor
  · rintro ⟨xs, hlen, rfl, hreads⟩
    simpa using ⟨hlen, hreads⟩
  · rintro ⟨hlen, hreads⟩
    exact ⟨out.toList, hlen, by simp, hreads⟩

end

/-! ## The parts of a chunk -/

/-- The pool, the code and the lines as they are stored. -/
def parts (c : Chunk) : List UInt8 :=
  (Field.word32 c.consts.size.toUInt32).bytes ++
    (c.consts.toList.flatMap (fun v => (Field.number v).bytes) ++
      ((Field.word32 c.code.size.toUInt32).bytes ++
        (c.code.toList ++ c.lines.toList.flatMap fun n => (Field.word32 n).bytes)))

theorem payload_eq (c : Chunk) :
    c.payload = mark ++ ((Field.word16 version).bytes ++ c.parts) := by
  simp [payload, fields, parts, List.flatMap_append, List.flatMap_map, Field.bytes]

theorem readParts_eq_ok_iff {c c' : Cursor} {chunk : Chunk} :
    readParts c = .ok (chunk, c') ↔ chunk.Storable ∧ c.Reads chunk.parts c' := by
  simp only [readParts, bind_eq_ok_iff, Prod.exists, Cursor.exact_word32 _ _ _,
    readMany_eq_ok_iff Cursor.exact_number, readMany_eq_ok_iff Cursor.exact_word32,
    Cursor.take_eq_ok_iff, parts, Cursor.Reads.append_iff]
  constructor
  · rintro ⟨poolSize, c₁, h₁, consts, c₂, ⟨hpool, h₂⟩, codeSize, c₃, h₃, code, c₄, ⟨hcode, h₄⟩,
      lines, c₅, ⟨hlines, h₅⟩, hchunk⟩
    cases hchunk
    refine ⟨⟨?_, ?_, ?_⟩, ?_⟩
    · change consts.size < UInt32.size
      rw [hpool]
      exact poolSize.toNat_lt
    · change code.toArray.size < UInt32.size
      rw [List.size_toArray, hcode]
      exact codeSize.toNat_lt
    · exact hlines.trans hcode.symm
    · have hp : consts.size.toUInt32 = poolSize := by rw [hpool]; exact UInt32.ofNat_toNat
      have hc : code.toArray.size.toUInt32 = codeSize := by
        rw [List.size_toArray, hcode]
        exact UInt32.ofNat_toNat
      exact ⟨c₁, hp ▸ h₁, c₂, h₂, c₃, hc ▸ h₃, c₄, h₄, h₅⟩
  · rintro ⟨hs, c₁, h₁, c₂, h₂, c₃, h₃, c₄, h₄, h₅⟩
    have hp : chunk.consts.size.toUInt32.toNat = chunk.consts.size :=
      UInt32.toNat_ofNat_of_lt' hs.consts_lt
    have hc : chunk.code.size.toUInt32.toNat = chunk.code.size :=
      UInt32.toNat_ofNat_of_lt' hs.code_lt
    exact ⟨_, c₁, h₁, chunk.consts, c₂, ⟨hp.symm, h₂⟩, _, c₃, h₃, chunk.code.toList, c₄,
      ⟨hc.symm, h₄⟩, chunk.lines, c', ⟨hs.lines_eq.trans hc.symm, h₅⟩, rfl⟩

/-! ## What the checksum covers -/

/-- Behind the mark and the version stand the parts of a chunk and nothing else, and the
chunk has to be valid. -/
theorem ofPayload_front (rest : List UInt8) :
    ofPayload (mark ++ ((Field.word16 version).bytes ++ rest)) =
      match readParts ⟨6, rest⟩ with
      | .error s => .error (.shortage s)
      | .ok (chunk, last) =>
          if last.remaining ≠ 0 then .error .trailingBytes
          else
            match chunk.defect? with
            | some d => .error (.defect d)
            | none => .ok chunk := by
  change ((readParts ⟨6, rest⟩).mapError LoadError.shortage).bind _ = _
  cases readParts ⟨6, rest⟩ with
  | error s => rfl
  | ok result =>
      dsimp only [Except.mapError, Except.bind]
      split
      next => rfl
      next => rfl

/-- A chunk that can be stored is found again, or its defect is. -/
theorem ofPayload_payload {c : Chunk} (h : c.Storable) :
    ofPayload c.payload =
      match c.defect? with
      | some d => .error (.defect d)
      | none => .ok c := by
  have hparts : readParts ⟨6, c.parts⟩ = .ok (c, ⟨6 + c.parts.length, []⟩) :=
    readParts_eq_ok_iff.mpr ⟨h, (List.append_nil _).symm, rfl⟩
  rw [payload_eq, ofPayload_front, hparts]
  rfl

theorem ofPayload_eq_ok {bytes : List UInt8} {c : Chunk} (h : ofPayload bytes = .ok c) :
    c.Storable ∧ c.defect? = none ∧ bytes = c.payload := by
  simp only [ofPayload, bind_eq_ok_iff, Prod.exists, mapError_eq_ok_iff, check_eq_ok_iff,
    Decidable.not_not] at h
  obtain ⟨_, c₁, hmark, rfl, _, c₂, hversion, rfl, chunk, c₃, hparts, hend, hdefect⟩ := h
  cases hd : chunk.defect? with
  | some d =>
      rw [hd] at hdefect
      cases hdefect
  | none =>
      rw [hd] at hdefect
      cases hdefect
      obtain ⟨hs, hparts⟩ := readParts_eq_ok_iff.mp hparts
      have hreads := Cursor.Reads.append_iff.mpr ⟨c₁, (Cursor.take_eq_ok_iff.mp hmark).2,
        Cursor.Reads.append_iff.mpr ⟨c₂, (Cursor.exact_word16 ..).mp hversion, hparts⟩⟩
      rw [← payload_eq] at hreads
      exact ⟨hs, hd, (Cursor.Reads.start_iff.mp ⟨hreads, hend⟩).1⟩

/-! ## Whole files -/

/-- A file that is long enough is cut where its checksum begins. -/
theorem exists_cut {bytes : List UInt8} (h : 10 ≤ bytes.length) :
    ∃ payload tail, bytes = payload ++ tail ∧ tail.length = 4 ∧ 6 ≤ payload.length := by
  refine ⟨bytes.take (bytes.length - 4), bytes.drop (bytes.length - 4),
    (List.take_append_drop ..).symm, ?_, ?_⟩
  · rw [List.length_drop]
    omega
  · rw [List.length_take]
    omega

/-- The last four bytes of a file are a checksum of the others. -/
theorem ofBytes_append {payload tail : List UInt8} (htail : tail.length = 4)
    (hlength : 6 ≤ payload.length) :
    ofBytes (payload ++ tail) =
      if crc32 payload = (LittleEndian.ofBytes tail).toUInt32 then ofPayload payload
      else .error (.checksum (crc32 payload) (LittleEndian.ofBytes tail).toUInt32) := by
  have hcut : (payload ++ tail).length - 4 = payload.length := by
    rw [List.length_append, htail, Nat.add_sub_cancel]
  have hlong : ¬ (payload ++ tail).length < 10 := by
    rw [List.length_append, htail]
    omega
  unfold ofBytes
  rw [if_neg hlong]
  dsimp only
  rw [hcut, List.take_left, List.drop_left]
  by_cases hcrc : crc32 payload = (LittleEndian.ofBytes tail).toUInt32
  · rw [if_neg (not_not_intro hcrc), if_pos hcrc]
  · rw [if_pos hcrc, if_neg hcrc]
    rfl

theorem six_le_length_payload (c : Chunk) : 6 ≤ c.payload.length := by
  rw [payload_eq, ← List.append_assoc, List.length_append]
  exact Nat.le_add_right 6 _

theorem length_toBytes (c : Chunk) : c.toBytes.length = c.payload.length + 4 := by
  rw [toBytes, List.length_append, Field.length_bytes]
  rfl

/-- A file that was written is loaded, or its defect is found. -/
theorem ofBytes_toBytes {c : Chunk} (h : c.Storable) :
    ofBytes c.toBytes =
      match c.defect? with
      | some d => .error (.defect d)
      | none => .ok c := by
  have hcrc : (LittleEndian.ofBytes (Field.word32 (crc32 c.payload)).bytes).toUInt32 =
      crc32 c.payload := by
    rw [Field.bytes, LittleEndian.ofBytes_toBytes, Nat.mod_eq_of_lt (UInt32.toNat_lt _)]
    exact UInt32.ofNat_toNat
  rw [toBytes, ofBytes_append (Field.length_bytes _) c.six_le_length_payload, hcrc, if_pos rfl]
  exact ofPayload_payload h

theorem ofBytes_of_short {bytes : List UInt8} (h : bytes.length < 10) :
    ofBytes bytes = .error .tooShort := by
  unfold ofBytes
  rw [if_pos h]
  rfl

/-- A file that can be loaded was written. -/
theorem ofBytes_eq_ok {bytes : List UInt8} {c : Chunk} (h : ofBytes bytes = .ok c) :
    c.Storable ∧ c.defect? = none ∧ bytes = c.toBytes := by
  by_cases hshort : bytes.length < 10
  · rw [ofBytes_of_short hshort] at h
    cases h
  obtain ⟨payload, tail, rfl, htail, hlength⟩ := exists_cut (Nat.not_lt.mp hshort)
  rw [ofBytes_append htail hlength] at h
  split at h
  next hcrc =>
    obtain ⟨hs, hd, rfl⟩ := ofPayload_eq_ok h
    refine ⟨hs, hd, ?_⟩
    have hbytes : (Field.word32 (crc32 c.payload)).bytes = tail := by
      rw [Field.bytes, hcrc, LittleEndian.toNat_toUInt32_ofBytes (Nat.le_of_eq htail), ← htail,
        LittleEndian.toBytes_ofBytes]
    rw [toBytes, hbytes]
  next => cases h

/-! ## Compiled chunks -/

/-- A compiled chunk is valid. -/
theorem defect?_of_compile {options : Compiler.Options} {text : String} {c : Chunk}
    (h : (Compiler.compile options text).result = .ok c) :
    c.lines.size = c.code.size ∧ c.consts.size ≤ poolLimit ∧ c.defect? = none := by
  obtain ⟨t, e, ha⟩ := Compiler.compile_result_eq_ok_iff.mp h
  obtain ⟨d, hd, rfl⟩ := Option.map_eq_some_iff.mp ha.code
  obtain ⟨code, lines, hcode, hlines, hlength, hcodes⟩ := Tree.exists_code (Nat.zero_le _) hd
  have hsame : d.lines.size = d.code.size := by
    rw [← Array.length_toList, ← Array.length_toList, hcode, hlines]
    simp [empty, hlength]
  refine ⟨by simp [pushOp, hsame], (Tree.generate?_consts (Nat.zero_le _) hd).2, ?_⟩
  have hcodeList : (d.pushOp .ret e.line).code.toList = code ++ [Opcode.ret.byte] := by
    simp [pushOp, hcode, empty]
  unfold defect?
  rw [if_neg (by simp [pushOp, hsame]), hcodeList]
  change codeDefect? d.consts.size _ 0 = none
  rw [hcodes.codeDefect?_append, codeDefect?_byte _ .ret (by decide)]
  rfl

/-- Chunk files and valid chunks are in one-to-one correspondence.  The file of a
chunk that is not valid is refused for the defect of the chunk, and what has been
compiled is loaded as it was. -/
theorem chunk_files_exact :
    (∀ (bytes : List UInt8) (c : Chunk), c.consts.size < UInt32.size → c.code.size < UInt32.size →
      c.lines.size = c.code.size →
      (ofBytes bytes = .ok c ↔ c.defect? = none ∧ bytes = c.toBytes) ∧
      ∀ d, c.defect? = some d → ofBytes c.toBytes = .error (.defect d)) ∧
    ∀ (options : Compiler.Options) (text : String) (c : Chunk),
      (Compiler.compile options text).result = .ok c → c.code.size < UInt32.size →
      ofBytes c.toBytes = .ok c := by
  refine ⟨fun bytes c hconsts hcode hlines => ⟨⟨fun h => (ofBytes_eq_ok h).2, ?_⟩, ?_⟩, ?_⟩
  · rintro ⟨hd, rfl⟩
    rw [ofBytes_toBytes ⟨hconsts, hcode, hlines⟩, hd]
  · intro d hd
    rw [ofBytes_toBytes ⟨hconsts, hcode, hlines⟩, hd]
  · intro options text c h hcode
    obtain ⟨hlines, hpool, hd⟩ := defect?_of_compile h
    have hconsts : c.consts.size < UInt32.size := Nat.lt_of_le_of_lt hpool (by decide)
    rw [ofBytes_toBytes ⟨hconsts, hcode, hlines⟩, hd]

/-- A chunk that returns an undefined number with a payload, one whose code is no
instruction, and the chunk of an expression. -/
theorem chunk_files_exact_of_samples :
    ofBytes (toBytes ⟨#[1, 0, 0], #[1, 1, 2], #[⟨0xFFF8000000000007⟩]⟩) =
      .ok ⟨#[1, 0, 0], #[1, 1, 2], #[⟨0xFFF8000000000007⟩]⟩ ∧
    ofBytes (toBytes ⟨#[9], #[1], #[]⟩) = .error (.defect (.unknownOpcode 9 0)) ∧
    ofBytes (Compiler.compile {} "1 - -(2)").chunk.toBytes =
      .ok (Compiler.compile {} "1 - -(2)").chunk := by
  refine ⟨?_, ?_, ?_⟩
  · exact ((chunk_files_exact.1 _ _ (by decide) (by decide) rfl).1).mpr ⟨by decide, rfl⟩
  · exact (chunk_files_exact.1 [] _ (by decide) (by decide) rfl).2 _ (by decide)
  · exact chunk_files_exact.2 {} "1 - -(2)" _ (by decide +kernel) (by decide +kernel)

end Abacus.Chunk
