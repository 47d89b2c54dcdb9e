import Abacus.Proofs.ChunkFile

/-!
# Files end where they say

A part of a chunk file is no chunk file, and neither is a chunk file with more behind it.
The checksum does not show this.  It stands at the end, and the last four bytes of a file
that has been cut or extended may happen to be the checksum of the bytes in front of them.

What shows it are the counts in front of the pool and of the code, which tell where a
chunk ends.  If bytes begin with the parts of two chunks, then the chunks are the same, and
so is what follows them (`Chunk.parts_append_inj`).  The parts of a file that has been cut
therefore run short, and behind the parts of a file that has been extended something is
left, whatever the checksum says.
-/

namespace Abacus.Chunk

/-! ## The parts of a chunk -/

/-- The parts of a chunk can be told from what follows them. -/
theorem parts_append_inj {c c' : Chunk} (hc : c.Storable) (hc' : c'.Storable)
    {xs ys : List UInt8} (h : c.parts ++ xs = c'.parts ++ ys) : c = c' ∧ xs = ys := by
  have hread {c : Chunk} (hc : c.Storable) (xs : List UInt8) :
      readParts ⟨0, c.parts ++ xs⟩ = .ok (c, ⟨c.parts.length, xs⟩) :=
    readParts_eq_ok_iff.mpr ⟨hc, rfl, (Nat.zero_add _).symm⟩
  have hsame := hread hc xs
  rw [h, hread hc' ys] at hsame
  cases hsame
  exact ⟨rfl, rfl⟩

/-- The parts of a chunk cannot be read from less than all of them. -/
theorem exists_shortage_of_cut {c : Chunk} (hc : c.Storable) {front back : List UInt8}
    (h : c.parts = front ++ back) (hback : back ≠ []) (offset : Nat) :
    ∃ s, readParts ⟨offset, front⟩ = .error s := by
  cases hread : readParts ⟨offset, front⟩ with
  | error s => exact ⟨s, rfl⟩
  | ok result =>
      obtain ⟨c', last⟩ := result
      obtain ⟨hc', hreads⟩ := readParts_eq_ok_iff.mp hread
      -- the rest of the parts would stand behind a whole chunk
      have hparts : c.parts ++ [] = c'.parts ++ (last.rest ++ back) := by
        rw [List.append_nil, h, ← List.append_assoc, ← hreads.rest]
      obtain ⟨-, hnil⟩ := parts_append_inj hc hc' hparts
      exact absurd (List.append_eq_nil_iff.mp hnil.symm).2 hback

/-! ## What the checksum covers -/

theorem exists_shortage_ofPayload {c : Chunk} (hc : c.Storable) {front back : List UInt8}
    (h : c.payload = front ++ back) (hback : back ≠ []) (hfront : 6 ≤ front.length) :
    ∃ s, ofPayload front = .error (.shortage s) := by
  have hpayload : (mark ++ (Field.word16 version).bytes) ++ c.parts = front ++ back := by
    rw [List.append_assoc, ← payload_eq, h]
  obtain ⟨rest, rfl⟩ : mark ++ (Field.word16 version).bytes <+: front :=
    List.prefix_of_prefix_length_le (List.prefix_append _ c.parts)
      (hpayload ▸ List.prefix_append front back) hfront
  have hparts : c.parts = rest ++ back :=
    List.append_cancel_left (hpayload.trans (List.append_assoc ..))
  obtain ⟨s, hs⟩ := exists_shortage_of_cut hc hparts hback 6
  refine ⟨s, ?_⟩
  rw [List.append_assoc, ofPayload_front, hs]

theorem ofPayload_payload_append {c : Chunk} (hc : c.Storable) {more : List UInt8}
    (hmore : more ≠ []) : ofPayload (c.payload ++ more) = .error .trailingBytes := by
  have hparts : readParts ⟨6, c.parts ++ more⟩ = .ok (c, ⟨6 + c.parts.length, more⟩) :=
    readParts_eq_ok_iff.mpr ⟨hc, rfl, rfl⟩
  rw [payload_eq, List.append_assoc, List.append_assoc, ofPayload_front, hparts]
  exact if_pos (mt List.length_eq_zero_iff.mp hmore)

/-! ## Whole files -/

/-- A file with no chunk in it is refused for that reason, or for its checksum before. -/
theorem exists_refusal {payload tail : List UInt8} (htail : tail.length = 4)
    (hlength : 6 ≤ payload.length) {e : LoadError} (h : ofPayload payload = .error e) :
    ∃ e', ofBytes (payload ++ tail) = .error e' ∧
      ((∃ expected found, expected ≠ found ∧ e' = .checksum expected found) ∨ e' = e) := by
  rw [ofBytes_append htail hlength]
  split
  next => exact ⟨e, h, .inr rfl⟩
  next hcrc => exact ⟨_, rfl, .inl ⟨_, _, hcrc, rfl⟩⟩

theorem payload_prefix_toBytes (c : Chunk) : c.payload <+: c.toBytes :=
  List.prefix_append _ _

/-- Of two beginnings of the same bytes, the longer one goes on where the shorter one ends. -/
theorem exists_rest_of_prefixes {short long bytes : List UInt8} (hshort : short <+: bytes)
    (hlong : long <+: bytes) (h : short.length < long.length) :
    ∃ rest, rest ≠ [] ∧ short ++ rest = long := by
  obtain ⟨rest, rfl⟩ := List.prefix_of_prefix_length_le hshort hlong (Nat.le_of_lt h)
  refine ⟨rest, ?_, rfl⟩
  rintro rfl
  rw [List.append_nil] at h
  exact Nat.lt_irrefl _ h

/-- No part of a file that can be loaded can be loaded, nor can the file with more behind
it.  A part is too short, or has a wrong checksum, or its bytes run out; behind a file that
has been extended bytes are left, unless its checksum is wrong. -/
theorem cut_and_extended_files_are_refused {bytes : List UInt8} {c : Chunk}
    (h : ofBytes bytes = .ok c) :
    (∀ cut, cut <+: bytes → cut ≠ bytes → ∃ e, ofBytes cut = .error e ∧
      (e = .tooShort ∨ (∃ expected found, expected ≠ found ∧ e = .checksum expected found) ∨
        ∃ s, e = .shortage s)) ∧
    ∀ extended, bytes <+: extended → extended ≠ bytes → ∃ e, ofBytes extended = .error e ∧
      ((∃ expected found, expected ≠ found ∧ e = .checksum expected found) ∨
        e = .trailingBytes) := by
  obtain ⟨hc, -, rfl⟩ := ofBytes_eq_ok h
  have hsix := c.six_le_length_payload
  have hbytes := c.length_toBytes
  constructor
  · intro cut hcut hne
    by_cases hshort : cut.length < 10
    · exact ⟨_, ofBytes_of_short hshort, .inl rfl⟩
    obtain ⟨payload, tail, rfl, htail, hlength⟩ := exists_cut (Nat.not_lt.mp hshort)
    have hlt : payload.length < c.payload.length := by
      have hless := Nat.lt_of_le_of_ne hcut.length_le (mt hcut.eq_of_length hne)
      rw [List.length_append, htail, hbytes] at hless
      omega
    obtain ⟨back, hnonempty, hback⟩ := exists_rest_of_prefixes
      ((List.prefix_append payload tail).trans hcut) c.payload_prefix_toBytes hlt
    obtain ⟨s, hs⟩ := exists_shortage_ofPayload hc hback.symm hnonempty hlength
    obtain ⟨e, he, hwhy⟩ := exists_refusal htail hlength hs
    exact ⟨e, he, .inr (hwhy.imp_right fun heq => ⟨s, heq⟩)⟩
  · intro extended hextended hne
    have hless := Nat.lt_of_le_of_ne hextended.length_le
      (mt (fun heq => (hextended.eq_of_length heq).symm) hne)
    obtain ⟨payload, tail, rfl, htail, hlength⟩ :=
      exists_cut (show 10 ≤ extended.length by omega)
    have hlt : c.payload.length < payload.length := by
      rw [List.length_append, htail, hbytes] at hless
      omega
    obtain ⟨more, hnonempty, rfl⟩ := exists_rest_of_prefixes
      (c.payload_prefix_toBytes.trans hextended) (List.prefix_append payload tail) hlt
    exact exists_refusal htail hlength (ofPayload_payload_append hc hnonempty)

/-- A file whose number begins with the checksum of the bytes in front of it, cut behind
that checksum, and the same file with its own checksum behind it. -/
theorem cut_and_extended_files_are_refused_at_right_checksums :
    let c : Chunk := { code := #[0], lines := #[1], consts := #[⟨0x72C560F3⟩] }
    let cut := c.toBytes.take 14
    let extended := c.toBytes ++ (Field.word32 (crc32 c.toBytes)).bytes
    ofBytes c.toBytes = .ok c ∧
      crc32 (cut.take 10) = (LittleEndian.ofBytes (cut.drop 10)).toUInt32 ∧
      (∃ e, ofBytes cut = .error e) ∧ ∃ e, ofBytes extended = .error e := by
  intro c cut extended
  have hfile : ofBytes c.toBytes = .ok c := by decide +kernel
  obtain ⟨hcut, hextended⟩ := cut_and_extended_files_are_refused hfile
  obtain ⟨e, he, -⟩ := hcut cut (List.take_prefix ..) (by decide +kernel)
  obtain ⟨e', he', -⟩ := hextended extended (List.prefix_append ..) (by decide +kernel)
  exact ⟨hfile, by decide +kernel, ⟨e, he⟩, e', he'⟩

end Abacus.Chunk
