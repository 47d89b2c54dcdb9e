import Abacus.Proofs.Fields
import Mathlib.Data.Nat.Digits.Defs

/-!
# Sequences of reads

A cursor is asked for one field after the other.  Each read gives a field or says what
is missing, and the reads go on in both cases.  This module says what any sequence of
reads comes to, on any bytes.

*One read.*  All reads take their bytes in the same way and differ in what they make of
them (`Cursor.read_eq_map`).  A read goes well exactly if its bytes are there
(`Cursor.take_of_le`, `Cursor.take_of_lt`), and the bytes are looked for before the
offset is moved, so no size is too large to be asked for.

*Many reads.*  Wherever a sequence of reads ends, the cursor stands between the bytes
that were read and those that are left (`Cursor.passed_session`).  A read that fails
does not move it.  Fields that have been written one after the other are found again
one after the other (`Cursor.session_written`).
-/

namespace Abacus

namespace Field

/-! ## What fields stand for -/

/-- The bytes of several fields, each written behind those before it. -/
def written (fields : List Field) : List UInt8 :=
  fields.foldl (fun buffer f => buffer ++ f.bytes) []

theorem foldl_append_bytes (fields : List Field) (buffer : List UInt8) :
    fields.foldl (fun buffer f => buffer ++ f.bytes) buffer = buffer ++ fields.flatMap bytes := by
  induction fields generalizing buffer with
  | nil => simp
  | cons f fields ih => simp [ih]

theorem written_eq_flatMap (fields : List Field) : written fields = fields.flatMap bytes :=
  foldl_append_bytes fields []

/-- The field is what the bytes say: the bytes themselves, or the number that they are
the digits of, lowest digit first. -/
def Says (bytes : List UInt8) : Field → Prop
  | .raw content => content = bytes
  | .word16 n => n.toNat = Nat.ofDigits 256 (bytes.map UInt8.toNat)
  | .word32 n => n.toNat = Nat.ofDigits 256 (bytes.map UInt8.toNat)
  | .number v => v.bits.toNat = Nat.ofDigits 256 (bytes.map UInt8.toNat)

/-- The field that a read makes of its bytes. -/
def Shape.interpret : Shape → List UInt8 → Field
  | .raw _, bytes => .raw bytes
  | .word16, bytes => .word16 (LittleEndian.ofBytes bytes).toUInt16
  | .word32, bytes => .word32 (LittleEndian.ofBytes bytes).toUInt32
  | .number, bytes => .number ⟨(LittleEndian.ofBytes bytes).toUInt64⟩

end Field

/-- Both ways to read digits to base 256 agree. -/
theorem LittleEndian.ofBytes_eq_ofDigits (bytes : List UInt8) :
    ofBytes bytes = Nat.ofDigits 256 (bytes.map UInt8.toNat) := by
  induction bytes with
  | nil => rfl
  | cons b rest ih => simp [ofBytes, Nat.ofDigits_cons, ih]

namespace Field

/-- What is read has the shape that was asked for. -/
theorem Shape.shape_interpret {s : Shape} {bytes : List UInt8} (h : bytes.length = s.size) :
    (s.interpret bytes).shape = s := by
  cases s with
  | raw size => exact congrArg Shape.raw h
  | word16 => rfl
  | word32 => rfl
  | number => rfl

/-- What a read makes of its bytes is what they say. -/
theorem Shape.says_interpret {s : Shape} {bytes : List UInt8} (h : bytes.length = s.size) :
    (s.interpret bytes).Says bytes := by
  have hlt := LittleEndian.ofBytes_lt bytes
  rw [h] at hlt
  cases s with
  | raw size => rfl
  | word16 =>
      show (LittleEndian.ofBytes bytes).toUInt16.toNat = _
      rw [← LittleEndian.ofBytes_eq_ofDigits]
      exact UInt16.toNat_ofNat_of_lt' hlt
  | word32 =>
      show (LittleEndian.ofBytes bytes).toUInt32.toNat = _
      rw [← LittleEndian.ofBytes_eq_ofDigits]
      exact UInt32.toNat_ofNat_of_lt' hlt
  | number =>
      show (LittleEndian.ofBytes bytes).toUInt64.toNat = _
      rw [← LittleEndian.ofBytes_eq_ofDigits]
      exact UInt64.toNat_ofNat_of_lt' hlt

end Field

namespace Cursor

/-! ## One read -/

/-- A read goes well if its bytes are there. -/
theorem take_of_le {c : Cursor} {n : Nat} (h : n ≤ c.remaining) :
    c.take n = .ok (c.rest.take n, ⟨c.offset + n, c.rest.drop n⟩) := by
  rw [take, if_pos (List.length_take_of_le h)]

/-- A read fails if they are not, and says what it wanted and where. -/
theorem take_of_lt {c : Cursor} {n : Nat} (h : c.remaining < n) :
    c.take n = .error ⟨n, c.offset⟩ := by
  have hshort : (c.rest.take n).length ≠ n := by
    rw [List.take_of_length_le (Nat.le_of_lt h)]
    exact Nat.ne_of_lt h
  rw [take, if_neg hshort]

/-- A read takes its bytes and makes a field of them. -/
theorem read_eq_map (c : Cursor) (s : Field.Shape) :
    c.read s = (c.take s.size).map fun (bytes, c') => (s.interpret bytes, c') := by
  cases s with
  | raw size => rfl
  | word16 =>
      show ((c.take 2).map _).map _ = (c.take 2).map _
      cases c.take 2 <;> rfl
  | word32 =>
      show ((c.take 4).map _).map _ = (c.take 4).map _
      cases c.take 4 <;> rfl
  | number =>
      show ((c.take 8).map _).map _ = (c.take 8).map _
      cases c.take 8 <;> rfl

theorem read_of_le {c : Cursor} {s : Field.Shape} (h : s.size ≤ c.remaining) :
    c.read s =
      .ok (s.interpret (c.rest.take s.size), ⟨c.offset + s.size, c.rest.drop s.size⟩) := by
  rw [read_eq_map, take_of_le h]
  rfl

theorem read_of_lt {c : Cursor} {s : Field.Shape} (h : c.remaining < s.size) :
    c.read s = .error ⟨s.size, c.offset⟩ := by
  rw [read_eq_map, take_of_lt h]
  rfl

/-- A field is found where its stored form stands. -/
theorem read_of_reads {c c' : Cursor} {f : Field} (h : c.Reads f.bytes c') :
    c.read f.shape = .ok (f, c') := by
  cases f with
  | raw bytes =>
      have htake : c.take bytes.length = .ok (bytes, c') := take_eq_ok_iff.mpr ⟨rfl, h⟩
      show (c.take bytes.length).map _ = _
      rw [htake]
      rfl
  | word16 n =>
      show c.word16.map _ = _
      rw [(exact_word16 c n c').mpr h]
      rfl
  | word32 n =>
      show c.word32.map _ = _
      rw [(exact_word32 c n c').mpr h]
      rfl
  | number v =>
      show c.number.map _ = _
      rw [(exact_number c v c').mpr h]
      rfl

/-! ## Many reads -/

/-- What a sequence of reads gives, and the cursor behind it.  A read that fails is
answered by what is missing, and the next read begins where it began. -/
def session (c : Cursor) : List Field.Shape → List (Except Shortage Field) × Cursor
  | [] => ([], c)
  | s :: shapes =>
      match c.read s with
      | .ok (f, c') => (session c' shapes).map (.ok f :: ·) id
      | .error e => (session c shapes).map (.error e :: ·) id

/-- Later reads begin where the earlier ones have come to. -/
theorem session_append (c : Cursor) (earlier later : List Field.Shape) :
    c.session (earlier ++ later) =
      ((c.session earlier).2.session later).map ((c.session earlier).1 ++ ·) id := by
  induction earlier generalizing c with
  | nil => rfl
  | cons s earlier ih =>
      rw [List.cons_append, session, session]
      cases c.read s with
      | error e =>
          dsimp only
          rw [ih]
          rfl
      | ok r =>
          dsimp only
          rw [ih]
          rfl

/-- Fields that were written one after the other are found again. -/
theorem session_written (fields : List Field) (c : Cursor) {rest : List UInt8}
    (h : c.rest = fields.flatMap Field.bytes ++ rest) :
    c.session (fields.map Field.shape) =
      (fields.map .ok, ⟨c.offset + (fields.flatMap Field.bytes).length, rest⟩) := by
  induction fields generalizing c with
  | nil =>
      have hc : c = ⟨c.offset, rest⟩ := congrArg (Cursor.mk c.offset) h
      exact congrArg (Prod.mk []) hc
  | cons f fields ih =>
      rw [List.flatMap_cons, List.append_assoc] at h
      let behind : Cursor := ⟨c.offset + f.bytes.length, fields.flatMap Field.bytes ++ rest⟩
      have hread : c.read f.shape = .ok (f, behind) := read_of_reads ⟨h, rfl⟩
      rw [List.map_cons, session, hread]
      simp [ih behind rfl, behind, Nat.add_assoc]

/-- Wherever reads end, the cursor stands between what was read and what is left. -/
theorem passed_session {c : Cursor} {buffer passed : List UInt8}
    (h : (start buffer).Reads passed c) (shapes : List Field.Shape) :
    ∃ passed', (start buffer).Reads passed' (c.session shapes).2 := by
  induction shapes generalizing c passed with
  | nil => exact ⟨passed, h⟩
  | cons s shapes ih =>
      rw [session]
      by_cases hs : s.size ≤ c.remaining
      · have hstep : c.Reads (c.rest.take s.size) ⟨c.offset + s.size, c.rest.drop s.size⟩ :=
          (take_eq_ok_iff.mp (take_of_le hs)).2
        rw [read_of_le hs]
        exact ih (Reads.append_iff.mpr ⟨c, h, hstep⟩)
      · rw [read_of_lt (Nat.lt_of_not_le hs)]
        exact ih h

/-- What was passed and what is left make up the bytes. -/
theorem Reads.offset_add_remaining {c : Cursor} {buffer passed : List UInt8}
    (h : (start buffer).Reads passed c) : c.offset + c.remaining = buffer.length := by
  have hbuffer : buffer = passed ++ c.rest := h.rest
  have hoffset : c.offset = 0 + passed.length := h.offset
  rw [hbuffer, hoffset, List.length_append, Nat.zero_add, remaining]

/-- What is left are the bytes from the offset on. -/
theorem Reads.rest_eq_drop {c : Cursor} {buffer passed : List UInt8}
    (h : (start buffer).Reads passed c) : c.rest = buffer.drop c.offset := by
  have hbuffer : buffer = passed ++ c.rest := h.rest
  have hoffset : c.offset = 0 + passed.length := h.offset
  rw [hbuffer, hoffset, Nat.zero_add, List.drop_left]

/-- Fields are read back as they were written, and nothing is left behind them.  On any
bytes and after any reads, those that failed included, the offset is at most the number of
bytes, so a word that can hold this number can hold every offset.  The next read goes well
if its bytes are there.  It then gives what these bytes say and moves behind them.
Otherwise it says how many bytes were asked for and where, and it does not move. -/
theorem reads_undo_writes_and_failures_do_nothing :
    (∀ fields : List Field, ∃ c,
      (start (Field.written fields)).session (fields.map Field.shape) = (fields.map .ok, c) ∧
      c.remaining = 0) ∧
    ∀ (buffer : List UInt8) (earlier : List Field.Shape) (s : Field.Shape),
      let before := (start buffer).session earlier
      let after := (start buffer).session (earlier ++ [s])
      before.2.offset + before.2.remaining = buffer.length ∧
      after.2.offset + after.2.remaining = buffer.length ∧
      before.2.offset ≤ buffer.length ∧
      (s.size ≤ before.2.remaining → ∃ f : Field, after.1 = before.1 ++ [.ok f] ∧ f.shape = s ∧
        f.Says ((buffer.drop before.2.offset).take s.size) ∧
        after.2.offset = before.2.offset + s.size) ∧
      (before.2.remaining < s.size →
        after.1 = before.1 ++ [.error ⟨s.size, before.2.offset⟩] ∧ after.2 = before.2) := by
  constructor
  · intro fields
    have hwritten : (start (Field.written fields)).rest = fields.flatMap Field.bytes ++ [] := by
      rw [List.append_nil, ← Field.written_eq_flatMap]
      rfl
    exact ⟨_, session_written fields _ hwritten, rfl⟩
  · intro buffer earlier s before after
    have hstart : (start buffer).Reads [] (start buffer) := Reads.nil_iff.mpr rfl
    obtain ⟨passed, hbefore⟩ := passed_session hstart earlier
    obtain ⟨passed', hafter⟩ := passed_session hstart (earlier ++ [s])
    have hstep : after = (before.2.session [s]).map (before.1 ++ ·) id := session_append ..
    refine ⟨hbefore.offset_add_remaining, hafter.offset_add_remaining,
      Nat.le.intro hbefore.offset_add_remaining, ?_, ?_⟩
    · intro hs
      have hlength : (before.2.rest.take s.size).length = s.size := List.length_take_of_le hs
      have hmoved : after = (before.1 ++ [.ok (s.interpret (before.2.rest.take s.size))],
          ⟨before.2.offset + s.size, before.2.rest.drop s.size⟩) := by
        rw [hstep, session, read_of_le hs]
        rfl
      rw [hmoved, ← hbefore.rest_eq_drop]
      exact ⟨_, rfl, Field.Shape.shape_interpret hlength, Field.Shape.says_interpret hlength, rfl⟩
    · intro hs
      have hstays : after = (before.1 ++ [.error ⟨s.size, before.2.offset⟩], before.2) := by
        rw [hstep, session, read_of_lt hs]
        rfl
      rw [hstays]
      exact ⟨rfl, rfl⟩

/-- A word, a number that is undefined and has a payload, and a raw stretch.  Nearly as
many bytes as can be counted are not found behind the first of two. -/
theorem reads_undo_writes_and_failures_do_nothing_at_huge_size :
    let fields : List Field := [.word16 0xBEEF, .number ⟨0x7FF8000000000123⟩, .raw [7, 8, 9]]
    let huge : Field.Shape := .raw (2 ^ 64 - 1)
    let before := (start [1, 2]).session [.raw 1]
    let after := (start [1, 2]).session [.raw 1, huge]
    (∃ c, (start (Field.written fields)).session (fields.map Field.shape) = (fields.map .ok, c) ∧
      c.remaining = 0) ∧
    before.2.remaining < huge.size ∧
    after.1 = before.1 ++ [.error ⟨2 ^ 64 - 1, 1⟩] ∧ after.2 = before.2 := by
  intro fields huge before after
  obtain ⟨hwritten, hreads⟩ := reads_undo_writes_and_failures_do_nothing
  obtain ⟨-, -, -, -, hfails⟩ := hreads [1, 2] [.raw 1] huge
  have hshort : before.2.remaining < huge.size := by decide
  exact ⟨hwritten fields, hshort, hfails hshort⟩

end Cursor

end Abacus
