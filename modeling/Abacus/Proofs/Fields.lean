import Abacus.Bytes.Cursor

/-!
# Reading what was written

`Cursor.Reads c bytes c'` says that the bytes stand between two cursors.  Reading
a field is exact: it gives a field and a cursor behind it exactly if the stored
form of that field stands between the two cursors.  No field has two stored forms
and no stored form belongs to two fields, so this one statement holds what is
needed in both directions.
-/

namespace Abacus

/-! ## Little-endian words -/

theorem LittleEndian.ofBytes_lt (bytes : List UInt8) :
    ofBytes bytes < Nat.pow 256 bytes.length := by
  induction bytes with
  | nil => exact Nat.one_pos
  | cons b rest ih =>
      have hb : b.toNat < 256 := b.toNat_lt
      change b.toNat + 256 * ofBytes rest < Nat.pow 256 rest.length * 256
      omega

/-- Up to four bytes fit into a word. -/
theorem LittleEndian.toNat_toUInt32_ofBytes {bytes : List UInt8} (h : bytes.length ≤ 4) :
    (ofBytes bytes).toUInt32.toNat = ofBytes bytes := by
  apply UInt32.toNat_ofNat_of_lt'
  calc ofBytes bytes < Nat.pow 256 bytes.length := ofBytes_lt bytes
    _ ≤ Nat.pow 256 4 := Nat.pow_le_pow_right (by decide) h

namespace Cursor

/-! ## The bytes between two cursors -/

/-- The bytes that stand between two cursors. -/
structure Reads (c : Cursor) (bytes : List UInt8) (c' : Cursor) : Prop where
  rest : c.rest = bytes ++ c'.rest
  offset : c'.offset = c.offset + bytes.length

namespace Reads

variable {c c' : Cursor} {xs ys : List UInt8}

theorem nil_iff : c.Reads [] c' ↔ c = c' := by
  constructor
  · rintro ⟨hrest, hoffset⟩
    cases c
    cases c'
    simp_all
  · rintro rfl
    exact ⟨rfl, rfl⟩

theorem append_iff : c.Reads (xs ++ ys) c' ↔ ∃ m, c.Reads xs m ∧ m.Reads ys c' := by
  constructor
  · rintro ⟨hrest, hoffset⟩
    refine ⟨⟨c.offset + xs.length, ys ++ c'.rest⟩, ⟨?_, rfl⟩, rfl, ?_⟩
    · rw [hrest, List.append_assoc]
    · rw [hoffset, List.length_append, Nat.add_assoc]
  · rintro ⟨m, h, h'⟩
    refine ⟨?_, ?_⟩
    · rw [h.rest, h'.rest, List.append_assoc]
    · rw [h'.offset, h.offset, List.length_append, Nat.add_assoc]

/-- All bytes of a string stand before its end. -/
theorem start_iff {bytes : List UInt8} :
    (start xs).Reads bytes c' ∧ c'.remaining = 0 ↔ xs = bytes ∧ c' = ⟨bytes.length, []⟩ := by
  constructor
  · rintro ⟨⟨hrest, hoffset⟩, hend⟩
    obtain ⟨offset, rest⟩ := c'
    obtain rfl : rest = [] := List.length_eq_zero_iff.mp hend
    exact ⟨hrest.trans (List.append_nil bytes),
      congrArg (Cursor.mk · []) (hoffset.trans (Nat.zero_add _))⟩
  · rintro ⟨rfl, rfl⟩
    exact ⟨⟨(List.append_nil xs).symm, (Nat.zero_add _).symm⟩, rfl⟩

end Reads

/-! ## Fields -/

theorem take_eq_ok_iff {c c' : Cursor} {n : Nat} {bytes : List UInt8} :
    c.take n = .ok (bytes, c') ↔ bytes.length = n ∧ c.Reads bytes c' := by
  unfold take
  dsimp only
  constructor
  · intro h
    split at h
    next hlen =>
      cases h
      exact ⟨hlen, (List.take_append_drop n c.rest).symm, by rw [hlen]⟩
    next => cases h
  · rintro ⟨rfl, hrest, hoffset⟩
    rw [hrest, List.take_left, List.drop_left, if_pos rfl, ← hoffset]

/-- A way to read is exact for a way to write if it finds what was written, and
nothing that was not. -/
def Exact {α : Type} (read : Cursor → Except Shortage (α × Cursor))
    (write : α → List UInt8) : Prop :=
  ∀ c a c', read c = .ok (a, c') ↔ c.Reads (write a) c'

/-- A word is read exactly, whatever it stands for. -/
theorem word_eq_ok_iff {α : Type} {count : Nat} {ofNat : Nat → α} {toNat : α → Nat}
    (hlt : ∀ a, toNat a < Nat.pow 256 count) (hof : ∀ a, ofNat (toNat a) = a)
    (hto : ∀ n, n < Nat.pow 256 count → toNat (ofNat n) = n) {c c' : Cursor} {a : α} :
    ((c.take count).map fun (bytes, c) => (ofNat (LittleEndian.ofBytes bytes), c)) =
      .ok (a, c') ↔ c.Reads (LittleEndian.toBytes count (toNat a)) c' := by
  constructor
  · intro h
    cases hr : c.take count with
    | error e =>
        rw [hr] at h
        cases h
    | ok r =>
        obtain ⟨bytes, m⟩ := r
        rw [hr] at h
        cases h
        obtain ⟨rfl, hreads⟩ := take_eq_ok_iff.mp hr
        rw [hto _ (LittleEndian.ofBytes_lt bytes), LittleEndian.toBytes_ofBytes]
        exact hreads
  · intro h
    rw [take_eq_ok_iff.mpr ⟨LittleEndian.length_toBytes count _, h⟩]
    change Except.ok (ofNat (LittleEndian.ofBytes _), c') = _
    rw [LittleEndian.ofBytes_toBytes, Nat.mod_eq_of_lt (hlt a), hof]

theorem exact_word16 : Exact word16 fun n => (Field.word16 n).bytes := by
  intro c n c'
  refine word_eq_ok_iff UInt16.toNat_lt (fun _ => UInt16.ofNat_toNat) fun n hn => ?_
  exact UInt16.toNat_ofNat_of_lt' hn

theorem exact_word32 : Exact word32 fun n => (Field.word32 n).bytes := by
  intro c n c'
  refine word_eq_ok_iff UInt32.toNat_lt (fun _ => UInt32.ofNat_toNat) fun n hn => ?_
  exact UInt32.toNat_ofNat_of_lt' hn

theorem exact_number : Exact number fun v => (Field.number v).bytes := by
  intro c v c'
  refine @word_eq_ok_iff Value 8 (fun n => ⟨n.toUInt64⟩) (fun v => v.bits.toNat)
    (fun v => v.bits.toNat_lt) (fun v => ?_) (fun n hn => ?_) c c' v
  · exact congrArg Value.mk UInt64.ofNat_toNat
  · exact UInt64.toNat_ofNat_of_lt' hn

end Cursor

end Abacus
