import Abacus.Token.Lexer
import Mathlib.Data.String.Basic

/-!
# Characters as bytes

A text is stored as bytes, one to four for each character.  This module says how much
of the text can be told from its bytes alone, without putting characters together
again.

*Bytes.*  A character of ASCII is one byte, which has the number of the character.  The
bytes of any other character have higher numbers, and its first byte can be told from
those that follow (`Encodes`).  A function of characters that does not tell characters
beyond ASCII apart therefore has one value on all bytes of a character, and this is its
value on the character (`Uniform.eq_of_mem`).  So bytes are passed over just as far as
the characters are (`Uniform.takeWhile_encode`).

*Offsets.*  `Behind text offset rest` says that the offset stands between two characters
and that `rest` is what follows.  It is what has to be known of an offset to cut the text
there (`Behind.isValid`, `Behind.slice?_eq_some`).
-/

namespace Abacus.Utf8

/-! ## The bytes of a character -/

/-- The bytes of a string of characters. -/
def encode (cs : List Char) : List UInt8 := cs.flatMap String.utf8EncodeChar

@[simp] theorem encode_nil : encode [] = [] := rfl

@[simp] theorem encode_cons (c : Char) (cs : List Char) :
    encode (c :: cs) = String.utf8EncodeChar c ++ encode cs := rfl

@[simp] theorem encode_append (cs ds : List Char) : encode (cs ++ ds) = encode cs ++ encode ds :=
  List.flatMap_append

/-- The ways in which a character is stored.  A byte is looked at as the character that
has its number. -/
inductive Encodes (c : Char) : List UInt8 → Prop where
  | narrow {b : UInt8} : c.toNat < 0x80 → Char.ofUInt8 b = c → Encodes c [b]
  | wide {first : UInt8} {others : List UInt8} : 0x80 ≤ c.toNat → 0xC0 ≤ first.toNat →
      (∀ b ∈ others, 0x80 ≤ b.toNat ∧ b.toNat < 0xC0) → Encodes c (first :: others)

/-- Every character is encoded in one of four ways, by its number. -/
theorem encodes (c : Char) : Encodes c (String.utf8EncodeChar c) := by
  have hnumber : c.val.toNat = c.toNat := rfl
  unfold String.utf8EncodeChar
  rw [hnumber]
  dsimp only
  split
  next hc =>
    refine .narrow (by omega) (Char.toNat_inj.mp ?_)
    show (UInt8.ofNat c.toNat).toNat = c.toNat
    exact UInt8.toNat_ofNat_of_lt' (Nat.lt_of_le_of_lt hc (by decide))
  split
  next =>
    refine .wide (by omega) ?_ ?_
    · simp; omega
    · simp; omega
  split
  next =>
    refine .wide (by omega) ?_ ?_
    · simp; omega
    · simp; omega
  next =>
    refine .wide (by omega) ?_ ?_
    · simp; omega
    · simp; omega

/-- The first byte of a character can be told from those that follow. -/
theorem exists_first (c : Char) :
    ∃ first others, String.utf8EncodeChar c = first :: others ∧
      (first.toNat < 0x80 ∨ 0xC0 ≤ first.toNat) ∧
      ∀ b ∈ others, 0x80 ≤ b.toNat ∧ b.toNat < 0xC0 := by
  have hc := encodes c
  generalize String.utf8EncodeChar c = bs at hc
  cases hc with
  | narrow hnarrow hb =>
      subst hb
      exact ⟨_, [], rfl, .inl hnarrow, nofun⟩
  | wide _ hfirst hothers => exact ⟨_, _, rfl, .inr hfirst, hothers⟩

/-- A character of ASCII takes one byte. -/
theorem exists_byte {c : Char} (h : c.toNat < 0x80) :
    ∃ b, String.utf8EncodeChar c = [b] ∧ Char.ofUInt8 b = c := by
  have hc := encodes c
  generalize String.utf8EncodeChar c = bs at hc
  cases hc with
  | narrow _ hb => exact ⟨_, rfl, hb⟩
  | wide hwide => exact absurd h (Nat.not_lt.mpr hwide)

/-- An ASCII character is one byte. -/
theorem length_utf8EncodeChar {c : Char} (h : c.toNat < 0x80) :
    (String.utf8EncodeChar c).length = 1 := by
  obtain ⟨b, hb, -⟩ := exists_byte h
  rw [hb]
  rfl

/-! ## Classes of characters that bytes tell -/

/-- The function does not tell characters beyond ASCII apart. -/
def Uniform {α : Type} (f : Char → α) : Prop :=
  ∀ c d : Char, 0x80 ≤ c.toNat → 0x80 ≤ d.toNat → f c = f d

namespace Uniform

variable {α : Type} {f : Char → α}

/-- Every byte of a character is looked at like the character itself. -/
theorem eq_of_mem (h : Uniform f) {c : Char} {b : UInt8} (hb : b ∈ String.utf8EncodeChar c) :
    f (Char.ofUInt8 b) = f c := by
  have hc := encodes c
  generalize String.utf8EncodeChar c = bs at hb hc
  cases hc with
  | narrow _ heq =>
      rw [List.mem_singleton.mp hb, heq]
  | wide hwide hfirst hothers =>
      refine h _ _ ?_ hwide
      show 0x80 ≤ b.toNat
      rcases List.mem_cons.mp hb with rfl | hb
      · omega
      · exact (hothers b hb).1

/-- A uniform test takes the bytes of the characters that it takes. -/
theorem takeWhile_encode {p : Char → Bool} (h : Uniform p) (cs : List Char) :
    (encode cs).takeWhile (fun b => p (Char.ofUInt8 b)) = encode (cs.takeWhile p) := by
  induction cs with
  | nil => rfl
  | cons c cs ih =>
      rw [encode_cons]
      by_cases hc : p c = true
      · have hall : ∀ b ∈ String.utf8EncodeChar c, p (Char.ofUInt8 b) = true :=
          fun b hb => (h.eq_of_mem hb).trans hc
        rw [List.takeWhile_append_of_pos hall, ih, List.takeWhile_cons_of_pos hc, encode_cons]
      · obtain ⟨first, others, hbytes, -⟩ := exists_first c
        have hmem : first ∈ String.utf8EncodeChar c := hbytes ▸ List.mem_cons_self
        have hfirst : ¬ p (Char.ofUInt8 first) = true := by rwa [h.eq_of_mem hmem]
        rw [hbytes, List.cons_append, List.takeWhile_cons_of_neg (by simpa using hfirst),
          List.takeWhile_cons_of_neg hc, encode_nil]

end Uniform

/-! ## Offsets -/

/-- The bytes of a text. -/
def bytes (text : String) : Array UInt8 := text.toUTF8.data

/-- The bytes of a text are those of its characters. -/
theorem toList_bytes (text : String) : (bytes text).toList = encode text.toList := by
  have hencoded : text.toByteArray = text.toList.utf8Encode := by
    rw [← String.toByteArray_ofList, String.ofList_toList]
  rw [bytes, String.toUTF8_eq_toByteArray, hencoded, List.utf8Encode, List.data_toByteArray]
  rfl

/-- Both ways to count the bytes of characters agree. -/
theorem length_encode (cs : List Char) : (encode cs).length = String.utf8Len cs := by
  induction cs with
  | nil => rfl
  | cons c cs ih =>
      rw [encode_cons, List.length_append, ih, String.length_utf8EncodeChar, String.utf8Len_cons,
        Nat.add_comm]

/-- What stands between two offsets.  There is nothing unless both stand between
characters and the second does not come before the first. -/
def slice? (text : String) (start stop : Nat) : Option String :=
  if start ≤ stop ∧ String.Pos.Raw.isValid text ⟨start⟩ ∧ String.Pos.Raw.isValid text ⟨stop⟩ then
    some (String.Pos.Raw.extract text ⟨start⟩ ⟨stop⟩)
  else none

/-- The offset stands between two characters, and `rest` is what follows. -/
def Behind (text : String) (offset : Nat) (rest : List Char) : Prop :=
  ∃ seen, text.toList = seen ++ rest ∧ offset = (encode seen).length

theorem behind_zero (text : String) : Behind text 0 text.toList := ⟨[], rfl, rfl⟩

namespace Behind

variable {text : String} {offset offset' : Nat} {rest rest' : List Char}

/-- Behind more characters the offset is that of their bytes. -/
theorem append {u : List Char} (h : Behind text offset (u ++ rest)) :
    Behind text (offset + (encode u).length) rest := by
  obtain ⟨seen, htext, rfl⟩ := h
  exact ⟨seen ++ u, by simp [htext], by simp⟩

/-- An ASCII character moves the offset by one. -/
theorem cons {c : Char} (h : Behind text offset (c :: rest)) (hc : c.toNat < 0x80) :
    Behind text (offset + 1) rest := by
  have hrest := append (u := [c]) h
  simpa [length_utf8EncodeChar hc] using hrest

/-- An offset between characters is one where a text can be cut. -/
theorem isValid (h : Behind text offset rest) : String.Pos.Raw.IsValid text ⟨offset⟩ := by
  obtain ⟨seen, htext, rfl⟩ := h
  rw [String.Pos.Raw.isValid_iff_exists_append]
  refine ⟨String.ofList seen, String.ofList rest, ?_, ?_⟩
  · rw [← String.ofList_append, ← htext, String.ofList_toList]
  · rw [length_encode, ← String.utf8ByteSize_ofList]
    rfl

/-- The bytes from an offset on are those of the characters that follow. -/
theorem drop_bytes (h : Behind text offset rest) :
    (bytes text).toList.drop offset = encode rest := by
  obtain ⟨seen, htext, rfl⟩ := h
  rw [toList_bytes, htext, encode_append, List.drop_left]

/-- An offset with less behind it comes later, by what stands between the two. -/
theorem exists_between (h : Behind text offset rest) (h' : Behind text offset' rest')
    (hlength : rest'.length ≤ rest.length) :
    ∃ u, rest = u ++ rest' ∧ offset' = offset + (encode u).length := by
  obtain ⟨seen, htext, rfl⟩ := h
  obtain ⟨seen', htext', rfl⟩ := h'
  have hsame : seen ++ rest = seen' ++ rest' := htext.symm.trans htext'
  have hseen : seen.length ≤ seen'.length := by
    have hlengths := congrArg List.length hsame
    simp only [List.length_append] at hlengths
    omega
  obtain ⟨u, rfl⟩ : seen <+: seen' :=
    List.prefix_of_prefix_length_le ⟨rest, rfl⟩ ⟨rest', hsame.symm⟩ hseen
  refine ⟨u, ?_, by simp⟩
  rw [List.append_assoc] at hsame
  exact List.append_cancel_left hsame

/-- Where less of the text is left the offset is no smaller. -/
theorem le_of_length_le (h : Behind text offset rest) (h' : Behind text offset' rest')
    (hlength : rest'.length ≤ rest.length) : offset ≤ offset' := by
  obtain ⟨u, -, rfl⟩ := h.exists_between h' hlength
  exact Nat.le_add_right _ _

theorem lt_of_length_lt (h : Behind text offset rest) (h' : Behind text offset' rest')
    (hlength : rest'.length < rest.length) : offset < offset' := by
  obtain ⟨u, hu, rfl⟩ := h.exists_between h' (Nat.le_of_lt hlength)
  cases u with
  | nil =>
      rw [hu] at hlength
      exact absurd hlength (Nat.lt_irrefl _)
  | cons c u =>
      obtain ⟨first, others, hbytes, -⟩ := exists_first c
      simp [hbytes]

/-- Between two offsets that stand between characters there is a piece of the text. -/
theorem slice?_eq_some {u : List Char} (h : Behind text offset (u ++ rest))
    (h' : Behind text offset' rest) : slice? text offset offset' = some (String.ofList u) := by
  obtain ⟨v, hv, rfl⟩ := h.exists_between h' (by simp)
  obtain rfl := List.append_cancel_right hv
  have hstart := h.isValid
  have hstop := h.append.isValid
  rw [slice?, if_pos ⟨Nat.le_add_right _ _, String.Pos.Raw.isValid_eq_true_iff.mpr hstart,
    String.Pos.Raw.isValid_eq_true_iff.mpr hstop⟩]
  obtain ⟨seen, htext, rfl⟩ := h
  have hsplit : text = String.ofList (seen ++ u ++ rest) := by
    rw [List.append_assoc, ← htext, String.ofList_toList]
  rw [hsplit, length_encode, length_encode, String.extract_of_valid]

end Behind

end Abacus.Utf8
