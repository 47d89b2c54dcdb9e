import Abacus.Text.Pad

/-!
# Fields of a line

Numbers and words that are set in columns.  A field that is wider than its column runs over
it, so that columns do not stand at fixed places.  What sets them apart is that a field has
no space in it and a space behind it (`field_inj`).

A number that is moved to the right edge of its column is its digits behind some fill
characters, and the digits tell the number (`toDigits_inj`).
-/

namespace Abacus

open Text

/-- A text is cut in one way at the first place of a character. -/
theorem append_cons_inj {a : Char} {x y s t : List Char} (hx : a ∉ x) (hy : a ∉ y)
    (h : x ++ a :: s = y ++ a :: t) : x = y ∧ s = t := by
  have hpos {z : List Char} (hz : a ∉ z) : ∀ c ∈ z, decide (c ≠ a) = true :=
    fun c hc => decide_eq_true fun heq => hz (heq ▸ hc)
  have htake := congrArg (List.takeWhile (· ≠ a)) h
  rw [List.takeWhile_append_of_pos (hpos hx), List.takeWhile_append_of_pos (hpos hy)] at htake
  obtain rfl : x = y := by simpa using htake
  exact ⟨rfl, (List.cons.inj (List.append_cancel_left h)).2⟩

/-- What stands in a column is not empty and has no space in it. -/
structure Unspaced (m : List Char) : Prop where
  ne_nil : m ≠ []
  space_not_mem : ' ' ∉ m

/-- Fields can be told apart from what follows them, and from the space in front. -/
theorem field_inj {j k : Nat} {m n s t : List Char} (hm : Unspaced m) (hn : Unspaced n)
    (h : List.replicate j ' ' ++ m ++ ' ' :: s = List.replicate k ' ' ++ n ++ ' ' :: t) :
    m = n ∧ s = t := by
  have hdrop (j : Nat) {m : List Char} (hm : Unspaced m) (s : List Char) :
      (List.replicate j ' ' ++ m ++ ' ' :: s).dropWhile (· = ' ') = m ++ ' ' :: s := by
    obtain ⟨c, m, rfl⟩ := List.exists_cons_of_ne_nil hm.ne_nil
    have hc : c ≠ ' ' := fun heq => hm.space_not_mem (heq ▸ List.mem_cons_self)
    rw [List.append_assoc, List.dropWhile_append_of_pos (by simp)]
    exact List.dropWhile_cons_of_neg (by simpa using hc)
  have hfields := congrArg (List.dropWhile (· = ' ')) h
  rw [hdrop j hm, hdrop k hn] at hfields
  exact append_cons_inj hm.space_not_mem hn.space_not_mem hfields

/-! ## Numbers -/

theorem isDigit_of_mem_toDigits {n : Nat} {c : Char} (h : c ∈ Nat.toDigits 10 n) :
    c.isDigit = true :=
  Nat.isDigit_of_mem_toDigits (by decide) (by decide) h

theorem not_mem_toDigits {c : Char} (h : c.isDigit = false) (n : Nat) :
    c ∉ Nat.toDigits 10 n := by
  intro hmem
  cases h.symm.trans (isDigit_of_mem_toDigits hmem)

theorem unspaced_toDigits (n : Nat) : Unspaced (Nat.toDigits 10 n) where
  ne_nil := Nat.toDigits_ne_nil
  space_not_mem := not_mem_toDigits (by decide) n

/-- The digits of a number tell the number. -/
theorem toDigits_inj {m n : Nat} (h : Nat.toDigits 10 m = Nat.toDigits 10 n) : m = n := by
  rw [← Nat.ofDigitChars_ten_toDigits (n := m), h, Nat.ofDigitChars_ten_toDigits]

theorem repr_inj {m n : Nat} (h : Nat.repr m = Nat.repr n) : m = n := by
  rw [Nat.repr_eq_ofList_toDigits, Nat.repr_eq_ofList_toDigits, String.ofList_inj] at h
  exact toDigits_inj h

/-- A number in a column is its digits behind some fill characters. -/
theorem toList_padLeft_repr (width : Nat) (fill : Char) (n : Nat) :
    ∃ k, (padLeft width fill (Nat.repr n)).toList =
      List.replicate k fill ++ Nat.toDigits 10 n := by
  refine ⟨width - (Nat.repr n).length, ?_⟩
  rw [padLeft, String.toList_append, String.toList_ofList, Nat.repr_eq_ofList_toDigits,
    String.toList_ofList]

/-- A number can be read in its column, however wide it is. -/
theorem padLeft_repr_inj {width m n : Nat}
    (h : padLeft width ' ' (Nat.repr m) = padLeft width ' ' (Nat.repr n)) : m = n := by
  obtain ⟨j, hj⟩ := toList_padLeft_repr width ' ' m
  obtain ⟨k, hk⟩ := toList_padLeft_repr width ' ' n
  have hlist := congrArg (fun text => text.toList ++ [' ']) h
  rw [hj, hk] at hlist
  exact toDigits_inj (field_inj (unspaced_toDigits m) (unspaced_toDigits n) hlist).1

end Abacus
