import Abacus.Assembly
import Abacus.Proofs.Instructions
import Abacus.Proofs.Scanning
import Mathlib.Data.List.TakeWhile
import Mathlib.Tactic.NthRewrite

/-!
# What a line of assembly says

A line is read by trimming it, cutting it at its first blank, raising the case of the
word in front and looking that word up.  `Says` gives the lines and what they say
without any of this: a line consists of blanks, a word, blanks, a numeral and blanks,
or of some of these.  Reading a line gives what it says, and fails exactly if it says
nothing that can be understood (`says_of_readLine`, `Says.readLine_eq`).

*Blanks.*  Nothing that can be read as a number or as an index has a blank in it, and
neither has a name.  The characters of all three are visible ones (`Visible`), and a
blank is not.  That is why the cuts around a numeral have only one place.
-/

namespace Abacus

/-! ## Visible characters -/

namespace Text

/-- The characters that have a shape, of the first hundred and twenty-eight. -/
def Visible (c : Char) : Prop := 33 ≤ c.toNat ∧ c.toNat ≤ 126

instance (c : Char) : Decidable (Visible c) :=
  inferInstanceAs (Decidable (33 ≤ c.toNat ∧ c.toNat ≤ 126))

/-- What is visible is no blank. -/
theorem Visible.not_blank {c : Char} (h : Visible c) : isBlank c = false := by
  obtain ⟨hlow, hhigh⟩ := h
  simp only [isBlank, blankRanges, List.any_cons, List.any_nil, Bool.or_false, Bool.or_eq_false_iff,
    Bool.and_eq_false_iff, decide_eq_false_iff_not]
  omega

theorem visible_of_isDigit {c : Char} (h : c.isDigit = true) : Visible c := by
  simp only [Char.isDigit, Bool.and_eq_true, decide_eq_true_eq, ge_iff_le,
    UInt32.le_iff_toNat_le] at h
  have hlow : 48 ≤ c.toNat := h.1
  have hhigh : c.toNat ≤ 57 := h.2
  exact ⟨by omega, by omega⟩

/-- Lower-case letters are visible because their capitals are. -/
theorem visible_of_toUpper {c : Char} (h : Visible c.toUpper) : Visible c := by
  unfold Char.toUpper at h
  split at h
  next hlower =>
    rw [UInt32.le_iff_toNat_le, UInt32.le_iff_toNat_le] at hlower
    have hlow : 97 ≤ c.toNat := hlower.1
    have hhigh : c.toNat ≤ 122 := hlower.2
    exact ⟨by omega, by omega⟩
  next => exact h

/-- Capitals are visible because their small letters are. -/
theorem visible_of_toLower {c : Char} (h : Visible c.toLower) : Visible c := by
  unfold Char.toLower at h
  split at h
  next hupper =>
    rw [ge_iff_le, UInt32.le_iff_toNat_le, UInt32.le_iff_toNat_le] at hupper
    have hlow : 65 ≤ c.toNat := hupper.1
    have hhigh : c.toNat ≤ 90 := hupper.2
    exact ⟨by omega, by omega⟩
  next => exact h

/-- A text is visible if it is after a change of case. -/
theorem visible_of_map {f : Char → Char} (hf : ∀ {c}, Visible (f c) → Visible c)
    {text text' : List Char} (h : text.map f = text')
    (htext' : text'.all fun c => decide (Visible c)) : ∀ c ∈ text, Visible c := by
  intro c hc
  have hvisible := List.all_eq_true.mp htext' (f c) (h ▸ List.mem_map_of_mem hc)
  exact hf (of_decide_eq_true hvisible)

/-! ## Trimming -/

/-- A stretch of blanks. -/
def Blanks (w : List Char) : Prop := ∀ c ∈ w, isBlank c = true

instance (w : List Char) : Decidable (Blanks w) :=
  List.decidableBAll (fun c => isBlank c = true) w

theorem Blanks.append {w w' : List Char} (h : Blanks w) (h' : Blanks w') : Blanks (w ++ w') :=
  List.forall_mem_append.mpr ⟨h, h'⟩

/-- Blanks in front are trimmed. -/
theorem trimStart_append {w : List Char} (h : Blanks w) (text : List Char) :
    trimStart (w ++ text) = trimStart text :=
  List.dropWhile_append_of_pos h

/-- Trimming in front stops at the first character that is no blank. -/
theorem trimStart_cons {c : Char} (h : isBlank c = false) (text : List Char) :
    trimStart (c :: text) = c :: text :=
  List.dropWhile_cons_of_neg (by simp [h])

/-- Blanks at the end are trimmed. -/
theorem trimEnd_append {w : List Char} (h : Blanks w) (text : List Char) :
    trimEnd (text ++ w) = trimEnd text := by
  rw [trimEnd, List.reverse_append, List.dropWhile_append_of_pos, trimEnd]
  exact fun c hc => h c (List.mem_reverse.mp hc)

/-- Trimming at the end stops at a visible text. -/
theorem trimEnd_of_visible {text : List Char} (h : ∀ c ∈ text, Visible c) (front : List Char)
    (hne : text ≠ []) : trimEnd (front ++ text) = front ++ text := by
  obtain ⟨init, last, rfl⟩ := List.eq_nil_or_concat text |>.resolve_left hne
  have hlast : isBlank last = false := (h last (by simp)).not_blank
  simp [trimEnd, hlast]

/-- A text without the blanks behind it still begins with its first visible character. -/
theorem exists_trimEnd_cons {c : Char} (h : isBlank c = false) (text : List Char) :
    ∃ rest, trimEnd (c :: text) = c :: rest := by
  rw [trimEnd, List.reverse_cons, List.dropWhile_append]
  split
  next => exact ⟨[], by simp [h]⟩
  next => exact ⟨_, by rw [List.reverse_append]; rfl⟩

/-- What trimming takes away is blank. -/
theorem exists_trim (text : List Char) :
    ∃ w w', Blanks w ∧ Blanks w' ∧ text = w ++ trim text ++ w' := by
  refine ⟨text.takeWhile isBlank, ((trimStart text).reverse.takeWhile isBlank).reverse, ?_, ?_, ?_⟩
  · intro c hc
    exact List.mem_takeWhile_imp hc
  · intro c hc
    exact List.mem_takeWhile_imp (List.mem_reverse.mp hc)
  · have hback : trimEnd (trimStart text) ++
        ((trimStart text).reverse.takeWhile isBlank).reverse = trimStart text := by
      rw [trimEnd, ← List.reverse_append, List.takeWhile_append_dropWhile, List.reverse_reverse]
    rw [trim, List.append_assoc, hback, trimStart, List.takeWhile_append_dropWhile]

/-! ## Cutting at a blank -/

/-- A visible word is not cut. -/
theorem splitAtBlank_of_visible {word : List Char} (h : ∀ c ∈ word, Visible c) :
    splitAtBlank word = (word, none) := by
  have hdrop : word.dropWhile (!isBlank ·) = [] := by
    rw [List.dropWhile_eq_nil_iff]
    intro c hc
    simp [(h c hc).not_blank]
  rw [splitAtBlank, hdrop]

/-- A visible word is cut off at the blank behind it. -/
theorem splitAtBlank_append {word : List Char} (h : ∀ c ∈ word, Visible c) {b : Char}
    (hb : isBlank b = true) (rest : List Char) :
    splitAtBlank (word ++ b :: rest) = (word, some rest) := by
  have hword : ∀ c ∈ word, (!isBlank c) = true := fun c hc => by simp [(h c hc).not_blank]
  rw [splitAtBlank, List.dropWhile_append_of_pos hword, List.dropWhile_cons_of_neg (by simp [hb]),
    List.takeWhile_append_of_pos hword, List.takeWhile_cons_of_neg (by simp [hb]), List.append_nil]

/-- A text is cut at a blank or not at all. -/
theorem splitAtBlank_cases (text : List Char) :
    splitAtBlank text = (text, none) ∨
      ∃ word b rest, isBlank b = true ∧ text = word ++ b :: rest ∧
        splitAtBlank text = (word, some rest) := by
  unfold splitAtBlank
  split
  next => exact .inl rfl
  next b rest hdrop =>
    refine .inr ⟨_, b, rest, ?_, ?_, rfl⟩
    · have hhead := List.head?_dropWhile_not (!isBlank ·) text
      rw [hdrop] at hhead
      simpa using hhead
    · rw [← hdrop, List.takeWhile_append_dropWhile]

end Text

open Text

/-! ## Numerals are visible -/

namespace Numeral

/-- A sign is visible. -/
theorem mem_readSign {text : List Char} {c : Char} (h : c ∈ text) :
    Visible c ∨ c ∈ (readSign text).2 := by
  unfold readSign
  split
  next =>
    rcases List.mem_cons.mp h with rfl | h
    · exact .inl (by decide)
    · exact .inr h
  next =>
    rcases List.mem_cons.mp h with rfl | h
    · exact .inl (by decide)
    · exact .inr h
  next => exact .inr h

/-- All characters of an exponent are visible. -/
theorem visible_of_readExponent? {text : List Char} {e : Int} (h : readExponent? text = some e) :
    ∀ c ∈ text, Visible c := by
  intro c hc
  cases text with
  | nil => cases hc
  | cons mark rest =>
      rw [readExponent?] at h
      dsimp only at h
      split at h
      next hshape =>
        simp only [Bool.and_eq_true, Bool.or_eq_true, decide_eq_true_eq, List.all_eq_true] at hshape
        obtain ⟨⟨hmark, -⟩, hdigits⟩ := hshape
        rcases List.mem_cons.mp hc with rfl | hc
        · rcases hmark with rfl | rfl <;> decide
        · rcases mem_readSign hc with hvisible | hc
          · exact hvisible
          · exact visible_of_isDigit (hdigits c hc)
      next => cases h

/-- All digits and the point are visible. -/
theorem mem_readDigits {text : List Char} {c : Char} (h : c ∈ text) :
    Visible c ∨ c ∈ (readDigits text).2.2 := by
  have hcut {text : List Char} (h : c ∈ text) :
      Visible c ∨ c ∈ text.dropWhile Char.isDigit := by
    rw [← List.takeWhile_append_dropWhile (p := Char.isDigit) (l := text), List.mem_append] at h
    exact h.imp (fun h => visible_of_isDigit (List.mem_takeWhile_imp h)) id
  unfold readDigits
  dsimp only
  rcases hcut h with hvisible | h
  · exact .inl hvisible
  · split
    next rest hdrop =>
      rw [hdrop] at h
      rcases List.mem_cons.mp h with rfl | h
      · exact .inl (by decide)
      · exact hcut h
    next => exact .inr h

/-- All characters of a number are visible. -/
theorem visible_of_readUnsigned? {text : List Char} {n : Numeral}
    (h : readUnsigned? text = some n) : ∀ c ∈ text, Visible c := by
  rw [readUnsigned?] at h
  dsimp only at h
  split at h
  next hname => exact visible_of_map visible_of_toLower hname (by decide)
  next =>
    split at h
    next hname =>
      rw [Bool.or_eq_true, decide_eq_true_eq, decide_eq_true_eq] at hname
      rcases hname with hname | hname
      · exact visible_of_map visible_of_toLower hname (by decide)
      · exact visible_of_map visible_of_toLower hname (by decide)
    next =>
      split at h
      next => cases h
      next =>
        obtain ⟨e, he, -⟩ := Option.map_eq_some_iff.mp h
        intro c hc
        rcases mem_readDigits hc with hvisible | hc
        · exact hvisible
        · exact visible_of_readExponent? he c hc

end Numeral

/-- A text that is read as a value has no blank in it. -/
theorem Value.visible_of_read? {text : List Char} {v : Value} (h : read? text = some v) :
    ∀ c ∈ text, Visible c := by
  obtain ⟨word, hword, -⟩ := Option.map_eq_some_iff.mp h
  obtain ⟨n, hn, -⟩ := Option.map_eq_some_iff.mp hword
  intro c hc
  rcases Numeral.mem_readSign hc with hvisible | hc
  · exact hvisible
  · exact Numeral.visible_of_readUnsigned? hn c hc

/-- No value is read from nothing. -/
theorem Value.ne_nil_of_read? {text : List Char} {v : Value} (h : read? text = some v) :
    text ≠ [] := by
  rintro rfl
  cases h

namespace Assembly

/-- A text that is read as an index has no blank in it. -/
theorem visible_of_readIndex? {text : List Char} {index : UInt8}
    (h : readIndex? text = some index) : (∀ c ∈ text, Visible c) ∧ text ≠ [] := by
  obtain ⟨digits, htext, hread⟩ : ∃ digits, (text = '+' :: digits ∨ text = digits) ∧
      readIndex? text =
        if digits ≠ [] ∧ digits.all Char.isDigit ∧ Numeral.ofDigits digits < 256 then
          some (Numeral.ofDigits digits).toUInt8 else none := by
    clear h
    unfold readIndex?
    dsimp only
    split
    next rest => exact ⟨rest, .inl rfl, rfl⟩
    next => exact ⟨text, .inr rfl, rfl⟩
  rw [hread] at h
  split at h
  next hshape =>
    obtain ⟨hne, hdigits, -⟩ := hshape
    have hvisible : ∀ c ∈ digits, Visible c :=
      fun c hc => visible_of_isDigit (List.all_eq_true.mp hdigits c hc)
    rcases htext with rfl | rfl
    · exact ⟨List.forall_mem_cons.mpr ⟨by decide, hvisible⟩, nofun⟩
    · exact ⟨hvisible, hne⟩
  next => cases h

/-! ## The grammar of lines -/

/-- What a line can say. -/
inductive Item where
  /-- Put a value into the pool and load it. -/
  | constant (v : Value)
  | instruction (i : Instruction)
  deriving DecidableEq

/-- The word is the name, in any case. -/
def Spells (word : List Char) (name : String) : Prop :=
  word.map Char.toUpper = name.toList.map Char.toUpper

instance (word : List Char) (name : String) : Decidable (Spells word name) :=
  inferInstanceAs (Decidable (word.map Char.toUpper = name.toList.map Char.toUpper))

/-- An instruction as it is written. -/
inductive Written : List Char → Item → Prop where
  | constant {word gap numeral : List Char} {v : Value} :
      Spells word "CONSTANT" → Blanks gap → gap ≠ [] → Value.read? numeral = some v →
      Written (word ++ gap ++ numeral) (.constant v)
  | load {word gap numeral : List Char} {index : UInt8} :
      Spells word "LOAD" → Blanks gap → gap ≠ [] → readIndex? numeral = some index →
      Written (word ++ gap ++ numeral) (.instruction (.load index))
  /-- The name of an operation stands for its byte. -/
  | operation {word : List Char} {op : Opcode} {i : Instruction} :
      Spells word op.name → i.bytes = [op.byte] → Written word (.instruction i)

/-- What a line says, if it says anything. -/
inductive Says : List Char → Option Item → Prop where
  | blank {w : List Char} : Blanks w → Says w none
  | comment {w : List Char} (rest : List Char) : Blanks w → Says (w ++ ';' :: rest) none
  | item {w text w' : List Char} {item : Item} :
      Blanks w → Written text item → Blanks w' → Says (w ++ text ++ w') (some item)

/-- The statement that a line is read as. -/
def Item.statement : Item → Statement
  | .constant v => .constant v
  | .instruction .ret => .operation .ret
  | .instruction (.load index) => .load index
  | .instruction (.operator o) => .operation (.operator o)
  | .instruction .negate => .operation .negate

/-! ## Reading gives what is said -/

/-- A word that spells a visible name is visible, in small letters too. -/
theorem Spells.visible {word : List Char} {name : String} (h : Spells word name)
    (hname : (name.toList.map Char.toUpper).all fun c => decide (Visible c)) :
    ∀ c ∈ word, Visible c :=
  visible_of_map visible_of_toUpper h hname

/-- Capitals turn a spelling into the name. -/
theorem Spells.name_eq {word : List Char} {name : String} (h : Spells word name)
    (hname : name.toList.map Char.toUpper = name.toList) :
    String.ofList (word.map Char.toUpper) = name := by
  rw [h, hname, String.ofList_toList]

/-- An operation is found under its name, and nothing else is. -/
theorem operation?_eq_some_iff {name : String} {op : Opcode} :
    operation? name = some op ↔
      op ≠ .constant ∧ name.toList = op.name.toList.map Char.toUpper := by
  constructor
  · intro h
    exact Lexer.of_lookup_eq_some
      (P := fun name op => op ≠ .constant ∧ name.toList = op.name.toList.map Char.toUpper)
      h (by decide)
  · rintro ⟨hop, hname⟩
    have hspelled : name = String.ofList (op.name.toList.map Char.toUpper) := by
      rw [← hname, String.ofList_toList]
    rw [hspelled]
    rcases op with _ | _ | (_ | _ | _ | _) | _
    · decide
    · exact absurd rfl hop
    all_goals decide

/-- An operation has an instruction of its own if it is not a load. -/
theorem exists_instruction {op : Opcode} (h : op ≠ .constant) :
    ∃ i : Instruction, i.bytes = [op.byte] ∧ (Item.instruction i).statement = .operation op := by
  cases op with
  | ret => exact ⟨.ret, rfl, rfl⟩
  | constant => exact absurd rfl h
  | operator o => exact ⟨.operator o, rfl, rfl⟩
  | negate => exact ⟨.negate, rfl, rfl⟩

/-- An instruction of one byte is the operation itself, and no load. -/
theorem statement_of_bytes {op : Opcode} {i : Instruction} (h : i.bytes = [op.byte]) :
    op ≠ .constant ∧ (Item.instruction i).statement = .operation op := by
  have hbyte {op' : Opcode} (heq : [op'.byte] = [op.byte]) : op' = op := by
    have hsome := Opcode.ofByte?_byte op'
    rw [List.singleton_inj.mp heq, Opcode.ofByte?_byte] at hsome
    exact (Option.some.inj hsome).symm
  cases i with
  | load index => exact absurd (congrArg List.length h) (by simp [Instruction.bytes])
  | ret =>
      obtain rfl := hbyte h
      exact ⟨by decide, rfl⟩
  | operator o =>
      obtain rfl := hbyte h
      exact ⟨by simp, rfl⟩
  | negate =>
      obtain rfl := hbyte h
      exact ⟨by decide, rfl⟩

/-- The statement that a name and what follows it are read as. -/
theorem readLine_of_trim {line text : List Char} (h : trim line = text) (hne : text ≠ [])
    (hcomment : text.head? ≠ some ';') :
    readLine line = some <$> match (splitAtBlank text).2 with
      | none => readPlain (String.ofList ((splitAtBlank text).1.map Char.toUpper))
      | some operand =>
          readApplied (String.ofList ((splitAtBlank text).1.map Char.toUpper)) (trim operand) := by
  unfold readLine
  rw [h]
  split
  next => exact absurd rfl hne
  next => exact absurd rfl hcomment
  next => rfl

/-- A word that is accepted on its own has been written as an item without an operand. -/
theorem exists_written_of_readPlain {word : List Char} {s : Statement}
    (h : readPlain (String.ofList (word.map Char.toUpper)) = .ok s) :
    ∃ item, Written word item ∧ item.statement = s := by
  unfold readPlain at h
  split at h
  next => cases h
  next =>
    split at h
    next op hop =>
      obtain ⟨hload, hname⟩ := operation?_eq_some_iff.mp hop
      obtain ⟨i, hi, hs⟩ := exists_instruction hload
      rw [String.toList_ofList] at hname
      exact ⟨.instruction i, .operation hname hi, hs.trans (Except.ok.inj h)⟩
    next => cases h

/-- A word that is accepted with an operand has been written as an item with that operand. -/
theorem exists_written_of_readApplied {word gap numeral : List Char} {s : Statement}
    (hgap : Blanks gap) (hne : gap ≠ [])
    (h : readApplied (String.ofList (word.map Char.toUpper)) numeral = .ok s) :
    ∃ item, Written (word ++ gap ++ numeral) item ∧ item.statement = s := by
  have hspells {name : String} (hname : String.ofList (word.map Char.toUpper) = name)
      (hupper : name.toList.map Char.toUpper = name.toList) : Spells word name := by
    rw [Spells, hupper, ← hname, String.toList_ofList]
  unfold readApplied at h
  split at h
  next hname =>
    split at h
    next v hv =>
      exact ⟨.constant v, .constant (hspells hname (by decide)) hgap hne hv, Except.ok.inj h⟩
    next => cases h
  next =>
    split at h
    next hname =>
      split at h
      next index hindex =>
        exact ⟨.instruction (.load index), .load (hspells hname (by decide)) hgap hne hindex,
          Except.ok.inj h⟩
      next => cases h
    next => cases h

/-- What is read from a line is what it says. -/
theorem says_of_readLine {line : List Char} {s : Option Statement} (h : readLine line = .ok s) :
    ∃ said, Says line said ∧ s = said.map Item.statement := by
  obtain ⟨w, w', hw, hw', hline⟩ := exists_trim line
  by_cases hempty : trim line = []
  · rw [hempty, List.append_nil] at hline
    rw [readLine, hempty] at h
    exact ⟨none, hline ▸ .blank (hw.append hw'), (Except.ok.inj h).symm⟩
  by_cases hcomment : (trim line).head? = some ';'
  · obtain ⟨rest, hrest⟩ := List.head?_eq_some_iff.mp hcomment
    rw [hrest, List.append_assoc, List.cons_append] at hline
    rw [readLine, hrest] at h
    exact ⟨none, hline ▸ .comment _ hw, (Except.ok.inj h).symm⟩
  rw [readLine_of_trim rfl hempty hcomment] at h
  rcases splitAtBlank_cases (trim line) with hsplit | ⟨word, b, rest, hb, htext, hsplit⟩
  · rw [hsplit] at h
    cases hread : readPlain (String.ofList ((trim line).map Char.toUpper)) with
    | error e => simp only [hread] at h; cases h
    | ok statement =>
        simp only [hread] at h
        obtain ⟨item, hwritten, hitem⟩ := exists_written_of_readPlain hread
        refine ⟨some item, ?_, ?_⟩
        · rw [hline]
          exact .item hw hwritten hw'
        · rw [Option.map_some, hitem]
          exact (Except.ok.inj h).symm
  · rw [hsplit] at h
    cases hread : readApplied (String.ofList (word.map Char.toUpper)) (trim rest) with
    | error e => simp only [hread] at h; cases h
    | ok statement =>
        simp only [hread] at h
        obtain ⟨u, u', hu, hu', hrest⟩ := exists_trim rest
        have hgap : Blanks (b :: u) := List.forall_mem_cons.mpr ⟨hb, hu⟩
        obtain ⟨item, hwritten, hitem⟩ := exists_written_of_readApplied hgap nofun hread
        refine ⟨some item, ?_, ?_⟩
        · have hwhole : line = w ++ (word ++ (b :: u) ++ trim rest) ++ (u' ++ w') := by
            rw [hline, htext]
            nth_rewrite 1 [hrest]
            simp
          rw [hwhole]
          exact .item hw hwritten (hu'.append hw')
        · rw [Option.map_some, hitem]
          exact (Except.ok.inj h).symm

/-! ## What is said is read -/

/-- Trimming a line leaves what is written on it, from a visible character to another. -/
theorem trim_of_visible {w front last w' : List Char} (hw : Blanks w) (hw' : Blanks w')
    (hfront : ∀ c ∈ front.head?, Visible c) (hlast : ∀ c ∈ last, Visible c) (hne : last ≠ []) :
    trim (w ++ (front ++ last) ++ w') = front ++ last := by
  have hstart : trimStart (front ++ last ++ w') = front ++ last ++ w' := by
    cases front with
    | nil =>
        obtain ⟨c, rest, rfl⟩ := List.exists_cons_of_ne_nil hne
        exact trimStart_cons (hlast c List.mem_cons_self).not_blank _
    | cons c rest => exact trimStart_cons (hfront c rfl).not_blank _
  rw [trim, List.append_assoc, trimStart_append hw, hstart, trimEnd_append hw',
    trimEnd_of_visible hlast front hne]

/-- No name begins like a comment, and none is empty. -/
theorem Spells.head {word : List Char} {name : String} (h : Spells word name)
    (hname : (name.toList.map Char.toUpper).head? ≠ some ';' ∧ name ≠ "") :
    word ≠ [] ∧ word.head? ≠ some ';' := by
  cases word with
  | nil =>
      have hnil : name.toList = [] := List.map_eq_nil_iff.mp h.symm
      exact absurd (String.toList_eq_nil_iff.mp hnil) hname.2
  | cons c rest =>
      refine ⟨nofun, fun hc => hname.1 ?_⟩
      rw [← h, List.map_cons, Option.some.inj hc]
      rfl

/-- A line with an operand is read as the word and the operand, whatever the blanks. -/
theorem readLine_of_operand {word gap numeral w w' : List Char} (hw : Blanks w) (hw' : Blanks w')
    (hword : ∀ c ∈ word, Visible c) (hhead : word ≠ [] ∧ word.head? ≠ some ';')
    (hgap : Blanks gap) (hne : gap ≠ []) (hnumeral : ∀ c ∈ numeral, Visible c)
    (hnil : numeral ≠ []) :
    readLine (w ++ (word ++ gap ++ numeral) ++ w') =
      some <$> readApplied (String.ofList (word.map Char.toUpper)) numeral := by
  obtain ⟨b, gap, rfl⟩ := List.exists_cons_of_ne_nil hne
  obtain ⟨hb, hgap⟩ := List.forall_mem_cons.mp hgap
  obtain ⟨c, rest, rfl⟩ := List.exists_cons_of_ne_nil hhead.1
  have htrim : trim (w ++ (c :: rest ++ b :: gap ++ numeral) ++ w') =
      c :: rest ++ b :: gap ++ numeral := by
    refine trim_of_visible hw hw' ?_ hnumeral hnil
    rintro _ ⟨rfl⟩
    exact hword c List.mem_cons_self
  have hoperand : trim (gap ++ numeral) = numeral := by
    have h : trim (gap ++ ([] ++ numeral) ++ []) = [] ++ numeral :=
      trim_of_visible hgap nofun nofun hnumeral hnil
    simpa using h
  have hsplit : splitAtBlank (c :: rest ++ b :: gap ++ numeral) =
      (c :: rest, some (gap ++ numeral)) := by
    rw [List.append_assoc]
    exact splitAtBlank_append hword hb _
  rw [readLine_of_trim htrim (by simp) hhead.2, hsplit]
  dsimp only
  rw [hoperand]

/-- A line with one word is read as the word, whatever the blanks. -/
theorem readLine_of_word {word w w' : List Char} (hw : Blanks w) (hw' : Blanks w')
    (hword : ∀ c ∈ word, Visible c) (hhead : word ≠ [] ∧ word.head? ≠ some ';') :
    readLine (w ++ word ++ w') =
      some <$> readPlain (String.ofList (word.map Char.toUpper)) := by
  have htrim : trim (w ++ word ++ w') = word := by
    show trim (w ++ ([] ++ word) ++ w') = [] ++ word
    exact trim_of_visible hw hw' nofun hword hhead.1
  rw [readLine_of_trim htrim hhead.1 hhead.2, splitAtBlank_of_visible hword]

/-- A line is read as what it says. -/
theorem Says.readLine_eq {line : List Char} {said : Option Item} (h : Says line said) :
    readLine line = .ok (said.map Item.statement) := by
  cases h with
  | blank hw =>
      have hblank : trim line = [] := by
        rw [trim, ← List.append_nil line, trimStart_append hw]
        rfl
      rw [readLine, hblank]
      rfl
  | @comment w rest hw =>
      obtain ⟨rest', hrest⟩ := exists_trimEnd_cons (show isBlank ';' = false by decide) rest
      rw [readLine, trim, trimStart_append hw, trimStart_cons (by decide), hrest]
      rfl
  | @item w text w' item hw hwritten hw' =>
      cases hwritten with
      | constant hspells hgap hne hv =>
          rw [readLine_of_operand hw hw' (hspells.visible (by decide)) (hspells.head (by decide))
            hgap hne (Value.visible_of_read? hv) (Value.ne_nil_of_read? hv),
            hspells.name_eq (by decide), readApplied, if_pos rfl, hv]
          rfl
      | load hspells hgap hne hindex =>
          obtain ⟨hvisible, hnil⟩ := visible_of_readIndex? hindex
          rw [readLine_of_operand hw hw' (hspells.visible (by decide)) (hspells.head (by decide))
            hgap hne hvisible hnil, hspells.name_eq (by decide), readApplied,
            if_neg (by decide), if_pos rfl, hindex]
          rfl
      | @operation _ op i hspells hi =>
          obtain ⟨hload, hstatement⟩ := statement_of_bytes hi
          have hname : (op.name.toList.map Char.toUpper).all fun c => decide (Visible c) := by
            rcases op with _ | _ | (_ | _ | _ | _) | _ <;> decide
          have hhead : (op.name.toList.map Char.toUpper).head? ≠ some ';' ∧ op.name ≠ "" := by
            rcases op with _ | _ | (_ | _ | _ | _) | _ <;> decide
          have hfound : operation? (String.ofList (text.map Char.toUpper)) = some op :=
            operation?_eq_some_iff.mpr ⟨hload, by rw [String.toList_ofList]; exact hspells⟩
          -- the two names that want an operand name no operation
          have hplain : ¬ (String.ofList (text.map Char.toUpper) = "CONSTANT" ∨
              String.ofList (text.map Char.toUpper) = "LOAD") := by
            rintro (h | h)
            · rw [h, show operation? "CONSTANT" = none by decide] at hfound
              cases hfound
            · rw [h, show operation? "LOAD" = none by decide] at hfound
              cases hfound
          rw [readLine_of_word hw hw' (hspells.visible hname) (hspells.head hhead), readPlain,
            if_neg hplain, hfound, Option.map_some, hstatement]
          rfl

/-- Different items are different statements. -/
theorem Item.statement_injective {a b : Item} (h : a.statement = b.statement) : a = b := by
  rcases a with v | (_ | _ | _ | _) <;> rcases b with w | (_ | _ | _ | _) <;> cases h <;> rfl

/-- A line says one thing. -/
theorem Says.unique {line : List Char} {said said' : Option Item} (h : Says line said)
    (h' : Says line said') : said = said' := by
  have hread := h.readLine_eq.symm.trans h'.readLine_eq
  exact Option.map_injective (fun _ _ => Item.statement_injective) (Except.ok.inj hread)

end Assembly

end Abacus
