import Abacus.Proofs.Encoding
import Abacus.Proofs.Replaying
import Abacus.Proofs.Tokenizing

/-!
# A lexer of bytes

A text is stored as bytes, and a lexer that never puts characters together moves through
them byte by byte: it marks the offset at which a token starts, goes on to the offset
behind it, and cuts the text at the two.  Within a comment, a string or an unknown
character it comes to offsets inside characters, where the text cannot be cut.

Such a lexer goes along with the lexer of characters (`Follows`): whenever it has passed
trivia, or a token, it stands between two characters, with the same text left to read and
on the same line.  This rests on two properties of the encoding.  Every character that the
lexer tells from others is of ASCII, so that it is never met inside another one
(`Utf8.Uniform`), and the bytes that are passed behind an unknown first byte are just those
that belong to its character (`Follows.passWhile_isInner`).

So both lexers hand out the same tokens, and all that is known of the lexer of characters
holds for the lexer of bytes as well: every token but the end takes something from the
text, and the end is repeated.
-/

namespace Abacus

open Utf8

/-! ## The lexer -/

/-- A place in a text: the offset at which the last token starts, that of the next byte,
and the line. -/
structure ByteLexer where
  start : Nat := 0
  offset : Nat := 0
  line : UInt32 := 1
  deriving DecidableEq

namespace ByteLexer

variable (text : String)

/-- The byte at an offset, looked at as the character that has its number. -/
def look (offset : Nat) : Option Char := (bytes text)[offset]?.map Char.ofUInt8

theorem lt_of_look {offset : Nat} {c : Char} (h : look text offset = some c) :
    offset < (bytes text).size := by
  by_contra hle
  rw [look, Array.getElem?_eq_none (Nat.le_of_not_lt hle)] at h
  cases h

/-- Behind one more byte. -/
def pass (b : ByteLexer) : ByteLexer := { b with offset := b.offset + 1 }

/-- Pass bytes as long as they are of a class. -/
def passWhile (p : Char → Bool) (b : ByteLexer) : ByteLexer :=
  match _ : look text b.offset with
  | none => b
  | some c => if p c then passWhile p b.pass else b
termination_by (bytes text).size - b.offset
decreasing_by
  have := lt_of_look text ‹_›
  simp only [pass]
  omega

/-- The bytes from an offset on, looked at as characters. -/
def ahead (offset : Nat) : List Char := ((bytes text).toList.drop offset).map Char.ofUInt8

/-- Where nothing is seen, no bytes are ahead. -/
theorem ahead_of_look_none {offset : Nat} (h : look text offset = none) :
    ahead text offset = [] := by
  rw [look, Option.map_eq_none_iff, Array.getElem?_eq_none_iff] at h
  rw [ahead, List.drop_of_length_le (by simpa using h), List.map_nil]

/-- What is seen is the first of the bytes ahead. -/
theorem ahead_of_look_some {offset : Nat} {c : Char} (h : look text offset = some c) :
    ahead text offset = c :: ahead text (offset + 1) := by
  have hlt := lt_of_look text h
  have hget : Char.ofUInt8 (bytes text)[offset] = c := by simpa [look, hlt] using h
  rw [ahead, List.drop_eq_getElem_cons (by simpa using hlt), List.map_cons, Array.getElem_toList,
    hget]
  rfl

/-- Passing over bytes moves the offset by as many as were passed. -/
theorem passWhile_eq (p : Char → Bool) (b : ByteLexer) :
    passWhile text p b =
      { b with offset := b.offset + ((ahead text b.offset).takeWhile p).length } := by
  fun_induction passWhile text p b with
  | case1 b hlook => rw [ahead_of_look_none text hlook]; rfl
  | case2 b c hlook hc ih =>
      rw [ih, ahead_of_look_some text hlook, List.takeWhile_cons_of_pos hc]
      simp [pass, Nat.add_assoc, Nat.add_comm]
  | case3 b c hlook hc =>
      rw [ahead_of_look_some text hlook, List.takeWhile_cons_of_neg (by simpa using hc)]
      rfl

/-- A byte of the class moves the lexer. -/
theorem lt_passWhile {p : Char → Bool} {b : ByteLexer} {c : Char}
    (hlook : look text b.offset = some c) (hc : p c) :
    b.offset < (passWhile text p b).offset := by
  rw [passWhile_eq, ahead_of_look_some text hlook, List.takeWhile_cons_of_pos hc]
  simp

/-- Pass blanks, line ends and comments. -/
def skip (b : ByteLexer) : ByteLexer :=
  match _ : look text b.offset with
  | none => b
  | some c =>
      if c = '\n' then skip { b.pass with line := b.line + 1 }
      else if Lexer.isSpace c then skip b.pass
      else if c = '/' ∧ look text (b.offset + 1) = some '/' then
        skip (passWhile text (· ≠ '\n') b)
      else b
termination_by (bytes text).size - b.offset
decreasing_by
  all_goals have := lt_of_look text ‹_›
  · simp only [pass]
    omega
  · simp only [pass]
    omega
  · have := lt_passWhile (p := (· ≠ '\n')) text ‹_› (by simpa using ‹_›)
    omega

/-- The token between the start and the offset.  There is none if the text cannot be cut
at these two. -/
def make (kind : Token.Kind) (b : ByteLexer) : Option (Token × ByteLexer) :=
  (slice? text b.start b.offset).map fun lexeme => (⟨kind, lexeme, b.line⟩, b)

/-- The word whose first byte has been passed. -/
def word (b : ByteLexer) : Option (Token × ByteLexer) :=
  let b := passWhile text Lexer.isWordPart b
  (slice? text b.start b.offset).bind fun spelling =>
    match Keyword.ofSpelling? spelling with
    | some k => make text (.keyword k) b
    | none => make text .identifier b

/-- The number whose first byte has been passed. -/
def number (b : ByteLexer) : Option (Token × ByteLexer) :=
  let b := passWhile text Char.isDigit b
  if look text b.offset = some '.' ∧ (look text (b.offset + 1)).any Char.isDigit then
    make text .number (passWhile text Char.isDigit b.pass)
  else make text .number b

/-- The string whose opening quote has been passed. -/
def quoted (b : ByteLexer) : Option (Token × ByteLexer) :=
  match _ : look text b.offset with
  | none => some (.failure "Unterminated string." b.line, b)
  | some c =>
      if c = '"' then make text .string b.pass
      else if c = '\n' then quoted { b.pass with line := b.line + 1 }
      else quoted b.pass
termination_by (bytes text).size - b.offset
decreasing_by
  all_goals
    have := lt_of_look text ‹_›
    simp only [pass]
    omega

/-- The sign that has been passed, with an equals sign or without. -/
def comparison (kinds : Token.Kind × Token.Kind) (b : ByteLexer) : Option (Token × ByteLexer) :=
  if look text b.offset = some '=' then make text kinds.2 b.pass else make text kinds.1 b

/-- Whether a byte belongs to a character that began before it. -/
def isInner (c : Char) : Bool := c.toNat &&& 0xC0 = 0x80

/-- The token with the first byte `c`, which has been passed. -/
def token (c : Char) (b : ByteLexer) : Option (Token × ByteLexer) :=
  if Lexer.isWordStart c then word text b
  else if c.isDigit then number text b
  else if c = '"' then quoted text b
  else match Lexer.sign? c, Lexer.comparison? c with
    | some kind, _ => make text kind b
    | none, some kinds => comparison text kinds b
    | none, none => some (.failure "Unexpected character." b.line, passWhile text isInner b)

/-- The token at a place where no trivia is left. -/
def tokenHere (b : ByteLexer) : Option (Token × ByteLexer) :=
  match look text b.offset with
  | none => some (.endOfText b.line, b)
  | some c => token text c b.pass

/-- The next token, and the place behind it.  There is none if the text was to be cut
where it cannot be. -/
def next (b : ByteLexer) : Option (Token × ByteLexer) :=
  let b := skip text b
  tokenHere text { b with start := b.offset }

/-- The lexer behind its next tokens. -/
def after : Nat → ByteLexer → Option ByteLexer
  | 0, b => some b
  | n + 1, b => (next text b).bind fun step => after n step.2

end ByteLexer

/-! ## Classes of characters -/

namespace Lexer

section Wide

-- no class that the lexer knows has a character beyond ASCII
variable {c : Char} (h : 0x80 ≤ c.toNat)
include h

theorem ne_of_wide {x : Char} (hx : x.toNat < 0x80) : c ≠ x := by
  rintro rfl
  omega

theorem isDigit_of_wide : c.isDigit = false := by
  have hval : (0x80 : UInt32) ≤ c.val := h
  simp only [Char.isDigit]
  grind

theorem isAlpha_of_wide : c.isAlpha = false := by
  have hval : (0x80 : UInt32) ≤ c.val := h
  delta Char.isAlpha Char.isUpper Char.isLower
  grind

theorem isSpace_of_wide : isSpace c = false := by
  simp [isSpace, ne_of_wide h]

theorem isWordStart_of_wide : isWordStart c = false := by
  simp [isWordStart, ne_of_wide h, isAlpha_of_wide h]

theorem isWordPart_of_wide : isWordPart c = false := by
  simp [isWordPart, Char.isAlphanum, ne_of_wide h, isAlpha_of_wide h, isDigit_of_wide h]

/-- No entry of a table of ASCII characters is a wide one. -/
theorem lookup_of_wide {β : Type} {entries : List (Char × β)}
    (hentries : ∀ e ∈ entries, e.1.toNat < 0x80) : entries.lookup c = none := by
  rw [List.lookup_eq_none_iff]
  intro e he
  simpa using ne_of_wide h (hentries e he)

theorem sign?_of_wide : sign? c = none := lookup_of_wide h (by decide)

theorem comparison?_of_wide : comparison? c = none := lookup_of_wide h (by decide)

/-- Outside strings a wide character begins no lexeme. -/
theorem token_of_wide (rest : List Char) (line : UInt32) :
    token c rest line = (.failure "Unexpected character." line, ⟨rest, line⟩) := by
  rw [token, if_neg (by simp [isWordStart_of_wide h]), if_neg (by simp [isDigit_of_wide h]),
    if_neg (ne_of_wide h (by decide)), sign?_of_wide h, comparison?_of_wide h]

end Wide

/-- A number has a fraction only where a digit stands behind the point. -/
theorem fraction_eq_nil {text : List Char}
    (h : ¬ ∃ d rest, text = '.' :: d :: rest ∧ d.isDigit) : fraction text = ([], text) := by
  unfold fraction
  split
  next d rest => exact if_neg fun hd => h ⟨d, rest, rfl, hd⟩
  next => rfl

theorem uniform_isDigit : Uniform Char.isDigit := by
  intro c d hc hd
  rw [isDigit_of_wide hc, isDigit_of_wide hd]

theorem uniform_isWordPart : Uniform isWordPart := by
  intro c d hc hd
  rw [isWordPart_of_wide hc, isWordPart_of_wide hd]

/-- A test against an ASCII character treats all bytes of a wide one alike. -/
theorem uniform_ne {x : Char} (hx : x.toNat < 0x80) : Uniform (fun c => decide (c ≠ x)) := by
  intro c d hc hd
  simp [ne_of_wide hc hx, ne_of_wide hd hx]

end Lexer

namespace ByteLexer

variable {text : String} {b : ByteLexer} {l : Lexer} {offset : Nat} {c : Char} {rest : List Char}
  {line : UInt32}

/-! ## Looking ahead -/

/-- The bytes ahead are those of the characters ahead. -/
theorem ahead_of_behind (h : Behind text offset rest) :
    ahead text offset = (encode rest).map Char.ofUInt8 := by
  rw [ahead, h.drop_bytes]

theorem look_eq_head? (text : String) (offset : Nat) :
    look text offset = (ahead text offset).head? := by
  simp [look, ahead, List.head?_drop]

/-- What is seen of a text at its first byte: a character of ASCII, or of any other
character that it is not of ASCII. -/
inductive Sees : List Char → Option Char → Prop where
  | nothing : Sees [] none
  | narrow {c : Char} {rest : List Char} : c.toNat < 0x80 → Sees (c :: rest) (some c)
  | wide {c d : Char} {rest : List Char} :
      0x80 ≤ c.toNat → 0x80 ≤ d.toNat → Sees (c :: rest) (some d)

/-- Looking at a byte tells the character there, or that it is a wide one. -/
theorem sees (h : Behind text offset rest) : Sees rest (look text offset) := by
  rw [look_eq_head?, ahead_of_behind h]
  cases rest with
  | nil => exact .nothing
  | cons c rest =>
      rw [encode_cons]
      have hc := encodes c
      generalize String.utf8EncodeChar c = bs at hc
      cases hc with
      | @narrow first hnarrow hfirst =>
          show Sees (c :: rest) (some (Char.ofUInt8 first))
          rw [hfirst]
          exact .narrow hnarrow
      | @wide first others hwide hfirst _ =>
          refine .wide (d := Char.ofUInt8 first) hwide ?_
          show 0x80 ≤ first.toNat
          omega

theorem look_nil (h : Behind text offset []) : look text offset = none := by
  rw [look_eq_head?, ahead_of_behind h]
  rfl

/-- An ASCII character is seen exactly where it is the next one. -/
theorem look_eq_some_iff {x : Char} (hx : x.toNat < 0x80) (h : Behind text offset rest) :
    look text offset = some x ↔ rest.head? = some x := by
  have hsees := sees h
  generalize look text offset = seen at hsees
  cases hsees with
  | nothing => simp
  | narrow => rfl
  | wide hc hd =>
      simp [Lexer.ne_of_wide hc hx, Lexer.ne_of_wide hd hx]

/-- A uniform test says of a byte what it says of the character. -/
theorem any_look {p : Char → Bool} (hp : Uniform p) (h : Behind text offset rest) :
    (look text offset).any p = rest.head?.any p := by
  have hsees := sees h
  generalize look text offset = seen at hsees
  cases hsees with
  | nothing => rfl
  | narrow => rfl
  | @wide c d _ hc hd => exact hp d c hd hc

/-! ## Going along with the characters -/

/-- The lexer of bytes stands where the lexer of characters does. -/
structure Follows (text : String) (b : ByteLexer) (l : Lexer) : Prop where
  behind : Behind text b.offset l.rest
  line : b.line = l.line

/-- An ASCII character is one byte, so passing the byte passes the character. -/
theorem Follows.pass (h : Follows text b ⟨c :: rest, line⟩) (hc : c.toNat < 0x80) :
    Follows text b.pass ⟨rest, line⟩ :=
  ⟨h.behind.cons hc, h.line⟩

/-- Bytes are passed together with their characters, since a uniform test stops at none
inside of one. -/
theorem Follows.passWhile {p : Char → Bool} (hp : Uniform p) (h : Follows text b ⟨rest, line⟩) :
    Follows text (passWhile text p b) ⟨rest.dropWhile p, line⟩ := by
  rw [passWhile_eq, ahead_of_behind h.behind, List.takeWhile_map, List.length_map]
  refine ⟨?_, h.line⟩
  show Behind text (b.offset + ((encode rest).takeWhile fun b => p (Char.ofUInt8 b)).length) _
  rw [hp.takeWhile_encode]
  apply Behind.append
  rw [List.takeWhile_append_dropWhile]
  exact h.behind

/-- The bytes that stand inside a character are those from `0x80` to below `0xC0`. -/
theorem isInner_iff (byte : UInt8) :
    isInner (Char.ofUInt8 byte) ↔ 0x80 ≤ byte.toNat ∧ byte.toNat < 0xC0 := by
  have hall : ∀ n < 256, n &&& 0xC0 = 0x80 ↔ 0x80 ≤ n ∧ n < 0xC0 := by decide +kernel
  have hnumber : (Char.ofUInt8 byte).toNat = byte.toNat := rfl
  rw [isInner, hnumber, decide_eq_true_iff]
  exact hall _ byte.toNat_lt

/-- Behind the first byte of a character, the bytes up to the next one are passed. -/
theorem Follows.passWhile_isInner (h : Follows text b ⟨c :: rest, line⟩) :
    Follows text (ByteLexer.passWhile text isInner b.pass) ⟨rest, line⟩ := by
  obtain ⟨first, others, hbytes, -, hothers⟩ := exists_first c
  have hahead : ahead text (b.offset + 1) = (others ++ encode rest).map Char.ofUInt8 := by
    rw [ahead, ← List.drop_drop, h.behind.drop_bytes, encode_cons, hbytes]
    rfl
  -- the other bytes of this character are inner ones, and the first byte of the next is not
  have hinner : ∀ d ∈ others.map Char.ofUInt8, isInner d := by
    intro d hd
    obtain ⟨byte, hbyte, rfl⟩ := List.mem_map.mp hd
    exact (isInner_iff byte).mpr (hothers byte hbyte)
  have hstop : ((encode rest).map Char.ofUInt8).takeWhile isInner = [] := by
    cases rest with
    | nil => rfl
    | cons e rest =>
        obtain ⟨first, others, hbytes, hfirst, -⟩ := exists_first e
        rw [encode_cons, hbytes, List.cons_append, List.map_cons, List.takeWhile_cons_of_neg]
        rw [isInner_iff]
        omega
  have hrest := Behind.append (u := [c]) h.behind
  rw [passWhile_eq]
  refine ⟨?_, h.line⟩
  show Behind text (b.offset + 1 + ((ahead text (b.offset + 1)).takeWhile isInner).length) rest
  rw [hahead, List.map_append, List.takeWhile_append_of_pos hinner, hstop]
  simpa [hbytes, Nat.add_assoc, Nat.add_comm 1] using hrest

/-- Trivia is passed as it is by the lexer of characters. -/
theorem Follows.skip (h : Follows text b ⟨rest, line⟩) :
    Follows text (skip text b) (Lexer.skip false rest line) := by
  -- what is tested for is of ASCII, so it is what stands there if it is seen
  fun_induction ByteLexer.skip text b generalizing rest line with
  | case1 b hlook =>
      cases hlook ▸ sees h.behind with
      | nothing => exact h
  | case2 b hlook ih =>
      cases hlook ▸ sees h.behind with
      | narrow hc =>
          rw [Lexer.skip_newline]
          exact ih ⟨(h.pass hc).behind, congrArg (· + 1) h.line⟩
      | wide _ hwide => exact absurd rfl (Lexer.ne_of_wide hwide (by decide))
  | case3 b c hlook _ hspace ih =>
      cases hlook ▸ sees h.behind with
      | narrow hc =>
          rw [Lexer.skip_space hspace]
          exact ih (h.pass hc)
      | wide _ hwide => simp [Lexer.isSpace_of_wide hwide] at hspace
  | case4 b c hlook _ _ hslash ih =>
      obtain ⟨rfl, hlook'⟩ := hslash
      have hbody := h.passWhile (Lexer.uniform_ne (x := '\n') (by decide))
      cases hlook ▸ sees h.behind with
      | wide _ hwide => exact absurd rfl (Lexer.ne_of_wide hwide (by decide))
      | @narrow _ rest hc =>
          cases hlook' ▸ sees (h.pass hc).behind with
          | wide _ hwide => exact absurd rfl (Lexer.ne_of_wide hwide (by decide))
          | narrow =>
              rw [Lexer.skip_slashes, Lexer.skip_true]
              exact ih hbody
  | case5 b c hlook hline hspace hslash =>
      cases hlook ▸ sees h.behind with
      | narrow hc =>
          rw [Lexer.skip_of_not_trivia hline (by simpa using hspace)]
          · exact h
          · intro heq hhead
            exact hslash ⟨heq, (look_eq_some_iff (by decide) (h.pass hc).behind).mpr hhead⟩
      | wide hwide =>
          rw [Lexer.skip_of_not_trivia (Lexer.ne_of_wide hwide (by decide))]
          · exact h
          · simp [Lexer.isSpace_of_wide hwide]
          · intro heq
            exact absurd heq (Lexer.ne_of_wide hwide (by decide))

/-! ## One token -/

/-- From the start on, the lexer of bytes takes what the lexer of characters takes.  If
this is a piece of the text, it stands between the start and the offset. -/
def Yields (text : String) (start : Nat) (taken : Option (Token × ByteLexer))
    (step : Token × Lexer) : Prop :=
  ∃ b, taken = some (step.1, b) ∧ b.start = start ∧ Follows text b step.2 ∧
    (step.1.kind ≠ .eof → step.1.kind ≠ .error →
      slice? text b.start b.offset = some step.1.lexeme)

/-- A token is made of the text between its start and the offset, which is its lexeme. -/
theorem yields_make {u : List Char} (kind : Token.Kind) (hstart : Behind text b.start (u ++ rest))
    (h : Follows text b ⟨rest, line⟩) :
    Yields text b.start (make text kind b) (Lexer.accept kind u rest line) := by
  have hslice := hstart.slice?_eq_some h.behind
  refine ⟨b, ?_, rfl, h, fun _ _ => hslice⟩
  rw [make, hslice, h.line]
  rfl

@[simp] theorem start_passWhile (text : String) (p : Char → Bool) (b : ByteLexer) :
    (passWhile text p b).start = b.start := by
  rw [passWhile_eq]

/-- Words have the same end for bytes and for characters. -/
theorem yields_word (hstart : Behind text b.start (c :: rest)) (h : Follows text b ⟨rest, line⟩) :
    Yields text b.start (word text b) (Lexer.word c rest line) := by
  have hstop := h.passWhile Lexer.uniform_isWordPart
  have hlexeme : Behind text (passWhile text Lexer.isWordPart b).start
      ((c :: rest.takeWhile Lexer.isWordPart) ++ rest.dropWhile Lexer.isWordPart) := by
    simpa using hstart
  rw [word, hlexeme.slice?_eq_some hstop.behind, Option.bind_some, Lexer.word,
    ← start_passWhile text Lexer.isWordPart b]
  cases Keyword.ofSpelling? (String.ofList (c :: rest.takeWhile Lexer.isWordPart)) with
  | none => exact yields_make .identifier hlexeme hstop
  | some k => exact yields_make (.keyword k) hlexeme hstop

/-- The lexer sees whether a fraction follows. -/
theorem look_point_iff (h : Follows text b ⟨rest, line⟩) :
    look text b.offset = some '.' ∧ (look text (b.offset + 1)).any Char.isDigit ↔
      ∃ d rest', rest = '.' :: d :: rest' ∧ d.isDigit := by
  rw [look_eq_some_iff (by decide) h.behind]
  constructor
  · rintro ⟨hhead, hany⟩
    obtain ⟨rest, rfl⟩ := List.head?_eq_some_iff.mp hhead
    have hdigit := any_look Lexer.uniform_isDigit (h.pass (by decide)).behind
    replace hany := hdigit.symm.trans hany
    cases rest with
    | nil => cases hany
    | cons d rest => exact ⟨d, rest, rfl, hany⟩
  · rintro ⟨d, rest, rfl, hd⟩
    refine ⟨rfl, ?_⟩
    exact (any_look Lexer.uniform_isDigit (h.pass (by decide)).behind).trans hd

/-- Numbers have the same end, with and without a fraction. -/
theorem yields_number (hstart : Behind text b.start (c :: rest))
    (h : Follows text b ⟨rest, line⟩) :
    Yields text b.start (number text b) (Lexer.number c rest line) := by
  have hwhole := h.passWhile Lexer.uniform_isDigit
  have hlexeme : Behind text (passWhile text Char.isDigit b).start
      ((c :: rest.takeWhile Char.isDigit) ++ rest.dropWhile Char.isDigit) := by
    simpa using hstart
  rw [number, Lexer.number, ← start_passWhile text Char.isDigit b]
  generalize passWhile text Char.isDigit b = b at hwhole hlexeme ⊢
  generalize c :: rest.takeWhile Char.isDigit = whole at hlexeme ⊢
  generalize rest.dropWhile Char.isDigit = rest at hwhole hlexeme ⊢
  by_cases hfraction : ∃ d rest', rest = '.' :: d :: rest' ∧ d.isDigit
  · rw [if_pos ((look_point_iff hwhole).mpr hfraction)]
    obtain ⟨d, rest, rfl, hd⟩ := hfraction
    have hstop := (hwhole.pass (by decide)).passWhile Lexer.uniform_isDigit
    rw [List.dropWhile_cons_of_pos hd] at hstop
    rw [Lexer.fraction, if_pos hd]
    have hstart' : Behind text (passWhile text Char.isDigit b.pass).start
        ((whole ++ '.' :: d :: rest.takeWhile Char.isDigit) ++ rest.dropWhile Char.isDigit) := by
      simpa [pass] using hlexeme
    have hyields := yields_make .number hstart' hstop
    rwa [start_passWhile] at hyields
  · rw [if_neg (mt (look_point_iff hwhole).mp hfraction), Lexer.fraction_eq_nil hfraction]
    exact yields_make .number (by simpa using hlexeme) hwhole

/-- A comparison has one or two characters in both lexers. -/
theorem yields_comparison (kinds : Token.Kind × Token.Kind)
    (hstart : Behind text b.start (c :: rest)) (h : Follows text b ⟨rest, line⟩) :
    Yields text b.start (comparison text kinds b) (Lexer.comparison c kinds rest line) := by
  have hlook := look_eq_some_iff (x := '=') (by decide) h.behind
  by_cases hhead : rest.head? = some '='
  · obtain ⟨rest, rfl⟩ := List.head?_eq_some_iff.mp hhead
    rw [comparison, if_pos (hlook.mpr hhead)]
    exact yields_make (u := [c, '=']) kinds.2 hstart (h.pass (by decide))
  · rw [comparison, if_neg (mt hlook.mp hhead), Lexer.comparison]
    · exact yields_make (u := [c]) kinds.1 hstart h
    · rintro rest rfl
      exact hhead rfl

/-! ## Strings -/

/-- The place behind a piece of text, with lines counted in it. -/
def beyond (b : ByteLexer) (u : List Char) : ByteLexer :=
  { b with offset := b.offset + u.length, line := b.line + (u.count '\n').toUInt32 }

theorem beyond_nil (b : ByteLexer) : b.beyond [] = b := by simp [beyond]

/-- A line end inside a string is counted. -/
theorem beyond_newline (b : ByteLexer) (u : List Char) :
    b.beyond ('\n' :: u) = beyond { b.pass with line := b.line + 1 } u := by
  simp [beyond, pass, Nat.add_assoc, Nat.add_comm 1, UInt32.add_assoc, UInt32.add_comm 1]

theorem beyond_cons (b : ByteLexer) (hc : c ≠ '\n') (u : List Char) :
    b.beyond (c :: u) = b.pass.beyond u := by
  simp [beyond, pass, hc, Nat.add_assoc, Nat.add_comm 1]

/-- A string without a closing quote fails at the end of the text. -/
theorem quoted_of_end (h : look text b.offset = none) :
    quoted text b = some (.failure "Unterminated string." b.line, b) := by
  rw [quoted]
  split
  next => rfl
  next hlook => cases h.symm.trans hlook

/-- A string ends behind its closing quote. -/
theorem quoted_of_quote (h : look text b.offset = some '"') :
    quoted text b = make text .string b.pass := by
  rw [quoted]
  split
  next hlook => cases h.symm.trans hlook
  next hlook =>
    cases h.symm.trans hlook
    rw [if_pos rfl]

/-- A string goes on to the next quote or to the end of the text. -/
theorem quoted_eq (b : ByteLexer) :
    quoted text b = quoted text (b.beyond ((ahead text b.offset).takeWhile (· ≠ '"'))) := by
  fun_induction quoted text b with
  | case1 b hlook =>
      rw [ahead_of_look_none text hlook, List.takeWhile_nil, beyond_nil, quoted_of_end hlook]
  | case2 b hlook =>
      rw [ahead_of_look_some text hlook, List.takeWhile_cons_of_neg (by simp), beyond_nil,
        quoted_of_quote hlook]
  | case3 b hlook hquote ih =>
      rw [ih, ahead_of_look_some text hlook, List.takeWhile_cons_of_pos (by simp), beyond_newline]
      rfl
  | case4 b c hlook hquote hline ih =>
      rw [ih, ahead_of_look_some text hlook, List.takeWhile_cons_of_pos (by simpa using hquote),
        beyond_cons b hline]
      rfl

/-- A piece of text has as many line ends as can be seen in its bytes. -/
theorem count_map_ofUInt8 (cs : List Char) :
    ((encode cs).map Char.ofUInt8).count '\n' = cs.count '\n' := by
  induction cs with
  | nil => rfl
  | cons c cs ih =>
      rw [encode_cons, List.map_append, List.count_append, ih]
      rcases Nat.lt_or_ge c.toNat 0x80 with hc | hc
      · obtain ⟨byte, hbytes, hbyte⟩ := exists_byte hc
        rw [hbytes, List.map_singleton, hbyte, ← List.count_append, List.singleton_append]
      · have hnone : '\n' ∉ (String.utf8EncodeChar c).map Char.ofUInt8 := by
          intro hmem
          obtain ⟨byte, hbyte, hnewline⟩ := List.mem_map.mp hmem
          have hsame := (Lexer.uniform_ne (x := '\n') (by decide)).eq_of_mem hbyte
          simp [hnewline, Lexer.ne_of_wide hc] at hsame
        rw [List.count_eq_zero_of_not_mem hnone, Nat.zero_add,
          List.count_cons_of_ne (Lexer.ne_of_wide hc (by decide))]

/-- Along the characters of a string both lexers come to the same place and the same line. -/
theorem Follows.beyond {u : List Char} (h : Follows text b ⟨u ++ rest, line⟩) :
    Follows text (b.beyond ((encode u).map Char.ofUInt8))
      ⟨rest, line + (u.count '\n').toUInt32⟩ := by
  refine ⟨?_, ?_⟩
  · simpa [ByteLexer.beyond] using h.behind.append
  · simp [ByteLexer.beyond, count_map_ofUInt8, h.line]

/-- Strings have the same end, and the lexer has counted the lines in them. -/
theorem yields_quoted (hstart : Behind text b.start ('"' :: rest))
    (h : Follows text b ⟨rest, line⟩) :
    Yields text b.start (quoted text b) (Lexer.quoted rest line) := by
  have hquote : Uniform (fun c => decide (c ≠ '"')) := Lexer.uniform_ne (by decide)
  have hinside : (ahead text b.offset).takeWhile (· ≠ '"') =
      (encode (rest.takeWhile (· ≠ '"'))).map Char.ofUInt8 := by
    rw [ahead_of_behind h.behind, List.takeWhile_map, ← hquote.takeWhile_encode]
    rfl
  have hhead := List.head?_dropWhile_not (fun c => decide (c ≠ '"')) rest
  rw [← List.takeWhile_append_dropWhile (p := (· ≠ '"')) (l := rest)] at hstart h
  rw [quoted_eq, hinside, Lexer.quoted]
  generalize rest.takeWhile (· ≠ '"') = inside at hstart h ⊢
  generalize rest.dropWhile (· ≠ '"') = rest at hstart h hhead ⊢
  have hstop := h.beyond
  cases rest with
  | nil =>
      have hlook := look_nil hstop.behind
      rw [quoted_of_end hlook, hstop.line]
      exact ⟨_, rfl, rfl, hstop, fun _ hkind => absurd rfl hkind⟩
  | cons d rest =>
      obtain rfl : d = '"' := by simpa using hhead
      have hlook := (look_eq_some_iff (x := '"') (by decide) hstop.behind).mpr rfl
      rw [quoted_of_quote hlook]
      refine yields_make (u := '"' :: inside ++ ['"']) .string ?_ (hstop.pass (by decide))
      simpa [beyond, pass] using hstart

/-! ## All tokens -/

/-- A wide character is passed as a whole, and is not expected. -/
theorem token_of_wide (hc : 0x80 ≤ c.toNat) (b : ByteLexer) :
    token text c b = some (.failure "Unexpected character." b.line, passWhile text isInner b) := by
  rw [token, if_neg (by simp [Lexer.isWordStart_of_wide hc]),
    if_neg (by simp [Lexer.isDigit_of_wide hc]), if_neg (Lexer.ne_of_wide hc (by decide)),
    Lexer.sign?_of_wide hc, Lexer.comparison?_of_wide hc]

/-- An unknown character is passed as a whole. -/
theorem yields_unexpected (h : Follows text b ⟨c :: rest, line⟩) :
    Yields text b.start
      (some (.failure "Unexpected character." b.line, passWhile text isInner b.pass))
      (.failure "Unexpected character." line, ⟨rest, line⟩) :=
  ⟨_, by rw [h.line], by simp [pass], h.passWhile_isInner, fun _ hkind => absurd rfl hkind⟩

/-- A token that begins with an ASCII character is found by both lexers alike. -/
theorem yields_token (hstart : b.start = b.offset) (h : Follows text b ⟨c :: rest, line⟩)
    (hc : c.toNat < 0x80) :
    Yields text b.start (token text c b.pass) (Lexer.token c rest line) := by
  have hhere : Behind text b.pass.start (c :: rest) := by
    show Behind text b.start _
    rw [hstart]
    exact h.behind
  have hpass := h.pass hc
  rw [token, Lexer.token]
  split
  next => exact yields_word hhere hpass
  split
  next => exact yields_number hhere hpass
  split
  next heq =>
    subst heq
    exact yields_quoted hhere hpass
  cases Lexer.sign? c with
  | some kind => exact yields_make (u := [c]) kind hhere hpass
  | none =>
      cases Lexer.comparison? c with
      | some kinds => exact yields_comparison kinds hhere hpass
      | none => exact yields_unexpected h

/-- So is the token at any place, the end of the text included. -/
theorem yields_tokenHere (hstart : b.start = b.offset) (h : Follows text b l) :
    Yields text b.start (tokenHere text b) l.tokenHere := by
  obtain ⟨rest, line⟩ := l
  have hsees := sees h.behind
  rw [tokenHere]
  generalize look text b.offset = seen at hsees
  cases hsees with
  | nothing =>
      refine ⟨b, ?_, rfl, h, fun hkind => absurd rfl hkind⟩
      rw [h.line]
      rfl
  | narrow hc => exact yields_token hstart h hc
  | @wide c d rest hc hd =>
      show Yields text b.start (token text d b.pass) (Lexer.token c rest line)
      rw [token_of_wide hd, Lexer.token_of_wide hc]
      exact yields_unexpected h

/-- Every call takes the same token as the lexer of characters. -/
theorem yields_next (h : Follows text b l) :
    Yields text (skip text b).offset (next text b) l.next := by
  have hhere : Follows text { skip text b with start := (skip text b).offset }
      (Lexer.skip false l.rest l.line) := ⟨h.skip.behind, h.skip.line⟩
  exact yields_tokenHere rfl hhere

/-! ## All calls -/

/-- The text can be cut at the start and at the offset. -/
structure Sound (text : String) (b : ByteLexer) : Prop where
  start_le : b.start ≤ b.offset
  offset_le : b.offset ≤ text.utf8ByteSize
  start_valid : String.Pos.Raw.IsValid text ⟨b.start⟩
  offset_valid : String.Pos.Raw.IsValid text ⟨b.offset⟩

/-- Between characters slicing cannot fail. -/
theorem sound_of_behind {here : List Char} (hstart : Behind text b.start here)
    (hstop : Behind text b.offset rest) (hlength : rest.length ≤ here.length) : Sound text b where
  start_le := hstart.le_of_length_le hstop hlength
  offset_le := hstop.isValid.le_rawEndPos
  start_valid := hstart.isValid
  offset_valid := hstop.isValid

theorem follows_start (text : String) : Follows text {} (Lexer.start text) :=
  ⟨behind_zero text, rfl⟩

theorem sound_start (text : String) : Sound text {} :=
  sound_of_behind (behind_zero text) (behind_zero text) (Nat.le_refl _)

/-- A call leaves a lexer that goes along with the characters where it does so again, and
where the text can be cut. -/
theorem exists_next (h : Follows text b l) :
    ∃ b', next text b = some (l.next.1, b') ∧ Follows text b' l.next.2 ∧ Sound text b' ∧
      (l.next.1.kind ≠ .eof → l.next.1.kind ≠ .error →
        slice? text b'.start b'.offset = some l.next.1.lexeme) := by
  obtain ⟨b', hnext, hstart, hfollows, hslice⟩ := yields_next h
  have hmark : Behind text b'.start (Lexer.skip false l.rest l.line).rest := by
    rw [hstart]
    exact h.skip.behind
  exact ⟨b', hnext, hfollows,
    sound_of_behind hmark hfollows.behind (Lexer.length_tokenHere_le _), hslice⟩

/-- After any number of calls the lexers stand at the same place, and no call has failed. -/
theorem exists_after (h : Follows text b l) (hsound : Sound text b) (n : Nat) :
    ∃ b', after text n b = some b' ∧ Follows text b' (TokenSource.after n l) ∧ Sound text b' := by
  induction n generalizing b l with
  | zero => exact ⟨b, rfl, h, hsound⟩
  | succ n ih =>
      obtain ⟨step, hnext, hfollows, hsound, -⟩ := exists_next h
      obtain ⟨b', hafter, hrest⟩ := ih hfollows hsound
      refine ⟨b', ?_, hrest⟩
      rw [after, hnext, Option.bind_some, hafter]

/-- The lexer of characters does not move at the end of a text. -/
theorem after_nil (line : UInt32) (n : Nat) :
    TokenSource.after n (⟨[], line⟩ : Lexer) = ⟨[], line⟩ := by
  induction n with
  | zero => rfl
  | succ n ih => exact ih

/-- At the end of a text the lexer stays where it is. -/
theorem Follows.stays {b : ByteLexer} (h : Follows text b ⟨[], line⟩) (hsound : Sound text b)
    (n : Nat) : ∃ b', after text n b = some b' ∧ b'.offset = b.offset ∧ b'.line = b.line := by
  obtain ⟨b', hafter, hfollows, -⟩ := exists_after h hsound n
  rw [after_nil] at hfollows
  refine ⟨b', hafter, ?_, hfollows.line.trans h.line.symm⟩
  exact Nat.le_antisymm (hfollows.behind.le_of_length_le h.behind (Nat.le_refl _))
    (h.behind.le_of_length_le hfollows.behind (Nat.le_refl _))

/-- However often the lexer of bytes is called, it hands out the next token, which it never
fails to cut from the text: between calls, and where it cuts, the start and the offset stand
between characters, in this order.  Every token but the end of the text moves the offset,
and from the end on neither the offset nor the line changes. -/
theorem offsets_stand_between_characters (text : String) (calls : Nat) :
    ∃ b token b', after text calls {} = some b ∧ next text b = some (token, b') ∧
      Sound text b ∧ Sound text b' ∧
      token = TokenSource.nth calls (Lexer.start text) ∧
      (token.kind ≠ .eof → token.kind ≠ .error →
        slice? text b'.start b'.offset = some token.lexeme) ∧
      (token.kind ≠ .eof → b.offset < b'.offset) ∧
      (token.kind = .eof → ∀ more, ∃ b'', after text more b' = some b'' ∧
        b''.offset = b'.offset ∧ b''.line = b'.line) := by
  obtain ⟨b, hafter, hb, hsound⟩ := exists_after (follows_start text) (sound_start text) calls
  obtain ⟨b', hnext, hb', hsound', hslice⟩ := exists_next hb
  refine ⟨b, _, b', hafter, hnext, hsound, hsound', rfl, hslice, ?_, ?_⟩
  · intro hkind
    exact hb.behind.lt_of_length_lt hb'.behind (Lexer.length_next_lt hkind)
  · intro hkind
    obtain ⟨line, hend⟩ := Lexer.next_eq_of_end hkind
    rw [hend] at hb'
    exact hb'.stays hsound'

end ByteLexer

end Abacus
