import Abacus.Token.Source

/-!
# Reading tokens from text

Between tokens stands trivia: spaces, tabs, line ends, and comments from `//` up
to the end of their line.  After it a token is read by its first character.

* A letter or underscore begins a word, which takes all letters, digits and
  underscores that follow.  A reserved word is a keyword, any other an
  identifier.
* A digit begins a number, which takes all digits that follow, and then a point
  and more digits if a digit follows the point.
* A double quote begins a string, which ends with the next double quote and may
  run over lines.
* The signs `!`, `=`, `<` and `>` take an equals sign that follows directly.
* The other signs of the vocabulary stand alone, and any other character is an
  error by itself.

Letters and digits are those of ASCII.  Lines are counted from one, and a token
has the line on which it ends.
-/

namespace Abacus

/-- A place in a text: what is left of it, and the line. -/
structure Lexer where
  rest : List Char
  line : UInt32 := 1
  deriving DecidableEq

namespace Lexer

/-- The start of a text. -/
def start (text : String) : Lexer := ⟨text.toList, 1⟩

/-! ## Trivia -/

/-- Whether a character other than a line end is skipped between tokens. -/
def isSpace (c : Char) : Bool := c = ' ' || c = '\t' || c = '\r'

/-- Skip trivia; the first argument tells whether a comment has begun. -/
def skip : Bool → List Char → UInt32 → Lexer
  | _, [], line => ⟨[], line⟩
  | inComment, c :: rest, line =>
      if c = '\n' then skip false rest (line + 1)
      else if inComment then skip true rest line
      else if isSpace c then skip false rest line
      else if c = '/' && rest.head? = some '/' then skip true rest line
      else ⟨c :: rest, line⟩

theorem length_skip_le (inComment : Bool) (text : List Char) (line : UInt32) :
    (skip inComment text line).rest.length ≤ text.length := by
  induction text generalizing inComment line with
  | nil => simp [skip]
  | cons c rest ih =>
      simp only [skip]
      repeat' split
      all_goals first
        | exact Nat.le_trans (ih _ _) (Nat.le_succ _)
        | exact Nat.le_refl _

/-! ## Tokens by their first character -/

/-- Whether a character may begin a word. -/
def isWordStart (c : Char) : Bool := c = '_' || c.isAlpha

/-- Whether a character may stand inside a word. -/
def isWordPart (c : Char) : Bool := c = '_' || c.isAlphanum

/-- The kind of a sign that stands alone. -/
def sign? (c : Char) : Option Token.Kind :=
  [('(', .leftParen), (')', .rightParen), ('\x7b', .leftBrace), ('\x7d', .rightBrace),
   (';', .semicolon), (',', .comma), ('.', .dot), ('-', .minus), ('+', .plus),
   ('/', .slash), ('*', .star)].lookup c

/-- The kinds of a sign that an equals sign may follow: without it, and with it. -/
def comparison? (c : Char) : Option (Token.Kind × Token.Kind) :=
  [('!', (.bang, .bangEqual)), ('=', (.equal, .equalEqual)),
   ('<', (.less, .lessEqual)), ('>', (.greater, .greaterEqual))].lookup c

/-- A token made of the given characters, and what follows it. -/
def accept (kind : Token.Kind) (lexeme rest : List Char) (line : UInt32) : Token × Lexer :=
  (⟨kind, String.ofList lexeme, line⟩, ⟨rest, line⟩)

/-- The word that begins with `c`. -/
def word (c : Char) (rest : List Char) (line : UInt32) : Token × Lexer :=
  let lexeme := c :: rest.takeWhile isWordPart
  let kind := match Keyword.ofSpelling? (String.ofList lexeme) with
    | some k => .keyword k
    | none => .identifier
  accept kind lexeme (rest.dropWhile isWordPart) line

/-- The point and the digits of a fraction, if there is one, and the rest. -/
def fraction (text : List Char) : List Char × List Char :=
  match text with
  | '.' :: d :: rest =>
      if d.isDigit then ('.' :: d :: rest.takeWhile Char.isDigit, rest.dropWhile Char.isDigit)
      else ([], text)
  | _ => ([], text)

/-- The number that begins with the digit `c`. -/
def number (c : Char) (rest : List Char) (line : UInt32) : Token × Lexer :=
  let whole := c :: rest.takeWhile Char.isDigit
  let (fraction, rest) := fraction (rest.dropWhile Char.isDigit)
  accept .number (whole ++ fraction) rest line

/-- The string behind an opening quote. -/
def quoted (rest : List Char) (line : UInt32) : Token × Lexer :=
  let inside := rest.takeWhile (· ≠ '"')
  let line := line + (inside.count '\n').toUInt32
  match rest.dropWhile (· ≠ '"') with
  | [] => (.failure "Unterminated string." line, ⟨[], line⟩)
  | close :: rest => accept .string ('"' :: inside ++ [close]) rest line

/-- The sign `c` that an equals sign may follow. -/
def comparison (c : Char) (kinds : Token.Kind × Token.Kind) (rest : List Char) (line : UInt32) :
    Token × Lexer :=
  match rest with
  | '=' :: rest => accept kinds.2 [c, '='] rest line
  | _ => accept kinds.1 [c] rest line

/-- The token that begins with `c`. -/
def token (c : Char) (rest : List Char) (line : UInt32) : Token × Lexer :=
  if isWordStart c then word c rest line
  else if c.isDigit then number c rest line
  else if c = '"' then quoted rest line
  else match sign? c, comparison? c with
    | some kind, _ => accept kind [c] rest line
    | none, some kinds => comparison c kinds rest line
    | none, none => (.failure "Unexpected character." line, ⟨rest, line⟩)

/-- The token at a place where no trivia is left, and the place behind it. -/
def tokenHere (l : Lexer) : Token × Lexer :=
  match l.rest with
  | [] => (.endOfText l.line, l)
  | c :: rest => token c rest l.line

/-- The next token, and the place behind it. -/
def next (l : Lexer) : Token × Lexer := tokenHere (skip false l.rest l.line)

/-! ## Every token takes at least one character -/

theorem length_dropWhile_le {α : Type} (p : α → Bool) (xs : List α) :
    (xs.dropWhile p).length ≤ xs.length :=
  (List.dropWhile_suffix p).length_le

theorem length_fraction_le (text : List Char) : (fraction text).2.length ≤ text.length := by
  unfold fraction
  split
  · next d rest =>
      split
      · have := length_dropWhile_le Char.isDigit rest
        simp only [List.length_cons]
        omega
      · exact Nat.le_refl _
  · exact Nat.le_refl _

/-- What follows a token is part of what followed its first character. -/
theorem length_token_le (c : Char) (rest : List Char) (line : UInt32) :
    (token c rest line).2.rest.length ≤ rest.length := by
  unfold token
  split
  · exact length_dropWhile_le _ _
  split
  · exact Nat.le_trans (length_fraction_le _) (length_dropWhile_le _ _)
  split
  · have := length_dropWhile_le (· ≠ '"') rest
    unfold quoted
    split
    · simp
    · next h =>
        rw [h] at this
        simp only [accept, List.length_cons] at this ⊢
        omega
  · split
    · exact Nat.le_refl _
    · unfold comparison
      split
      · simp [accept]
      · exact Nat.le_refl _
    · exact Nat.le_refl _

theorem length_tokenHere_le (l : Lexer) : l.tokenHere.2.rest.length ≤ l.rest.length := by
  rcases l with ⟨_ | ⟨c, rest⟩, line⟩
  · exact Nat.le_refl _
  · exact Nat.le_succ_of_le (length_token_le c rest line)

theorem length_tokenHere_lt {l : Lexer} (h : l.tokenHere.1.kind ≠ .eof) :
    l.tokenHere.2.rest.length < l.rest.length := by
  rcases l with ⟨_ | ⟨c, rest⟩, line⟩
  · exact absurd rfl h
  · exact Nat.lt_succ_of_le (length_token_le c rest line)

theorem length_next_le (l : Lexer) : l.next.2.rest.length ≤ l.rest.length :=
  Nat.le_trans (length_tokenHere_le _) (length_skip_le _ _ _)

/-- A token that is not the end takes at least one character. -/
theorem length_next_lt {l : Lexer} (h : l.next.1.kind ≠ .eof) :
    l.next.2.rest.length < l.rest.length :=
  Nat.lt_of_lt_of_le (length_tokenHere_lt h) (length_skip_le _ _ _)

instance : TokenSource Lexer where
  next := next
  left l := l.rest.length
  isLexer := true
  left_next_le := length_next_le
  left_next_lt _ := length_next_lt

/-! ## All tokens of a text -/

/-- The tokens from a place on, up to the first end. -/
def tokens (l : Lexer) : List Token :=
  let step := l.next
  if step.1.kind = .eof then [step.1] else step.1 :: tokens step.2
termination_by l.rest.length
decreasing_by exact length_next_lt ‹_›

end Lexer

/-- The tokens of a text, the end included. -/
def tokensOf (text : String) : List Token := (Lexer.start text).tokens

end Abacus
