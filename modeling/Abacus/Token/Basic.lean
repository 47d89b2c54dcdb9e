import Abacus.Text.Pad

/-!
# Tokens

A source text is read as a sequence of tokens.  The vocabulary is that of a
small scripting language, of which expressions use only a part.  A character
sequence that is no token is reported inside the sequence, as a token of kind
`error` whose lexeme is the message.  The sequence ends with a token of kind
`eof`.
-/

namespace Abacus

/-- A reserved word. -/
inductive Keyword where
  | andWord | classWord | elseWord | falseWord | forWord | funWord | ifWord | nilWord
  | orWord | printWord | returnWord | superWord | thisWord | trueWord | varWord | whileWord
  deriving DecidableEq, Repr

namespace Keyword

/-- How a reserved word is written. -/
def spelling : Keyword → String
  | .andWord => "and"
  | .classWord => "class"
  | .elseWord => "else"
  | .falseWord => "false"
  | .forWord => "for"
  | .funWord => "fun"
  | .ifWord => "if"
  | .nilWord => "nil"
  | .orWord => "or"
  | .printWord => "print"
  | .returnWord => "return"
  | .superWord => "super"
  | .thisWord => "this"
  | .trueWord => "true"
  | .varWord => "var"
  | .whileWord => "while"

/-- The reserved words. -/
def all : List Keyword :=
  [.andWord, .classWord, .elseWord, .falseWord, .forWord, .funWord, .ifWord, .nilWord,
   .orWord, .printWord, .returnWord, .superWord, .thisWord, .trueWord, .varWord, .whileWord]

theorem mem_all (k : Keyword) : k ∈ all := by
  cases k <;> decide

/-- The reserved word with the given spelling. -/
def ofSpelling? (word : String) : Option Keyword :=
  all.find? fun k => k.spelling = word

end Keyword

namespace Token

/-- The kind of a token. -/
inductive Kind where
  | leftParen | rightParen | leftBrace | rightBrace
  | comma | dot | minus | plus | semicolon | slash | star
  | bang | bangEqual | equal | equalEqual | greater | greaterEqual | less | lessEqual
  | identifier | string | number
  | keyword (k : Keyword)
  /-- No token; the lexeme says why. -/
  | error
  /-- The end of the text. -/
  | eof
  deriving DecidableEq, Repr

namespace Kind

/-- The name of a kind. -/
def name : Kind → String
  | .leftParen => "LeftParen"
  | .rightParen => "RightParen"
  | .leftBrace => "LeftBrace"
  | .rightBrace => "RightBrace"
  | .comma => "Comma"
  | .dot => "Dot"
  | .minus => "Minus"
  | .plus => "Plus"
  | .semicolon => "Semicolon"
  | .slash => "Slash"
  | .star => "Star"
  | .bang => "Bang"
  | .bangEqual => "BangEqual"
  | .equal => "Equal"
  | .equalEqual => "EqualEqual"
  | .greater => "Greater"
  | .greaterEqual => "GreaterEqual"
  | .less => "Less"
  | .lessEqual => "LessEqual"
  | .identifier => "Identifier"
  | .string => "String"
  | .number => "Number"
  | .keyword k => k.spelling.capitalize
  | .error => "Error"
  | .eof => "Eof"

/-- Whether tokens of a kind are reserved words. -/
def isKeyword : Kind → Bool
  | .keyword _ => true
  | _ => false

end Kind

end Token

/-- A token. -/
structure Token where
  kind : Token.Kind
  /-- The characters of the token, or the message of an error. -/
  lexeme : String
  /-- The source line on which the token ends, counted from one. -/
  line : UInt32
  deriving DecidableEq, Repr

namespace Token

/-- The end of a text, on the given line. -/
def endOfText (line : UInt32) : Token := ⟨.eof, "", line⟩

/-- A stretch of text that is no token. -/
def failure (message : String) (line : UInt32) : Token := ⟨.error, message, line⟩

/-- Whether a token ends its sequence. -/
def isEnd (t : Token) : Bool := t.kind = .eof

/-- A token as a trace shows it. -/
def text (t : Token) : String :=
  Text.padLeft 4 ' ' (Nat.repr t.line.toNat) ++ " " ++ t.kind.name ++ " '" ++ t.lexeme ++ "'"

end Token

end Abacus
