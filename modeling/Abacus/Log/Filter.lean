import Abacus.Log
import Abacus.Text.Blank
import Abacus.Text.Split
import Abacus.Text.Terminal

/-!
# Choosing and writing log records

A filter is a list of directives.  A directive sets how urgent a record has to
be, for all records or for those whose origin begins with a given text.  Of the
directives that apply to a record the one with the longest text counts.  A
directive takes the place of an earlier one for the same origins.  Only two
directives of different origins can be equally long, one for all records and one
for the empty text, and then the later place counts.  If no directive applies
the record is not shown.

The text form of a filter has directives between commas: a level, an origin, or
an origin and a level with an equals sign between them.  Names of levels may be
in any case, and `off` shows nothing.  After a slash a text may follow that has to
occur in the message.  Parts that cannot be read are passed over, and there is a
complaint about each.  A filter with no directive shows errors.

A record is written on a line of its own, and the further lines of its message
are indented.  Where there is no colour, all orders to a terminal are left out.
-/

namespace Abacus.Log

/-- A condition on the records of some origins. -/
structure Directive where
  /-- The start of the origins that are meant, or nothing for all origins. -/
  origin : Option String
  /-- The least urgent level shown, or none at all. -/
  level : Option Level
  deriving DecidableEq

/-- A choice of records. -/
structure Filter where
  directives : List Directive
  /-- A text that has to occur in the message. -/
  needle : String := ""

/-- Why a part of the text form cannot be read. -/
inductive Complaint where
  /-- A part with too many equals signs, or a word that is no level. -/
  | unreadable (text : String)
  /-- A text with more than one slash. -/
  | tooManySlashes (text : String)
  deriving DecidableEq, Repr

/-- What is said of a part that cannot be read. -/
def Complaint.message : Complaint → String
  | .unreadable text => "invalid logging spec '" ++ text ++ "'"
  | .tooManySlashes text => "invalid logging spec '" ++ text ++ "' (too many '/'s)"

/-- The level of a name; `off` is no level. -/
def readLevel? (name : String) : Option (Option Level) :=
  [("off", none), ("error", some Level.error), ("warn", some .warn), ("info", some .info),
   ("debug", some .debug), ("trace", some .trace)].lookup
    (String.ofList (name.toList.map Char.toLower))

/-- A text without the blanks around it. -/
def trimmed (text : String) : String := String.ofList (Text.trim text.toList)

/-- The directive in a part of the text form. -/
def readDirective (text : String) : Except Complaint Directive :=
  match Text.parts '=' text with
  | [word] =>
      match readLevel? word with
      | some level => .ok ⟨none, level⟩
      | none => .ok ⟨some word, some .trace⟩
  | [origin, name] =>
      if trimmed name = "" then .ok ⟨some origin, some .trace⟩
      else match readLevel? (trimmed name) with
        | some level => .ok ⟨some origin, level⟩
        | none => .error (.unreadable (trimmed name))
  | _ => .error (.unreadable text)

/-- The parts between commas, read. -/
def readParts (text : String) : List (Except Complaint Directive) :=
  (((Text.parts ',' text).map trimmed).filter (· ≠ "")).map readDirective

/-- The directives with one more, in the place of one for the same origins or
else at the end. -/
def addDirective (directives : List Directive) (d : Directive) : List Directive :=
  if directives.any (·.origin = d.origin) then
    directives.map fun e => if e.origin = d.origin then d else e
  else directives ++ [d]

/-- The directives among parts that have been read, or the one for errors if
there is none. -/
def collect (parts : List (Except Complaint Directive)) : List Directive :=
  match parts.filterMap Except.toOption with
  | [] => [⟨none, some .error⟩]
  | directives => directives.foldl addDirective []

namespace Filter

/-- The filter in a text. -/
def read (text : String) : Filter :=
  match Text.parts '/' text with
  | [directives] => ⟨collect (readParts directives), ""⟩
  | [directives, needle] => ⟨collect (readParts directives), needle⟩
  | _ => ⟨collect [], ""⟩

/-- What cannot be read in a text. -/
def complaints (text : String) : List Complaint :=
  match Text.parts '/' text with
  | [directives] | [directives, _] => (readParts directives).filterMap fun
      | .ok _ => none
      | .error e => some e
  | _ => [.tooManySlashes text]

/-- The filter that shows all records down to a level. -/
def upTo (level : Level) : Filter := ⟨[⟨none, some level⟩], ""⟩

/-- The text with which the origins of a directive begin. -/
def start (d : Directive) : List Char := (d.origin.getD "").toList

/-- The directive that counts for an origin. -/
def directive? (f : Filter) (origin : String) : Option Directive :=
  (f.directives.filter fun d => (start d).isPrefixOf origin.toList).foldl
    (fun best d => match best with
      | some b => if (start b).length ≤ (start d).length then some d else some b
      | none => some d)
    none

/-- Whether a text occurs in another. -/
def occurs (needle : List Char) : List Char → Bool
  | [] => needle.isEmpty
  | c :: rest => needle.isPrefixOf (c :: rest) || occurs needle rest

/-- Whether a record is shown. -/
def shows (f : Filter) (r : Record) : Bool :=
  match f.directive? r.origin.path with
  | some ⟨_, some level⟩ =>
      r.level.rank ≤ level.rank && occurs f.needle.toList r.message.toList
  | _ => false

end Filter

/-! ## Lines -/

/-- The colour of a level on a terminal. -/
def Level.colour : Level → String
  | .error => "\x1b[1m\x1b[31m"
  | .warn => "\x1b[33m"
  | .info => "\x1b[32m"
  | .debug => "\x1b[34m"
  | .trace => "\x1b[36m"

/-- A text in a colour. -/
def paint (coloured : Bool) (colour text : String) : String :=
  if coloured then colour ++ text ++ "\x1b[0m" else text

/-- The colour of brackets on a terminal. -/
def faint : String := "\x1b[90m"

/-- A message whose further lines are indented. -/
def indent (message : String) : String :=
  String.ofList (message.toList.flatMap fun c => if c = '\n' then "\n    ".toList else [c])

/-- A record as it is written. -/
def Record.line (coloured : Bool) (r : Record) : String :=
  let line := paint coloured faint "["
    ++ paint coloured r.level.colour (Text.padRight 5 ' ' r.level.name)
    ++ " " ++ r.origin.path ++ paint coloured faint "]" ++ " " ++ indent r.message ++ "\n"
  if coloured then line else Text.plain line

end Abacus.Log
