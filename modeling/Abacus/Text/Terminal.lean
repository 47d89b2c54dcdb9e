/-!
# Text without commands to a terminal

A terminal does not show all characters of a text.  Control characters are
orders, and an escape character begins a *sequence*, an order of several
characters.  `plain` leaves both out, so that what remains can be written where
there is no terminal.

The white controls (tab, line feed, form feed and carriage return) are kept, and
so is every character beyond ASCII.  A sequence has one of these forms.

* Short: the escape character, any number of characters from space to `/`, and a
  character from `0` to `~`.
* Control: the escape character, `[`, and all up to a character from `@` to `~`.
* Command: the escape character, `]`, and all up to a bell.
* String: the escape character, one of `X`, `^` and `_`, and all up to the byte
  `0x9C`.  Text is encoded in UTF-8, where that byte is part of a character, and
  the character goes with the string.
* Device string: the same with `P`, where a head comes before the string.  The
  terminating byte has no meaning in the head.

Two more rules hold in all of them.  An escape character begins a new sequence
in the place of the old one, which is how most strings are ended, and the
characters `0x18` and `0x1A` end a sequence without an order.

A white control inside a short or a control sequence is kept, and *interrupts*
the sequence: text is shown from there on.  The sequence goes on with the next
character that is not shown, unless a character beyond ASCII comes first, with
which it is forgotten.
-/

namespace Abacus.Text

namespace Terminal

/-- How much of a sequence has been read. -/
inductive Sequence where
  /-- Only the escape character. -/
  | opened
  /-- A short sequence with at least one of its inner characters. -/
  | short
  | control
  | command
  /-- A device string up to its first letter. -/
  | device
  /-- A device string with parameters. -/
  | deviceParameters
  /-- A device string with inner characters behind the parameters. -/
  | deviceInner
  /-- A string, or a device string behind its head. -/
  | string
  deriving DecidableEq, Repr

/-- Whether a character is one of a range. -/
def within (first last c : Char) : Bool := first ≤ c && c ≤ last

/-- Whether a control character only sets text apart. -/
def isWhiteControl (c : Char) : Bool := c = '\t' || c = '\n' || c = '\x0c' || c = '\r'

/-- Whether a character is beyond ASCII. -/
def isWide (c : Char) : Bool := 0x80 ≤ c.toNat

/-- Whether a character outside of sequences is shown. -/
def isShown (c : Char) : Bool := within ' ' '~' c || isWhiteControl c || isWide c

namespace Sequence

/-- What is left of a sequence after one more character; nothing if it ends. -/
def next : Sequence → Char → Option Sequence
  | .opened, c =>
      if c = '[' then some .control
      else if c = ']' then some .command
      else if c = 'P' then some .device
      else if c = 'X' || c = '^' || c = '_' then some .string
      else if within ' ' '/' c then some .short
      else if within '0' '~' c then none
      else some .opened
  | .short, c => if within '0' '~' c then none else some .short
  | .control, c => if within '@' '~' c then none else some .control
  | .command, c => if c = '\x07' then none else some .command
  | .device, c =>
      if within ' ' '/' c then some .deviceInner
      else if within '0' '?' c then some .deviceParameters
      else if within '@' '~' c then some .string
      else some .device
  | .deviceParameters, c =>
      if within ' ' '/' c then some .deviceInner
      else if within '<' '~' c then some .string
      else some .deviceParameters
  | .deviceInner, c => if within '0' '~' c then some .string else some .deviceInner
  | .string, c => if (String.utf8EncodeChar c).contains 0x9C then none else some .string

/-- Whether white controls interrupt a sequence. -/
def isInterruptible : Sequence → Bool
  | .opened | .short | .control => true
  | _ => false

end Sequence

/-- Where in a text one is. -/
inductive Place where
  | text
  | inside (s : Sequence)
  /-- In text that interrupts a sequence. -/
  | interrupting (s : Sequence)
  deriving DecidableEq, Repr

/-- The place after a character that is not shown. -/
def Place.ofSequence : Option Sequence → Place
  | some s => .inside s
  | none => .text

/-- The place after a character inside of a sequence, and whether it is shown. -/
def insideStep (s : Sequence) (c : Char) : Place × Bool :=
  if c = '\x1b' then (.inside .opened, false)
  else if c = '\x18' || c = '\x1a' then (.text, false)
  else if s.isInterruptible && isWhiteControl c then (.interrupting s, true)
  else (.ofSequence (s.next c), false)

/-- The place after a character, and whether the character is shown. -/
def step : Place → Char → Place × Bool
  | .text, c => if c = '\x1b' then (.inside .opened, false) else (.text, isShown c)
  | .inside s, c => insideStep s c
  | .interrupting s, c =>
      if isWide c then (.text, true)
      else if isShown c then (.interrupting s, true)
      else insideStep s c

/-- The characters that are shown of a text that begins at a place. -/
def plainFrom : Place → List Char → List Char
  | _, [] => []
  | place, c :: rest =>
      let (place, shown) := step place c
      if shown then c :: plainFrom place rest else plainFrom place rest

end Terminal

/-- A text without control characters and sequences. -/
def plain (text : String) : String := String.ofList (Terminal.plainFrom .text text.toList)

end Abacus.Text
