/-!
# Lines

A sequence is cut into lines after each line feed.  The line feed does not
belong to the line, and neither does one carriage return directly before it.
What follows the last line feed is a line of its own unless it is empty, and
it keeps its carriage return.

The elements may be characters or bytes, so that lines can be cut out of input
whose encoding has not been checked yet.
-/

namespace Abacus.Text

variable {α : Type} [DecidableEq α]

/-- A line read backwards, without the carriage return it ends with. -/
def closeLine (ret : α) : List α → List α
  | [] => []
  | c :: before => if c = ret then before.reverse else (c :: before).reverse

/-- The lines of a sequence of which `before` has been read already, last
element first. -/
def linesFrom (feed ret : α) : List α → List α → List (List α)
  | [], [] => []
  | [], before => [before.reverse]
  | c :: rest, before =>
      if c = feed then closeLine ret before :: linesFrom feed ret rest []
      else linesFrom feed ret rest (c :: before)

/-- The lines of a text. -/
def lines (text : List Char) : List (List Char) :=
  linesFrom '\n' '\r' text []

/-- The lines of a byte string. -/
def byteLines (bytes : List UInt8) : List (List UInt8) :=
  linesFrom 10 13 bytes []

end Abacus.Text
