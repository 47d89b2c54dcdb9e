/-!
# Blank characters

A blank is a character with the Unicode property `White_Space`: twenty-five
code points, most of them spaces of various widths, together with the control
characters that end or indent a line.  Trimming a text removes its blanks on
both sides.
-/

namespace Abacus.Text

/-- The ranges of code points of the blanks, in ascending order. -/
def blankRanges : List (Nat × Nat) :=
  [(0x09, 0x0D), (0x20, 0x20), (0x85, 0x85), (0xA0, 0xA0), (0x1680, 0x1680),
   (0x2000, 0x200A), (0x2028, 0x2029), (0x202F, 0x202F), (0x205F, 0x205F), (0x3000, 0x3000)]

/-- Whether a character is blank. -/
def isBlank (c : Char) : Bool :=
  blankRanges.any fun (first, last) => first ≤ c.toNat && c.toNat ≤ last

/-- The text without the blanks it begins with. -/
def trimStart (text : List Char) : List Char :=
  text.dropWhile isBlank

/-- The text without the blanks it ends with. -/
def trimEnd (text : List Char) : List Char :=
  (text.reverse.dropWhile isBlank).reverse

/-- The text without the blanks around it. -/
def trim (text : List Char) : List Char :=
  trimEnd (trimStart text)

/-- The word that a text begins with, and what follows the first blank after
it, if there is a blank. -/
def splitAtBlank (text : List Char) : List Char × Option (List Char) :=
  match text.dropWhile (!isBlank ·) with
  | [] => (text, none)
  | _ :: rest => (text.takeWhile (!isBlank ·), some rest)

end Abacus.Text
