/-!
# Columns

Text set in columns: a field is brought to a width by repeating a fill
character on its left or on its right.  A field that is already as wide as its
column, or wider, is left alone; nothing is ever cut.
-/

namespace Abacus.Text

/-- The text moved to the right edge of a column. -/
def padLeft (width : Nat) (fill : Char) (text : String) : String :=
  String.ofList (List.replicate (width - text.length) fill) ++ text

/-- The text moved to the left edge of a column. -/
def padRight (width : Nat) (fill : Char) (text : String) : String :=
  text ++ String.ofList (List.replicate (width - text.length) fill)

/-- A number in base sixteen with capital digits, on at least `width` places. -/
def hexadecimal (width n : Nat) : String :=
  padLeft width '0' (String.ofList ((Nat.toDigits 16 n).map Char.toUpper))

end Abacus.Text
