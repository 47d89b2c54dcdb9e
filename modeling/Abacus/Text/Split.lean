/-!
# Splitting at a character

A text is cut at every occurrence of a character.  There is one part more than
there are occurrences, so a text without one is a single part, and parts may be
empty.
-/

namespace Abacus.Text

/-- The parts of a text between the occurrences of a character. -/
def split (separator : Char) : List Char → List (List Char)
  | [] => [[]]
  | c :: rest =>
      if c = separator then [] :: split separator rest
      else match split separator rest with
        | [] => [[c]]
        | part :: parts => (c :: part) :: parts

theorem split_ne_nil (separator : Char) (text : List Char) : split separator text ≠ [] := by
  cases text with
  | nil => simp [split]
  | cons c rest =>
      simp only [split]
      repeat' split
      all_goals simp

/-- The parts of a string. -/
def parts (separator : Char) (text : String) : List String :=
  (split separator text.toList).map String.ofList

end Abacus.Text
