import Abacus.Chunk.Basic

/-!
# Chunks as structured text

A chunk written as one JSON object with the arrays `code`, `lines` and `consts`,
either on one line or with one array element a line.  Values are written with
the shortest digits that read back, and as `null` if they are not finite.
-/

namespace Abacus.Chunk

/-- A pool entry as it is written. -/
def constantJson (v : Value) : String := v.exactText?.getD "null"

/-- The arrays of a chunk, each with its key and its elements written out. -/
def arrays (c : Chunk) : List (String × List String) :=
  [("code", c.code.toList.map fun b => Nat.repr b.toNat),
   ("lines", c.lines.toList.map fun l => Nat.repr l.toNat),
   ("consts", c.consts.toList.map constantJson)]

/-- The chunk on one line. -/
def json (c : Chunk) : String :=
  let member := fun (key, items) => "\"" ++ key ++ "\":[" ++ String.intercalate "," items ++ "]"
  "\x7b" ++ String.intercalate "," (c.arrays.map member) ++ "\x7d"

/-- An array with each element on its own line. -/
def spreadArray (items : List String) : String :=
  if items.isEmpty then "[]"
  else "[\n" ++ String.intercalate ",\n" (items.map ("    " ++ ·)) ++ "\n  ]"

/-- The chunk spread over lines, two spaces a level. -/
def spreadJson (c : Chunk) : String :=
  let member := fun (key, items) => "  \"" ++ key ++ "\": " ++ spreadArray items
  "\x7b\n" ++ String.intercalate ",\n" (c.arrays.map member) ++ "\n\x7d"

end Abacus.Chunk
