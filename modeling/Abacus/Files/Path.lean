import Abacus.Text.Split

/-!
# Paths

A path is text with parts between slashes.  An empty part, or a part that is a
single dot, is *void*: it leads nowhere.  The last part that is not void names
what the path leads to, unless it is a double dot, and the path before it is the
parent.  A slash at the start, or a single dot at the start, stands for the place
that the path sets out from and is kept apart from the parts.

Everything here is about the text.  What is found at a path is a matter of
`Abacus.Files.Tree`.
-/

namespace Abacus

/-- A path, as it is written. -/
structure Path where
  text : String
  deriving DecidableEq, Repr

namespace Path

/-- Whether a part leads nowhere. -/
def isVoid (part : String) : Bool := part = "" || part = "."

/-- What a path sets out from, and its parts. -/
def outset (p : Path) : String × List String :=
  let cut (text : List Char) := (Text.split '/' text).map String.ofList
  match p.text.toList with
  | '/' :: rest => ("/", cut rest)
  | ['.'] => (".", [])
  | '.' :: '/' :: rest => (".", cut ('/' :: rest))
  | text => ("", cut text)

/-- The parts up to the last that is not void, last one first. -/
def backward (p : Path) : List String := p.outset.2.reverse.dropWhile isVoid

/-- A path put together again from its parts, last one first. -/
def ofBackward (start : String) (parts : List String) : Path :=
  ⟨start ++ String.intercalate "/" parts.reverse⟩

/-- The path without its last part. -/
def parent? (p : Path) : Option Path :=
  match p.backward with
  | _ :: before => some (ofBackward p.outset.1 (before.dropWhile isVoid))
  | [] => if p.outset.1 = "." then some ⟨""⟩ else none

/-- The name that a path ends with. -/
def fileName? (p : Path) : Option String :=
  match p.backward with
  | name :: _ => if name = ".." then none else some name
  | [] => none

/-- A name cut at its last dot.  A dot at the start does not count. -/
def cutName (name : String) : String × Option String :=
  let backward := name.toList.reverse
  match backward.dropWhile (· ≠ '.') with
  | _ :: c :: before =>
      (String.ofList (c :: before).reverse,
       some (String.ofList (backward.takeWhile (· ≠ '.')).reverse))
  | _ => (name, none)

/-- What follows the last dot of the name. -/
def extension? (p : Path) : Option String := p.fileName?.bind fun name => (cutName name).2

/-- The path with as many characters taken from its end as its extension has. -/
def shortened (p : Path) : Path :=
  ⟨String.ofList (p.text.toList.take (p.text.length - (p.extension?.getD "").length))⟩

/-- The path with an extension put behind the stem of its name, if it has a name. -/
def putExtension (p : Path) (extension : String) : Path :=
  match p.fileName? with
  | none => p
  | some name => ofBackward p.outset.1 (((cutName name).1 ++ "." ++ extension) :: p.backward.tail)

/-- The path with another extension.  The old one is taken off first; what is left
need not have a name, as with `..a`, and is then given back as it is. -/
def withExtension (p : Path) (extension : String) : Path := p.shortened.putExtension extension

/-- The path of a name in a directory. -/
def child (p : Path) (name : String) : Path :=
  if p.text = "" || p.text.toList.getLast? = some '/' then ⟨p.text ++ name⟩
  else ⟨p.text ++ "/" ++ name⟩

/-- The path and those above it, at most as many as the count says. -/
def upward : Nat → Path → List Path
  | 0, _ => []
  | n + 1, p => p :: match p.parent? with
      | some q => upward n q
      | none => []

/-- The path and all those above it.  Every step up makes a path shorter. -/
def ancestors (p : Path) : List Path := upward (p.text.length + 1) p

end Path

end Abacus
