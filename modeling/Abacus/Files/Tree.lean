import Abacus.Files.Path

/-!
# Trees of files

A model of a file system with directories and regular files.  A tree is a table
from locations to nodes, where a location is the list of names that lead to it
from the root.  The root is a directory and is not in the table.

Operations take paths.  A path is followed part by part, from the root or from
the directory that is home, and everything it passes through has to be a
directory.  Operations fail when something is missing or is of the wrong kind, or
when a path or a name in it is longer than the tree takes, and for no other reason;
an operation that fails changes nothing.
-/

namespace Abacus

/-- Why an operation on files fails. -/
inductive FileError where
  | notFound
  | exists
  | busy
  | notADirectory
  | isADirectory
  | nameTooLong
  /-- Anything else, in the words of the system. -/
  | other (message : String)
  deriving DecidableEq, Repr

/-- What is said of a failed operation. -/
def FileError.message : FileError → String
  | .notFound => "No such file or directory (os error 2)"
  | .busy => "Device or resource busy (os error 16)"
  | .exists => "File exists (os error 17)"
  | .notADirectory => "Not a directory (os error 20)"
  | .isADirectory => "Is a directory (os error 21)"
  | .nameTooLong => "File name too long (os error 36)"
  | .other message => message

/-- The names that lead to a place from the root. -/
abbrev FileTree.Location := List String

/-- What stands at a location. -/
inductive FileTree.Node where
  | directory
  | file (content : List UInt8)
  deriving DecidableEq

/-- The greatest number of bytes in a name and in a path, if there is one. -/
structure FileTree.Limits where
  name : Option Nat := some 255
  path : Option Nat := some 4095
  deriving DecidableEq

/-- A tree of files. -/
structure FileTree where
  entries : List (FileTree.Location × FileTree.Node) := []
  limits : FileTree.Limits := {}

namespace FileTree

/-! ## Locations -/

/-- The node at a location. -/
def node? (t : FileTree) (place : Location) : Option Node :=
  if place = [] then some .directory else t.entries.lookup place

/-- The tree without what stands at a location. -/
def erase (t : FileTree) (place : Location) : FileTree :=
  { t with entries := t.entries.filter fun entry => entry.1 ≠ place }

/-- The tree with a node put at a location. -/
def insert (t : FileTree) (place : Location) (node : Node) : FileTree :=
  { t with entries := (place, node) :: (t.erase place).entries }

/-! ## Paths -/

/-- Where one part of a path leads. -/
def step (here : Location) (part : String) : Location :=
  if Path.isVoid part then here
  else if part = ".." then here.dropLast
  else here ++ [part]

/-- Whether a text keeps to a limit on its bytes. -/
def fits (limit : Option Nat) (text : String) : Bool :=
  limit.all fun most => text.utf8ByteSize ≤ most

/-- Where the parts of a path lead. -/
def walk (t : FileTree) : Location → List String → Except FileError Location
  | here, [] => .ok here
  | here, part :: parts =>
      match t.node? here with
      | some .directory =>
          if fits t.limits.name part then walk t (step here part) parts
          else .error .nameTooLong
      | some (.file _) => .error .notADirectory
      | none => .error .notFound

/-- The place that a path sets out from. -/
def origin (home : Location) (p : Path) : Location :=
  if p.text.toList.head? = some '/' then [] else home

/-- The parts of a path as they are followed. -/
def steps (p : Path) : List String := Text.parts '/' p.text

/-- The parts of a path without the slashes at its end. -/
def bareSteps (p : Path) : List String := ((steps p).reverse.dropWhile (· = "")).reverse

/-- Whether a path ends with a slash. -/
def endsInSlash (p : Path) : Bool := p.text.toList.getLast? = some '/'

/-- Where the given parts of a path lead. -/
def follow (t : FileTree) (home : Location) (p : Path) (parts : List String) :
    Except FileError Location :=
  if p.text = "" then .error .notFound
  else if fits t.limits.path p.text then t.walk (origin home p) parts
  else .error .nameTooLong

/-- Where a path leads; there need not be anything. -/
def locate (t : FileTree) (home : Location) (p : Path) : Except FileError Location :=
  t.follow home p (steps p)

/-- Where a path leads, when the slashes at its end do not count. -/
def locateBare (t : FileTree) (home : Location) (p : Path) : Except FileError Location :=
  t.follow home p (bareSteps p)

/-- What a path leads to. -/
def find? (t : FileTree) (home : Location) (p : Path) : Option Node :=
  match t.locate home p with
  | .ok place => t.node? place
  | .error _ => none

/-! ## Operations -/

/-- The node that is opened for reading. -/
def openNode (t : FileTree) (home : Location) (p : Path) : Except FileError Node :=
  match t.locate home p with
  | .error e => .error e
  | .ok place =>
      match t.node? place with
      | some node => .ok node
      | none => .error .notFound

/-- A file with the given content, new or in the place of an old one. -/
def create (t : FileTree) (home : Location) (p : Path) (content : List UInt8) :
    Except FileError FileTree :=
  match t.locateBare home p with
  | .error e => .error e
  | .ok place =>
      if endsInSlash p || t.node? place = some .directory then .error .isADirectory
      else .ok (t.insert place (.file content))

/-- A new directory. -/
def makeDirectory (t : FileTree) (home : Location) (p : Path) : Except FileError FileTree :=
  match t.locateBare home p with
  | .error e => .error e
  | .ok place =>
      match t.node? place with
      | some _ => .error .exists
      | none => .ok (t.insert place .directory)

/-- A file taken away. -/
def remove (t : FileTree) (home : Location) (p : Path) : Except FileError FileTree :=
  match t.locate home p with
  | .error e => .error e
  | .ok place =>
      match t.node? place with
      | some (.file _) => .ok (t.erase place)
      | some .directory => .error .isADirectory
      | none => .error .notFound

/-- Whether the last part of a path names a place in a directory; otherwise the
path can only lead to a directory. -/
def endsInName (p : Path) : Bool :=
  match (steps p).getLast? with
  | some part => !Path.isVoid part && part ≠ ".."
  | none => false

/-- A file moved, also in the place of an old one. -/
def move (t : FileTree) (home : Location) (source target : Path) : Except FileError FileTree :=
  match t.locate home source, t.locate home target with
  | .error e, _ => .error e
  | _, .error e => .error e
  | .ok old, .ok new =>
      match t.node? old with
      | none => .error .notFound
      | some .directory => .error .busy
      | some (.file content) =>
          if !endsInName target then .error .notADirectory
          else if t.node? new = some .directory then .error .isADirectory
          else .ok ((t.erase old).insert new (.file content))

end FileTree

end Abacus
