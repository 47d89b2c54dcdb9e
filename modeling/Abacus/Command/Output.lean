import Abacus.Command.Action

/-!
# Writing a file whole or not at all

A file is first written under a name that is not in use, next to its target, and
then moved to its target.  If the move does not succeed the content is written to
the target directly.  Whatever fails, the first file is taken away again.
-/

namespace Abacus.Action

variable {m : Type → Type} [Monad m] [Host m]

/-- Make a directory and those above it; the list has them innermost first.  A
directory that is there already is as good as a new one. -/
def makeDirectories : List Path → m (Except FileError Unit)
  | [] => return .error (.other "failed to create whole tree")
  | p :: above => do
      if p.text = "" then return .ok ()
      match ← Host.makeDirectory p with
      | .ok () => return .ok ()
      | .error .notFound =>
          match ← makeDirectories above with
          | .error e => return .error e
          | .ok () => settle p (← Host.makeDirectory p)
      | result => settle p result
where
  /-- The result of making a directory, once it is known what is there. -/
  settle (p : Path) : Except FileError Unit → m (Except FileError Unit)
    | .ok () => return .ok ()
    | .error e => do if ← Host.isDirectory p then return .ok () else return .error e

/-- Make the directories above a target. -/
def makeParents (target : Path) : Action m Unit := do
  if let some parent := target.parent? then
    let explain (e : FileError) := ["création de " ++ parent.text, e.message]
    require explain (← perform (makeDirectories parent.ancestors))

/-- The first name not in use of those with a number from `i` on, as many as the
count says.  A counter of thirty-two bits alone would begin again behind its last number,
and with all names in use the search would never end. -/
def unusedName? (directory : Path) (base : String) : Nat → Nat → m (Option Path)
  | 0, _ => return none
  | count + 1, i => do
      let candidate := directory.child (base ++ ".tmp" ++ Nat.repr i)
      if ← Host.isPresent candidate then unusedName? directory base count (i + 1)
      else return some candidate

/-- Write a file under the name `temporary` and move it to its target.  A file that cannot
be moved is copied: what a copy would read is the content that has just been written, and
this is written to the target without reading. -/
def writeThrough (temporary target : Path) (content : List UInt8) : m (Except FileError Unit) := do
  match ← Host.createFile temporary content with
  | .error e => return .error e
  | .ok () =>
      match ← Host.moveFile temporary target with
      | .ok () => return .ok ()
      | .error _ =>
          match ← Host.createFile target content with
          | .error e => return .error e
          | .ok () => Host.removeFile temporary

/-- Write a file, whole or not at all.  There is one temporary name for each number of
thirty-two bits.  With all of them in use there is an error in place of a search that would
never end. -/
def writeFile (target : Path) (content : List UInt8) : Action m Unit := do
  match target.fileName? with
  | none => stop ["chemin de sortie sans nom de fichier: " ++ target.text]
  | some base =>
      let directory := target.parent?.getD ⟨""⟩
      match ← perform (unusedName? directory base 0x100000000 0) with
      | none => stop ["tous les noms temporaires sont pris: " ++ target.text]
      | some temporary =>
          match ← perform (writeThrough temporary target content) with
          | .ok () => return
          | .error e =>
              discard (perform (Host.removeFile temporary))
              stop [e.message]

/-- Write a file and tell of it, unless there is something that may not be replaced. -/
def deliver (target : Path) (overwrite : Bool) (content : List UInt8) : Action m Unit := do
  if (← perform (Host.isPresent target)) && !overwrite then
    stop ["fichier de sortie existe déjà: " ++ target.text]
  within ("écriture de " ++ target.text) (writeFile target content)
  status .green "COMPILE" target.text

end Abacus.Action
