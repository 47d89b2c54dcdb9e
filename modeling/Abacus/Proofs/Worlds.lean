import Abacus.Command.Action
import Abacus.World

/-!
# What is done to a world

A world changes in two ways.  Something is written (`World.write`), or the files are
replaced by others (`World.settled`), where an operation that fails replaces nothing.  What
an action comes to is told by these: `Action.result` gives how it ends and the world behind
it, with one equation for each way to build an action.
-/

namespace Abacus

namespace World

/-! ## Writing -/

/-- The world with more events. -/
def write (w : World) (events : List Event) : World :=
  { w with events := w.events ++ events.toArray }

@[simp] theorem write_nil (w : World) : w.write [] = w := by simp [write]

/-- Events of two writes are those of one. -/
@[simp] theorem write_write (w : World) (before behind : List Event) :
    (w.write before).write behind = w.write (before ++ behind) := by
  simp [write, Array.append_assoc]

/-- Writing leaves the files alone. -/
@[simp] theorem files_write (w : World) (events : List Event) :
    (w.write events).files = w.files := rfl

@[simp] theorem home_write (w : World) (events : List Event) :
    (w.write events).home = w.home := rfl

/-- A note is a write of one event. -/
theorem note_eq_write (w : World) (e : Event) : w.note e = w.write [e] := by simp [note, write]

/-- The records of a log are written in their order, and nothing else happens. -/
theorem run_writeLog (log : Log) (w : World) :
    StateT.run (log.forM Host.writeLog : StateM World Unit) w =
      ((), w.write (log.toList.map Event.log)) := by
  obtain ⟨records⟩ := log
  change StateT.run (forM records.toArray Host.writeLog : StateM World Unit) w = _
  rw [List.forM_toArray]
  induction records generalizing w with
  | nil => exact congrArg (Prod.mk ()) w.write_nil.symm
  | cons r records ih =>
      change StateT.run (records.forM Host.writeLog : StateM World Unit) (w.note (.log r)) = _
      rw [ih, note_eq_write, write_write]
      rfl

/-! ## Changing files -/

/-- What an operation on the files comes to. -/
def settled (w : World) : Except FileError FileTree → Except FileError Unit × World
  | .ok files => (.ok (), { w with files })
  | .error e => (.error e, w)

variable (w : World)

/-- A change is made whole or not at all. -/
theorem run_change (result : Except FileError FileTree) :
    StateT.run (change result) w = w.settled result := by
  cases result <;> rfl

theorem run_createFile (p : Path) (content : List UInt8) :
    StateT.run (Host.createFile p content : StateM World _) w =
      w.settled (w.files.create w.home p content) :=
  w.run_change _

theorem run_moveFile (source target : Path) :
    StateT.run (Host.moveFile source target : StateM World _) w =
      w.settled (w.files.move w.home source target) :=
  w.run_change _

theorem run_removeFile (p : Path) :
    StateT.run (Host.removeFile p : StateM World _) w = w.settled (w.files.remove w.home p) :=
  w.run_change _

theorem run_makeDirectory (p : Path) :
    StateT.run (Host.makeDirectory p : StateM World _) w =
      w.settled (w.files.makeDirectory w.home p) :=
  w.run_change _

/-- Looking for something changes nothing. -/
theorem run_isPresent (p : Path) :
    StateT.run (Host.isPresent p : StateM World Bool) w =
      ((w.files.find? w.home p).isSome, w) := rfl

end World

/-! ## Actions -/

namespace Action

variable {α β : Type}

/-- How an action ends that is begun in a world, and the world behind it. -/
def result (act : Action (StateM World) α) (w : World) : Except Trouble α × World :=
  StateT.run (ExceptT.run act) w

/-- What a world does on its own cannot fail. -/
theorem result_perform (act : StateM World α) (w : World) :
    (perform act).result w = (.ok (StateT.run act w).1, (StateT.run act w).2) := rfl

/-- An action goes on behind another only if that one has a result. -/
theorem result_bind (act : Action (StateM World) α) (f : α → Action (StateM World) β)
    (w : World) :
    (act >>= f).result w = match act.result w with
      | (.ok a, w') => (f a).result w'
      | (.error e, w') => (.error e, w') := by
  unfold result
  rw [ExceptT.run_bind, StateT.run_bind]
  generalize StateT.run (ExceptT.run act) w = r
  rcases r with ⟨e | a, w'⟩ <;> rfl

/-- A cause is put in front of the chain of a failure that has one. -/
theorem result_within (cause : String) (act : Action (StateM World) α) (w : World) :
    (within cause act).result w = match act.result w with
      | (.error (.causes chain), w') => (.error (.causes (cause :: chain)), w')
      | r => r := by
  unfold within result
  rw [ExceptT.run_tryCatch, StateT.run_bind]
  generalize StateT.run (ExceptT.run act) w = r
  rcases r with ⟨(f | chain) | a, w'⟩ <;> rfl

/-- An action whose result is discarded cannot fail, though what it did stays done. -/
theorem result_discard (act : StateM World α) (w : World) :
    (discard (perform act)).result w = (.ok (), (StateT.run act w).2) := rfl

theorem result_clock (w : World) : (perform Host.clock).result w = (.ok 0, w) := rfl

/-- A saying is one event on the output. -/
theorem result_say (text : String) (w : World) :
    (say text).result w = (.ok (), w.write [.out text]) := by
  rw [← World.note_eq_write]
  rfl

/-- A status line is one event among the errors. -/
theorem result_status (colour : Colour) (tag message : String) (w : World) :
    (status colour tag message).result w =
      (.ok (), w.write [.err (statusLine colour tag message)]) := by
  rw [← World.note_eq_write]
  rfl

/-- Recording a log writes its records. -/
theorem result_record (log : Log) (w : World) :
    (record log).result w = (.ok (), w.write (log.toList.map World.Event.log)) :=
  congrArg (fun r => (Except.ok r.1, r.2)) (w.run_writeLog log)

end Action

end Abacus
