import Abacus.Proofs.Faults
import Abacus.Proofs.FileTree

/-!
# Whole files

A compilation to a file either puts the whole chunk file at its target or leaves all files
as they are.  The parts of the command are gone through in their order.

*Directories.*  Making the directories above a target adds directories and does nothing
else, also if it fails on the way (`OnlyMakesDirectories`).

*Writing.*  A file is written under a name that nothing is found at, moved to its target,
and taken away again if the move fails.  The copy in place of a failed move comes to
nothing, as a file that cannot be moved cannot be written either.  So a file is placed, or
the world is what it was (`result_writeFile`).

*The command.*  `CompileEnds` lists the ways in which the command can end and what has
become of the files then.  What is said about exit codes is read off that list.
-/

namespace Abacus

/-! ## Directories -/

/-- In whatever world it is begun, the action does nothing but make directories. -/
def OnlyMakesDirectories {α : Type} (act : StateM World α) : Prop :=
  ∀ w, ∃ files, (StateT.run act w).2 = { w with files } ∧ w.files.Grows files

namespace OnlyMakesDirectories

variable {α β : Type}

theorem pure (a : α) : OnlyMakesDirectories (pure a) := fun w => ⟨w.files, rfl, .refl _⟩

/-- Actions that do nothing else can be done one after the other. -/
theorem bind {act : StateM World α} {f : α → StateM World β} (h : OnlyMakesDirectories act)
    (hf : ∀ a, OnlyMakesDirectories (f a)) : OnlyMakesDirectories (act >>= f) := by
  intro w
  obtain ⟨files, hfiles, hgrows⟩ := h w
  obtain ⟨files', hfiles', hgrows'⟩ := hf (StateT.run act w).1 { w with files }
  refine ⟨files', ?_, hgrows.trans hgrows'⟩
  change (StateT.run (f (StateT.run act w).1) (StateT.run act w).2).2 = _
  rw [hfiles]
  exact hfiles'

theorem isDirectory (p : Path) : OnlyMakesDirectories (Host.isDirectory p) :=
  fun w => ⟨w.files, rfl, .refl _⟩

/-- A directory is made, or the tree is what it was. -/
theorem makeDirectory (p : Path) : OnlyMakesDirectories (Host.makeDirectory p) := by
  intro w
  rw [World.run_makeDirectory]
  cases h : w.files.makeDirectory w.home p with
  | ok files => exact ⟨files, rfl, FileTree.grows_of_makeDirectory h⟩
  | error e => exact ⟨w.files, rfl, .refl _⟩

/-- Going up a path and down again makes directories, whichever of them can be made. -/
theorem makeDirectories (ps : List Path) : OnlyMakesDirectories (Action.makeDirectories ps) := by
  have hsettle (p : Path) (result : Except FileError Unit) :
      OnlyMakesDirectories (Action.makeDirectories.settle p result) := by
    cases result with
    | ok u => exact .pure _
    | error e =>
        refine .bind (.isDirectory p) fun found => ?_
        cases found with
        | true => exact .pure _
        | false => exact .pure _
  induction ps with
  | nil => exact .pure _
  | cons p above ih =>
      rw [Action.makeDirectories]
      split
      next => exact .pure _
      next =>
        refine .bind (.makeDirectory p) fun result => ?_
        split
        next => exact .pure _
        next =>
          refine .bind ih fun above => ?_
          split
          next => exact .pure _
          next => exact .bind (.makeDirectory p) fun again => hsettle p again
        next => exact hsettle p _

end OnlyMakesDirectories

namespace Action

/-- Making the directories above a target adds directories at most, and fails by a chain of
causes. -/
theorem result_makeParents (target : Path) (w : World) :
    ∃ r files, (makeParents target).result w = (r, { w with files }) ∧ w.files.Grows files ∧
      (r = .ok () ∨ ∃ chain, r = .error (.causes chain)) := by
  unfold makeParents
  split
  next parent _ =>
    obtain ⟨files, hfiles, hgrows⟩ := OnlyMakesDirectories.makeDirectories parent.ancestors w
    rw [result_bind, result_perform, hfiles]
    cases (StateT.run (makeDirectories parent.ancestors : StateM World _) w).1 with
    | ok u => exact ⟨_, files, rfl, hgrows, .inl rfl⟩
    | error e => exact ⟨_, files, rfl, hgrows, .inr ⟨_, rfl⟩⟩
  next => exact ⟨_, w.files, rfl, .refl _, .inl rfl⟩

/-! ## Writing -/

/-- A name that was found to be unused leads to nothing. -/
theorem run_unusedName? (directory : Path) (base : String) (count i : Nat) (w : World) :
    StateT.run (unusedName? directory base count i : StateM World _) w = (none, w) ∨
      ∃ j, w.files.find? w.home (directory.child (base ++ ".tmp" ++ Nat.repr j)) = none ∧
        StateT.run (unusedName? directory base count i : StateM World _) w =
          (some (directory.child (base ++ ".tmp" ++ Nat.repr j)), w) := by
  induction count generalizing i with
  | zero => exact .inl rfl
  | succ count ih =>
      have hrun : StateT.run (unusedName? directory base (count + 1) i : StateM World _) w =
          if (w.files.find? w.home (directory.child (base ++ ".tmp" ++ Nat.repr i))).isSome then
            StateT.run (unusedName? directory base count (i + 1) : StateM World _) w
          else (some (directory.child (base ++ ".tmp" ++ Nat.repr i)), w) := by
        rw [unusedName?]
        change StateT.run (if (w.files.find? w.home _).isSome = true then _ else _) w = _
        split
        next => rfl
        next => rfl
      rw [hrun]
      split
      next => exact ih (i + 1)
      next habsent => exact .inr ⟨i, by simpa using habsent, rfl⟩

/-- A name with a number at its end has no slash there. -/
theorem endsInSlash_child (directory : Path) (name : String) (i : Nat) :
    FileTree.endsInSlash (directory.child (name ++ Nat.repr i)) = false := by
  have hne : Nat.toDigits 10 i ≠ [] := Nat.toDigits_ne_nil
  obtain ⟨digit, hlast⟩ := Option.isSome_iff_exists.mp (List.getLast?_isSome.mpr hne)
  obtain ⟨front, hdigits⟩ := List.getLast?_eq_some_iff.mp hlast
  have hdigit : digit ≠ '/' := by
    rintro rfl
    have := Nat.isDigit_of_mem_toDigits (by decide) (by decide) (List.mem_of_getLast? hlast)
    exact absurd this (by decide)
  have hends (before : String) :
      FileTree.endsInSlash ⟨before ++ (name ++ Nat.repr i)⟩ = false := by
    rw [FileTree.endsInSlash, String.toList_append, String.toList_append,
      Nat.repr_eq_ofList_toDigits, String.toList_ofList, hdigits, ← List.append_assoc,
      ← List.append_assoc, List.getLast?_concat]
    simpa using hdigit
  unfold Path.child
  split
  next => exact hends _
  next => exact hends _

/-- The whole course of a write: the temporary file, the move, the copy if there is no move,
and the temporary file taken away again. -/
theorem run_writeThrough (temporary target : Path) (content : List UInt8) (w : World) :
    StateT.run (writeThrough temporary target content : StateM World _) w =
      match w.files.create w.home temporary content with
      | .error e => (.error e, w)
      | .ok first =>
          match first.move w.home temporary target with
          | .ok files => (.ok (), { w with files })
          | .error _ =>
              match first.create w.home target content with
              | .error e => (.error e, { w with files := first })
              | .ok second =>
                  { w with files := second }.settled (second.remove w.home temporary) := by
  unfold writeThrough
  rw [StateT.run_bind, World.run_createFile]
  cases w.files.create w.home temporary content with
  | error e => rfl
  | ok first =>
      change StateT.run (Host.moveFile temporary target >>= _) { w with files := first } = _
      rw [StateT.run_bind, World.run_moveFile]
      dsimp only
      cases first.move w.home temporary target with
      | ok files => rfl
      | error e =>
          change StateT.run (Host.createFile target content >>= _) { w with files := first } = _
          rw [StateT.run_bind, World.run_createFile]
          dsimp only
          cases first.create w.home target content with
          | error e => rfl
          | ok second => exact World.run_removeFile { w with files := second } temporary

/-- A file is placed at its target, or there is trouble and nothing is left of it once the
temporary file has been taken away. -/
theorem writeThrough_cases {w : World} {temporary target : Path} {base : String}
    (hname : target.fileName? = some base) (htemporary : FileTree.endsInSlash temporary = false)
    (habsent : w.files.find? w.home temporary = none) (content : List UInt8) :
    (∃ e files,
      StateT.run (writeThrough temporary target content : StateM World _) w =
        (.error e, { w with files }) ∧
      (StateT.run (Host.removeFile temporary : StateM World _) { w with files }).2 = w) ∨
    ∃ files place,
      StateT.run (writeThrough temporary target content : StateM World _) w =
        (.ok (), { w with files }) ∧
      files.locate w.home target = .ok place ∧ w.files.Placed files place content := by
  simp only [run_writeThrough, World.run_removeFile]
  rcases FileTree.create_of_absent htemporary habsent content with
    ⟨e, hcreate⟩ | ⟨old, hsource, hold, hcreate⟩
  · obtain ⟨e', hremove⟩ := FileTree.remove_of_absent habsent
    rw [hcreate]
    exact .inl ⟨e, w.files, rfl, by rw [hremove]; rfl⟩
  · rw [hcreate]
    dsimp only
    cases hmove : (w.files.insert old (.file content)).move w.home temporary target with
    | ok files =>
        obtain ⟨place, htarget, hplaced⟩ := FileTree.placed_of_move hold hsource hmove
        exact .inr ⟨files, place, rfl, htarget, hplaced⟩
    | error e =>
        -- the copy in place of the move fails too, and the temporary file is taken away
        have hsource' := FileTree.locate_of_covers (FileTree.covers_insert hold (.file content))
          hsource
        have hfile : (w.files.insert old (.file content)).node? old = some (.file content) := by
          rw [FileTree.node?_insert (FileTree.ne_nil_of_node? hold nofun), if_pos rfl]
        obtain ⟨e', hcreate'⟩ := FileTree.create_of_move hname hsource' hfile hmove content
        refine .inl ⟨e', _, by rw [hcreate'], ?_⟩
        rw [FileTree.remove_of_file hsource' hfile, FileTree.erase_insert hold]
        rfl

/-- A file is written whole, or nothing is different. -/
theorem result_writeFile (target : Path) (content : List UInt8) (w : World) :
    (∃ chain, (writeFile target content).result w = (.error (.causes chain), w)) ∨
    ∃ files place, (writeFile target content).result w = (.ok (), { w with files }) ∧
      files.locate w.home target = .ok place ∧ w.files.Placed files place content := by
  unfold writeFile
  split
  next => exact .inl ⟨_, rfl⟩
  next base hname =>
    dsimp only
    rw [result_bind, result_perform]
    rcases run_unusedName? (target.parent?.getD ⟨""⟩) base 0x100000000 0 w with
      hnone | ⟨j, habsent, hsome⟩
    · rw [hnone]
      exact .inl ⟨_, rfl⟩
    · rw [hsome]
      dsimp only
      rw [result_bind, result_perform]
      rcases writeThrough_cases hname (endsInSlash_child _ _ _) habsent content with
        ⟨e, files, hwritten, hremoved⟩ | ⟨files, place, hwritten, htarget, hplaced⟩
      · rw [hwritten]
        dsimp only
        rw [result_bind, result_discard, hremoved]
        exact .inl ⟨[e.message], rfl⟩
      · rw [hwritten]
        exact .inr ⟨files, place, rfl, htarget, hplaced⟩

/-- What is delivered is written whole, and only to a free place unless it may replace what
is there. -/
theorem result_deliver (target : Path) (overwrite : Bool) (content : List UInt8) (w : World) :
    (∃ chain, (deliver target overwrite content).result w = (.error (.causes chain), w)) ∨
    ∃ files place events,
      (deliver target overwrite content).result w = (.ok (), { w with files }.write events) ∧
      (overwrite = false → w.files.find? w.home target = none) ∧
      files.locate w.home target = .ok place ∧ w.files.Placed files place content := by
  unfold deliver
  rw [result_bind, result_perform, World.run_isPresent]
  dsimp only
  split
  next => exact .inl ⟨_, rfl⟩
  next hfree =>
    rw [result_bind, result_within]
    rcases result_writeFile target content w with
      ⟨chain, hfailed⟩ | ⟨files, place, hwritten, htarget, hplaced⟩
    · rw [hfailed]
      exact .inl ⟨_, rfl⟩
    · rw [hwritten]
      dsimp only
      rw [result_status]
      refine .inr ⟨files, place, _, rfl, ?_, htarget, hplaced⟩
      rintro rfl
      simpa using hfree

end Action

/-! ## Reading the source -/

/-- The source text of an input. -/
def World.sourceText? (w : World) : Input → Option String
  | .inline text => some text
  | .standard => String.fromUTF8? w.input.toByteArray
  | .file p =>
      match w.readFile p with
      | .ok content => String.fromUTF8? content.toByteArray
      | .error _ => none

namespace Action

/-- Bytes become text if they are UTF-8, and the world stays as it is. -/
theorem result_decode (bytes : List UInt8) (w : World) :
    (∃ text, String.fromUTF8? bytes.toByteArray = some text ∧
      (decode bytes).result w = (.ok text, w)) ∨
    ∃ chain, String.fromUTF8? bytes.toByteArray = none ∧
      (decode bytes).result w = (.error (.causes chain), w) := by
  unfold decode
  split
  next text htext => exact .inl ⟨text, htext, rfl⟩
  next hnone => exact .inr ⟨_, hnone, rfl⟩

/-- Reading a source changes nothing, and gives its text if there is one. -/
theorem result_readSource (input : Input) (w : World) :
    (∃ text, w.sourceText? input = some text ∧ (readSource input).result w = (.ok text, w)) ∨
    ∃ chain, w.sourceText? input = none ∧
      (readSource input).result w = (.error (.causes chain), w) := by
  cases input with
  | inline text => exact .inl ⟨text, rfl, rfl⟩
  | standard => exact result_decode w.input w
  | file p =>
      rw [readSource, World.sourceText?, result_bind, result_perform]
      change (∃ text, _ ∧ (require _ (w.readFile p) >>= decode).result w = _) ∨
        ∃ chain, _ ∧ (require _ (w.readFile p) >>= decode).result w = _
      cases w.readFile p with
      | ok content => exact result_decode content w
      | error e => exact .inr ⟨_, rfl, rfl⟩

/-- What is loaded from an input other than a chunk file has been compiled from its text. -/
theorem result_load {input : Input} (h : input.chunkFile? = none) (time : Bool) (w : World) :
    (∃ text w', w.sourceText? input = some text ∧
      (load input {} time).result w =
        ((Compiler.compile {} text).result.mapError (.failure ∘ .compile), w') ∧
      w'.files = w.files ∧ w'.home = w.home) ∨
    ∃ chain, w.sourceText? input = none ∧
      (load input {} time).result w = (.error (.causes chain), w) := by
  unfold load
  rw [h]
  dsimp only
  rw [result_bind, result_within]
  rcases result_readSource input w with ⟨text, htext, hread⟩ | ⟨chain, hnone, hread⟩
  · refine .inl ⟨text, ?_⟩
    rw [hread]
    dsimp only
    rw [result_bind, result_clock]
    dsimp only
    rw [result_bind, result_record]
    dsimp only
    cases time with
    | false =>
        rw [if_neg Bool.false_ne_true]
        cases (Compiler.compile {} text).result <;> exact ⟨_, htext, rfl, by simp, by simp⟩
    | true =>
        rw [if_pos rfl, result_bind, result_clock]
        dsimp only
        rw [result_bind, showTime, result_status]
        cases (Compiler.compile {} text).result <;> exact ⟨_, htext, rfl, by simp, by simp⟩
  · rw [hread]
    exact .inr ⟨_, hnone, rfl⟩

end Action

/-! ## The command -/

/-- The tree in which the chunk file is written: directories may have been made, if that was
asked for. -/
structure CompileTask.Prepares (t : CompileTask) (before files : FileTree) : Prop where
  grows : before.Grows files
  eq_of_not_makeParents : t.makeParents = false → files = before

/-- The ways in which a compilation to a file can end, with the files behind it. -/
inductive CompileEnds (t : CompileTask) (w : World) : Except Trouble Unit → FileTree → Prop where
  /-- There is no source text, or the input is a chunk file. -/
  | refused {chain : List String} : CompileEnds t w (.error (.causes chain)) w.files
  /-- The source text does not compile. -/
  | rejected {text : String} {d : Diagnostic} :
      w.sourceText? t.input = some text → (Compiler.compile {} text).result = .error d →
      CompileEnds t w (.error (.failure (.compile d))) w.files
  /-- The chunk file cannot be written, or may not replace what is there. -/
  | stopped {text : String} {chunk : Chunk} {files : FileTree} {chain : List String} :
      w.sourceText? t.input = some text → (Compiler.compile {} text).result = .ok chunk →
      t.Prepares w.files files → CompileEnds t w (.error (.causes chain)) files
  /-- The chunk file is written. -/
  | written {text : String} {chunk : Chunk} {files files' : FileTree}
      {place : FileTree.Location} :
      w.sourceText? t.input = some text → (Compiler.compile {} text).result = .ok chunk →
      t.Prepares w.files files →
      (t.overwrite = false → files.find? w.home t.target = none) →
      files'.locate w.home t.target = .ok place → files.Placed files' place chunk.toBytes →
      CompileEnds t w (.ok ()) files'

/-- Delivering the chunk file is the last thing that can end a compilation. -/
theorem exists_result_deliver {t : CompileTask} {w w' : World} {text : String} {chunk : Chunk}
    (htext : w.sourceText? t.input = some text)
    (hc : (Compiler.compile {} text).result = .ok chunk) (hhome : w'.home = w.home)
    (hprepares : t.Prepares w.files w'.files) :
    ∃ r w'', (Action.deliver t.target t.overwrite chunk.toBytes).result w' = (r, w'') ∧
      CompileEnds t w r w''.files := by
  rcases Action.result_deliver t.target t.overwrite chunk.toBytes w' with
    ⟨chain, hfailed⟩ | ⟨files, place, events, hwritten, hfree, htarget, hplaced⟩
  · exact ⟨_, w', hfailed, .stopped htext hc hprepares⟩
  · rw [hhome] at hfree htarget
    exact ⟨_, _, hwritten, .written htext hc hprepares hfree htarget hplaced⟩

/-- A compilation ends in one of the ways that are listed. -/
theorem Action.result_compile (t : CompileTask) (w : World) :
    ∃ r w', (Action.compile t).result w = (r, w') ∧ CompileEnds t w r w'.files := by
  unfold Action.compile
  dsimp only
  split
  next => exact ⟨_, w, rfl, .refused⟩
  next hsource =>
    have hnone : t.input.chunkFile? = none := by simpa using hsource
    rw [result_bind]
    rcases result_load hnone t.time w with
      ⟨text, w', htext, hload, hfiles, hhome⟩ | ⟨chain, -, hload⟩
    · cases hc : (Compiler.compile {} text).result with
      | error d =>
          rw [hc] at hload
          rw [hload]
          exact ⟨_, w', rfl, hfiles ▸ .rejected htext hc⟩
      | ok chunk =>
          rw [hc] at hload
          rw [hload]
          dsimp only [Except.mapError]
          cases hmake : t.makeParents with
          | false =>
              have hprepares : t.Prepares w.files w'.files := ⟨hfiles ▸ .refl _, fun _ => hfiles⟩
              exact exists_result_deliver htext hc hhome hprepares
          | true =>
              obtain ⟨r, files, hmade, hgrows, hr⟩ := result_makeParents t.target w'
              have hprepares : t.Prepares w.files files :=
                ⟨hfiles ▸ hgrows, fun h => by rw [hmake] at h; cases h⟩
              rw [if_pos rfl, result_bind, hmade]
              rcases hr with rfl | ⟨chain, rfl⟩
              · exact exists_result_deliver htext hc hhome hprepares
              · exact ⟨_, _, rfl, .stopped htext hc hprepares⟩
    · rw [hload]
      exact ⟨_, w, rfl, .refused⟩

/-- No trouble has the exit code of a success. -/
theorem exitCodeOf_ne_zero (e : Trouble) : exitCodeOf (.error e) ≠ 0 := by
  rcases e with (d | f) | chain
  · exact (by decide : (65 : UInt32) ≠ 0)
  · exact (by decide : (70 : UInt32) ≠ 0)
  · exact (by decide : (1 : UInt32) ≠ 0)

namespace CompileEnds

variable {t : CompileTask} {w : World} {r : Except Trouble Unit} {files : FileTree}

/-- If the command fails all files are what they were. -/
theorem file?_of_failure (h : CompileEnds t w r files) (hcode : exitCodeOf r ≠ 0)
    (place : FileTree.Location) : files.file? place = w.files.file? place := by
  cases h with
  | refused => rfl
  | rejected => rfl
  | stopped _ _ hprepares => exact hprepares.grows.file?_eq place
  | written => exact absurd rfl hcode

/-- A text that does not compile ends the command before any file is touched. -/
theorem rejects (h : CompileEnds t w r files) {text : String} {d : Diagnostic}
    (htext : w.sourceText? t.input = some text)
    (hd : (Compiler.compile {} text).result = .error d) : exitCodeOf r ≠ 0 ∧ files = w.files := by
  have hnot {text' : String} {chunk : Chunk} (htext' : w.sourceText? t.input = some text') :
      (Compiler.compile {} text').result ≠ .ok chunk := by
    rw [htext] at htext'
    cases htext'
    rw [hd]
    exact nofun
  cases h with
  | refused => exact ⟨exitCodeOf_ne_zero _, rfl⟩
  | rejected => exact ⟨exitCodeOf_ne_zero _, rfl⟩
  | stopped htext' hc => exact absurd hc (hnot htext')
  | written htext' hc => exact absurd hc (hnot htext')

/-- If the command is successful one file is different, and it holds the compiled chunk. -/
theorem file?_of_success (h : CompileEnds t w r files) (hcode : exitCodeOf r = 0) :
    ∃ text chunk place, w.sourceText? t.input = some text ∧
      (Compiler.compile {} text).result = .ok chunk ∧ files.locate w.home t.target = .ok place ∧
      ∀ other, files.file? other =
        if other = place then some chunk.toBytes else w.files.file? other := by
  cases h with
  | refused => exact absurd hcode (exitCodeOf_ne_zero _)
  | rejected => exact absurd hcode (exitCodeOf_ne_zero _)
  | stopped => exact absurd hcode (exitCodeOf_ne_zero _)
  | written htext hc hprepares _ htarget hplaced =>
      refine ⟨_, _, _, htext, hc, htarget, fun other => ?_⟩
      rw [hplaced.file?_eq, hprepares.grows.file?_eq]

/-- What stands at the target is not replaced without leave. -/
theorem keeps (h : CompileEnds t w r files) (hfound : (w.files.find? w.home t.target).isSome)
    (hoverwrite : t.overwrite = false) : exitCodeOf r ≠ 0 := by
  cases h with
  | written _ _ hprepares hfree =>
      have hsome := hprepares.grows.isSome_find? hfound
      rw [hfree hoverwrite] at hsome
      cases hsome
  | _ => exact exitCodeOf_ne_zero _

/-- Without leave no directory is made, and none is lost. -/
theorem directories (h : CompileEnds t w r files) (hmake : t.makeParents = false)
    (place : FileTree.Location) :
    files.node? place = some .directory ↔ w.files.node? place = some .directory := by
  cases h with
  | refused => rfl
  | rejected => rfl
  | stopped _ _ hprepares => rw [hprepares.eq_of_not_makeParents hmake]
  | written _ _ hprepares _ _ hplaced =>
      obtain rfl := hprepares.eq_of_not_makeParents hmake
      exact hplaced.directory_iff

/-- With the exit code of a compile error nothing is different. -/
theorem files_eq_of_compile_error (h : CompileEnds t w r files) (hcode : exitCodeOf r = 65) :
    files = w.files := by
  cases h with
  | refused => rfl
  | rejected => rfl
  | stopped => exact absurd hcode (by decide : (1 : UInt32) ≠ 65)
  | written => exact absurd hcode (by decide : (0 : UInt32) ≠ 65)

end CompileEnds

/-- A compilation to a file puts the whole chunk file at its target, or it leaves all files
as they are, and the exit code tells which.  Nothing at all is different if the source text
does not compile.  What stands at the target is kept unless it may be replaced, and no
directory is made unless that was asked for. -/
theorem compile_writes_whole_file_or_nothing (t : CompileTask) (w : World) :
    ∃ code w', StateT.run (execute (.compile t) : StateM World UInt32) w = (code, w') ∧
      (code ≠ 0 → ∀ place, w'.files.file? place = w.files.file? place) ∧
      (∀ text d, w.sourceText? t.input = some text →
        (Compiler.compile {} text).result = .error d → code ≠ 0 ∧ w'.files = w.files) ∧
      (code = 65 → w'.files = w.files) ∧
      (code = 0 → ∃ text chunk place, w.sourceText? t.input = some text ∧
        (Compiler.compile {} text).result = .ok chunk ∧
        w'.files.locate w.home t.target = .ok place ∧
        ∀ other, w'.files.file? other =
          if other = place then some chunk.toBytes else w.files.file? other) ∧
      ((w.files.find? w.home t.target).isSome → t.overwrite = false → code ≠ 0) ∧
      (t.makeParents = false → ∀ place,
        w'.files.node? place = some .directory ↔ w.files.node? place = some .directory) := by
  obtain ⟨r, w', hresult, hends⟩ := Action.result_compile t w
  obtain ⟨events, hrun⟩ := run_execute (.compile t) w
  rw [Action.ofCommand, hresult] at hrun
  exact ⟨_, _, hrun, hends.file?_of_failure, fun _ _ => hends.rejects,
    hends.files_eq_of_compile_error, hends.file?_of_success, hends.keeps, hends.directories⟩

/-- A sum is compiled twice in a world that has a chunk file: into a directory that is made
for it, and to the place of the old file, which is kept. -/
theorem compile_writes_whole_file_or_nothing_of_sum :
    let old : FileTree := { entries := [(["out.lbc"], .file [76])] }
    (∃ chunk w', (Compiler.compile {} "1 + 2").result = .ok chunk ∧
      StateT.run (execute (.compile
          { input := .inline "1 + 2", output := some ⟨"d/out.lbc"⟩, makeParents := true }) :
        StateM World UInt32) { files := old } = (0, w') ∧
      ∀ other, w'.files.file? other = if other = ["d", "out.lbc"] then some chunk.toBytes
        else old.file? other) ∧
    ∃ code w',
      StateT.run (execute (.compile { input := .inline "1 + 2" }) : StateM World UInt32)
        { files := old } = (code, w') ∧
      code ≠ 0 ∧
      ∀ place, w'.files.file? place = old.file? place := by
  intro old
  constructor
  · obtain ⟨code, w', hrun, -, -, -, hwritten, -⟩ := compile_writes_whole_file_or_nothing
      { input := .inline "1 + 2", output := some ⟨"d/out.lbc"⟩, makeParents := true }
      { files := old }
    obtain rfl : code = 0 := (congrArg Prod.fst hrun).symm.trans (by decide +kernel)
    have hlocated := congrArg (fun r => (r.2.files.locate [] ⟨"d/out.lbc"⟩).toOption) hrun
    have hplace : (w'.files.locate [] ⟨"d/out.lbc"⟩).toOption = some ["d", "out.lbc"] :=
      hlocated.symm.trans (by decide +kernel)
    obtain ⟨text, chunk, place, htext, hc, htarget, hfiles⟩ := hwritten rfl
    obtain rfl : "1 + 2" = text := Option.some.inj htext
    obtain rfl : place = ["d", "out.lbc"] := by
      rw [show w'.files.locate [] ⟨"d/out.lbc"⟩ = .ok place from htarget] at hplace
      exact Option.some.inj hplace
    exact ⟨chunk, w', hc, hrun, hfiles⟩
  · obtain ⟨code, w', hrun, hkept, -, -, -, hfound, -⟩ := compile_writes_whole_file_or_nothing
      { input := .inline "1 + 2" } { files := old }
    have hcode := hfound (by decide +kernel) rfl
    exact ⟨code, w', hrun, hcode, hkept hcode⟩

end Abacus
