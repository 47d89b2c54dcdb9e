import Abacus.Program
import Abacus.Proofs.Preservation
import Abacus.Proofs.Worlds

/-!
# Compiled code does not fail

An evaluation whose machine may hold as many values as its compiler may open
levels gives a value or a diagnostic, and nothing else.  The limits of the
program itself are equal, so a run of an expression never ends with the exit code
of a fault.

The second statement is about a command, that is about an action on a host.  What
an action can end with is said by `Action.Meets`, in any world it is begun in;
there is one rule for each way to build an action that running an expression
uses.
-/

namespace Abacus

open Compiler

/-! ## Evaluations -/

/-- A chunk that a text compiles to gives a value if the machine may hold as many
values as the compiler may open levels. -/
theorem exists_outcome_of_compile {options : Compiler.Options} {limits : Machine.Options}
    (hlimits : options.nestingLimit ≤ limits.stackLimit) {text : String} {c : Chunk}
    (h : (compile options text).result = .ok c) :
    ∃ v, (Machine.run c limits).outcome = .ok (some v) := by
  obtain ⟨t, e, ha⟩ := compile_result_eq_ok_iff.mp h
  exact ha.exists_outcome hlimits

/-- A machine with room for the nesting that was allowed to the compiler gives every text a
value or a diagnostic, and no fault. -/
theorem evaluate_cases {options : Compiler.Options} {limits : Machine.Options}
    (hlimits : options.nestingLimit ≤ limits.stackLimit) (text : String) :
    (∃ d, (evaluate options limits text).outcome = .error (.compile d)) ∨
      ∃ v, (evaluate options limits text).outcome = .ok (some v) := by
  unfold evaluate
  dsimp only
  split
  next d _ => exact .inl ⟨d, rfl⟩
  next c hc =>
    obtain ⟨v, hv⟩ := exists_outcome_of_compile hlimits hc
    exact .inr ⟨v, by rw [hv]; rfl⟩

/-! ## Actions -/

namespace Action

variable {α β : Type}

/-- In whatever world the action is begun, its result and its trouble are as
stated. -/
def Meets (act : Action (StateM World) α) (P : α → Prop) (Q : Trouble → Prop) : Prop :=
  ∀ w, match (act.result w).1 with
    | .ok a => P a
    | .error e => Q e

namespace Meets

variable {P : α → Prop} {R : β → Prop} {Q : Trouble → Prop}

theorem pure {a : α} (h : P a) : Meets (pure a) P Q := fun _ => h

theorem throw {e : Trouble} (h : Q e) : Meets (throw e) P Q := fun _ => h

theorem perform (act : StateM World α) : Meets (perform act) (fun _ => True) Q :=
  fun _ => trivial

/-- What an action promises of its result is all that the next one may count on. -/
theorem bind {act : Action (StateM World) α} {f : α → Action (StateM World) β}
    (h : act.Meets P Q) (hf : ∀ a, P a → (f a).Meets R Q) : (act >>= f).Meets R Q := by
  intro w
  have hw := h w
  rw [result_bind]
  rcases hr : act.result w with ⟨e | a, w'⟩
  · rw [hr] at hw
    exact hw
  · rw [hr] at hw
    exact hf a hw w'

/-- A result that was required is there, or there is a chain of causes. -/
theorem require {ε : Type} {explain : ε → List String} (result : Except ε α)
    (hQ : ∀ chain, Q (.causes chain)) :
    Meets (require explain result) (fun _ => True) Q := by
  cases result with
  | ok a => exact pure trivial
  | error e => exact throw (hQ _)

/-- A cause in front of a chain is no other kind of trouble. -/
theorem within {cause : String} {act : Action (StateM World) α} (h : act.Meets P Q)
    (hQ : ∀ chain, Q (.causes chain)) : (within cause act).Meets P Q := by
  intro w
  have hw := h w
  rw [result_within]
  rcases hr : act.result w with ⟨(f | chain) | a, w'⟩
  · rw [hr] at hw
    exact hw
  · exact hQ _
  · rw [hr] at hw
    exact hw

end Meets

/-! ## Running an expression -/

/-- The trouble is not a fault of the machine. -/
def NoFault (e : Trouble) : Prop := ∀ f, e ≠ .failure (.fault f)

theorem noFault_causes (chain : List String) : NoFault (.causes chain) := by
  intro f h
  cases h

theorem noFault_compile (d : Diagnostic) : NoFault (.failure (.compile d)) := by
  intro f h
  cases h

/-- Reading a source text does not fail by a fault. -/
theorem readSource_meets (input : Input) :
    Meets (readSource input) (fun _ => True) NoFault := by
  have hdecode (bytes : List UInt8) : Meets (decode bytes) (fun _ => True) NoFault := by
    unfold decode
    split
    next => exact .pure trivial
    next => exact .throw (noFault_causes _)
  cases input with
  | inline text => exact .pure trivial
  | standard => exact .bind (.perform _) fun bytes _ => hdecode bytes
  | file p =>
      refine .bind (.perform _) fun result _ => ?_
      exact .bind (.require result noFault_causes) fun bytes _ => hdecode bytes

/-- What is loaded from an input other than a chunk file has been compiled. -/
theorem load_meets {input : Input} (h : input.chunkFile? = none) (options : Compiler.Options)
    (time : Bool) :
    Meets (load input options time)
      (fun c => ∃ text, (Compiler.compile options text).result = .ok c) NoFault := by
  unfold load
  rw [h]
  refine .bind ((readSource_meets input).within noFault_causes) fun text _ => ?_
  refine .bind (.perform _) fun start _ => ?_
  refine .bind (.perform _) fun _ _ => ?_
  cases hc : (Compiler.compile options text).result with
  | ok c =>
      cases time with
      | false => exact .pure ⟨text, hc⟩
      | true =>
          refine .bind (.perform _) fun stop _ => ?_
          exact .bind (.perform _) fun _ _ => .pure ⟨text, hc⟩
  | error d =>
      cases time with
      | false => exact .throw (noFault_compile d)
      | true =>
          refine .bind (.perform _) fun stop _ => ?_
          exact .bind (.perform _) fun _ _ => .throw (noFault_compile d)

/-- Running a source text does not fail by a fault. -/
theorem run_meets {t : RunTask} (h : t.input.chunkFile? = none) :
    Meets (run t) (fun _ => True) NoFault := by
  unfold run
  refine .bind (load_meets h _ _) fun c hc => ?_
  obtain ⟨text, hc⟩ := hc
  refine .bind (.perform _) fun start _ => ?_
  have hrun : Meets (runChunk c { trace := t.trace }) (fun _ => True) NoFault := by
    have houtcome : ∃ v, (Machine.run c { trace := t.trace }).outcome = .ok (some v) :=
      exists_outcome_of_compile (Nat.le_refl 256) hc
    obtain ⟨v, hv⟩ := houtcome
    unfold runChunk
    refine .bind (.perform _) fun _ _ => ?_
    rw [hv]
    exact .pure trivial
  refine .bind hrun fun result _ => ?_
  refine .bind (.perform _) fun stop _ => ?_
  have hsay : Meets (sayValue result) (fun _ => True) NoFault := by
    cases result with
    | none => exact .pure trivial
    | some v => exact .perform _
  refine .bind hsay fun _ _ => ?_
  split
  next => exact .perform _
  next => exact .pure trivial

end Action

/-! ## Exit codes -/

/-- The exit code of a command that has ended. -/
def exitCodeOf : Except Trouble Unit → UInt32
  | .ok () => 0
  | .error (.failure f) => f.exitCode
  | .error (.causes _) => 1

/-- Carrying out a command adds to its action only what is told of trouble. -/
theorem run_execute (c : Command) (w : World) :
    ∃ events, StateT.run (execute c : StateM World UInt32) w =
      (exitCodeOf (Action.result (Action.ofCommand c) w).1,
        (Action.result (Action.ofCommand c) w).2.write events) := by
  unfold execute Action.result
  rw [StateT.run_bind]
  generalize StateT.run (ExceptT.run (Action.ofCommand c : Action (StateM World) Unit)) w = r
  rcases r with ⟨(f | chain) | u, w'⟩
  · exact ⟨_, congrArg (Prod.mk _) (w'.note_eq_write _)⟩
  · exact ⟨_, congrArg (Prod.mk _) (w'.note_eq_write _)⟩
  · exact ⟨[], congrArg (Prod.mk _) w'.write_nil.symm⟩

/-- The exit code of a command is that of what its action came to. -/
theorem exitCode_execute (c : Command) (w : World) :
    (StateT.run (execute c : StateM World UInt32) w).1 =
      exitCodeOf (Action.result (Action.ofCommand c) w).1 := by
  obtain ⟨events, hrun⟩ := run_execute c w
  rw [hrun]

/-- Only a fault has the exit code of a fault. -/
theorem exitCodeOf_ne_of_meets {act : Action (StateM World) Unit}
    (h : act.Meets (fun _ => True) Action.NoFault) (w : World) :
    exitCodeOf (act.result w).1 ≠ 70 := by
  have hw := h w
  revert hw
  rcases (act.result w).1 with ((d | f) | chain) | u <;> intro hw
  · exact (by decide : (65 : UInt32) ≠ 70)
  · exact absurd rfl (hw f)
  · exact (by decide : (1 : UInt32) ≠ 70)
  · exact (by decide : (0 : UInt32) ≠ 70)

/-- A session for a command is that command, after warnings. -/
theorem exists_exitCode_session {args : List String} {settings : Command.Settings} {c : Command}
    (h : Command.readInvocation args = .ok (.command settings c)) (w : World)
    (environment : Option String) :
    ∃ w', (Program.session w environment args).exitCode =
      exitCodeOf (Action.result (Action.ofCommand c) w').1 := by
  have hsession : (Program.session w environment args).exitCode =
      (StateT.run (Program.perform environment (Command.readInvocation args) :
        StateM World UInt32) { w with events := #[] }).1 := rfl
  rw [hsession, h]
  exact ⟨_, exitCode_execute c _⟩

/-- An expression that compiles has a value, if the machine may hold as many
values as the compiler may open levels.  The program keeps to this, and so a run
of a source text never has the exit code of a fault. -/
theorem compiled_code_never_faults :
    (∀ (options : Compiler.Options) (limits : Machine.Options) (text : String),
      options.nestingLimit ≤ limits.stackLimit →
      (∃ d, (evaluate options limits text).outcome = .error (.compile d)) ∨
        ∃ v, (evaluate options limits text).outcome = .ok (some v)) ∧
    ∀ (w : World) (environment : Option String) (args : List String)
      (settings : Command.Settings) (t : RunTask),
      Command.readInvocation args = .ok (.command settings (.run t)) →
      t.input.chunkFile? = none →
      (Program.session w environment args).exitCode ≠ 70 := by
  refine ⟨fun options limits text h => evaluate_cases h text, ?_⟩
  intro w environment args settings t hargs hinput
  obtain ⟨w', hw'⟩ := exists_exitCode_session hargs w environment
  rw [hw']
  exact exitCodeOf_ne_of_meets (Action.run_meets hinput) w'

theorem compiled_code_never_faults_by_default :
    ((∃ d, (evaluate {} {} "1 / 0").outcome = .error (.compile d)) ∨
      ∃ v, (evaluate {} {} "1 / 0").outcome = .ok (some v)) ∧
    (Program.session {} none ["run", "-e", "1 / 0"]).exitCode ≠ 70 :=
  ⟨compiled_code_never_faults.1 {} {} "1 / 0" (Nat.le_refl 256),
    compiled_code_never_faults.2 {} none ["run", "-e", "1 / 0"] {} { input := .inline "1 / 0" }
      (by decide +kernel) rfl⟩

end Abacus
