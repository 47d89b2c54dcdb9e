import Abacus.Proofs.Boundaries
import Abacus.Proofs.Sharing

/-!
# Runs in step

Two runs of the same code that begin alike go on alike, until something in which they
differ makes a difference.  This module compares runs with different bounds on the stack,
and runs with different numbers in the pool.

*Bounds.*  A larger bound makes a difference only to a run that adds a value to a full
stack.  An operator and a negation take values away before they push one, so the first
difference is an overflow at a load (`Machine.step_cases_of_le`).  Up to that load the two runs
go through the same moments, and the run with the larger bound goes on from there
(`Machine.exec_of_le`).

*Numbers.*  The machine never looks at a number.  Whether an instruction fails, and how
high the stack is behind it, depends on how high the stack was (`Machine.alike_step`).
What is left of a run when the numbers are taken away is therefore the same for all pools
of one size (`Machine.shape_exec`).

Both comparisons follow the division of the code into instructions in order and a tail
that begins with a flaw.  A flaw ends every run in the same way.
-/

namespace Abacus

open Instruction

/-! ## Where a run ends -/

/-- The offset of the instruction at which a fault was found.  Behind the end of the code
there is none. -/
def Fault.offset? : Fault → Option Nat
  | .stackUnderflow offset => some offset
  | .stackOverflow offset _ => some offset
  | .unknownOpcode _ offset => some offset
  | .missingOperand offset => some offset
  | .badConstant _ offset => some offset
  | .ranPastEnd => none

theorem Flaw.offset?_fault (f : Flaw) (offset : Nat) : (f.fault offset).offset? = some offset := by
  cases f <;> rfl

namespace Machine

variable {pool : Array Value} {limit : Nat}

/-- A run keeps the moments it went through. -/
theorem prefix_moments_exec (pool : Array Value) (limit : Nat) (code : List UInt8) (offset : Nat)
    (stack : List Value) (moments : Array Moment) :
    moments.toList <+: (exec pool limit code offset stack moments).moments.toList := by
  have hpush (moments : Array Moment) (m : Moment) :
      moments.toList <+: (moments.push m).toList := by
    rw [Array.toList_push]
    exact List.prefix_append _ _
  fun_induction exec pool limit code offset stack moments
  case case1 => exact List.prefix_refl _
  -- a load, an operator and a negation that went well: the run goes on
  case case6 ih => exact (hpush _ _).trans ih
  case case8 ih => exact (hpush _ _).trans ih
  case case10 ih => exact (hpush _ _).trans ih
  all_goals exact hpush _ _

/-- A run goes through the moment before every instruction that it comes to. -/
theorem push_prefix_moments_exec {i : Instruction} (hi : i.Within pool.size) (rest : List UInt8)
    (offset : Nat) (stack : List Value) (moments : Array Moment) :
    (moments.push ⟨offset, stack⟩).toList <+:
      (exec pool limit (i.bytes ++ rest) offset stack moments).moments.toList := by
  obtain ⟨op, hop⟩ := hi.exists_operation
  rw [exec_bytes_append offset hop]
  cases step limit offset stack op with
  | ok stack' => exact prefix_moments_exec ..
  | error outcome => exact List.prefix_refl _

/-- A run does not fail before the place where it begins. -/
theorem le_of_exec_error {code : List UInt8} {offset : Nat} {stack : List Value}
    {moments : Array Moment} {f : Fault} {o : Nat}
    (h : (exec pool limit code offset stack moments).outcome = .error f)
    (ho : f.offset? = some o) : offset ≤ o := by
  obtain ⟨is, tail, hwithin, rfl, htail⟩ := exists_split pool.size code
  rcases exec_encode_append limit hwithin tail offset stack moments with
    ⟨stack', moments', hrun⟩ | ⟨m, -, hmem, hends⟩
  · rw [hrun] at h
    rcases htail with rfl | ⟨g, hg⟩
    · rw [exec] at h
      cases h
      cases ho
    · rw [exec_of_flaw _ hg] at h
      cases h
      rw [Flaw.offset?_fault] at ho
      cases ho
      exact Nat.le_add_right _ _
  · rw [h] at hends
    cases hends with
    | underflow =>
        cases ho
        exact le_of_mem_starts hmem
    | overflow =>
        cases ho
        exact le_of_mem_starts hmem

/-! ## Bounds -/

/-- On a stack within a bound, an operation comes to the same with a larger bound: it goes
well, or it ends the run and not with an overflow.  The exception is a load that finds the
stack full. -/
theorem step_cases_of_le {limit' : Nat} (h : limit ≤ limit') (offset : Nat) {stack : List Value}
    (hstack : stack.length ≤ limit) (op : Operation) :
    (∃ stack', stack'.length ≤ limit ∧ step limit offset stack op = .ok stack' ∧
      step limit' offset stack op = .ok stack') ∨
    (∃ outcome, (∀ o bound, outcome ≠ .error (.stackOverflow o bound)) ∧
      step limit offset stack op = .error outcome ∧
      step limit' offset stack op = .error outcome) ∨
    (∃ v, op = .load v) ∧ stack.length = limit ∧
      step limit offset stack op = .error (.error (.stackOverflow offset limit)) := by
  have hunderflow (o bound : Nat) :
      (.error (.stackUnderflow offset) : Except Fault (Option Value)) ≠
        .error (.stackOverflow o bound) := by
    rintro ⟨⟩
  cases op with
  | ret =>
      refine .inr (.inl ⟨.ok stack.head?, ?_, rfl, rfl⟩)
      rintro o bound ⟨⟩
  | load v =>
      rcases Nat.lt_or_eq_of_le hstack with hroom | hfull
      · exact .inl ⟨v :: stack, hroom, step_load_of_lt offset v hroom,
          step_load_of_lt offset v (Nat.lt_of_lt_of_le hroom h)⟩
      · have hnot : ¬ stack.length < limit := Nat.not_lt.mpr (Nat.le_of_eq hfull.symm)
        exact .inr (.inr ⟨⟨v, rfl⟩, hfull, step_load_of_not_lt offset v hnot⟩)
  | operator o =>
      rcases stack with _ | ⟨b, _ | ⟨a, stack⟩⟩
      · exact .inr (.inl ⟨_, hunderflow, rfl, rfl⟩)
      · exact .inr (.inl ⟨_, hunderflow, rfl, rfl⟩)
      · exact .inl ⟨o.apply a b :: stack, Nat.le_of_succ_le hstack,
          step_operator_of_le offset o a b hstack,
          step_operator_of_le offset o a b (Nat.le_trans hstack h)⟩
  | negate =>
      rcases stack with _ | ⟨a, stack⟩
      · exact .inr (.inl ⟨_, hunderflow, rfl, rfl⟩)
      · exact .inl ⟨-a :: stack, hstack, step_negate_of_le offset a hstack,
          step_negate_of_le offset a (Nat.le_trans hstack h)⟩

/-- A larger bound makes no difference to a run without an overflow.  A run with an overflow
ends at a load that finds the stack full, and the run with the larger bound comes to that
load with the same stack. -/
theorem exec_of_le {limit' : Nat} (h : limit ≤ limit') {is : List Instruction}
    (hwithin : ∀ i ∈ is, i.Within pool.size) {tail : List UInt8}
    (htail : tail = [] ∨ ∃ f, Flaw.At pool.size tail f) (offset : Nat) {stack : List Value}
    (hstack : stack.length ≤ limit) (moments : Array Moment) :
    (exec pool limit' (encode is ++ tail) offset stack moments =
        exec pool limit (encode is ++ tail) offset stack moments ∧
      ∀ o bound, (exec pool limit (encode is ++ tail) offset stack moments).outcome ≠
        .error (.stackOverflow o bound)) ∨
    ∃ js index ks o full passed, is = js ++ .load index :: ks ∧ o = offset + (encode js).length ∧
      full.length = limit ∧
      exec pool limit (encode is ++ tail) offset stack moments =
        ⟨passed.push ⟨o, full⟩, .error (.stackOverflow o limit)⟩ ∧
      exec pool limit' (encode is ++ tail) offset stack moments =
        exec pool limit' (encode (.load index :: ks) ++ tail) o full passed := by
  induction is generalizing offset stack moments with
  | nil =>
      rw [encode_nil, List.nil_append]
      rcases htail with rfl | ⟨f, hf⟩
      · exact .inl ⟨rfl, nofun⟩
      · rw [exec_of_flaw _ hf, exec_of_flaw _ hf]
        exact .inl ⟨rfl, by cases f <;> nofun⟩
  | cons i is ih =>
      obtain ⟨hi, his⟩ := List.forall_mem_cons.mp hwithin
      obtain ⟨op, hop⟩ := hi.exists_operation
      have hrun (limit : Nat) := @exec_bytes_append pool limit offset i op hop
        (encode is ++ tail) stack moments
      rw [encode_cons, List.append_assoc]
      -- both runs take this step alike, or the smaller bound ends its run at a load
      rcases step_cases_of_le h offset hstack op with
        ⟨stack', hstack', hs, hs'⟩ | ⟨outcome, hno, hs, hs'⟩ | ⟨⟨v, rfl⟩, hfull, hs⟩
      · rw [hrun, hrun, hs, hs', width_of_operation? hop]
        rcases ih his (offset + i.bytes.length) hstack' (moments.push ⟨offset, stack⟩) with
          hsame | ⟨js, index, ks, o, full, passed, rfl, rfl, hlength, hsmall, hlarge⟩
        · exact .inl hsame
        · refine .inr ⟨i :: js, index, ks, _, full, passed, rfl, ?_, hlength, hsmall, hlarge⟩
          rw [encode_cons, List.length_append, Nat.add_assoc]
      · rw [hrun, hrun, hs, hs']
        exact .inl ⟨rfl, hno⟩
      · cases i with
        | load index =>
            refine .inr ⟨[], index, is, offset, stack, moments, rfl, rfl, hfull, ?_, ?_⟩
            · rw [hrun, hs]
            · rw [encode_cons, List.append_assoc]
        | ret => cases hop
        | operator o => cases hop
        | negate => cases hop

/-- A larger bound on the stack can only remove an overflow.  A run that ends in any other
way is not changed.  A run that ends with an overflow ends at a load that finds the stack
full, and a run with a larger bound goes the same way up to that load and does not fail
before it. -/
theorem larger_bound_only_removes_overflow (c : Chunk) {limits limits' : Options}
    (h : limits.stackLimit ≤ limits'.stackLimit) :
    ((∀ o bound, (run c limits).outcome ≠ .error (.stackOverflow o bound)) →
      run c limits' = run c limits) ∧
    ∀ o bound, (run c limits).outcome = .error (.stackOverflow o bound) →
      bound = limits.stackLimit ∧
      o ∈ c.listed ∧ c.code[o]? = some Opcode.constant.byte ∧
      (∃ full, (run c limits).moments.back? = some ⟨o, full⟩ ∧ full.length = bound) ∧
      (run c limits).moments.toList <+: (run c limits').moments.toList ∧
      ∀ f o', (run c limits').outcome = .error f → f.offset? = some o' → o ≤ o' := by
  obtain ⟨is, tail, hwithin, hcode, htail⟩ := exists_split c.consts.size c.code.toList
  have hempty : ([] : List Value).length ≤ limits.stackLimit := Nat.zero_le _
  have hexec := exec_of_le h hwithin htail 0 hempty #[]
  rw [← hcode] at hexec
  change (run c limits' = run c limits ∧ _) ∨ _ at hexec
  rcases hexec with
    ⟨hsame, hno⟩ | ⟨js, index, ks, o, full, passed, rfl, ho, hfull, hsmall, hlarge⟩
  · exact ⟨fun _ => hsame, fun o bound hover => absurd hover (hno o bound)⟩
  · change run c limits = _ at hsmall
    change run c limits' = _ at hlarge
    rw [Nat.zero_add] at ho
    have hload : c.code.toList.drop o = encode (.load index :: ks) ++ tail := by
      rw [hcode, encode_append, List.append_assoc, ho, List.drop_left]
    refine ⟨fun hno => absurd (congrArg Run.outcome hsmall) (hno _ _), ?_⟩
    rw [hsmall]
    rintro _ _ ⟨rfl⟩
    refine ⟨rfl, ?_, ?_, ⟨full, Array.back?_push .., hfull⟩, ?_, ?_⟩
    · have hc : c.Divides (js ++ .load index :: ks) tail := ⟨hwithin, hcode⟩
      rw [hc.listed_eq, starts_append, ho, Nat.zero_add]
      exact List.mem_append_left _ (List.mem_append_right _ List.mem_cons_self)
    · exact Chunk.getElem?_of_drop hload 0
    · have hi : (load index).Within c.consts.size := hwithin _ (by simp)
      rw [hlarge, encode_cons, List.append_assoc]
      exact push_prefix_moments_exec hi ..
    · intro f o' hf
      rw [hlarge] at hf
      exact le_of_exec_error hf

/-- Two loads and a flaw.  A stack for one value is full at the second load, and a stack
for two values is not. -/
theorem larger_bound_only_removes_overflow_at_second_load :
    let c : Chunk := { code := #[1, 0, 1, 0, 9], lines := #[1, 1, 1, 1, 1], consts := #[⟨0⟩] }
    (run c { stackLimit := 1 }).outcome = .error (.stackOverflow 2 1) ∧
      2 ∈ c.listed ∧ c.code[2]? = some Opcode.constant.byte ∧
      (run c { stackLimit := 2 }).outcome = .error (.unknownOpcode 9 4) ∧
      run c { stackLimit := 3 } = run c { stackLimit := 2 } := by
  intro c
  have hsmall : (run c { stackLimit := 1 }).outcome = .error (.stackOverflow 2 1) := rfl
  have hlarge : (run c { stackLimit := 2 }).outcome = .error (.unknownOpcode 9 4) := rfl
  have hle : (1 : Nat) ≤ 2 := by decide
  have hle' : (2 : Nat) ≤ 3 := by decide
  obtain ⟨-, hlisted, hload, -⟩ :=
    (@larger_bound_only_removes_overflow c { stackLimit := 1 } { stackLimit := 2 } hle).2 2 1 hsmall
  have hsame :=
    (@larger_bound_only_removes_overflow c { stackLimit := 2 } { stackLimit := 3 } hle').1
  exact ⟨hsmall, hlisted, hload, hlarge, hsame (by rw [hlarge]; nofun)⟩

/-! ## Numbers -/

/-- What is left of a moment when the numbers are taken away: where the instruction began
and how high the stack was. -/
def Moment.shape (m : Moment) : Nat × Nat := (m.offset, m.stack.length)

/-- What is left of a run when the numbers are taken away: the way it went, and whether it
ended with a value, with none, or with which fault. -/
def Run.shape (r : Run) : List (Nat × Nat) × Except Fault Bool :=
  (r.moments.toList.map Moment.shape, r.outcome.map Option.isSome)

theorem map_shape_push {moments moments' : Array Moment}
    (hmoments : moments.toList.map Moment.shape = moments'.toList.map Moment.shape)
    {stack stack' : List Value} (h : stack.length = stack'.length) (offset : Nat) :
    (moments.push ⟨offset, stack⟩).toList.map Moment.shape =
      (moments'.push ⟨offset, stack'⟩).toList.map Moment.shape := by
  simp [hmoments, Moment.shape, h]

/-- Two results of an operation differ in numbers only. -/
inductive Alike : Except (Except Fault (Option Value)) (List Value) →
    Except (Except Fault (Option Value)) (List Value) → Prop where
  | goesOn {stack stack' : List Value} :
      stack.length = stack'.length → Alike (.ok stack) (.ok stack')
  | ends {outcome outcome' : Except Fault (Option Value)} :
      outcome.map Option.isSome = outcome'.map Option.isSome →
      Alike (.error outcome) (.error outcome')

theorem alike_load {stack stack' : List Value} (h : stack.length = stack'.length)
    (limit offset : Nat) (v v' : Value) :
    Alike (step limit offset stack (.load v)) (step limit offset stack' (.load v')) := by
  by_cases hroom : stack.length < limit
  · rw [step_load_of_lt _ _ hroom, step_load_of_lt _ _ (h ▸ hroom)]
    exact .goesOn (congrArg (· + 1) h)
  · rw [step_load_of_not_lt _ _ hroom, step_load_of_not_lt _ _ (h ▸ hroom)]
    exact .ends rfl

/-- What an instruction does to stacks of one height differs in numbers only. -/
theorem alike_step {pool' : Array Value} {i : Instruction} {op op' : Operation}
    (hop : i.operation? pool = some op) (hop' : i.operation? pool' = some op')
    (limit offset : Nat) {stack stack' : List Value} (h : stack.length = stack'.length) :
    Alike (step limit offset stack op) (step limit offset stack' op') := by
  cases i with
  | ret =>
      cases hop
      cases hop'
      refine .ends (congrArg Except.ok ?_)
      match stack, stack', h with
      | [], [], _ => rfl
      | _ :: _, _ :: _, _ => rfl
  | load index =>
      obtain ⟨v, -, rfl⟩ := Option.map_eq_some_iff.mp hop
      obtain ⟨v', -, rfl⟩ := Option.map_eq_some_iff.mp hop'
      exact alike_load h limit offset v v'
  | operator o =>
      cases hop
      cases hop'
      match stack, stack', h with
      | [], [], _ => exact .ends rfl
      | [_], [_], _ => exact .ends rfl
      | b :: a :: stack, b' :: a' :: stack', h =>
          have hbelow : stack.length = stack'.length := Nat.succ.inj (Nat.succ.inj h)
          exact alike_load hbelow limit offset (o.apply a b) (o.apply a' b')
  | negate =>
      cases hop
      cases hop'
      match stack, stack', h with
      | [], [], _ => exact .ends rfl
      | a :: stack, a' :: stack', h => exact alike_load (Nat.succ.inj h) limit offset (-a) (-a')

/-- Runs over pools of one size, from stacks of one height, differ in numbers only. -/
theorem shape_exec {pool' : Array Value} (hsize : pool.size = pool'.size) (limit : Nat)
    (code : List UInt8) (offset : Nat) {stack stack' : List Value}
    (h : stack.length = stack'.length) {moments moments' : Array Moment}
    (hmoments : moments.toList.map Moment.shape = moments'.toList.map Moment.shape) :
    (exec pool limit code offset stack moments).shape =
      (exec pool' limit code offset stack' moments').shape := by
  obtain ⟨is, tail, hwithin, rfl, htail⟩ := exists_split pool.size code
  induction is generalizing offset stack stack' moments moments' with
  | nil =>
      rw [encode_nil, List.nil_append]
      rcases htail with rfl | ⟨f, hf⟩
      · exact Prod.ext hmoments rfl
      · rw [exec_of_flaw _ hf, exec_of_flaw _ (hsize ▸ hf)]
        exact Prod.ext (map_shape_push hmoments h offset) rfl
  | cons i is ih =>
      obtain ⟨hi, his⟩ := List.forall_mem_cons.mp hwithin
      obtain ⟨op, hop⟩ := hi.exists_operation
      rw [hsize] at hi
      obtain ⟨op', hop'⟩ := hi.exists_operation
      rw [encode_cons, List.append_assoc, exec_bytes_append offset hop,
        exec_bytes_append offset hop', width_of_operation? hop, width_of_operation? hop']
      have hpushed := map_shape_push hmoments h offset
      have halike := alike_step hop hop' limit offset h
      generalize step limit offset stack op = r at halike
      generalize step limit offset stack' op' = r' at halike
      cases halike with
      | goesOn hheight => exact ih _ hheight hpushed his
      | ends houtcome => exact Prod.ext hpushed houtcome

/-- Whether a run fails, how and where, does not depend on the numbers in the pool, and
neither does it depend on them whether there is a value at the end. -/
theorem failure_does_not_depend_on_numbers {c c' : Chunk} (hcode : c.code = c'.code)
    (hsize : c.consts.size = c'.consts.size) (limits : Options) :
    (∃ f, (run c limits).outcome = .error f ∧ (run c' limits).outcome = .error f) ∨
    ∃ v v', (run c limits).outcome = .ok v ∧ (run c' limits).outcome = .ok v' ∧
      (v.isSome ↔ v'.isSome) := by
  have hshape : (run c limits).shape = (run c' limits).shape := by
    rw [run, run, hcode]
    exact shape_exec hsize _ _ _ rfl rfl
  have houtcome := congrArg Prod.snd hshape
  change (run c limits).outcome.map _ = (run c' limits).outcome.map _ at houtcome
  generalize (run c limits).outcome = r at houtcome ⊢
  generalize (run c' limits).outcome = r' at houtcome ⊢
  cases r with
  | error f =>
      cases r' with
      | error f' =>
          cases houtcome
          exact .inl ⟨f, rfl, rfl⟩
      | ok v' => cases houtcome
  | ok v =>
      cases r' with
      | error f' => cases houtcome
      | ok v' =>
          have hsome : v.isSome = v'.isSome := Except.ok.inj houtcome
          exact .inr ⟨v, v', rfl, rfl, Bool.eq_iff_iff.mp hsome⟩

/-- A quotient and a sum without a second operand.  Zeros do not go further than an
infinite and an undefined number. -/
theorem failure_does_not_depend_on_numbers_at_missing_operand :
    let c : Chunk := { code := #[1, 0, 1, 1, 5, 2], consts := #[⟨0⟩, ⟨0⟩] }
    let c' : Chunk := { code := #[1, 0, 1, 1, 5, 2],
                        consts := #[⟨0x7FF0000000000000⟩, ⟨0xFFF8000000000007⟩] }
    c.code = c'.code ∧ c.consts.size = c'.consts.size ∧
      (run c {}).outcome = .error (.stackUnderflow 5) ∧
      (run c' {}).outcome = .error (.stackUnderflow 5) := by
  intro c c'
  have hfault : (run c {}).outcome = .error (.stackUnderflow 5) := rfl
  rcases @failure_does_not_depend_on_numbers c c' rfl rfl {} with
    ⟨f, hf, hf'⟩ | ⟨v, v', hv, -, -⟩
  · cases hfault.symm.trans hf
    exact ⟨rfl, rfl, hfault, hf'⟩
  · cases hfault.symm.trans hv

end Machine

end Abacus
