import CritPath.Omp.StackDiscipline

/-!
# Lock operations and the state stack

A thread asks for a lock (`mutex_acquire`), and is told that it has got it
(`mutex_acquired`). A call of `omp_test_lock` that fails is reported by
`mutex_acquire` alone; so is, to a tool that does not register `nest_lock`, a
nested lock that the thread owns already. `mutex_acquire` pushes `STATE_OMP` and
`mutex_acquired` pops it, so that each of these calls leaves one state on the
stack.
-/

namespace CritPath

open Lib ClockAct

/-- How a request for a lock ends. -/
inductive LockAnswer where
  | acquired
  /-- The test of the lock has failed; there is no callback. -/
  | failed
  /-- A nested lock that the thread owns already; `nest_lock` is not registered. -/
  | owned
  deriving DecidableEq

inductive LockOp where
  | other (locks : ℕ → SyncClock)
  /-- `acquired` is the time of the second callback. -/
  | acquire (waitId : ℕ) (acquired : ℚ) (answer : LockAnswer)
  /-- Only the last release of a nested lock is reported to the tool. -/
  | release (waitId : ℕ) (last : Bool)

namespace OmpThread

variable {I G : Type}

/-- A lock operation, from user code to user code. -/
def lockStep (σ : OmpThread I G) (op : ℚ × LockOp) : OmpThread I G :=
  let t := op.1
  match op.2 with
  | .other locks => { σ with locks := locks }
  | .acquire waitId acquired answer =>
    let σ := σ.onClock (·.enterState true t .omp t)
    match answer with
    | .acquired => σ.mutexAcquired acquired waitId
    | .failed | .owned => σ
  | .release waitId last => if last then σ.mutexReleased t waitId else σ

variable (I G) in
def lockMachine : Machine (OmpThread I G) (ℚ × LockOp) where
  step := lockStep

def Restores (σ : OmpThread I G) (op : ℚ × LockOp) : Prop :=
  (σ.lockStep op).clock.stack = σ.clock.stack

end OmpThread

namespace LockOp

def unanswered : LockOp → Bool
  | .acquire _ _ answer => answer ≠ .acquired
  | _ => false

def rest (op : ℚ × LockOp) : List ClockState := if op.2.unanswered then [.omp] else []

theorem rest_eq_nil {op : ℚ × LockOp} : rest op = [] ↔ op.2.unanswered = false := by
  unfold rest
  cases op.2.unanswered <;> simp

end LockOp

namespace OmpThread

variable {I G : Type}

theorem stack_mutexAcquired (t : ℚ) (waitId : ℕ) (σ : OmpThread I G) :
    (σ.mutexAcquired t waitId).clock.stack = pop true σ.clock.stack := by
  simp [mutexAcquired, ThreadClock.stack_exitState_eq_pop]

theorem stack_mutexReleased (t : ℚ) (waitId : ℕ) (σ : OmpThread I G) :
    (σ.mutexReleased t waitId).clock.stack = σ.clock.stack := by
  simp [mutexReleased, ThreadClock.stack_exitState_eq_pop]

theorem stack_lockStep (σ : OmpThread I G) (op : ℚ × LockOp) :
    (σ.lockStep op).clock.stack = LockOp.rest op ++ σ.clock.stack := by
  obtain ⟨t, op⟩ := op
  cases op with
  | other locks => rfl
  | acquire waitId acquired answer =>
    cases answer with
    | acquired =>
      show ((σ.onClock _).mutexAcquired acquired waitId).clock.stack = σ.clock.stack
      rw [stack_mutexAcquired]
      exact congrArg (pop true) (ThreadClock.stack_enterState ..)
    | failed => exact ThreadClock.stack_enterState ..
    | owned => exact ThreadClock.stack_enterState ..
  | release waitId last =>
    cases last with
    | true => exact stack_mutexReleased t waitId σ
    | false => rfl

theorem restores_iff {σ : OmpThread I G} {op : ℚ × LockOp} :
    σ.Restores op ↔ op.2.unanswered = false := by
  rw [Restores, stack_lockStep, List.append_left_eq_self, LockOp.rest_eq_nil]

theorem stack_lockRun (σ : OmpThread I G) (ops : List (ℚ × LockOp)) :
    ((lockMachine I G).run σ ops).clock.stack =
      List.replicate (ops.countP fun op => op.2.unanswered) .omp ++ σ.clock.stack := by
  induction ops generalizing σ with
  | nil => rfl
  | cons op ops ih =>
    have hrun := (ih (σ.lockStep op)).trans (congrArg _ (stack_lockStep σ op))
    rw [Machine.run_cons]
    refine hrun.trans ?_
    rw [← List.append_assoc, List.countP_cons, LockOp.rest]
    cases op.2.unanswered with
    | false => simp
    | true => simp [List.replicate_succ']

theorem along_restores_iff {σ : OmpThread I G} {ops : List (ℚ × LockOp)} :
    (lockMachine I G).Along Restores σ ops ↔ ∀ op ∈ ops, op.2.unanswered = false := by
  induction ops generalizing σ with
  | nil => simp [Machine.Along]
  | cons op ops ih =>
    rw [List.forall_mem_cons, ← ih (σ := σ.lockStep op), ← restores_iff (σ := σ)]
    rfl

end OmpThread

/-- Along a sequence of lock operations each one returns to user code with the stack that it found
exactly if every request for a lock is answered by `mutex_acquired`. The stack grows by one state
for every other request. -/
theorem lock_operations_restore_iff {I G : Type} (σ : OmpThread I G) (ops : List (ℚ × LockOp)) :
    ((OmpThread.lockMachine I G).Along OmpThread.Restores σ ops ↔
      ∀ op ∈ ops, op.2.unanswered = false) ∧
    ((OmpThread.lockMachine I G).run σ ops).clock.stack =
      List.replicate (ops.countP fun op => op.2.unanswered) .omp ++ σ.clock.stack :=
  ⟨OmpThread.along_restores_iff, OmpThread.stack_lockRun σ ops⟩

/-- Two failed calls of `omp_test_lock` in a task. -/
theorem failed_locks_stay_on_stack :
    let σ : OmpThread ℕ ℕ := { shared := .fresh, locks := fun _ => .fresh, clock := .new }
    let σ := σ.onClock (·.enterState true 0 .useful 0)
    σ.clock.stack = [.useful, .init] ∧
      ((OmpThread.lockMachine ℕ ℕ).run σ
        [(1, .acquire 0 1 .failed), (2, .acquire 0 2 .failed)]).clock.stack =
          [.omp, .omp, .useful, .init] := by
  decide +kernel

end CritPath
