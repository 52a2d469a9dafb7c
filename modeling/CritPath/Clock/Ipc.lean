import CritPath.Clock.ThreadClock

/-!
# Clock values between processes

`ipcData` is the buffer in which the critical components of three clocks travel
from process to process. `MpiHappensBefore` loads the thread's values into it
and `MpiHappensAfter` merges received values into the thread's clocks.
-/

namespace CritPath

/-- `ipcData`: `values[0]`, `values[1]` and `values[2]`. -/
@[ext] structure IpcData where
  useful : ℚ := 0
  ompi : ℚ := 0
  oomp : ℚ := 0
  deriving DecidableEq, Repr

/-- The value that belongs to a clock. -/
def IpcData.get (uc : IpcData) : ClockType → ℚ
  | .useful => uc.useful
  | .ompi => uc.ompi
  | .oomp => uc.oomp
  | .ogpu => 0

namespace ThreadClock

/-- `MpiHappensBefore`; it loads the values whether the tool is running or not. -/
def mpiHappensBefore (c : ThreadClock) : IpcData where
  useful := (c.clocks .useful).critical
  ompi := (c.clocks .ompi).critical
  oomp := (c.clocks .oomp).critical

def maxCritical (cc : CpClocks) (v : ℚ) : CpClocks :=
  { cc with critical := updateMaximum cc.critical v }

def mpiHappensAfter (running : Bool) (uc : IpcData) (c : ThreadClock) : ThreadClock :=
  if !running then c
  else
    { c with clocks := fun i =>
        match i with
        | .useful => maxCritical (c.clocks .useful) uc.useful
        | .ompi => maxCritical (c.clocks .ompi) uc.ompi
        | .oomp => maxCritical (c.clocks .oomp) uc.oomp
        | .ogpu => c.clocks .ogpu }

variable {c : ThreadClock} {uc : IpcData} {i : ClockType}

@[simp] theorem stack_mpiHappensAfter (r : Bool) : (c.mpiHappensAfter r uc).stack = c.stack := by
  unfold mpiHappensAfter; split <;> rfl

@[simp] theorem getState_mpiHappensAfter (r : Bool) :
    (c.mpiHappensAfter r uc).getState = c.getState := by
  simp [getState]

/-- Received values reach no thread component. -/
theorem thread_mpiHappensAfter (r : Bool) :
    ((c.mpiHappensAfter r uc).clocks i).thread = (c.clocks i).thread := by
  unfold mpiHappensAfter
  split
  · rfl
  · cases i <;> rfl

end ThreadClock

end CritPath
