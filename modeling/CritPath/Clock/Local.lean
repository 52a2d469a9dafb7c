import CritPath.Clock.Ipc
import CritPath.Clock.SyncClock

/-!
# Calls on the own clock

What a thread does between the steps that a model is about: state changes of
its own clock and merges into it. Where a merge reads a sync clock or a buffer
outside of the model, the label carries its content. No such call makes a value
of `CLOCK_USEFUL` smaller (`le_elapsed_exec`).
-/

namespace CritPath

inductive LocalOp where
  | enterState (cs : ClockState)
  | exitState
  | setState (cs : ClockState)
  | ompHAfter (s : SyncClock)
  | mpiHappensAfter (uc : IpcData)

namespace ThreadClock

/-- The call `o` at time `t` while the tool is running. -/
def exec (t : ℚ) (o : LocalOp) (c : ThreadClock) : ThreadClock :=
  match o with
  | .enterState cs => c.enterState true t cs t
  | .exitState => c.exitState true t t
  | .setState cs => c.setState true t cs t
  | .ompHAfter s => (s.ompHAfter true c).2
  | .mpiHappensAfter uc => c.mpiHappensAfter true uc

theorem le_get_mpiHappensAfter (c : ThreadClock) (uc : IpcData) (x : Comp) :
    (c.clocks .useful).get x ≤ ((c.mpiHappensAfter true uc).clocks .useful).get x := by
  cases x with
  | thread => exact le_refl _
  | proc => exact le_refl _
  | critical =>
    show _ ≤ updateMaximum (c.clocks .useful).critical uc.useful
    rw [updateMaximum_eq]
    exact le_max_left _ _

theorem le_elapsed_exec (c : ThreadClock) (o : LocalOp) {x : Comp} (hx : x ≠ .thread) (t : ℚ) :
    c.elapsed .useful x t ≤ (c.exec t o).elapsed .useful x t := by
  cases o with
  | enterState cs => exact (elapsed_enterState ..).ge
  | exitState => exact (elapsed_exitState ..).ge
  | setState cs => exact (elapsed_setState ..).ge
  | ompHAfter s => exact SyncClock.le_elapsed_ompHAfter (by decide) hx t
  | mpiHappensAfter uc =>
    have := le_get_mpiHappensAfter c uc x
    simp only [exec, elapsed, getState_mpiHappensAfter]
    linarith

end ThreadClock

end CritPath
