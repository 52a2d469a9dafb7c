import Mathlib.Algebra.Order.Ring.Rat
import Mathlib.Order.Bounds.Basic
import Mathlib.Tactic.Linarith
import Mathlib.Tactic.Ring

/-!
# Clock states and the three-component clocks

`ClockState` is the state a thread is in, `ClockType` names the clocks kept for
it, and the table `State` says which clocks run in which state. A clock has
three components (`CpClocks`): the thread's own time, the longest path inside
the process and the longest path over all processes. Values are exact
rationals.

A running clock is stored as its accumulated time minus the time it was
started; `runTerm cs i t` is what has to be added back at time `t`.
-/

namespace CritPath

/-- `enum ClockState` (the sentinels `STATE_UNINIT` and `STATE_LAST` are never a state). -/
inductive ClockState where
  | init
  | none
  | useful
  | mpi
  | omp
  | gpu
  deriving DecidableEq, Repr

inductive ClockType where
  | useful
  | ompi
  | oomp
  | ogpu
  deriving DecidableEq, Repr

/-- `State[cs][i]`: clock `i` runs in state `cs`. -/
def State : ClockState → ClockType → Bool
  | .init, _ => false
  | .none, .useful => false
  | .none, _ => true
  | .useful, _ => true
  | .mpi, .useful | .mpi, .ompi => false
  | .mpi, _ => true
  | .omp, .useful | .omp, .oomp => false
  | .omp, _ => true
  | .gpu, .useful | .gpu, .ogpu => false
  | .gpu, _ => true

/-- The part of the elapsed value that a clock running in `cs` leaves out at time `t`. -/
def runTerm (cs : ClockState) (i : ClockType) (t : ℚ) : ℚ := if State cs i then t else 0

@[simp] theorem runTerm_init (i : ClockType) (t : ℚ) : runTerm .init i t = 0 := rfl

@[simp] theorem runTerm_omp_useful (t : ℚ) : runTerm .omp .useful t = 0 := rfl

@[simp] theorem runTerm_mpi_useful (t : ℚ) : runTerm .mpi .useful t = 0 := rfl

theorem runTerm_sub (cs : ClockState) (i : ClockType) (s t : ℚ) :
    runTerm cs i (t - s) = runTerm cs i t - runTerm cs i s := by
  unfold runTerm; split <;> simp

theorem runTerm_nonneg (cs : ClockState) (i : ClockType) {t : ℚ} (h : 0 ≤ t) :
    0 ≤ runTerm cs i t := by
  unfold runTerm; split
  · exact h
  · exact le_refl 0

theorem runTerm_mono (cs : ClockState) (i : ClockType) {s t : ℚ} (h : s ≤ t) :
    runTerm cs i s ≤ runTerm cs i t := by
  have := runTerm_nonneg cs i (sub_nonneg.mpr h)
  rw [runTerm_sub] at this
  linarith

/-- `update_maximum` run by one thread: `prev < value` decides. -/
def updateMaximum (maximum value : ℚ) : ℚ := if maximum < value then value else maximum

@[simp] theorem updateMaximum_eq (a b : ℚ) : updateMaximum a b = max a b := by
  unfold updateMaximum
  split
  · rename_i h; exact (max_eq_right h.le).symm
  · rename_i h; exact (max_eq_left (not_lt.mp h)).symm

@[ext] structure CpClocks where
  thread : ℚ := 0
  proc : ℚ := 0
  critical : ℚ := 0
  deriving DecidableEq, Repr

/-- The components of a clock. -/
inductive Comp where
  | thread
  | proc
  | critical
  deriving DecidableEq, Repr

namespace CpClocks

def get (c : CpClocks) : Comp → ℚ
  | .thread => c.thread
  | .proc => c.proc
  | .critical => c.critical

def set (c : CpClocks) (v : ℚ) : Comp → CpClocks
  | .thread => { c with thread := v }
  | .proc => { c with proc := v }
  | .critical => { c with critical := v }

theorem get_set (c : CpClocks) (v : ℚ) (x y : Comp) :
    (c.set v x).get y = if y = x then v else c.get y := by
  cases x <;> cases y <;> rfl

def reset (time : ℚ) : CpClocks := ⟨time, time, time⟩

def addAll (c : CpClocks) (time : ℚ) : CpClocks :=
  ⟨c.thread + time, c.proc + time, c.critical + time⟩

/-- `cpClocks::OmpHBefore`: `c` takes the maximum with the thread's clock `cc`. -/
def ompHBefore (c cc : CpClocks) : CpClocks :=
  { c with proc := updateMaximum c.proc cc.proc, critical := updateMaximum c.critical cc.critical }

/-- `cpClocks::OmpHAfter`: the thread's clock `cc` takes the maximum with `c`. -/
def ompHAfter (c cc : CpClocks) : CpClocks :=
  { cc with proc := updateMaximum cc.proc c.proc, critical := updateMaximum cc.critical c.critical }

@[simp] theorem get_reset (t : ℚ) (x : Comp) : (reset t).get x = t := by cases x <;> rfl

@[simp] theorem get_addAll (c : CpClocks) (t : ℚ) (x : Comp) :
    (c.addAll t).get x = c.get x + t := by cases x <;> rfl

@[simp] theorem addAll_zero (c : CpClocks) : c.addAll 0 = c := by
  ext <;> simp [addAll]

@[simp] theorem ompHAfter_thread (c cc : CpClocks) : (c.ompHAfter cc).thread = cc.thread := rfl

/-- Arcs carry every component but `thread`. -/
theorem get_ompHBefore (c cc : CpClocks) {x : Comp} (hx : x ≠ .thread) :
    (c.ompHBefore cc).get x = max (c.get x) (cc.get x) := by
  cases x
  · exact absurd rfl hx
  · exact updateMaximum_eq _ _
  · exact updateMaximum_eq _ _

theorem get_ompHAfter (c cc : CpClocks) {x : Comp} (hx : x ≠ .thread) :
    (c.ompHAfter cc).get x = max (cc.get x) (c.get x) := by
  cases x
  · exact absurd rfl hx
  · exact updateMaximum_eq _ _
  · exact updateMaximum_eq _ _

end CpClocks

end CritPath
