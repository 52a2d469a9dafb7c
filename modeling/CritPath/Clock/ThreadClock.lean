import CritPath.Clock.Basic

/-!
# Thread clocks

`threadClock<TimeMetric>`: the clocks of one thread and its stack of clock
states (`clock_state_stack`, top first; the location texts stored with the
states only feed the debug output). `SwitchState` starts and stops the clocks
whose entry in `State` differs between the two states, by subtracting or adding
the time. With the default argument `time == 0` the time is read from
`getTime()`, here the argument `now`.

`elapsed` is the value a clock stands for at time `t`: the stored value plus
`t` while it runs. A state change at time `t` leaves it unchanged
(`elapsed_enterState`, `elapsed_exitState`, `elapsed_setState`).
-/

namespace CritPath

/-- `threadClock<TimeMetric>`; the head of `stack` is its back. -/
structure ThreadClock where
  clocks : ClockType → CpClocks
  stack : List ClockState

namespace ThreadClock

/-- A thread clock as the constructor leaves it. -/
def new : ThreadClock := ⟨fun _ => {}, [.init]⟩

/-- `GetState`: the back of the stack. -/
def getState (c : ThreadClock) : ClockState := c.stack.headD .init

def switchState (c : ThreadClock) (oldCs newCs : ClockState) (time now : ℚ) : ThreadClock :=
  if oldCs = newCs then c
  else
    let time := if time = 0 then now else time
    { c with clocks := fun i =>
        if State oldCs i = State newCs i then c.clocks i
        else if !State oldCs i && State newCs i then (c.clocks i).addAll (-time)
        else (c.clocks i).addAll time }

/-- `enterState(time, cs)`. -/
def enterState (running : Bool) (time : ℚ) (cs : ClockState) (now : ℚ) (c : ThreadClock) :
    ThreadClock :=
  if !running then c
  else
    let c := c.switchState c.getState cs time now
    { c with stack := cs :: c.stack }

/-- `exitState(time, loc, isRunning)`. Nothing is popped in `STATE_INIT`. -/
def exitState (running : Bool) (time : ℚ) (now : ℚ) (c : ThreadClock) (isRunning : Bool := true) :
    ThreadClock :=
  if !running || !isRunning then c
  else
    let oldCs := c.getState
    if oldCs = .init then c
    else
      let c := { c with stack := c.stack.tail }
      c.switchState oldCs c.getState time now

/-- `setState(time, cs)`: replaces the top of the stack. -/
def setState (running : Bool) (time : ℚ) (cs : ClockState) (now : ℚ) (c : ThreadClock) :
    ThreadClock :=
  if !running && decide (cs ≠ .init) then c
  else
    let c := c.switchState c.getState cs time now
    { c with stack := cs :: c.stack.tail }

/-- The value clock `i` stands for at time `t`. -/
def elapsed (c : ThreadClock) (i : ClockType) (x : Comp) (t : ℚ) : ℚ :=
  (c.clocks i).get x + runTerm c.getState i t

@[simp] theorem elapsed_new (i : ClockType) (x : Comp) (t : ℚ) : new.elapsed i x t = 0 := by
  cases x <;> exact add_zero 0

@[simp] theorem stack_switchState (c : ThreadClock) (o n : ClockState) (t now : ℚ) :
    (c.switchState o n t now).stack = c.stack := by
  unfold switchState; split <;> rfl

/-- `SwitchState` in one equation: each clock takes the old state's term and gives the new one's. -/
theorem clocks_switchState (c : ThreadClock) (o n : ClockState) (t : ℚ) (i : ClockType) :
    (c.switchState o n t t).clocks i = (c.clocks i).addAll (runTerm o i t - runTerm n i t) := by
  unfold switchState runTerm
  split
  · rename_i h; subst h; simp
  · simp only [ite_self]
    cases State o i <;> cases State n i <;> simp

@[simp] theorem getState_cons (cl : ClockType → CpClocks) (cs : ClockState)
    (st : List ClockState) : (ThreadClock.mk cl (cs :: st)).getState = cs := rfl

@[simp] theorem getState_enterState (t : ℚ) (cs : ClockState) (now : ℚ) (c : ThreadClock) :
    (c.enterState true t cs now).getState = cs := rfl

@[simp] theorem stack_enterState (t : ℚ) (cs : ClockState) (now : ℚ) (c : ThreadClock) :
    (c.enterState true t cs now).stack = cs :: c.stack := by
  simp [enterState]

theorem clocks_enterState (t : ℚ) (cs : ClockState) (c : ThreadClock) (i : ClockType) :
    (c.enterState true t cs t).clocks i =
      (c.clocks i).addAll (runTerm c.getState i t - runTerm cs i t) :=
  clocks_switchState ..

theorem stack_exitState (t now : ℚ) (c : ThreadClock) :
    (c.exitState true t now).stack = if c.getState = .init then c.stack else c.stack.tail := by
  unfold exitState
  split
  · simp_all
  · simp only []; split <;> simp

theorem clocks_exitState (t : ℚ) (c : ThreadClock) (i : ClockType) :
    (c.exitState true t t).clocks i =
      (c.clocks i).addAll (runTerm c.getState i t - runTerm (c.exitState true t t).getState i t) := by
  unfold exitState
  simp only [Bool.not_true, Bool.or_self, Bool.false_eq_true, ↓reduceIte]
  split
  · simp
  · rw [clocks_switchState]; simp [getState]

@[simp] theorem getState_setState (t : ℚ) (cs : ClockState) (now : ℚ) (c : ThreadClock) :
    (c.setState true t cs now).getState = cs := rfl

theorem clocks_setState (t : ℚ) (cs : ClockState) (c : ThreadClock) (i : ClockType) :
    (c.setState true t cs t).clocks i =
      (c.clocks i).addAll (runTerm c.getState i t - runTerm cs i t) :=
  clocks_switchState ..

theorem elapsed_enterState (t : ℚ) (cs : ClockState) (c : ThreadClock) (i : ClockType) (x : Comp) :
    (c.enterState true t cs t).elapsed i x t = c.elapsed i x t := by
  simp only [elapsed, clocks_enterState, CpClocks.get_addAll, getState_enterState]; ring

theorem elapsed_exitState (t : ℚ) (c : ThreadClock) (i : ClockType) (x : Comp) :
    (c.exitState true t t).elapsed i x t = c.elapsed i x t := by
  simp only [elapsed, clocks_exitState, CpClocks.get_addAll]; ring

theorem elapsed_setState (t : ℚ) (cs : ClockState) (c : ThreadClock) (i : ClockType) (x : Comp) :
    (c.setState true t cs t).elapsed i x t = c.elapsed i x t := by
  simp only [elapsed, clocks_setState, CpClocks.get_addAll, getState_setState]; ring

theorem switchState_of_ne_zero (c : ThreadClock) (o n : ClockState) {t : ℚ} (ht : t ≠ 0) (now : ℚ) :
    c.switchState o n t now = c.switchState o n t t := by
  simp [switchState, ht]

/-- `setState(t, STATE_INIT)` works whether the tool is running or not. -/
theorem setState_init (c : ThreadClock) (r : Bool) {t : ℚ} (ht : t ≠ 0) (now : ℚ) :
    c.setState r t .init now = c.setState true t .init t := by
  cases r <;> simp [setState, switchState_of_ne_zero c _ _ ht now]

theorem elapsed_later (c : ThreadClock) (i : ClockType) (x : Comp) (s t : ℚ) :
    c.elapsed i x t = c.elapsed i x s + runTerm c.getState i (t - s) := by
  simp only [elapsed, runTerm_sub]; ring

theorem elapsed_mono (c : ThreadClock) (i : ClockType) (x : Comp) {s t : ℚ} (h : s ≤ t) :
    c.elapsed i x s ≤ c.elapsed i x t := by
  have := runTerm_mono c.getState i h
  simp only [elapsed]; linarith

theorem elapsed_of_stopped {c : ThreadClock} {i : ClockType} (h : State c.getState i = false)
    (x : Comp) (t : ℚ) : c.elapsed i x t = (c.clocks i).get x := by
  simp [elapsed, runTerm, h]

end ThreadClock

end CritPath
