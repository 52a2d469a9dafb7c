import CritPath.Lib.Runs
import CritPath.Omp.Task

/-!
# The clock state stack of a thread

The callbacks of one thread push and pop its clock state stack. `ClockAct` are
the calls of a callback that use the stack, with the checks they make in a debug
build, and `acts` lists them for every callback, in order. The regions that the
thread has opened and not closed, with the stack before each opening, form the
nesting of the callbacks: a task that is started on top of a suspended one is a
region of its own, so that tasks are resumed in the reverse order.

Other threads run between the callbacks. They leave alone what the records of
this thread's tasks say about `InBarrier`, `isRunning` and the like.
-/

namespace CritPath

open Lib

/-! ## Calls on the stack -/

inductive ClockAct where
  | enter (cs : ClockState)
  | exit (isRunning : Bool)
  /-- `exitState(oldcs, nextcs, loc, isRunning)`. -/
  | exitTo (old next : ClockState) (isRunning : Bool)
  /-- `OmpHappensBefore` or `OmpHappensAfter`. -/
  | arc
  deriving DecidableEq

namespace ClockAct

def pop (isRunning : Bool) (st : List ClockState) : List ClockState :=
  if isRunning = false ∨ st.headD .init = .init then st else st.tail

/-- What a call does to the stack, the tool running. -/
def exec (st : List ClockState) : ClockAct → List ClockState
  | .enter cs => cs :: st
  | .exit isRunning | .exitTo _ _ isRunning => pop isRunning st
  | .arc => st

/-- The `DCHECK`s of `exitState(oldcs, nextcs)`, and `STATE_OMP` at an arc. -/
def Passes (st : List ClockState) : ClockAct → Prop
  | .exitTo old next isRunning =>
    isRunning = true → st.headD .init = old ∧ (pop isRunning st).headD .init = next
  | .arc => st.headD .init = .omp
  | _ => True

def run (acts : List ClockAct) (st : List ClockState) : List ClockState := acts.foldl exec st

def Checked : List ClockAct → List ClockState → Prop
  | [], _ => True
  | a :: acts, st => Passes st a ∧ Checked acts (exec st a)

instance (st : List ClockState) : ∀ a, Decidable (Passes st a)
  | .exitTo _ _ _ => inferInstanceAs (Decidable (_ → _ ∧ _))
  | .arc => inferInstanceAs (Decidable (_ = _))
  | .enter _ | .exit _ => inferInstanceAs (Decidable True)

instance : ∀ acts st, Decidable (Checked acts st)
  | [], _ => inferInstanceAs (Decidable True)
  | a :: acts, st =>
    have := instDecidableChecked acts (exec st a)
    inferInstanceAs (Decidable (Passes st a ∧ Checked acts (exec st a)))

end ClockAct

/-! ## The calls of each callback -/

namespace TaskData

variable {I G : Type} (d : TaskData I G)

def suspendActs : List ClockAct :=
  if d.type.untied then
    if d.inBarrier then [.enter .omp] else [.exit d.isRunning, .arc]
  else [.enter .omp]

def suspendEndActs : List ClockAct := [.exitTo .useful .omp d.isRunning]

def completeActs : List ClockAct :=
  (if d.type.fulfilled then [.arc] else []) ++
  (if !d.type.undeferred then
    -- the barrier, the parent's taskwait and the taskgroup
    .arc :: .arc :: (if d.taskGroup.isSome then [.arc] else [])
  else [.arc]) ++
  List.replicate (writtenClocks d.dependencies).length .arc

def startActs : List ClockAct :=
  if d.execution = 0 then
    List.replicate (readClocks d.dependencies).length .arc ++ [.arc, .enter .useful]
  else if d.type.untied then
    if d.inBarrier then [.exitTo .omp .omp d.isRunning] else [.arc, .enter .useful]
  else if d.inBarrier then [.exitTo .omp .omp d.isRunning]
  else [.exitTo .omp .useful d.isRunning]

/-- `ompTimer` with an arc under it. -/
def timedArc : List ClockAct := [.enter .omp, .arc, .exit true]

/-- `task_schedule` from task `d` to task `next`. -/
def scheduleActs (status : TaskStatus) (next : TaskData I G) : List ClockAct :=
  match status with
  | .earlyFulfill => timedArc
  | .lateFulfill => [.enter .omp, .arc] ++ d.completeActs ++ [.exit true]
  | .taskwaitComplete =>
    .enter .omp :: List.replicate (readClocks d.dependencies).length .arc ++ [.exit true]
  | .complete | .cancel => d.suspendEndActs ++ d.completeActs ++ next.startActs
  | .detach => d.suspendEndActs ++ next.startActs
  | .yield | .switch => d.suspendActs ++ next.startActs

/-- `sync_region` and `sync_region_wait` of taskwaits and taskgroups. -/
def waitActs : WaitCall G → List ClockAct
  | .taskwaitBegin | .taskgroupWaitBegin => [.enter .omp]
  | .taskwaitEnd => (if 1 < d.execution then [.arc] else []) ++ [.exit d.isRunning]
  | .taskgroupBegin _ => []
  | .taskgroupWaitEnd => [.exit d.isRunning]
  | .taskgroupEnd => timedArc

end TaskData

/-! ## Regions -/

/-- What a thread opens and closes. -/
inductive Region (I : Type) where
  | parallel
  | implicit (i : I)
  /-- Task `i` started; the task below is suspended. -/
  | explicit (i : I)
  | barrier
  | taskwait
  | taskgroup
  /-- `sync_region_wait` of a taskgroup. -/
  | taskgroupWait
  /-- `sync_region_wait` of a barrier or taskwait, on which the tool does nothing. -/
  | regionWait
  | mutex
  deriving DecidableEq

def Region.task {I : Type} : Region I → Option I
  | .implicit i | .explicit i => some i
  | _ => none

/-- An open region with the stack before the callback that opened it. -/
structure Opened (I : Type) where
  region : Region I
  before : List ClockState
  deriving DecidableEq

namespace Opened

variable {I : Type}

def tasks (os : List (Opened I)) : List I := os.filterMap fun o => o.region.task

def owner (os : List (Opened I)) : Option I := (tasks os).head?

def executing : List (Opened I) → Bool
  | ⟨.implicit _, _⟩ :: _ | ⟨.explicit _, _⟩ :: _ => true
  | ⟨.taskgroup, _⟩ :: os => executing os
  | _ => false

/-- The task of the thread waits in a region where other tasks may run. -/
def waiting : List (Opened I) → Bool
  | ⟨.barrier, _⟩ :: _ | ⟨.taskwait, _⟩ :: _ | ⟨.taskgroupWait, _⟩ :: _ => true
  | ⟨.regionWait, _⟩ :: os => waiting os
  | _ => false

def top (os : List (Opened I)) : Option (Region I) := os.head?.map Opened.region

end Opened

open Opened

/-- A callback of the thread, with the arguments that it uses. -/
inductive ThreadCall (I G : Type) where
  | other (shared : Shared I G) (locks : ℕ → SyncClock)
  /-- With the time that it passes to `enterState`. -/
  | threadBegin (time : ℚ)
  | parallelBegin
  | parallelEnd
  | implicitTaskBegin (initial : Bool) (i : I) (threadNum : ℕ)
  | implicitTaskEnd (i : I)
  | barrierBegin (i : I)
  | barrierEnd (i : I) (parallelData : Bool)
  | wait (i : I) (call : WaitCall G)
  | regionWaitBegin
  | regionWaitEnd
  | mutexAcquire
  | mutexAcquired (waitId : ℕ)
  | mutexReleased (waitId : ℕ)
  | taskCreate (parent κ : I) (type : TaskType)
  | dependences (κ : I) (deps : List TaskDependency)
  | taskSchedule (i : I) (status : TaskStatus) (next : I)

structure OmpThread (I G : Type) where
  shared : Shared I G
  /-- The clocks in `Locks`. -/
  locks : ℕ → SyncClock
  clock : ThreadClock
  begun : Bool := false
  regions : List (Opened I) := []

namespace OmpThread

variable {I G : Type} [DecidableEq I] [DecidableEq G]

section
omit [DecidableEq I] [DecidableEq G]

def on (f : View I G → View I G) (σ : OmpThread I G) : OmpThread I G :=
  let r := f (σ.shared, σ.clock)
  { σ with shared := r.1, clock := r.2 }

def onClock (f : ThreadClock → ThreadClock) (σ : OmpThread I G) : OmpThread I G :=
  { σ with clock := f σ.clock }

/-- The region is opened; `before` is the thread before the callback. -/
def opens (region : Region I) (σ before : OmpThread I G) : OmpThread I G :=
  { σ with regions := ⟨region, before.clock.stack⟩ :: σ.regions }

def closes (σ : OmpThread I G) : OmpThread I G := { σ with regions := σ.regions.tail }

def mutexAcquired (t : ℚ) (waitId : ℕ) (σ : OmpThread I G) : OmpThread I G :=
  let r := (σ.locks waitId).ompHAfter true σ.clock
  { σ with locks := Function.update σ.locks waitId r.1, clock := r.2.exitState true t t }

def mutexReleased (t : ℚ) (waitId : ℕ) (σ : OmpThread I G) : OmpThread I G :=
  let tc := σ.clock.enterState true t .omp t
  { σ with
    locks := Function.update σ.locks waitId ((σ.locks waitId).ompHBefore true tc)
    clock := tc.exitState true t t }

end

def implicitTaskBegin (t : ℚ) (initial : Bool) (i : I) (threadNum : ℕ) (s : View I G) : View I G :=
  if initial then
    (s.1.modifyTask i (.newImplicit true threadNum), s.2.enterState true t .useful t)
  else Shared.implicitTaskBegin true t i threadNum s

/-- The clock calls of a callback. -/
def acts (σ : OmpThread I G) : ThreadCall I G → List ClockAct
  | .other _ _ | .regionWaitBegin | .regionWaitEnd => []
  | .threadBegin _ | .mutexAcquire => [.enter .omp]
  | .parallelBegin => [.enter .omp, .arc]
  | .parallelEnd => [.exit true]
  | .implicitTaskBegin initial _ _ =>
    if initial then [.enter .useful]
    else (if σ.clock.getState = .init then [.enter .omp] else []) ++ [.arc, .enter .useful]
  | .implicitTaskEnd i => [.exit (σ.shared.task i).isRunning]
  | .barrierBegin _ => [.enter .omp, .arc]
  | .barrierEnd i parallelData =>
    (if parallelData || (σ.shared.task i).threadNum = 0 then [.arc] else []) ++
      [.exit (σ.shared.task i).isRunning]
  | .wait i call => (σ.shared.task i).waitActs call
  | .mutexAcquired _ => [.arc, .exit true]
  | .mutexReleased _ => TaskData.timedArc
  | .taskCreate _ _ type =>
    if type.undeferred then []
    else if type.explicit || type.target then TaskData.timedArc
    else []
  | .dependences _ deps => if deps.isEmpty then [] else TaskData.timedArc
  | .taskSchedule i status next => (σ.shared.task i).scheduleActs status (σ.shared.task next)

/-- The regions after `task_schedule`: the thread goes back to the task below, or task `next` is
started, at the place of task that has completed. -/
def scheduled (status : TaskStatus) (next : I) (σ : OmpThread I G) : List (Opened I) :=
  if status = .complete then
    match σ.regions with
    | o :: os => if owner os = some next then os else ⟨.explicit next, o.before⟩ :: os
    | [] => []
  else ⟨.explicit next, σ.clock.stack⟩ :: σ.regions

def step (σ : OmpThread I G) (l : ℚ × ThreadCall I G) : OmpThread I G :=
  let t := l.1
  match l.2 with
  | .other shared locks => { σ with shared := shared, locks := locks }
  | .threadBegin time => { σ.onClock (·.enterState true time .omp t) with begun := true }
  | .parallelBegin => (σ.on (Shared.parallelBegin true t)).opens .parallel σ
  | .parallelEnd => (σ.onClock (·.exitState true t t)).closes
  | .implicitTaskBegin initial i threadNum =>
    (σ.on (implicitTaskBegin t initial i threadNum)).opens (.implicit i) σ
  | .implicitTaskEnd i => (σ.onClock (·.exitState true t t (σ.shared.task i).isRunning)).closes
  | .barrierBegin i => (σ.on (Shared.syncRegionBegin true t i)).opens .barrier σ
  | .barrierEnd i parallelData => (σ.on (Shared.syncRegionEnd true t parallelData i)).closes
  | .wait i call =>
    let σ' := σ.on (Shared.waitCall true t i call)
    match call with
    | .taskwaitBegin => σ'.opens .taskwait σ
    | .taskgroupBegin _ => σ'.opens .taskgroup σ
    | .taskgroupWaitBegin => σ'.opens .taskgroupWait σ
    | .taskwaitEnd | .taskgroupWaitEnd | .taskgroupEnd => σ'.closes
  | .regionWaitBegin => σ.opens .regionWait σ
  | .regionWaitEnd => σ.closes
  | .mutexAcquire => (σ.onClock (·.enterState true t .omp t)).opens .mutex σ
  | .mutexAcquired waitId => (σ.mutexAcquired t waitId).closes
  | .mutexReleased waitId => σ.mutexReleased t waitId
  | .taskCreate parent κ type => σ.on (Shared.taskCreate true t parent κ type)
  | .dependences κ deps => σ.on (Shared.dependences true t κ deps)
  | .taskSchedule i status next =>
    { σ.on (Shared.taskSchedule true t i status next) with regions := σ.scheduled status next }

/-- What the callbacks of a thread read of the records of its tasks. -/
def InUse (d d' : TaskData I G) : Prop :=
  d'.isRunning = d.isRunning ∧ d'.inBarrier = d.inBarrier ∧ d'.type.untied = d.type.untied ∧
    (0 < d.execution → 0 < d'.execution)

/-- A tied task that has not started. -/
def NotStarted (d : TaskData I G) : Prop :=
  d.execution = 0 ∧ d.inBarrier = false ∧ d.type.untied = false

/-- The nesting of the callbacks. -/
def Allowed (σ : OmpThread I G) : ThreadCall I G → Prop
  | .other shared _ => ∀ i ∈ tasks σ.regions, InUse (σ.shared.task i) (shared.task i)
  | .threadBegin _ => σ.begun = false
  | .parallelBegin => executing σ.regions = true
  | .parallelEnd => top σ.regions = some .parallel
  | .implicitTaskBegin initial i _ =>
    σ.begun = true ∧ i ∉ tasks σ.regions ∧
      (σ.regions = [] ∨ initial = false ∧ top σ.regions = some .parallel)
  | .implicitTaskEnd i => top σ.regions = some (.implicit i)
  | .barrierBegin i => executing σ.regions = true ∧ owner σ.regions = some i
  | .barrierEnd i _ => top σ.regions = some .barrier ∧ owner σ.regions = some i
  | .wait i call =>
    owner σ.regions = some i ∧
    match call with
    | .taskwaitBegin | .taskgroupBegin _ => executing σ.regions = true
    | .taskgroupWaitBegin | .taskgroupEnd => top σ.regions = some .taskgroup
    | .taskwaitEnd => top σ.regions = some .taskwait
    | .taskgroupWaitEnd => top σ.regions = some .taskgroupWait
  | .regionWaitBegin => top σ.regions = some .barrier ∨ top σ.regions = some .taskwait
  | .regionWaitEnd => top σ.regions = some .regionWait
  | .mutexAcquire | .mutexReleased _ | .dependences _ _ => executing σ.regions = true
  | .mutexAcquired _ => top σ.regions = some .mutex
  | .taskCreate parent κ _ =>
    executing σ.regions = true ∧ owner σ.regions = some parent ∧ κ ∉ tasks σ.regions
  | .taskSchedule i status next =>
    owner σ.regions = some i ∧
    match status with
    | .switch | .yield =>
      (executing σ.regions = true ∨ waiting σ.regions = true) ∧ next ∉ tasks σ.regions ∧
        NotStarted (σ.shared.task next)
    | .complete =>
      top σ.regions = some (.explicit i) ∧
        (owner σ.regions.tail = some next ∨
          next ∉ tasks σ.regions ∧ NotStarted (σ.shared.task next))
    | _ => False

variable (I G) in
def machine : Machine (OmpThread I G) (ℚ × ThreadCall I G) where
  step := step
  guard σ l := σ.Allowed l.2

/-- The callbacks that close a region. -/
def Closing (σ : OmpThread I G) : ThreadCall I G → Prop
  | .parallelEnd | .implicitTaskEnd _ | .barrierEnd _ _ | .regionWaitEnd | .mutexAcquired _
  | .wait _ .taskwaitEnd | .wait _ .taskgroupWaitEnd | .wait _ .taskgroupEnd => True
  | .taskSchedule _ status next => status = .complete ∧ owner σ.regions.tail = some next
  | _ => False

/-- The callbacks that open nothing and close nothing. -/
def Single : ThreadCall I G → Prop
  | .mutexReleased _ | .taskCreate _ _ _ | .dependences _ _ => True
  | _ => False

/-- What the state stack is used for in a callback is in order. -/
structure Disciplined (σ : OmpThread I G) (l : ℚ × ThreadCall I G) : Prop where
  checked : ClockAct.Checked (σ.acts l.2) σ.clock.stack
  closing : σ.Closing l.2 → ∃ o os, σ.regions = o :: os ∧ (σ.step l).regions = os ∧
    (σ.step l).clock.stack = o.before
  single : Single l.2 → (σ.step l).clock.stack = σ.clock.stack

/-- A task that the thread starts was created while the tool was running. -/
def StartsRunning (σ : OmpThread I G) (l : ℚ × ThreadCall I G) : Prop :=
  match l.2 with
  | .taskSchedule _ _ next => next ∉ tasks σ.regions → (σ.shared.task next).isRunning = true
  | _ => True

end OmpThread

/-! ## The calls are those of the callbacks -/

namespace ClockAct

@[simp] theorem run_nil (st : List ClockState) : run [] st = st := rfl

@[simp] theorem run_cons (a : ClockAct) (acts : List ClockAct) (st : List ClockState) :
    run (a :: acts) st = run acts (exec st a) := rfl

@[simp] theorem run_append (as bs : List ClockAct) (st : List ClockState) :
    run (as ++ bs) st = run bs (run as st) := List.foldl_append

@[simp] theorem run_replicate_arc (n : ℕ) (st : List ClockState) :
    run (List.replicate n .arc) st = st := by
  induction n with
  | zero => rfl
  | succ n ih => exact ih

theorem checked_append {as bs : List ClockAct} {st : List ClockState} :
    Checked (as ++ bs) st ↔ Checked as st ∧ Checked bs (run as st) := by
  induction as generalizing st with
  | nil => simp [Checked]
  | cons a as ih =>
    show Passes st a ∧ Checked (as ++ bs) (exec st a) ↔ _
    rw [ih, ← and_assoc]
    rfl

theorem checked_arcs {acts : List ClockAct} (h : ∀ a ∈ acts, a = .arc) {st : List ClockState}
    (hst : st.headD .init = .omp) : Checked acts st := by
  induction acts with
  | nil => trivial
  | cons a acts ih =>
    obtain rfl := h a (List.mem_cons_self ..)
    exact ⟨hst, ih fun b hb => h b (List.mem_cons_of_mem _ hb)⟩

theorem run_arcs {acts : List ClockAct} (h : ∀ a ∈ acts, a = .arc) (st : List ClockState) :
    run acts st = st := by
  rw [List.eq_replicate_of_mem h]
  exact run_replicate_arc _ st

@[simp] theorem pop_omp (st : List ClockState) : pop true (.omp :: st) = st := rfl

@[simp] theorem pop_useful (st : List ClockState) : pop true (.useful :: st) = st := rfl

end ClockAct

open ClockAct

theorem ThreadClock.stack_exitState_eq_pop (t now : ℚ) (c : ThreadClock) (isRunning : Bool) :
    (c.exitState true t now isRunning).stack = pop isRunning c.stack := by
  cases isRunning with
  | false => rfl
  | true => simp [stack_exitState, pop, getState]

theorem TaskData.completeActs_arcs {I G : Type} (d : TaskData I G) :
    ∀ a ∈ d.completeActs, a = .arc := by
  intro a ha
  rcases List.mem_append.mp ha with ha | ha
  · rcases List.mem_append.mp ha with ha | ha
    · split at ha <;> simp_all
    · split at ha
      · split at ha <;> simp_all
      · simp_all
  · exact List.eq_of_mem_replicate ha

/-- All but the clocks of a record. -/
def SameData {I G : Type} (d d' : TaskData I G) : Prop :=
  d' = { d with task := d'.task, taskwait := d'.taskwait }

theorem SameData.trans {I G : Type} {d d' d'' : TaskData I G} (h : SameData d d')
    (h' : SameData d' d'') : SameData d d'' := by
  unfold SameData at *
  rw [h', h]

theorem SameData.startActs {I G : Type} {d d' : TaskData I G} (h : SameData d d') :
    d'.startActs = d.startActs := by
  rw [h]
  rfl

namespace Shared

variable {I G : Type} (t : ℚ) (i : I) (s : View I G)

theorem stack_acquireDependencies (deps : List TaskDependency) (h : DepHeap × ThreadClock) :
    (acquireDependencies true deps h).2.stack = h.2.stack := by
  rw [acquireDependencies_eq]
  induction readClocks deps generalizing h with
  | nil => rfl
  | cons dk dks ih => exact (ih _).trans (SyncClock.stack_ompHAfter true)

@[simp] theorem stack_barrierAfter (k : ℕ) : (barrierAfter true k s).2.stack = s.2.stack :=
  SyncClock.stack_ompHAfter true

theorem stack_parallelBegin :
    (parallelBegin true t s).2.stack = run [.enter .omp, .arc] s.2.stack :=
  ThreadClock.stack_enterState ..

theorem stack_suspendTaskEnd : (suspendTaskEnd true t i s).2.stack =
    run (s.1.task i).suspendEndActs s.2.stack :=
  ThreadClock.stack_exitState_eq_pop ..

variable [DecidableEq I]

@[simp] theorem stack_taskAfter : (taskAfter true i s).2.stack = s.2.stack :=
  SyncClock.stack_ompHAfter true

theorem stack_syncRegionBegin :
    (syncRegionBegin true t i s).2.stack = run [.enter .omp, .arc] s.2.stack := by
  unfold syncRegionBegin barrierBegin
  dsimp only
  split <;> exact ThreadClock.stack_enterState ..

theorem stack_syncRegionEnd (pd : Bool) : (syncRegionEnd true t pd i s).2.stack =
    run ((if pd || (s.1.task i).threadNum = 0 then [.arc] else []) ++
      [.exit (s.1.task i).isRunning]) s.2.stack := by
  unfold syncRegionEnd
  dsimp only
  rw [ThreadClock.stack_exitState_eq_pop]
  split <;> simp [modifyTask, barrierAfter, exec]

theorem stack_suspendTask : (suspendTask true t i s).2.stack =
    run (s.1.task i).suspendActs s.2.stack := by
  unfold suspendTask TaskData.suspendActs
  dsimp only
  split
  · split
    · exact ThreadClock.stack_enterState ..
    · exact ThreadClock.stack_exitState_eq_pop ..
  · exact ThreadClock.stack_enterState ..

theorem stack_startTask : (startTask true t i s).2.stack = run (s.1.task i).startActs s.2.stack := by
  unfold startTask TaskData.startActs
  dsimp only
  split
  · simp [exec, stack_acquireDependencies]
  · split
    · split
      · exact ThreadClock.stack_exitState_eq_pop ..
      · simp [exec]
    · split <;> exact ThreadClock.stack_exitState_eq_pop ..

theorem stack_taskCreate (κ : I) (type : TaskType) : (taskCreate true t i κ type s).2.stack =
    s.2.stack := by
  unfold taskCreate
  dsimp only
  split
  · rfl
  · split
    · rw [ThreadClock.stack_exitState_eq_pop, ThreadClock.stack_enterState, pop_omp]
    · rfl

theorem stack_dependences (deps : List TaskDependency) :
    (dependences true t i deps s).2.stack = s.2.stack := by
  unfold dependences
  split
  · rfl
  · rw [ThreadClock.stack_exitState_eq_pop, ThreadClock.stack_enterState, pop_omp]

variable [DecidableEq G]

theorem stack_waitCall (call : WaitCall G) : (waitCall true t i call s).2.stack =
    run ((s.1.task i).waitActs call) s.2.stack := by
  cases call with
  | taskwaitBegin => exact ThreadClock.stack_enterState ..
  | taskgroupWaitBegin => exact ThreadClock.stack_enterState ..
  | taskwaitEnd =>
    simp only [waitCall, ThreadClock.stack_exitState_eq_pop, TaskData.waitActs]
    split <;> simp [exec]
  | taskgroupBegin g => rfl
  | taskgroupWaitEnd => exact ThreadClock.stack_exitState_eq_pop ..
  | taskgroupEnd =>
    simp only [waitCall, TaskData.waitActs, TaskData.timedArc]
    split
    · simp [exec]
    · simp [exec, ThreadClock.stack_exitState_eq_pop]

theorem stack_completeTask : (completeTask true i s).2.stack =
    run (s.1.task i).completeActs s.2.stack := by
  rw [run_arcs (TaskData.completeActs_arcs _)]
  unfold completeTask
  dsimp only
  split <;> simp

omit [DecidableEq G] in
theorem sameData_modifyTask {f : TaskData I G → TaskData I G} (hf : ∀ d, SameData d (f d))
    (sh : Shared I G) (j : I) : SameData (sh.task j) ((sh.modifyTask i f).task j) := by
  by_cases hj : j = i
  · subst hj
    simpa [modifyTask] using hf _
  · simp [modifyTask, Function.update_of_ne hj, SameData]

omit [DecidableEq G] in
theorem sameData_taskBefore (tc : ThreadClock) (sh : Shared I G) (j : I) :
    SameData (sh.task j) ((sh.taskBefore true i tc).task j) := by
  unfold taskBefore
  refine sameData_modifyTask i (fun _ => ?_) sh j
  rfl

omit [DecidableEq G] in
theorem sameData_taskAfter (j : I) : SameData (s.1.task j) ((taskAfter true i s).1.task j) := by
  unfold taskAfter
  dsimp only
  refine sameData_modifyTask i (fun _ => ?_) s.1 j
  rfl

theorem sameData_completeArcs (tc : ThreadClock) (sh : Shared I G) (j : I) :
    SameData (sh.task j) ((sh.completeArcs true i tc).task j) := by
  have hwait : ∀ (parent : I) (sh' : Shared I G),
      SameData (sh'.task j) ((sh'.taskwaitBefore true parent tc).task j) := by
    intro parent sh'
    unfold taskwaitBefore
    refine sameData_modifyTask _ (fun _ => ?_) sh' j
    rfl
  unfold completeArcs
  dsimp only
  split
  · -- neither the barrier's nor the taskgroup's arc reaches a record
    cases (sh.task i).parent with
    | some parent => split <;> exact hwait parent (sh.barrierBefore true _ tc)
    | none => split <;> rfl
  · split
    · exact sameData_taskBefore _ tc sh j
    · rfl

theorem sameData_completeTask (j : I) :
    SameData (s.1.task j) ((completeTask true i s).1.task j) := by
  unfold completeTask
  dsimp only
  split
  · exact (sameData_taskAfter i s j).trans (sameData_completeArcs i _ _ j)
  · exact sameData_completeArcs i _ _ j

omit [DecidableEq G] in
theorem sameData_suspendTask (j : I) :
    SameData (s.1.task j) ((suspendTask true t i s).1.task j) := by
  unfold suspendTask
  dsimp only
  split
  · split
    · rfl
    · exact sameData_taskBefore i _ s.1 j
  · rfl

theorem stack_taskSchedule (status : TaskStatus) (next : I) :
    (taskSchedule true t i status next s).2.stack =
      run ((s.1.task i).scheduleActs status (s.1.task next)) s.2.stack := by
  have hcomplete : (startTask true t next (completeTask true i (suspendTaskEnd true t i s))).2.stack
      = run ((s.1.task i).suspendEndActs ++ (s.1.task i).completeActs ++ (s.1.task next).startActs)
        s.2.stack := by
    rw [stack_startTask, stack_completeTask, stack_suspendTaskEnd,
      (sameData_completeTask i _ next).startActs]
    simp only [run_append]
    rfl
  have hswitch : (startTask true t next (suspendTask true t i s)).2.stack =
      run ((s.1.task i).suspendActs ++ (s.1.task next).startActs) s.2.stack := by
    rw [stack_startTask, stack_suspendTask, (sameData_suspendTask t i s next).startActs, run_append]
  cases status with
  | complete => exact hcomplete
  | cancel => exact hcomplete
  | yield => exact hswitch
  | switch => exact hswitch
  | detach =>
    show (startTask true t next (suspendTaskEnd true t i s)).2.stack = _
    rw [stack_startTask, stack_suspendTaskEnd]
    exact (run_append ..).symm
  | earlyFulfill => simp [taskSchedule, TaskData.scheduleActs, TaskData.timedArc, exec,
      ThreadClock.stack_exitState_eq_pop]
  | lateFulfill =>
    simp [taskSchedule, TaskData.scheduleActs, exec, ThreadClock.stack_exitState_eq_pop,
      stack_completeTask, beforeComplete, run_arcs (TaskData.completeActs_arcs _)]
  | taskwaitComplete => simp [taskSchedule, TaskData.scheduleActs, exec,
      ThreadClock.stack_exitState_eq_pop, stack_acquireDependencies]

end Shared

end CritPath
