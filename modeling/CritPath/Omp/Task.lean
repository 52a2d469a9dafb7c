import CritPath.Omp.Depend

/-!
# The OMPT callbacks of a team

What the tool keeps for a parallel region (`ParallelData`: three barrier
clocks), for its tasks (`TaskData`) and taskgroups, and the callbacks that work
on them. A callback runs on one thread: it takes the shared data with that
thread's clock and returns both. `t` is the time that `getTime()` returns in
it.

The reference counts and the pools behind the records are not part of this
model; a record that is handed out again keeps its old clocks, as `Reset` does
not touch them.
-/

namespace CritPath

/-- The bits of `TaskType` that the callbacks look at. -/
structure TaskType where
  explicit : Bool := false
  target : Bool := false
  undeferred : Bool := false
  untied : Bool := false
  fulfilled : Bool := false
  deriving DecidableEq

/-- `TaskData`, for tasks `I` and taskgroups `G`. -/
structure TaskData (I G : Type) where
  task : SyncClock := .fresh
  taskwait : SyncClock := .fresh
  isRunning : Bool := false
  inBarrier : Bool := false
  type : TaskType := {}
  threadNum : ℤ := -1
  /-- An `int`, for tasks that create fewer than `2 ^ 31 - 1` others. -/
  execution : ℕ := 0
  barrierIndex : ℕ := 0
  parent : Option I := none
  taskGroup : Option G := none
  dependencies : List TaskDependency := []

namespace TaskData

variable {I G : Type}

/-- `TaskData::New` of an explicit task, on a record `d` of the pool; `taskGroup` is the one of
its parent. -/
def new (running : Bool) (parent : I) (taskGroup : Option G) (type : TaskType)
    (d : TaskData I G) : TaskData I G :=
  { task := d.task, taskwait := d.taskwait, isRunning := running, type := type, parent := parent
    taskGroup := taskGroup }

/-- `TaskData::New` of an implicit task. -/
def newImplicit (running : Bool) (threadNum : ℕ) (d : TaskData I G) : TaskData I G :=
  { task := d.task, taskwait := d.taskwait, isRunning := running, execution := 1
    threadNum := threadNum }

end TaskData

structure Taskgroup (G : Type) where
  ptr : SyncClock := .fresh
  parent : Option G := none

/-- The data shared by the threads of a team. -/
structure Shared (I G : Type) where
  barrier : ℕ → SyncClock
  task : I → TaskData I G
  group : G → Taskgroup G
  heap : DepHeap

/-- What a callback works on: the shared data and the clock of its thread. -/
abbrev View (I G : Type) := Shared I G × ThreadClock

/-- The calls of `sync_region` and `sync_region_wait` for taskwaits and taskgroups. -/
inductive WaitCall (G : Type) where
  | taskwaitBegin
  | taskwaitEnd
  | taskgroupBegin (g : G)
  | taskgroupWaitBegin
  | taskgroupWaitEnd
  | taskgroupEnd
  deriving DecidableEq

namespace Shared

variable {I G : Type}

def fresh : Shared I G where
  barrier _ := .fresh
  task _ := {}
  group _ := {}
  heap _ _ := .fresh

/-- `OmpHappensBefore` on a barrier clock. -/
def barrierBefore (running : Bool) (k : ℕ) (tc : ThreadClock) (sh : Shared I G) : Shared I G :=
  { sh with barrier := Function.update sh.barrier k ((sh.barrier k).ompHBefore running tc) }

/-- `OmpHappensAfter` on a barrier clock. -/
def barrierAfter (running : Bool) (k : ℕ) (s : View I G) : View I G :=
  let r := (s.1.barrier k).ompHAfter running s.2
  ({ s.1 with barrier := Function.update s.1.barrier k r.1 }, r.2)

variable [DecidableEq I] [DecidableEq G]

def modifyTask (i : I) (f : TaskData I G → TaskData I G) (sh : Shared I G) : Shared I G :=
  { sh with task := Function.update sh.task i (f (sh.task i)) }

def modifyGroup (g : G) (f : Taskgroup G → Taskgroup G) (sh : Shared I G) : Shared I G :=
  { sh with group := Function.update sh.group g (f (sh.group g)) }

/-- `OmpHappensBefore` on a task's clock `GetTaskPtr()`. -/
def taskBefore (running : Bool) (i : I) (tc : ThreadClock) (sh : Shared I G) : Shared I G :=
  sh.modifyTask i fun d => { d with task := d.task.ompHBefore running tc }

/-- `OmpHappensAfter` on a task's clock. -/
def taskAfter (running : Bool) (i : I) (s : View I G) : View I G :=
  let r := (s.1.task i).task.ompHAfter running s.2
  (s.1.modifyTask i fun d => { d with task := r.1 }, r.2)

/-- `OmpHappensBefore` on a task's clock `GetTaskwaitPtr()`. -/
def taskwaitBefore (running : Bool) (i : I) (tc : ThreadClock) (sh : Shared I G) : Shared I G :=
  sh.modifyTask i fun d => { d with taskwait := d.taskwait.ompHBefore running tc }

/-- `OmpHappensBefore` on a taskgroup's clock. -/
def groupBefore (running : Bool) (g : G) (tc : ThreadClock) (sh : Shared I G) : Shared I G :=
  sh.modifyGroup g fun tg => { tg with ptr := tg.ptr.ompHBefore running tc }

/-! ## Parallel regions and implicit tasks -/

/-- `parallel_begin`; the fork uses `Barrier[1]`. -/
def parallelBegin (running : Bool) (t : ℚ) (s : View I G) : View I G :=
  let tc := s.2.enterState running t .omp t
  (s.1.barrierBefore running 1 tc, tc)

/-- `implicit_task` begin of a task that is not the initial one. -/
def implicitTaskBegin (running : Bool) (t : ℚ) (i : I) (threadNum : ℕ) (s : View I G) : View I G :=
  let tc := if s.2.getState = .init then s.2.enterState running t .omp t else s.2
  let (sh, tc) := barrierAfter running 1 (s.1, tc)
  (sh.modifyTask i (.newImplicit running threadNum), tc.enterState running t .useful t)

/-! ## Barriers -/

/-- `sync_region` begin of a barrier, up to its first arc. -/
def barrierBegin (running : Bool) (t : ℚ) (i : I) (s : View I G) : View I G :=
  let sh := s.1.modifyTask i fun d => { d with inBarrier := true }
  let tc := s.2.enterState running t .omp t
  (sh.barrierBefore running (sh.task i).barrierIndex tc, tc)

/-- `OmpClockReset(GetBarrierPtr((BarrierIndex + 1) % 3))`, the rest of it on thread 0. -/
def barrierReset (running : Bool) (i : I) (sh : Shared I G) : Shared I G :=
  let k := ((sh.task i).barrierIndex + 1) % 3
  { sh with barrier := Function.update sh.barrier k ((sh.barrier k).ompCReset running) }

/-- `sync_region` begin of a barrier. -/
def syncRegionBegin (running : Bool) (t : ℚ) (i : I) (s : View I G) : View I G :=
  let s := barrierBegin running t i s
  if (s.1.task i).threadNum = 0 then (s.1.barrierReset running i, s.2) else s

/-- `sync_region` end of a barrier; `parallelData` says whether `parallel_data` is not null. -/
def syncRegionEnd (running : Bool) (t : ℚ) (parallelData : Bool) (i : I)
    (s : View I G) : View I G :=
  let k := (s.1.task i).barrierIndex
  let s := if parallelData || (s.1.task i).threadNum = 0 then barrierAfter running k s else s
  let sh := s.1.modifyTask i fun d => { d with barrierIndex := (k + 1) % 3, inBarrier := false }
  (sh, s.2.exitState running t t (sh.task i).isRunning)

/-! ## Taskwaits and taskgroups -/

/-- A `WaitCall` of task `i`; a new taskgroup gets the record `g` of the pool. -/
def waitCall (running : Bool) (t : ℚ) (i : I) (call : WaitCall G) (s : View I G) : View I G :=
  match call with
  | .taskwaitBegin | .taskgroupWaitBegin =>
    (s.1.modifyTask i fun d => { d with inBarrier := true }, s.2.enterState running t .omp t)
  | .taskwaitEnd =>
    let d := s.1.task i
    let r := if 1 < d.execution then d.taskwait.ompHAfter running s.2 else (d.taskwait, s.2)
    (s.1.modifyTask i fun d => { d with taskwait := r.1, inBarrier := false },
      r.2.exitState running t t d.isRunning)
  | .taskgroupBegin g =>
    let sh := s.1.modifyGroup g fun tg => { tg with parent := (s.1.task i).taskGroup }
    (sh.modifyTask i fun d => { d with taskGroup := some g }, s.2)
  | .taskgroupWaitEnd =>
    (s.1.modifyTask i fun d => { d with inBarrier := false },
      s.2.exitState running t t (s.1.task i).isRunning)
  | .taskgroupEnd =>
    match (s.1.task i).taskGroup with
    | none => s
    | some g =>
      let r := (s.1.group g).ptr.ompHAfter running (s.2.enterState running t .omp t)
      let sh := s.1.modifyGroup g fun tg => { tg with ptr := r.1 }
      (sh.modifyTask i fun d => { d with taskGroup := (s.1.group g).parent },
        r.2.exitState running t t)

/-! ## Explicit tasks -/

/-- `task_create` of a task that is not the initial one. -/
def taskCreate (running : Bool) (t : ℚ) (parent i : I) (type : TaskType)
    (s : View I G) : View I G :=
  let new := s.1.modifyTask i (.new running parent (s.1.task parent).taskGroup type)
  if type.undeferred then (new, s.2)
  else if type.explicit || type.target then
    let tc := s.2.enterState running t .omp t
    let sh := new.taskBefore running i tc
    let sh := sh.modifyTask parent fun d => { d with execution := d.execution + 1 }
    (sh, tc.exitState running t t)
  else s

/-- `dependences` of task `i`, with the dependences that the lookup of its items gave. -/
def dependences (running : Bool) (t : ℚ) (i : I) (deps : List TaskDependency)
    (s : View I G) : View I G :=
  if deps.isEmpty then s
  else
    let tc := s.2.enterState running t .omp t
    let sh := s.1.modifyTask i fun d => { d with dependencies := deps }
    (sh.taskBefore running i tc, tc.exitState running t t)

/-- The arcs of `completeTask` to the barrier, the parent and the taskgroup. -/
def completeArcs (running : Bool) (i : I) (tc : ThreadClock) (sh : Shared I G) : Shared I G :=
  let d := sh.task i
  if !d.type.undeferred then
    let sh := sh.barrierBefore running d.barrierIndex tc
    let sh := match d.parent with
      | some parent => sh.taskwaitBefore running parent tc
      | none => sh
    match d.taskGroup with
    | some g => sh.groupBefore running g tc
    | none => sh
  else
    match d.parent with
    | some parent => sh.taskBefore running parent tc
    | none => sh

def completeTask (running : Bool) (i : I) (s : View I G) : View I G :=
  let s := if (s.1.task i).type.fulfilled then taskAfter running i s else s
  let sh := s.1.completeArcs running i s.2
  ({ sh with heap := releaseDependencies running (sh.task i).dependencies s.2 sh.heap }, s.2)

def suspendTask (running : Bool) (t : ℚ) (i : I) (s : View I G) : View I G :=
  let d := s.1.task i
  if d.type.untied then
    if d.inBarrier then (s.1, s.2.enterState running t .omp t)
    else
      let tc := s.2.exitState running t t d.isRunning
      (s.1.taskBefore running i tc, tc)
  else (s.1, s.2.enterState running t .omp t)

def suspendTaskEnd (running : Bool) (t : ℚ) (i : I) (s : View I G) : View I G :=
  (s.1, s.2.exitState running t t (s.1.task i).isRunning)

def startTask (running : Bool) (t : ℚ) (i : I) (s : View I G) : View I G :=
  let d := s.1.task i
  if d.execution = 0 then
    let sh := s.1.modifyTask i fun d => { d with execution := d.execution + 1 }
    let r := acquireDependencies running d.dependencies (sh.heap, s.2)
    let (sh, tc) := taskAfter running i ({ sh with heap := r.1 }, r.2)
    (sh, tc.enterState running t .useful t)
  else if d.type.untied then
    if d.inBarrier then (s.1, s.2.exitState running t t d.isRunning)
    else
      let (sh, tc) := taskAfter running i s
      (sh, tc.enterState running t .useful t)
  else (s.1, s.2.exitState running t t d.isRunning)

end Shared

inductive TaskStatus where
  | complete
  | yield
  | cancel
  | detach
  | earlyFulfill
  | lateFulfill
  | switch
  | taskwaitComplete
  deriving DecidableEq

/-- The statuses in which `task_schedule` calls `completeTask`. -/
def TaskStatus.completes : TaskStatus → Bool
  | .complete | .cancel | .lateFulfill => true
  | _ => false

namespace Shared

variable {I G : Type} [DecidableEq I] [DecidableEq G]

/-- `task_schedule` up to its call of `completeTask`. -/
def beforeComplete (running : Bool) (t : ℚ) (status : TaskStatus) (i : I)
    (s : View I G) : View I G :=
  if status = .lateFulfill then taskAfter running i (s.1, s.2.enterState running t .omp t)
  else suspendTaskEnd running t i s

/-- `task_schedule`: task `i` on the calling thread with its status, and the task to go on with. -/
def taskSchedule (running : Bool) (t : ℚ) (i : I) (status : TaskStatus) (next : I)
    (s : View I G) : View I G :=
  match status with
  | .earlyFulfill =>
    let tc := s.2.enterState running t .omp t
    let sh := s.1.taskBefore running i tc
    let sh := sh.modifyTask i fun d => { d with type := { d.type with fulfilled := true } }
    (sh, tc.exitState running t t)
  | .lateFulfill =>
    let (sh, tc) := completeTask running i (beforeComplete running t status i s)
    (sh, tc.exitState running t t)
  | .taskwaitComplete =>
    let tc := s.2.enterState running t .omp t
    let r := acquireDependencies running (s.1.task i).dependencies (s.1.heap, tc)
    ({ s.1 with heap := r.1 }, r.2.exitState running t t)
  | .complete | .cancel =>
    startTask running t next (completeTask running i (beforeComplete running t status i s))
  | .detach => startTask running t next (suspendTaskEnd running t i s)
  | .yield | .switch => startTask running t next (suspendTask running t i s)

end Shared

end CritPath
