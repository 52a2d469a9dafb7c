import CritPath.Omp.Detach
import Mathlib.Data.Fintype.Sum

/-!
# Runs of tied tasks

`Tasking` is a team together with what OpenMP says about the tasks of its
threads: a tied task stays with the thread that has started it, an undeferred
one is executed before its parent goes on, and a taskgroup or taskwait ends
after the tasks that it waits for. For this the state keeps the parent of each
task, the taskgroup regions that the code of a task is in (its own and those
that it was generated in), and, only for statements, the clocks of the
executing thread at each `completeTask`.

The second part says what of the tool's records the waits read, and that only
few callbacks change it (`Retains`).
-/

namespace CritPath

open Lib

/-- One execution of a taskgroup region, with the task that executes it and its record. The numbers
tell the executions apart. -/
structure GroupRegion (T K G : Type) where
  id : ℕ
  owner : T ⊕ K
  record : G
  deriving DecidableEq

structure Tasking (T K G : Type) where
  team : Team T K G
  home : K → Option T
  parent : K → T ⊕ K
  /-- The taskgroup regions that the code of a task is in, the innermost one first. -/
  scope : T ⊕ K → List (GroupRegion T K G)
  /-- The taskgroup regions that a task was generated in. -/
  gen : K → List (GroupRegion T K G)
  begun : ℕ
  finished : K → Bool
  /-- The body of the task has ended, its event is not fulfilled. -/
  detached : K → Bool
  /-- `CLOCK_USEFUL` of the executing thread in `completeTask`. -/
  value : K → Comp → ℚ

def TaskStatus.finishes (status : TaskStatus) : Bool :=
  status.completes || status = .taskwaitComplete

/-- The statuses that end the code of the task. -/
def TaskStatus.endsBody (status : TaskStatus) : Bool :=
  status.finishes || status = .detach

namespace Tasking

variable {T K G : Type}

def initial (team : Team T K G) : Tasking T K G :=
  ⟨team, fun _ => none, .inr, fun _ => [], fun _ => [], 0, fun _ => false, fun _ => false,
    fun _ _ => 0⟩

def thread (σ : Tasking T K G) : T ⊕ K → Option T
  | .inl p => some p
  | .inr κ => σ.home κ

def Exists (σ : Tasking T K G) : T ⊕ K → Prop
  | .inl p => σ.team.started p = true
  | .inr κ => σ.team.created κ = true

def Alive (σ : Tasking T K G) : T ⊕ K → Prop
  | .inl p => σ.team.started p = true
  | .inr κ => σ.team.created κ = true ∧ σ.finished κ = false

def undeferred (σ : Tasking T K G) (κ : K) : Bool :=
  (σ.team.shared.task (.inr κ)).type.undeferred

/-- No undeferred child keeps task `i` from going on. -/
def Idle (σ : Tasking T K G) (i : T ⊕ K) : Prop :=
  ∀ κ, σ.team.created κ = true → σ.parent κ = i → σ.undeferred κ = true → σ.finished κ = true

/-- Task `i` waits for task `κ` in a call. -/
def Awaits (σ : Tasking T K G) (i : T ⊕ K) (call : WaitCall G) (κ : K) : Prop :=
  σ.team.created κ = true ∧
  match call with
  | .taskgroupEnd => ∃ n ∈ (σ.scope i).head?, n ∈ σ.gen κ
  | .taskwaitEnd => σ.parent κ = i
  | _ => False

/-- A new taskgroup gets a record that is not in use. -/
def PermitsWait (σ : Tasking T K G) (i : T ⊕ K) (call : WaitCall G) : Prop :=
  σ.Alive i ∧ σ.Idle i ∧ (∀ κ, σ.Awaits i call κ → σ.finished κ = true) ∧
  match call with
  | .taskgroupBegin g => ∀ j, σ.Alive j → ∀ n ∈ σ.scope j, n.record ≠ g
  | .taskgroupEnd => ∃ n ∈ (σ.scope i).head?, n.owner = i
  | _ => True

/-- Thread `p` may go on with a task after task `i`: a tied task stays on its thread, and an
undeferred one is started by its parent. -/
def Resumes (σ : Tasking T K G) (p : T) (i : T ⊕ K) : T ⊕ K → Prop
  | .inl _ => True
  | .inr κ => σ.finished κ = false ∧ σ.detached κ = false ∧
    (σ.home κ = some p ∨ σ.home κ = none ∧ (σ.undeferred κ = true → σ.parent κ = i))

/-- The code of a task may end with a status. A task of a taskwait has no code. -/
def Ends (σ : Tasking T K G) (status : TaskStatus) : T ⊕ K → Prop
  | .inl _ => False
  | .inr κ => σ.Alive (.inr κ) ∧ σ.Idle (.inr κ) ∧ σ.scope (.inr κ) = σ.gen κ ∧
    (status = .lateFulfill → σ.detached κ = true) ∧
    (status = .taskwaitComplete → σ.home κ = none)

def Permits (σ : Tasking T K G) (p : T) : Callback T K G → Prop
  | .wait call => σ.PermitsWait (σ.team.current p) call
  | .taskCreate _ _ => σ.Idle (σ.team.current p)
  | .taskSchedule i status next =>
    (status.switches = true → σ.Resumes p i next) ∧
    (status.endsBody = true → σ.Ends status i ∧ next ≠ i)
  | _ => True

variable [DecidableEq T] [DecidableEq K] [DecidableEq G]

/-- `task_schedule`, apart from the team. -/
def schedule (σ : Tasking T K G) (t : ℚ) (p : T) (i : T ⊕ K) (status : TaskStatus)
    (next : T ⊕ K) : Tasking T K G :=
  { σ with
    home := fun κ => if status.switches = true ∧ next = .inr κ then some p else σ.home κ
    finished := fun κ => σ.finished κ || (status.finishes && decide (i = .inr κ))
    detached := fun κ => σ.detached κ || (decide (status = .detach) && decide (i = .inr κ))
    value := fun κ => if status.completes = true ∧ i = .inr κ then
        fun x => (Shared.completing t status i (σ.team.shared, σ.team.clock p)).2.elapsed .useful x t
      else σ.value κ }

def step (crew : Crew T) (σ : Tasking T K G) (a : Label T K G) : Tasking T K G :=
  let team := σ.team.step crew a
  let i := σ.team.current a.thread
  match a.call with
  | .wait (.taskgroupBegin g) =>
    { σ with
      team
      scope := Function.update σ.scope i (⟨σ.begun, i, g⟩ :: σ.scope i)
      begun := σ.begun + 1 }
  | .wait .taskgroupEnd =>
    { σ with team, scope := Function.update σ.scope i (σ.scope i).tail }
  | .taskCreate κ _ =>
    { σ with
      team
      home := Function.update σ.home κ none
      parent := Function.update σ.parent κ i
      scope := Function.update σ.scope (.inr κ) (σ.scope i)
      gen := Function.update σ.gen κ (σ.scope i)
      finished := Function.update σ.finished κ false
      detached := Function.update σ.detached κ false }
  | .taskSchedule i status next => { σ.schedule a.time a.thread i status next with team }
  | _ => { σ with team }

def machine (crew : Crew T) (K G : Type) [DecidableEq K] [DecidableEq G] :
    Machine (Tasking T K G) (Label T K G) where
  step := step crew
  guard σ a := (Team.machine crew K G).guard σ.team a ∧ σ.Permits a.thread a.call

section
variable [Fintype T] [Fintype K]

omit [DecidableEq T] [DecidableEq K] [DecidableEq G] [Fintype T] [Fintype K] in
instance (σ : Tasking T K G) : ∀ i, Decidable (σ.Alive i)
  | .inl _ => inferInstanceAs (Decidable (_ = _))
  | .inr _ => inferInstanceAs (Decidable (_ ∧ _))

instance (σ : Tasking T K G) (i : T ⊕ K) : Decidable (σ.Idle i) :=
  inferInstanceAs (Decidable (∀ _, _))

instance (σ : Tasking T K G) (i : T ⊕ K) : ∀ call κ, Decidable (σ.Awaits i call κ)
  | .taskgroupEnd, κ => inferInstanceAs (Decidable (_ ∧ ∃ n ∈ (σ.scope i).head?, n ∈ σ.gen κ))
  | .taskwaitEnd, _ => inferInstanceAs (Decidable (_ ∧ _ = _))
  | .taskwaitBegin, _ | .taskgroupBegin _, _ | .taskgroupWaitBegin, _ | .taskgroupWaitEnd, _ =>
    inferInstanceAs (Decidable (_ ∧ False))

instance (σ : Tasking T K G) (i : T ⊕ K) : ∀ call, Decidable (σ.PermitsWait i call)
  | .taskgroupBegin _ => inferInstanceAs (Decidable (_ ∧ _ ∧ _ ∧ ∀ j, _ → ∀ n ∈ σ.scope j, _))
  | .taskgroupEnd => inferInstanceAs (Decidable (_ ∧ _ ∧ _ ∧ ∃ n ∈ (σ.scope i).head?, _))
  | .taskwaitBegin | .taskwaitEnd | .taskgroupWaitBegin | .taskgroupWaitEnd =>
    inferInstanceAs (Decidable (_ ∧ _ ∧ _ ∧ True))

instance (σ : Tasking T K G) (p : T) (i : T ⊕ K) : ∀ next, Decidable (σ.Resumes p i next)
  | .inl _ => .isTrue trivial
  | .inr _ => inferInstanceAs (Decidable (_ ∧ _ ∧ (_ ∨ _ ∧ (_ → _))))

instance (σ : Tasking T K G) (status : TaskStatus) : ∀ i, Decidable (σ.Ends status i)
  | .inl _ => .isFalse id
  | .inr _ => inferInstanceAs (Decidable (_ ∧ _ ∧ _ ∧ (_ → _) ∧ (_ → _)))

instance (σ : Tasking T K G) (p : T) : ∀ call, Decidable (σ.Permits p call)
  | .wait call => inferInstanceAs (Decidable (σ.PermitsWait _ call))
  | .taskCreate _ _ => inferInstanceAs (Decidable (σ.Idle _))
  | .taskSchedule _ _ _ => inferInstanceAs (Decidable ((_ → σ.Resumes p _ _) ∧ (_ → _ ∧ _)))
  | .work _ | .parallelBegin | .implicitTaskBegin | .barrierBegin | .barrierReset | .barrierEnd _
  | .dependences _ _ => .isTrue trivial

instance (crew : Crew T) (σ : Tasking T K G) (a : Label T K G) :
    Decidable ((machine crew K G).guard σ a) :=
  inferInstanceAs (Decidable (_ ∧ σ.Permits a.thread a.call))

end

end Tasking

/-! ## What waits read -/

/-- A task's record keeps its place in the tree, and its taskwait clock what it covers. -/
structure TaskData.Retains {I G : Type} (d d' : TaskData I G) : Prop where
  taskGroup : d'.taskGroup = d.taskGroup
  parent : d'.parent = d.parent
  undeferred : d'.type.undeferred = d.type.undeferred
  execution : d.execution ≤ d'.execution
  taskwait : ∀ v, d.taskwait.Covers v → d'.taskwait.Covers v

theorem TaskData.Retains.refl {I G : Type} (d : TaskData I G) : d.Retains d :=
  ⟨rfl, rfl, rfl, le_refl _, fun _ => id⟩

/-- A callback keeps the places of all tasks and taskgroups, and their clocks what they cover. -/
structure Retains {I G : Type} (s s' : View I G) : Prop where
  task : ∀ i, (s.1.task i).Retains (s'.1.task i)
  outer : ∀ g, (s'.1.group g).parent = (s.1.group g).parent
  group : ∀ g v, (s.1.group g).ptr.Covers v → (s'.1.group g).ptr.Covers v

namespace Retains

variable {I G : Type} {s s' s'' : View I G}

theorem refl (s : View I G) : Retains s s :=
  ⟨fun i => .refl (s.1.task i), fun _ => rfl, fun _ _ => id⟩

theorem trans (h : Retains s s') (h' : Retains s' s'') : Retains s s'' where
  task i := by
    obtain ⟨h₁, h₂, h₃, h₄, h₅⟩ := h.task i
    obtain ⟨h₁', h₂', h₃', h₄', h₅'⟩ := h'.task i
    exact ⟨h₁'.trans h₁, h₂'.trans h₂, h₃'.trans h₃, h₄.trans h₄', fun v hv => h₅' v (h₅ v hv)⟩
  outer g := (h'.outer g).trans (h.outer g)
  group g v hv := h'.group g v (h.group g v hv)

theorem other (sh : Shared I G) (c c' : ThreadClock) (b : ℕ → SyncClock) (hp : DepHeap) :
    Retains (sh, c) ({ sh with barrier := b, heap := hp }, c') :=
  ⟨fun i => .refl (sh.task i), fun _ => rfl, fun _ _ => id⟩

theorem clock (sh : Shared I G) (c c' : ThreadClock) : Retains (sh, c) (sh, c') :=
  other sh c c' sh.barrier sh.heap

variable [DecidableEq I]

theorem modifyTask {sh : Shared I G} {c c' : ThreadClock} (i : I) {f : TaskData I G → TaskData I G}
    (hf : (sh.task i).Retains (f (sh.task i))) : Retains (sh, c) (sh.modifyTask i f, c') := by
  refine ⟨fun j => ?_, fun _ => rfl, fun _ _ => id⟩
  by_cases hj : j = i
  · subst hj; simpa [Shared.modifyTask] using hf
  · simpa [Shared.modifyTask, hj] using TaskData.Retains.refl (sh.task j)

theorem taskBefore (sh : Shared I G) (c c' : ThreadClock) (i : I) :
    Retains (sh, c) (sh.taskBefore true i c, c') :=
  modifyTask i ⟨rfl, rfl, rfl, le_refl _, fun _ => id⟩

theorem taskAfter (i : I) (s : View I G) : Retains s (Shared.taskAfter true i s) :=
  modifyTask i ⟨rfl, rfl, rfl, le_refl _, fun _ => id⟩

theorem taskwaitBefore (sh : Shared I G) (c : ThreadClock) (i : I) :
    Retains (sh, c) (sh.taskwaitBefore true i c, c) :=
  modifyTask i ⟨rfl, rfl, rfl, le_refl _, fun _ hv => hv.ompHBefore c⟩

theorem startTask (t : ℚ) (i : I) (s : View I G) : Retains s (Shared.startTask true t i s) := by
  unfold Shared.startTask
  simp only
  split
  · have hexec : Retains s (s.1.modifyTask i fun d => { d with execution := d.execution + 1 }, s.2) :=
      modifyTask i ⟨rfl, rfl, rfl, Nat.le_succ _, fun _ => id⟩
    exact ((hexec.trans (other _ _ _ _ _)).trans (taskAfter ..)).trans (clock ..)
  · split
    · split
      · exact clock ..
      · exact (taskAfter i s).trans (clock ..)
    · exact clock ..

theorem execution_startTask (t : ℚ) (i : I) (s : View I G) :
    1 ≤ ((Shared.startTask true t i s).1.task i).execution := by
  unfold Shared.startTask
  simp only
  split
  · simp [Shared.taskAfter, Shared.modifyTask]
  · have hpos : 1 ≤ (s.1.task i).execution := Nat.one_le_iff_ne_zero.mpr ‹_›
    split
    · split
      · exact hpos
      · simpa [Shared.taskAfter, Shared.modifyTask] using hpos
    · exact hpos

theorem suspendTask (t : ℚ) (i : I) (s : View I G) : Retains s (Shared.suspendTask true t i s) := by
  unfold Shared.suspendTask
  simp only
  split
  · split
    · exact clock ..
    · exact modifyTask i ⟨rfl, rfl, rfl, le_refl _, fun _ => id⟩
  · exact clock ..

theorem completing (t : ℚ) (status : TaskStatus) (i : I) (s : View I G) :
    Retains s (Shared.completing t status i s) := by
  have hbefore : Retains s (Shared.beforeComplete true t status i s) := by
    unfold Shared.beforeComplete
    split
    · exact (clock ..).trans (taskAfter ..)
    · exact clock ..
  unfold Shared.completing
  simp only
  split
  · exact hbefore.trans (taskAfter ..)
  · exact hbefore

theorem barrierBegin (t : ℚ) (i : I) (s : View I G) :
    Retains s (Shared.barrierBegin true t i s) := by
  have hin : Retains s (s.1.modifyTask i fun d => { d with inBarrier := true }, s.2) :=
    modifyTask i ⟨rfl, rfl, rfl, le_refl _, fun _ => id⟩
  exact hin.trans (other _ _ _ _ _)

theorem syncRegionEnd (t : ℚ) (pd : Bool) (i : I) (s : View I G) :
    Retains s (Shared.syncRegionEnd true t pd i s) := by
  unfold Shared.syncRegionEnd
  simp only
  split
  · exact (other s.1 s.2 s.2 _ _).trans (modifyTask i ⟨rfl, rfl, rfl, le_refl _, fun _ => id⟩)
  · exact modifyTask i ⟨rfl, rfl, rfl, le_refl _, fun _ => id⟩

theorem dependences (t : ℚ) (i : I) (deps : List TaskDependency) (s : View I G) :
    Retains s (Shared.dependences true t i deps s) := by
  unfold Shared.dependences
  split
  · exact refl s
  · have hdeps : Retains s (s.1.modifyTask i fun d => { d with dependencies := deps },
        s.2.enterState true t .omp t) := modifyTask i ⟨rfl, rfl, rfl, le_refl _, fun _ => id⟩
    exact hdeps.trans (taskBefore ..)

theorem taskCreate (t : ℚ) (parent i : I) {type : TaskType}
    (htype : (type.undeferred || type.explicit || type.target) = true)
    (s : View I G) :
    Retains (s.1.modifyTask i (.new true parent (s.1.task parent).taskGroup type), s.2)
      (Shared.taskCreate true t parent i type s) := by
  unfold Shared.taskCreate
  simp only
  split
  · exact refl _
  · rename_i hdef
    rw [if_pos (by simpa [hdef] using htype)]
    exact ((clock _ _ _).trans (taskBefore _ _ s.2 i)).trans
      (modifyTask parent ⟨rfl, rfl, rfl, Nat.le_succ _, fun _ => id⟩)

theorem execution_taskCreate (t : ℚ) {parent i : I} (hne : parent ≠ i) {type : TaskType}
    (hdef : type.undeferred = false) (htype : (type.explicit || type.target) = true)
    (s : View I G) :
    ((Shared.taskCreate true t parent i type s).1.task parent).execution =
      (s.1.task parent).execution + 1 := by
  simp [Shared.taskCreate, hdef, htype, Shared.taskBefore, Shared.modifyTask, hne]

variable [DecidableEq G]

omit [DecidableEq I] in
theorem groupBefore (sh : Shared I G) (c : ThreadClock) (g : G) :
    Retains (sh, c) (sh.groupBefore true g c, c) := by
  refine ⟨fun i => .refl _, fun g' => ?_, fun g' v hv => ?_⟩
  · by_cases hg : g' = g
    · subst hg; simp [Shared.groupBefore, Shared.modifyGroup]
    · simp [Shared.groupBefore, Shared.modifyGroup, hg]
  · by_cases hg : g' = g
    · subst hg
      simpa [Shared.groupBefore, Shared.modifyGroup] using hv.ompHBefore c
    · simpa [Shared.groupBefore, Shared.modifyGroup, hg] using hv

theorem completeArcs (sh : Shared I G) (i : I) (c : ThreadClock) :
    Retains (sh, c) (sh.completeArcs true i c, c) := by
  have hbarrier : Retains (sh, c) (sh.barrierBefore true (sh.task i).barrierIndex c, c) :=
    other sh c c _ sh.heap
  unfold Shared.completeArcs
  simp only
  split
  · cases (sh.task i).parent with
    | none =>
      split
      · exact hbarrier.trans (groupBefore ..)
      · exact hbarrier
    | some parent =>
      have hwait := hbarrier.trans (taskwaitBefore _ c parent)
      split
      · exact hwait.trans (groupBefore ..)
      · exact hwait
  · split
    · exact taskBefore ..
    · exact refl _

theorem after_completeArcs {t : ℚ} {status : TaskStatus} (hst : status.completes = true)
    (i next : I) (s : View I G) :
    Retains ((Shared.completing t status i s).1.completeArcs true i
        (Shared.completing t status i s).2, (Shared.completing t status i s).2)
      (Shared.taskSchedule true t i status next s) := by
  obtain ⟨h, hcomplete⟩ := completeTask_beforeComplete t status i s
  cases status with
  | complete | cancel =>
    simp only [Shared.taskSchedule, hcomplete]
    exact (other _ _ _ _ h).trans (startTask ..)
  | lateFulfill =>
    simp only [Shared.taskSchedule, hcomplete]
    exact other _ _ _ _ h
  | yield | detach | earlyFulfill | switch | taskwaitComplete => cases hst

theorem taskSchedule (t : ℚ) (i : I) (status : TaskStatus) (next : I)
    (s : View I G) : Retains s (Shared.taskSchedule true t i status next s) := by
  by_cases hst : status.completes = true
  · exact ((completing t status i s).trans (completeArcs ..)).trans (after_completeArcs hst i next s)
  · cases status with
    | complete | cancel | lateFulfill => exact absurd rfl hst
    | earlyFulfill =>
      have henter : Retains s (s.1, s.2.enterState true t .omp t) := clock ..
      exact (henter.trans (taskBefore _ _ s.2 i)).trans
        (modifyTask i ⟨rfl, rfl, rfl, le_refl _, fun _ => id⟩)
    | taskwaitComplete => exact other s.1 s.2 _ s.1.barrier _
    | detach => exact (clock s.1 s.2 _).trans (startTask ..)
    | yield | switch => exact (suspendTask t i s).trans (startTask ..)

theorem execution_taskSchedule (t : ℚ) (i : I) {status : TaskStatus} (hst : status.switches = true)
    (next : I) (s : View I G) :
    1 ≤ ((Shared.taskSchedule true t i status next s).1.task next).execution := by
  cases status with
  | complete | cancel | detach | yield | switch => exact execution_startTask ..
  | earlyFulfill | lateFulfill | taskwaitComplete => cases hst

/-- A deferred task that completes passes on what its thread has in `completeTask`. -/
theorem covers_taskSchedule {t : ℚ} {status : TaskStatus} (hst : status.completes = true)
    {i : I} (next : I) {s : View I G} {v : Comp → ℚ}
    (hstate : (Shared.completing t status i s).2.getState ≠ .init)
    (hv : ∀ x, x ≠ .thread → v x ≤ ((Shared.completing t status i s).2.clocks .useful).get x)
    (hdef : (s.1.task i).type.undeferred = false) :
    (∀ j, (s.1.task i).parent = some j →
      ((Shared.taskSchedule true t i status next s).1.task j).taskwait.Covers v) ∧
    ∀ g, (s.1.task i).taskGroup = some g →
      ((Shared.taskSchedule true t i status next s).1.group g).ptr.Covers v := by
  have hpassed := Shared.passedOn_completeArcs (Shared.completing t status i s).1 i hstate hv
  have hafter := after_completeArcs (t := t) hst i next s
  obtain ⟨hgroup, hparent, hundef, -, -⟩ := (completing t status i s).task i
  refine ⟨fun j hj => (hafter.task j).taskwait v ?_, fun g hg => hafter.group g v ?_⟩
  · exact hpassed.taskwait (hundef.trans hdef) j (hparent.trans hj)
  · exact hpassed.group (hundef.trans hdef) g (hgroup.trans hg)

theorem waitCall (t : ℚ) (i : I) (call : WaitCall G) (s : View I G)
    (hbegin : ∀ g, call ≠ .taskgroupBegin g) (hend : call ≠ .taskgroupEnd) :
    Retains s (Shared.waitCall true t i call s) := by
  cases call with
  | taskwaitBegin | taskgroupWaitBegin | taskgroupWaitEnd =>
    exact modifyTask i ⟨rfl, rfl, rfl, le_refl _, fun _ => id⟩
  | taskwaitEnd =>
    refine modifyTask i ⟨rfl, rfl, rfl, le_refl _, fun v hv => ?_⟩
    dsimp only
    split
    · exact hv.ompHAfter _
    · exact hv
  | taskgroupBegin g => exact absurd rfl (hbegin g)
  | taskgroupEnd => exact absurd rfl hend

end Retains

end CritPath
