import CritPath.Omp.Task

/-!
# What the task callbacks leave alone

Explicit tasks touch the barrier clocks of their team in one place only, the
first arc of `completeTask`. Everything else in `task_create` and
`task_schedule` is `Quiet`: the barrier clocks and the fields of the tasks that
barriers read stay, and no value of the calling thread's `CLOCK_USEFUL` gets
smaller.
-/

namespace CritPath

def Grows (t : ℚ) (c c' : ThreadClock) : Prop :=
  ∀ x, x ≠ .thread → c.elapsed .useful x t ≤ c'.elapsed .useful x t

namespace Grows

variable {t : ℚ} {c c' c'' : ThreadClock}

theorem refl (t : ℚ) (c : ThreadClock) : Grows t c c := fun _ _ => le_refl _

theorem trans (h : Grows t c c') (h' : Grows t c' c'') : Grows t c c'' := fun x hx =>
  (h x hx).trans (h' x hx)

theorem enterState (t : ℚ) (cs : ClockState) (c : ThreadClock) :
    Grows t c (c.enterState true t cs t) := fun _ _ => (ThreadClock.elapsed_enterState ..).ge

theorem exitState (t : ℚ) (c : ThreadClock) (r : Bool) : Grows t c (c.exitState true t t r) := by
  intro x _
  cases r with
  | false => exact le_refl _
  | true => exact (ThreadClock.elapsed_exitState ..).ge

theorem ompHAfter (t : ℚ) (s : SyncClock) (c : ThreadClock) : Grows t c (s.ompHAfter true c).2 :=
  fun _ hx => SyncClock.le_elapsed_ompHAfter (by decide) hx t

theorem exec (t : ℚ) (o : LocalOp) (c : ThreadClock) : Grows t c (c.exec t o) := fun _ hx =>
  ThreadClock.le_elapsed_exec c o hx t

theorem later {u : ℚ} {v : Comp → ℚ} (h : ∀ x, x ≠ .thread → v x ≤ c.elapsed .useful x t)
    (htu : t ≤ u) (hg : Grows u c c') {x : Comp} (hx : x ≠ .thread) :
    v x ≤ c'.elapsed .useful x u :=
  ((h x hx).trans (ThreadClock.elapsed_mono _ _ _ htu)).trans (hg x hx)

theorem foldl_happensAfter (t : ℚ) (L : List (ℕ × DepClock)) (h : DepHeap × ThreadClock) :
    Grows t h.2 (L.foldl (fun h dk => DepHeap.happensAfter true dk.1 dk.2 h) h).2 := by
  induction L generalizing h with
  | nil => exact refl t h.2
  | cons dk L ih => exact (ompHAfter t (h.1 dk.1 dk.2) h.2).trans (ih _)

theorem acquireDependencies (t : ℚ) (deps : List TaskDependency) (h : DepHeap × ThreadClock) :
    Grows t h.2 (acquireDependencies true deps h).2 := by
  rw [acquireDependencies_eq]; exact foldl_happensAfter t _ h

end Grows

/-- The fields of a task that barriers and `completeTask` choose their clocks by. -/
def SameFields {I G : Type} (d d' : TaskData I G) : Prop :=
  d'.barrierIndex = d.barrierIndex ∧ d'.threadNum = d.threadNum ∧ d'.isRunning = d.isRunning ∧
    d'.type.undeferred = d.type.undeferred

/-- A callback at time `t` that keeps to itself. -/
structure Quiet {I G : Type} (t : ℚ) (s s' : View I G) : Prop where
  barrier : s'.1.barrier = s.1.barrier
  fields : ∀ i, SameFields (s.1.task i) (s'.1.task i)
  grows : Grows t s.2 s'.2

namespace Quiet

variable {I G : Type} {t : ℚ} {s s' s'' : View I G}

theorem refl (t : ℚ) (s : View I G) : Quiet t s s :=
  ⟨rfl, fun _ => ⟨rfl, rfl, rfl, rfl⟩, .refl t s.2⟩

theorem trans (h : Quiet t s s') (h' : Quiet t s' s'') : Quiet t s s'' where
  barrier := h'.barrier.trans h.barrier
  fields i := by
    obtain ⟨h₁, h₂, h₃, h₄⟩ := h.fields i
    obtain ⟨h₁', h₂', h₃', h₄'⟩ := h'.fields i
    exact ⟨h₁'.trans h₁, h₂'.trans h₂, h₃'.trans h₃, h₄'.trans h₄⟩
  grows := h.grows.trans h'.grows

theorem clock {sh : Shared I G} {c c' : ThreadClock} (h : Grows t c c') :
    Quiet t (sh, c) (sh, c') :=
  ⟨rfl, fun _ => ⟨rfl, rfl, rfl, rfl⟩, h⟩

theorem heap {sh : Shared I G} {c c' : ThreadClock} (hp : DepHeap) (h : Grows t c c') :
    Quiet t (sh, c) ({ sh with heap := hp }, c') :=
  ⟨rfl, fun _ => ⟨rfl, rfl, rfl, rfl⟩, h⟩

theorem suspendTaskEnd (t : ℚ) (i : I) (s : View I G) :
    Quiet t s (Shared.suspendTaskEnd true t i s) :=
  clock (.exitState _ _ _)

theorem group {sh : Shared I G} {c : ThreadClock} (gr : G → Taskgroup G) :
    Quiet t (sh, c) ({ sh with group := gr }, c) :=
  ⟨rfl, fun _ => ⟨rfl, rfl, rfl, rfl⟩, .refl t c⟩

variable [DecidableEq I]

theorem modifyTask {sh : Shared I G} {c c' : ThreadClock} (i : I) {f : TaskData I G → TaskData I G}
    (hf : SameFields (sh.task i) (f (sh.task i))) (h : Grows t c c') :
    Quiet t (sh, c) (sh.modifyTask i f, c') := by
  refine ⟨rfl, fun j => ?_, h⟩
  by_cases hj : j = i
  · subst hj; simpa [Shared.modifyTask] using hf
  · simp [Shared.modifyTask, hj, SameFields]

theorem taskBefore (sh : Shared I G) (c : ThreadClock) (i : I) :
    Quiet t (sh, c) (sh.taskBefore true i c, c) :=
  modifyTask i ⟨rfl, rfl, rfl, rfl⟩ (.refl t c)

theorem taskwaitBefore (sh : Shared I G) (c : ThreadClock) (i : I) :
    Quiet t (sh, c) (sh.taskwaitBefore true i c, c) :=
  modifyTask i ⟨rfl, rfl, rfl, rfl⟩ (.refl t c)

theorem taskAfter (t : ℚ) (i : I) (s : View I G) : Quiet t s (Shared.taskAfter true i s) :=
  modifyTask i ⟨rfl, rfl, rfl, rfl⟩ (.ompHAfter _ _ _)

theorem suspendTask (t : ℚ) (i : I) (s : View I G) : Quiet t s (Shared.suspendTask true t i s) := by
  unfold Shared.suspendTask
  simp only
  split
  · split
    · exact clock (.enterState _ _ _)
    · exact (clock (.exitState _ _ _)).trans (taskBefore ..)
  · exact clock (.enterState _ _ _)

theorem startTask (t : ℚ) (i : I) (s : View I G) : Quiet t s (Shared.startTask true t i s) := by
  unfold Shared.startTask
  simp only
  split
  · let sh := s.1.modifyTask i fun d => { d with execution := d.execution + 1 }
    let r := acquireDependencies true (s.1.task i).dependencies (sh.heap, s.2)
    have hexec : Quiet t s (sh, s.2) := modifyTask i ⟨rfl, rfl, rfl, rfl⟩ (.refl t s.2)
    have hacquire : Quiet t (sh, s.2) ({ sh with heap := r.1 }, r.2) :=
      heap r.1 (.acquireDependencies _ _ _)
    have hafter := taskAfter t i ({ sh with heap := r.1 }, r.2)
    exact ((hexec.trans hacquire).trans hafter).trans (clock (.enterState _ _ _))
  · split
    · split
      · exact clock (.exitState _ _ _)
      · exact (taskAfter ..).trans (clock (.enterState _ _ _))
    · exact clock (.exitState _ _ _)

theorem beforeComplete (t : ℚ) (status : TaskStatus) (i : I) (s : View I G) :
    Quiet t s (Shared.beforeComplete true t status i s) := by
  unfold Shared.beforeComplete
  split
  · have henter : Quiet t s (s.1, s.2.enterState true t .omp t) := clock (.enterState _ _ _)
    exact henter.trans (taskAfter ..)
  · exact suspendTaskEnd ..

theorem taskCreate (t : ℚ) (parent i : I) {type : TaskType}
    (htype : (type.undeferred || type.explicit || type.target) = true)
    (s : View I G) :
    Quiet t (s.1.modifyTask i (.new true parent (s.1.task parent).taskGroup type), s.2)
      (Shared.taskCreate true t parent i type s) := by
  unfold Shared.taskCreate
  simp only
  split
  · exact .refl t _
  · rename_i hdef
    rw [if_pos (by simpa [hdef] using htype)]
    exact (((clock (.enterState _ _ _)).trans (taskBefore ..)).trans
      (modifyTask parent ⟨rfl, rfl, rfl, rfl⟩ (.refl _ _))).trans (clock (.exitState _ _ _))

theorem dependences (t : ℚ) (i : I) (deps : List TaskDependency) (s : View I G) :
    Quiet t s (Shared.dependences true t i deps s) := by
  unfold Shared.dependences
  split
  · exact .refl t s
  · have hdeps : Quiet t s (s.1.modifyTask i fun d => { d with dependencies := deps },
        s.2.enterState true t .omp t) := modifyTask i ⟨rfl, rfl, rfl, rfl⟩ (.enterState _ _ _)
    exact (hdeps.trans (taskBefore ..)).trans (clock (.exitState _ _ _))

variable [DecidableEq G]

theorem waitCall (t : ℚ) (i : I) (call : WaitCall G) (s : View I G) :
    Quiet t s (Shared.waitCall true t i call s) := by
  cases call with
  | taskwaitBegin | taskgroupWaitBegin =>
    exact modifyTask i ⟨rfl, rfl, rfl, rfl⟩ (.enterState _ _ _)
  | taskwaitEnd =>
    refine modifyTask i ⟨rfl, rfl, rfl, rfl⟩ (Grows.trans ?_ (.exitState _ _ _))
    split
    · exact .ompHAfter _ _ _
    · exact .refl _ _
  | taskgroupBegin g =>
    have hgroup : Quiet t s (s.1.modifyGroup g fun tg =>
        { tg with parent := (s.1.task i).taskGroup }, s.2) := group _
    exact hgroup.trans (modifyTask i ⟨rfl, rfl, rfl, rfl⟩ (.refl _ _))
  | taskgroupWaitEnd => exact modifyTask i ⟨rfl, rfl, rfl, rfl⟩ (.exitState _ _ _)
  | taskgroupEnd =>
    simp only [Shared.waitCall]
    split
    · exact .refl t s
    · have hgroup : ∀ gr, Quiet t s ({ s.1 with group := gr }, s.2) := fun gr => group gr
      exact (hgroup _).trans (modifyTask i ⟨rfl, rfl, rfl, rfl⟩
        (((Grows.enterState _ _ _).trans (.ompHAfter _ _ _)).trans (.exitState _ _ _)))

/-- An undeferred task signals its parent's task clock only. -/
theorem completeArcs_undeferred (sh : Shared I G) (c : ThreadClock) {i : I}
    (hi : (sh.task i).type.undeferred = true) :
    Quiet t (sh, c) (sh.completeArcs true i c, c) := by
  unfold Shared.completeArcs
  simp only [hi, Bool.not_true, Bool.false_eq_true, ↓reduceIte]
  split
  · exact taskBefore ..
  · exact .refl t _

/-- After its arc to the barrier a deferred task keeps to itself. -/
theorem completeArcs_deferred (sh : Shared I G) (c : ThreadClock) {i : I}
    (hi : (sh.task i).type.undeferred = false) :
    Quiet t (sh.barrierBefore true (sh.task i).barrierIndex c, c)
      (sh.completeArcs true i c, c) := by
  unfold Shared.completeArcs
  simp only [hi, Bool.not_false, ↓reduceIte]
  cases (sh.task i).parent with
  | none =>
    split
    · exact group _
    · exact .refl t _
  | some parent =>
    split
    · exact (taskwaitBefore _ _ parent).trans (group _)
    · exact taskwaitBefore _ _ parent

end Quiet

section
variable {I G : Type} {t : ℚ} {s s' : View I G}

structure SignalsBarrier (t : ℚ) (s s' : View I G) (k : ℕ) (c : ThreadClock) :
    Prop where
  barrier : s'.1.barrier = Function.update s.1.barrier k ((s.1.barrier k).ompHBefore true c)
  fields : ∀ i, SameFields (s.1.task i) (s'.1.task i)
  before : Grows t s.2 c
  after : Grows t c s'.2

theorem Quiet.signal {sh : Shared I G} {c : ThreadClock} {k : ℕ} (h : Quiet t s (sh, c))
    (h' : Quiet t (sh.barrierBefore true k c, c) s') : SignalsBarrier t s s' k c where
  barrier := by rw [h'.barrier, Shared.barrierBefore, h.barrier]
  fields i := (h.trans ⟨rfl, h'.fields, h'.grows⟩ :
    Quiet t s ({ s'.1 with barrier := sh.barrier }, s'.2)).fields i
  before := h.grows
  after := h'.grows

variable [DecidableEq I]

/-- The shared data and the executing thread's clock in `completeTask` when it makes its arcs. -/
def Shared.completing (t : ℚ) (status : TaskStatus) (i : I) (s : View I G) : View I G :=
  let s := beforeComplete true t status i s
  if (s.1.task i).type.fulfilled then taskAfter true i s else s

theorem Quiet.completing (t : ℚ) (status : TaskStatus) (i : I) (s : View I G) :
    Quiet t s (Shared.completing t status i s) := by
  unfold Shared.completing
  simp only
  split
  · exact (beforeComplete ..).trans (taskAfter ..)
  · exact beforeComplete ..

variable [DecidableEq G]

theorem completeTask_beforeComplete (t : ℚ) (status : TaskStatus) (i : I) (s : View I G) :
    ∃ h, Shared.completeTask true i (Shared.beforeComplete true t status i s) =
      ({ (Shared.completing t status i s).1.completeArcs true i (Shared.completing t status i s).2
          with heap := h }, (Shared.completing t status i s).2) :=
  ⟨_, rfl⟩

theorem Quiet.after_completeTask {status : TaskStatus} (hst : status.completes = true) (i next : I)
    (s : View I G) :
    Quiet t ((Shared.completing t status i s).1.completeArcs true i
        (Shared.completing t status i s).2, (Shared.completing t status i s).2)
      (Shared.taskSchedule true t i status next s) := by
  obtain ⟨h, hcomplete⟩ := completeTask_beforeComplete t status i s
  cases status with
  | complete | cancel =>
    simp only [Shared.taskSchedule, hcomplete]
    exact (heap h (.refl _ _)).trans (startTask ..)
  | lateFulfill =>
    simp only [Shared.taskSchedule, hcomplete]
    exact heap h (.exitState _ _ _)
  | yield | detach | earlyFulfill | switch | taskwaitComplete => cases hst

/-- A deferred task that completes signals the barrier clock of its own index. -/
theorem taskSchedule_signals {status : TaskStatus} (hst : status.completes = true) (i next : I)
    (s : View I G) (hi : (s.1.task i).type.undeferred = false) :
    SignalsBarrier t s (Shared.taskSchedule true t i status next s) (s.1.task i).barrierIndex
      (Shared.completing t status i s).2 := by
  have hq := Quiet.completing t status i s
  obtain ⟨hidx, -, -, hdef⟩ := hq.fields i
  have harcs := Quiet.completeArcs_deferred (t := t) (Shared.completing t status i s).1
    (Shared.completing t status i s).2 (hdef.trans hi)
  rw [hidx] at harcs
  exact hq.signal (harcs.trans (Quiet.after_completeTask hst i next s))

theorem Quiet.taskSchedule {status : TaskStatus} (i next : I) (s : View I G)
    (h : status.completes = true → (s.1.task i).type.undeferred = true) :
    Quiet t s (Shared.taskSchedule true t i status next s) := by
  by_cases hst : status.completes = true
  · have hq := Quiet.completing t status i s
    have hdef := (hq.fields i).2.2.2
    exact (hq.trans (completeArcs_undeferred _ _ (hdef.trans (h hst)))).trans
      (after_completeTask hst i next s)
  · cases status with
    | complete | cancel | lateFulfill => exact absurd rfl hst
    | earlyFulfill =>
      have henter : Quiet t s (s.1, s.2.enterState true t .omp t) := clock (.enterState _ _ _)
      exact ((henter.trans (taskBefore ..)).trans
        (modifyTask i ⟨rfl, rfl, rfl, rfl⟩ (.refl _ _))).trans (clock (.exitState _ _ _))
    | taskwaitComplete =>
      have hgrows := (Grows.enterState t .omp s.2).trans
        (.acquireDependencies t (s.1.task i).dependencies (s.1.heap, s.2.enterState true t .omp t))
      exact heap _ (hgrows.trans (.exitState _ _ _))
    | detach => exact (suspendTaskEnd t i s).trans (startTask ..)
    | yield | switch => exact (suspendTask t i s).trans (startTask ..)

end

end CritPath
