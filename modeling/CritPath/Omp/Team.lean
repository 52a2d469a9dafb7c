import CritPath.Lib.Phases
import CritPath.Omp.TaskFrame
import Mathlib.Data.Fintype.Basic

/-!
# Runs of a team

A team of threads `T` with explicit tasks `K`: the callbacks of its threads,
interleaved in any order that OpenMP allows. The begin of a barrier is two steps
on thread 0, since other threads may run between its arc and its reset; a
barrier counts as begun by thread 0 once the callback has returned.

The state keeps which task each thread executes, how many barriers it has begun
and ended, which tasks exist and are complete, and, only for statements, the
clocks with which the threads entered the barriers.
-/

namespace CritPath

open Lib

structure Crew (T : Type) where
  num : T → ℕ
  inj : Function.Injective num
  primary : T
  primary_num : num primary = 0

theorem Crew.num_eq_zero_iff {T : Type} (crew : Crew T) (p : T) :
    crew.num p = 0 ↔ p = crew.primary := by
  constructor
  · intro h
    exact crew.inj (h.trans crew.primary_num.symm)
  · rintro rfl
    exact crew.primary_num

/-- A team of two; `false` is the primary thread. -/
def Crew.pair : Crew Bool := ⟨Bool.toNat, by intro a b; revert a b; decide, false, rfl⟩

inductive Callback (T K G : Type) where
  | work (o : LocalOp)
  | parallelBegin
  | implicitTaskBegin
  | barrierBegin
  | barrierReset
  | barrierEnd (parallelData : Bool)
  | wait (call : WaitCall G)
  | taskCreate (κ : K) (type : TaskType)
  | dependences (κ : K) (deps : List TaskDependency)
  | taskSchedule (i : T ⊕ K) (status : TaskStatus) (next : T ⊕ K)

structure Label (T K G : Type) where
  time : ℚ
  thread : T
  call : Callback T K G

/-- A team. The implicit task of thread `p` is `.inl p`. -/
structure Team (T K G : Type) where
  now : ℚ
  clock : T → ThreadClock
  shared : Shared (T ⊕ K) G
  current : T → T ⊕ K
  forked : Bool
  started : T → Bool
  phases : Phases T
  entry : ℕ → T → ThreadClock
  created : K → Bool
  completed : K → Bool
  /-- The barrier that a task was generated before. -/
  epoch : K → ℕ

def TaskStatus.switches : TaskStatus → Bool
  | .earlyFulfill | .lateFulfill | .taskwaitComplete => false
  | _ => true

namespace Team

variable {T K G : Type}

/-- Before the parallel region, with any clocks and any records from the pools. -/
def initial (now : ℚ) (clock : T → ThreadClock) (shared : Shared (T ⊕ K) G) : Team T K G :=
  ⟨now, clock, shared, .inl, false, fun _ => false, .start T, fun _ => clock, fun _ => false,
    fun _ => false, fun _ => 0⟩

/-- A team whose implicit tasks have begun, with fresh barrier clocks. -/
def ready (crew : Crew T) (now : ℚ) (clock : T → ThreadClock) : Team T K G :=
  let task : T ⊕ K → TaskData (T ⊕ K) G :=
    Sum.elim (fun p => .newImplicit true (crew.num p) {}) fun _ => {}
  { initial now clock { (.fresh : Shared (T ⊕ K) G) with task := task } with
    forked := true
    started := fun _ => true }

variable [DecidableEq T]

def onThread (t : ℚ) (p : T)
    (f : Shared (T ⊕ K) G × ThreadClock → Shared (T ⊕ K) G × ThreadClock) (σ : Team T K G) :
    Team T K G :=
  let r := f (σ.shared, σ.clock p)
  { σ with now := t, shared := r.1, clock := Function.update σ.clock p r.2 }

variable [DecidableEq K] [DecidableEq G]

def step (crew : Crew T) (σ : Team T K G) (a : Label T K G) : Team T K G :=
  let p := a.thread
  let t := a.time
  match a.call with
  | .work o => σ.onThread t p fun s => (s.1, s.2.exec t o)
  | .parallelBegin => { σ.onThread t p (Shared.parallelBegin true t) with forked := true }
  | .implicitTaskBegin =>
    { σ.onThread t p (Shared.implicitTaskBegin true t (.inl p) (crew.num p)) with
      started := Function.update σ.started p true }
  | .barrierBegin =>
    let σ' := σ.onThread t p (Shared.barrierBegin true t (.inl p))
    { σ' with
      phases := σ.phases.enter p ((σ.shared.task (.inl p)).threadNum = 0)
      entry := Function.update σ.entry (σ.phases.ended p)
        (Function.update (σ.entry (σ.phases.ended p)) p (σ'.clock p)) }
  | .barrierReset =>
    { σ.onThread t p fun s => (s.1.barrierReset true (.inl p), s.2) with
      phases := σ.phases.prepare }
  | .barrierEnd parallelData =>
    { σ.onThread t p (Shared.syncRegionEnd true t parallelData (.inl p)) with
      phases := σ.phases.leave p }
  | .wait call => σ.onThread t p (Shared.waitCall true t (σ.current p) call)
  | .taskCreate κ type =>
    { σ.onThread t p (Shared.taskCreate true t (σ.current p) (.inr κ) type) with
      created := Function.update σ.created κ true
      epoch := Function.update σ.epoch κ (σ.phases.ended p) }
  | .dependences κ deps => σ.onThread t p (Shared.dependences true t (.inr κ) deps)
  | .taskSchedule i status next =>
    { σ.onThread t p (Shared.taskSchedule true t i status next) with
      current := if status.switches then Function.update σ.current p next else σ.current
      completed := fun κ => σ.completed κ || (status.completes && decide (i = .inr κ)) }

def Executes (σ : Team T K G) (p : T) : Prop :=
  σ.current p ≠ .inl p ∨ σ.phases.begun p = σ.phases.ended p

/-- Thread `p` may go on with task `i`. -/
def Runnable (σ : Team T K G) (p : T) : T ⊕ K → Prop
  | .inl q => q = p
  | .inr κ => σ.created κ = true ∧ σ.completed κ = false

/-- What OpenMP allows, for each callback. -/
def Allowed (crew : Crew T) (σ : Team T K G) (p : T) : Callback T K G → Prop
  | .work _ => σ.Executes p
  | .parallelBegin => p = crew.primary ∧ σ.forked = false
  | .implicitTaskBegin => σ.forked = true ∧ σ.started p = false
  | .barrierBegin =>
    σ.started p = true ∧ σ.current p = .inl p ∧ σ.phases.begun p = σ.phases.ended p
  | .barrierReset => p = crew.primary ∧ σ.phases.busy = true
  | .barrierEnd _ =>
    σ.current p = .inl p ∧ σ.phases.begun p = σ.phases.ended p + 1 ∧
    (∀ q, σ.phases.begun p ≤ σ.phases.entered crew.primary q) ∧
    ∀ κ, σ.created κ = true ∧ σ.epoch κ ≤ σ.phases.ended p → σ.completed κ = true
  | .wait _ => σ.Executes p
  | .taskCreate κ type => σ.Executes p ∧ σ.started p = true ∧ σ.created κ = false ∧
    (type.undeferred || type.explicit || type.target) = true
  | .dependences κ _ => σ.Executes p ∧ σ.created κ = true
  | .taskSchedule i status next =>
    σ.started p = true ∧
    (status.completes = true → i.isRight = true ∧ σ.Runnable p i) ∧
    (status.switches = true → i = σ.current p ∧ σ.Runnable p next)

/-- The states that `suspendTaskEnd` checks: a task ends in `STATE_USEFUL`, and its thread goes back
to `STATE_OMP`. A failed `omp_test_lock` in the task leaves another state on top. -/
def EndsUseful (σ : Team T K G) (p : T) (status : TaskStatus) : Prop :=
  status = .complete ∨ status = .cancel → (σ.clock p).stack.take 2 = [.useful, .omp]

instance (σ : Team T K G) (p : T) (status : TaskStatus) : Decidable (σ.EndsUseful p status) :=
  inferInstanceAs (Decidable (_ → _))

def machine (crew : Crew T) (K G : Type) [DecidableEq K] [DecidableEq G] :
    Machine (Team T K G) (Label T K G) where
  step := step crew
  guard σ a := σ.now ≤ a.time ∧ σ.Allowed crew a.thread a.call

instance (σ : Team T K G) (p : T) : Decidable (σ.Executes p) :=
  inferInstanceAs (Decidable (_ ∨ _))

instance (σ : Team T K G) (p : T) : ∀ i, Decidable (σ.Runnable p i)
  | .inl _ => inferInstanceAs (Decidable (_ = _))
  | .inr _ => inferInstanceAs (Decidable (_ ∧ _))

instance [Fintype T] [Fintype K] (crew : Crew T) (σ : Team T K G) (p : T) :
    ∀ call, Decidable (σ.Allowed crew p call)
  | .work _ | .wait _ => inferInstanceAs (Decidable (σ.Executes p))
  | .parallelBegin | .implicitTaskBegin | .barrierReset => inferInstanceAs (Decidable (_ ∧ _))
  | .barrierBegin | .barrierEnd _ => inferInstanceAs (Decidable (_ ∧ _ ∧ _))
  | .taskCreate _ _ => inferInstanceAs (Decidable (σ.Executes p ∧ _))
  | .dependences _ _ => inferInstanceAs (Decidable (σ.Executes p ∧ _))
  | .taskSchedule i _ next =>
    inferInstanceAs (Decidable (_ ∧ (_ → _ ∧ σ.Runnable p i) ∧ (_ → _ ∧ σ.Runnable p next)))

instance [Fintype T] [Fintype K] (crew : Crew T) (σ : Team T K G) (a : Label T K G) :
    Decidable ((machine crew K G).guard σ a) :=
  inferInstanceAs (Decidable (_ ∧ σ.Allowed crew a.thread a.call))

/-- What a run of a team starts from: any clocks and records. -/
structure Setup (T K G : Type) where
  crew : Crew T
  now : ℚ
  nonneg : 0 ≤ now
  clock : T → ThreadClock
  shared : Shared (T ⊕ K) G

def Setup.reached (S : Setup T K G) (as : List (Label T K G)) : Team T K G :=
  (machine S.crew K G).run (.initial S.now S.clock S.shared) as

def Setup.Valid (S : Setup T K G) (as : List (Label T K G)) : Prop :=
  (machine S.crew K G).Valid (.initial S.now S.clock S.shared) as

instance [Fintype T] [Fintype K] (S : Setup T K G) (as : List (Label T K G)) :
    Decidable (S.Valid as) :=
  inferInstanceAs (Decidable (Machine.Valid ..))

end Team

/-! ## The shape of a team -/

namespace Team

variable {T K G : Type} [DecidableEq T]

/-- Threads are in step, and the records of the tasks say so. -/
structure Shape (crew : Crew T) (σ : Team T K G) : Prop where
  phases : σ.phases.Ok crew.primary
  implicit : ∀ p, σ.started p = true → (σ.shared.task (.inl p)).barrierIndex = σ.phases.ended p % 3 ∧
    (σ.shared.task (.inl p)).threadNum = crew.num p ∧ (σ.shared.task (.inl p)).isRunning = true
  notStarted : ∀ p, σ.started p = false → σ.phases.begun p = 0
  explicit : ∀ κ, σ.created κ = true → (σ.shared.task (.inr κ)).barrierIndex = 0 ∧
    (σ.shared.task (.inr κ)).isRunning = true

namespace Shape

variable {crew : Crew T} {σ σ' : Team T K G} {t : ℚ} {p : T}

theorem initial (crew : Crew T) (now : ℚ) (clock : T → ThreadClock) (shared : Shared (T ⊕ K) G) :
    Shape crew (.initial now clock shared) :=
  ⟨.start _, fun _ h => absurd h Bool.false_ne_true, fun _ _ => rfl,
    fun _ h => absurd h Bool.false_ne_true⟩

theorem ready (crew : Crew T) (now : ℚ) (clock : T → ThreadClock) :
    Shape crew (.ready crew now clock : Team T K G) :=
  ⟨.start _, fun _ _ => ⟨rfl, rfl, rfl⟩, fun _ _ => rfl, fun _ h => absurd h Bool.false_ne_true⟩

/-- Thread 0 is the primary thread. -/
theorem threadNum_eq_zero_iff (h : Shape crew σ) (hp : σ.started p = true) :
    (σ.shared.task (.inl p)).threadNum = 0 ↔ p = crew.primary := by
  rw [(h.implicit p hp).2.1, ← crew.num_eq_zero_iff]
  exact Int.natCast_eq_zero

/-- The test in `ompt_tsan_sync_region`. -/
theorem leads_iff (h : Shape crew σ) (hp : σ.started p = true) :
    decide ((σ.shared.task (.inl p)).threadNum = 0) = true ↔ p = crew.primary :=
  decide_eq_true_iff.trans (h.threadNum_eq_zero_iff hp)

theorem started_of_begun (h : Shape crew σ) (hp : 0 < σ.phases.begun p) : σ.started p = true := by
  by_contra hs
  have := h.notStarted p (by simpa using hs)
  omega

/-- The shape only depends on the counts and on the fields that `SameFields` is about. -/
theorem congr (h : Shape crew σ) (hphases : σ'.phases = σ.phases)
    (hstarted : σ'.started = σ.started) (hcreated : σ'.created = σ.created)
    (hfields : ∀ i, SameFields (σ.shared.task i) (σ'.shared.task i)) : Shape crew σ' where
  phases := by rw [hphases]; exact h.phases
  implicit q hq := by
    obtain ⟨h₁, h₂, h₃, -⟩ := hfields (.inl q)
    rw [h₁, h₂, h₃, hphases]
    exact h.implicit q (by rw [← hstarted]; exact hq)
  notStarted q hq := by
    rw [hphases]
    exact h.notStarted q (by rw [← hstarted]; exact hq)
  explicit κ hκ := by
    obtain ⟨h₁, -, h₃, -⟩ := hfields (.inr κ)
    rw [h₁, h₃]
    exact h.explicit κ (by rw [← hcreated]; exact hκ)

variable [DecidableEq K] [DecidableEq G]

theorem implicitTaskBegin (h : Shape crew σ) (hp : σ.started p = false) :
    Shape crew (σ.step crew ⟨t, p, .implicitTaskBegin⟩) where
  phases := h.phases
  implicit q hq := by
    by_cases hqp : q = p
    · -- a new record, and no barrier so far
      subst hqp
      have hended : σ.phases.ended q = 0 := by
        have := h.phases.ended_le q
        have := h.notStarted q hp
        omega
      simp [step, onThread, Shared.implicitTaskBegin, Shared.barrierAfter, Shared.modifyTask,
        TaskData.newImplicit, hended]
    · have hq' : σ.started q = true := by simpa [step, hqp] using hq
      simpa [step, onThread, Shared.implicitTaskBegin, Shared.barrierAfter, Shared.modifyTask, hqp]
        using h.implicit q hq'
  notStarted q hq := by
    by_cases hqp : q = p
    · subst hqp; exact h.notStarted q hp
    · exact h.notStarted q (by simpa [step, hqp] using hq)
  explicit κ hκ := by
    simpa [step, onThread, Shared.implicitTaskBegin, Shared.barrierAfter, Shared.modifyTask]
      using h.explicit κ hκ

theorem barrierBegin (h : Shape crew σ) (hs : σ.started p = true)
    (hp : σ.phases.begun p = σ.phases.ended p) :
    Shape crew (σ.step crew ⟨t, p, .barrierBegin⟩) where
  phases := by
    exact h.phases.enter (h.leads_iff hs) hp
  implicit q hq := by
    by_cases hqp : q = p
    · subst hqp
      simpa [step, onThread, Shared.barrierBegin, Shared.barrierBefore, Shared.modifyTask,
        Phases.enter] using h.implicit q hq
    · simpa [step, onThread, Shared.barrierBegin, Shared.barrierBefore, Shared.modifyTask,
        Phases.enter, hqp] using h.implicit q hq
  notStarted q hq := by
    have hqp : q ≠ p := by
      rintro rfl
      exact absurd hs (by simpa [step, onThread] using hq)
    simpa [step, Phases.enter, hqp] using h.notStarted q hq
  explicit κ hκ := by
    simpa [step, onThread, Shared.barrierBegin, Shared.barrierBefore, Shared.modifyTask]
      using h.explicit κ hκ

theorem barrierReset (h : Shape crew σ) : Shape crew (σ.step crew ⟨t, p, .barrierReset⟩) :=
  ⟨h.phases.prepare, h.implicit, h.notStarted, h.explicit⟩

theorem barrierEnd (h : Shape crew σ) {parallelData : Bool}
    (hp : σ.phases.begun p = σ.phases.ended p + 1)
    (hall : ∀ q, σ.phases.begun p ≤ σ.phases.entered crew.primary q) :
    Shape crew (σ.step crew ⟨t, p, .barrierEnd parallelData⟩) where
  phases := h.phases.leave hp hall
  implicit q hq := by
    have hq' := h.implicit q hq
    by_cases hqp : q = p
    · subst hqp
      simp only [step, onThread, Shared.syncRegionEnd, Shared.modifyTask, Shared.barrierAfter,
        Phases.leave, Function.update_self]
      split <;> refine ⟨?_, hq'.2⟩ <;> rw [hq'.1] <;> omega
    · simp only [step, onThread, Shared.syncRegionEnd, Shared.modifyTask, Shared.barrierAfter,
        Phases.leave, Function.update_of_ne hqp]
      split <;> simpa [hqp] using hq'
  notStarted := h.notStarted
  explicit κ hκ := by
    simp only [step, onThread, Shared.syncRegionEnd, Shared.modifyTask, Shared.barrierAfter]
    split <;> simpa using h.explicit κ hκ

theorem taskCreate (h : Shape crew σ) {κ : K} {type : TaskType}
    (htype : (type.undeferred || type.explicit || type.target) = true) :
    Shape crew (σ.step crew ⟨t, p, .taskCreate κ type⟩) := by
  have hq := Quiet.taskCreate t (σ.current p) (.inr κ) htype (σ.shared, σ.clock p)
  -- first the record, then what `task_create` does with it
  have hnew : Shape crew { σ with
      shared := σ.shared.modifyTask (.inr κ)
        (.new true (σ.current p) (σ.shared.task (σ.current p)).taskGroup type)
      created := Function.update σ.created κ true } := by
    refine ⟨h.phases, fun q hq => ?_, h.notStarted, fun κ' hκ => ?_⟩
    · simpa [Shared.modifyTask] using h.implicit q hq
    · by_cases hκκ : κ' = κ
      · subst hκκ; simp [Shared.modifyTask, TaskData.new]
      · simpa [Shared.modifyTask, hκκ] using h.explicit κ' (by simpa [hκκ] using hκ)
  exact hnew.congr rfl rfl rfl hq.fields

theorem step (h : Shape crew σ) {a : Label T K G} (ha : (machine crew K G).guard σ a) :
    Shape crew (σ.step crew a) := by
  obtain ⟨t, p, call⟩ := a
  obtain ⟨-, hallowed⟩ := ha
  cases call with
  | work o => exact h.congr rfl rfl rfl fun _ => ⟨rfl, rfl, rfl, rfl⟩
  | parallelBegin => exact h.congr rfl rfl rfl fun _ => ⟨rfl, rfl, rfl, rfl⟩
  | implicitTaskBegin => exact h.implicitTaskBegin hallowed.2
  | barrierBegin => exact h.barrierBegin hallowed.1 hallowed.2.2
  | barrierReset => exact h.barrierReset
  | barrierEnd pd => exact h.barrierEnd hallowed.2.1 hallowed.2.2.1
  | wait call => exact h.congr rfl rfl rfl (Quiet.waitCall t _ call (σ.shared, σ.clock p)).fields
  | taskCreate κ type => exact h.taskCreate hallowed.2.2.2
  | dependences κ deps =>
    exact h.congr rfl rfl rfl (Quiet.dependences t _ deps (σ.shared, σ.clock p)).fields
  | taskSchedule i status next =>
    refine h.congr rfl rfl rfl ?_
    by_cases hc : status.completes = true ∧ (σ.shared.task i).type.undeferred = false
    · exact (taskSchedule_signals hc.1 i next (σ.shared, σ.clock p) hc.2).fields
    · exact (Quiet.taskSchedule i next (σ.shared, σ.clock p)
        fun hst => by simpa [hst] using hc).fields

end Shape

/-! ## What a step does -/

section
variable {crew : Crew T} {σ : Team T K G} {t : ℚ} {p : T}

/-- Whether a thread performs the `OmpHappensAfter` when it leaves a barrier. -/
def performs (crew : Crew T) (p : T) (parallelData : Bool) : Prop :=
  parallelData = true ∨ p = crew.primary

theorem syncRegionEnd_performs (h : Shape crew σ) (hs : σ.started p = true) (pd : Bool) :
    (pd || decide ((σ.shared.task (.inl p)).threadNum = 0)) = true ↔ performs crew p pd := by
  rw [Bool.or_eq_true, h.leads_iff hs]
  rfl

variable [DecidableEq K] [DecidableEq G]

@[simp] theorem now_step (a : Label T K G) : (σ.step crew a).now = a.time := by
  obtain ⟨t, p, call⟩ := a
  cases call <;> rfl

theorem clock_step_of_ne {q : T} (hq : q ≠ p) (call : Callback T K G) :
    (σ.step crew ⟨t, p, call⟩).clock q = σ.clock q := by
  cases call <;> exact Function.update_of_ne hq _ _

theorem barrier_barrierBegin (h : Shape crew σ) (hs : σ.started p = true) :
    (σ.step crew ⟨t, p, .barrierBegin⟩).shared.barrier =
      Function.update σ.shared.barrier (σ.phases.ended p % 3)
        ((σ.shared.barrier (σ.phases.ended p % 3)).ompHBefore true
          ((σ.clock p).enterState true t .omp t)) := by
  simp [step, onThread, Shared.barrierBegin, Shared.barrierBefore, Shared.modifyTask,
    (h.implicit p hs).1]

theorem clock_barrierBegin :
    (σ.step crew ⟨t, p, .barrierBegin⟩).clock p = (σ.clock p).enterState true t .omp t := by
  simp [step, onThread, Shared.barrierBegin]

theorem barrier_barrierReset (h : Shape crew σ) (hs : σ.started p = true) :
    (σ.step crew ⟨t, p, .barrierReset⟩).shared.barrier =
      Function.update σ.shared.barrier ((σ.phases.ended p + 1) % 3)
        ((σ.shared.barrier ((σ.phases.ended p + 1) % 3)).ompCReset true) := by
  have hmod : (σ.phases.ended p % 3 + 1) % 3 = (σ.phases.ended p + 1) % 3 := by omega
  simp [step, onThread, Shared.barrierReset, (h.implicit p hs).1, hmod]

theorem clock_barrierReset (q : T) :
    (σ.step crew ⟨t, p, .barrierReset⟩).clock q = σ.clock q := by
  simp [step, onThread]

/-- The two steps of the begin of a barrier, one after the other, are the callback. -/
theorem syncRegionBegin_eq (crew : Crew T) (σ : Team T K G) (t : ℚ) (p : T) :
    Shared.syncRegionBegin true t (.inl p) (σ.shared, σ.clock p) =
      let σ₁ := σ.step crew ⟨t, p, .barrierBegin⟩
      let σ₂ := if (σ.shared.task (.inl p)).threadNum = 0 then σ₁.step crew ⟨t, p, .barrierReset⟩
        else σ₁
      (σ₂.shared, σ₂.clock p) := by
  simp only [Shared.syncRegionBegin]
  split <;> rename_i h <;>
    simp_all [step, onThread, Shared.barrierBegin, Shared.barrierBefore, Shared.modifyTask]

/-- Leaving a barrier only changes the state of its clock. -/
theorem barrier_barrierEnd (h : Shape crew σ) (hs : σ.started p = true) (pd : Bool) (k : ℕ) :
    (σ.step crew ⟨t, p, .barrierEnd pd⟩).shared.barrier k = σ.shared.barrier k ∨
    k = σ.phases.ended p % 3 ∧ (σ.step crew ⟨t, p, .barrierEnd pd⟩).shared.barrier k =
      ((σ.shared.barrier k).ompHAfter true (σ.clock p)).1 := by
  simp only [step, onThread, Shared.syncRegionEnd, Shared.modifyTask, Shared.barrierAfter,
    (h.implicit p hs).1]
  split
  · by_cases hk : k = σ.phases.ended p % 3
    · subst hk
      exact .inr ⟨rfl, by simp⟩
    · exact .inl (by simp [hk])
  · exact .inl rfl

/-- A thread that performs the arc leaves with the maximum. -/
theorem elapsed_barrierEnd (h : Shape crew σ) (hs : σ.started p = true) {pd : Bool}
    (hpd : performs crew p pd) {x : Comp} (hx : x ≠ .thread) :
    ((σ.step crew ⟨t, p, .barrierEnd pd⟩).clock p).elapsed .useful x t =
      max ((σ.clock p).elapsed .useful x t)
        (((σ.shared.barrier (σ.phases.ended p % 3)).clocks .useful).get x +
          runTerm (σ.clock p).getState .useful t) := by
  have hif := (syncRegionEnd_performs h hs pd).mpr hpd
  obtain ⟨hindex, -, hrun⟩ := h.implicit p hs
  simp only [step, onThread, Shared.syncRegionEnd, Shared.modifyTask, Shared.barrierAfter, hif,
    ↓reduceIte, Function.update_self, hindex, hrun, ThreadClock.elapsed_exitState]
  exact SyncClock.elapsed_ompHAfter (by decide) hx t

/-- A barrier clock keeps what it covers until it is reset. -/
theorem covers_step (h : Shape crew σ) {a : Label T K G} (ha : (machine crew K G).guard σ a) {k : ℕ}
    {v : Comp → ℚ} (hk : (σ.shared.barrier k).Covers v)
    (hreset : a.call = .barrierReset → σ.phases.busy = true →
      k ≠ (σ.phases.ended crew.primary + 1) % 3) :
    ((σ.step crew a).shared.barrier k).Covers v := by
  obtain ⟨t, p, call⟩ := a
  obtain ⟨-, hallowed⟩ := ha
  have hsignal : ∀ (b : ℕ → SyncClock) j tc,
      b = Function.update σ.shared.barrier j ((σ.shared.barrier j).ompHBefore true tc) →
      (b k).Covers v := by
    rintro _ j tc rfl
    by_cases hkj : k = j
    · subst hkj
      rw [Function.update_self]
      exact hk.ompHBefore tc
    · rwa [Function.update_of_ne hkj]
  cases call with
  | work o => exact hk
  | parallelBegin => exact hsignal _ _ _ rfl
  | implicitTaskBegin =>
    show ((Function.update σ.shared.barrier 1 _) k).Covers v
    by_cases hk1 : k = 1
    · subst hk1
      rw [Function.update_self]
      exact hk.ompHAfter _
    · rwa [Function.update_of_ne hk1]
  | barrierBegin => exact hsignal _ _ _ (barrier_barrierBegin h hallowed.1)
  | barrierReset =>
    obtain ⟨hp, hbusy⟩ := hallowed
    obtain rfl : p = crew.primary := hp
    have hbegun := h.phases.busy hbusy
    rw [barrier_barrierReset h (h.started_of_begun (by omega)),
      Function.update_of_ne (hreset rfl hbusy)]
    exact hk
  | barrierEnd pd =>
    have hbegun : σ.phases.begun p = σ.phases.ended p + 1 := hallowed.2.1
    have hs : σ.started p = true := h.started_of_begun (by omega)
    rcases barrier_barrierEnd (t := t) h hs pd k with hk' | ⟨-, hk'⟩
    · rwa [hk']
    · rw [hk']
      exact hk.ompHAfter _
  | wait call =>
    have hq := Quiet.waitCall t (σ.current p) call (σ.shared, σ.clock p)
    show ((Shared.waitCall true t _ call (σ.shared, σ.clock p)).1.barrier k).Covers v
    rwa [hq.barrier]
  | taskCreate κ type =>
    have hq := Quiet.taskCreate t (σ.current p) (.inr κ) hallowed.2.2.2 (σ.shared, σ.clock p)
    show ((Shared.taskCreate true t _ _ type (σ.shared, σ.clock p)).1.barrier k).Covers v
    rwa [hq.barrier]
  | dependences κ deps =>
    have hq := Quiet.dependences t (.inr κ) deps (σ.shared, σ.clock p)
    show ((Shared.dependences true t _ deps (σ.shared, σ.clock p)).1.barrier k).Covers v
    rwa [hq.barrier]
  | taskSchedule i status next =>
    by_cases hc : status.completes = true ∧ (σ.shared.task i).type.undeferred = false
    · exact hsignal _ _ _ (taskSchedule_signals hc.1 i next (σ.shared, σ.clock p) hc.2).barrier
    · have hq : Quiet t (σ.shared, σ.clock p)
          (Shared.taskSchedule true t i status next (σ.shared, σ.clock p)) :=
        .taskSchedule i next _ fun hst => by simpa [hst] using hc
      show ((Shared.taskSchedule true t i status next (σ.shared, σ.clock p)).1.barrier k).Covers v
      rwa [hq.barrier]

end

end Team

end CritPath
