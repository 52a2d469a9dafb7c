import CritPath.Omp.TaskJoin

/-!
# Detached tasks

A task with a detach event that is fulfilled late ends its body on one thread
(`ompt_task_detach`) and completes on another (`ompt_task_late_fulfill`). The
completion passes the clocks of the fulfilling thread on to everything that
waits for the task (`PassedOn`). The detach event writes no clock of the task,
so the values of the body only get there if the fulfilling thread has them,
as the executing thread itself does.
-/

namespace CritPath

open Lib

namespace Shared

variable {I G : Type}

/-- The values `v` have reached every clock that `completeTask` signals for a task with the record
`d`: for a deferred task the barrier, the taskwait clock of its parent and its taskgroup, for an
included one the parent's task clock, and for both the clocks of the dependences. -/
structure PassedOn (d : TaskData I G) (v : Comp → ℚ) (sh : Shared I G) : Prop where
  barrier : d.type.undeferred = false → (sh.barrier d.barrierIndex).Covers v
  taskwait : d.type.undeferred = false → ∀ i, d.parent = some i → (sh.task i).taskwait.Covers v
  group : d.type.undeferred = false → ∀ g, d.taskGroup = some g → (sh.group g).ptr.Covers v
  included : d.type.undeferred = true → ∀ i, d.parent = some i → (sh.task i).task.Covers v
  dependences : ∀ dk ∈ writtenClocks d.dependencies, (sh.heap dk.1 dk.2).Covers v

section
variable {v : Comp → ℚ} {tc : ThreadClock}

theorem covers_happensBefore {h : DepHeap} {dk : ℕ × DepClock} (hdk : (h dk.1 dk.2).Covers v)
    (d : ℕ) (k : DepClock) (tc : ThreadClock) :
    (DepHeap.happensBefore true d k tc h dk.1 dk.2).Covers v := by
  unfold DepHeap.happensBefore
  by_cases hd : dk.1 = d
  · rw [hd, Function.update_self]
    by_cases hk : dk.2 = k
    · rw [hk, Function.update_self]
      exact .ompHBefore (by rw [← hd, ← hk]; exact hdk) tc
    · rw [Function.update_of_ne hk, ← hd]
      exact hdk
  · rwa [Function.update_of_ne hd]

theorem covers_release (L : List (ℕ × DepClock)) (h : DepHeap) (hst : tc.getState ≠ .init)
    (hv : ∀ x, x ≠ .thread → v x ≤ (tc.clocks .useful).get x) :
    ∀ dk, dk ∈ L ∨ (h dk.1 dk.2).Covers v →
      (L.foldl (fun h dk => DepHeap.happensBefore true dk.1 dk.2 tc h) h dk.1 dk.2).Covers v := by
  induction L generalizing h with
  | nil =>
    rintro dk (hdk | hdk)
    · exact absurd hdk List.not_mem_nil
    · exact hdk
  | cons e L ih =>
    rintro dk (hdk | hdk)
    · rcases List.mem_cons.mp hdk with rfl | hdk
      · refine ih _ dk (.inr ?_)
        simp only [DepHeap.happensBefore, Function.update_self]
        exact .of_ompHBefore _ hst hv
      · exact ih _ dk (.inl hdk)
    · exact ih _ dk (.inr (covers_happensBefore hdk _ _ _))

variable [DecidableEq I] [DecidableEq G]

theorem passedOn_completeArcs (sh : Shared I G) (i : I) (hst : tc.getState ≠ .init)
    (hv : ∀ x, x ≠ .thread → v x ≤ (tc.clocks .useful).get x) :
    PassedOn (sh.task i) v
      { sh.completeArcs true i tc with
        heap := releaseDependencies true (sh.task i).dependencies tc sh.heap } where
  barrier hdef := by
    unfold completeArcs
    simp only [hdef, Bool.not_false, ↓reduceIte]
    split <;> split <;> simpa [barrierBefore, taskwaitBefore, groupBefore, modifyTask, modifyGroup]
      using SyncClock.Covers.of_ompHBefore _ hst hv
  taskwait hdef j hj := by
    unfold completeArcs
    simp only [hdef, hj, Bool.not_false, ↓reduceIte]
    split <;> simpa [barrierBefore, taskwaitBefore, groupBefore, modifyTask, modifyGroup]
      using SyncClock.Covers.of_ompHBefore _ hst hv
  group hdef g hg := by
    unfold completeArcs
    simp only [hdef, hg, Bool.not_false, ↓reduceIte]
    split <;> simpa [barrierBefore, taskwaitBefore, groupBefore, modifyTask, modifyGroup]
      using SyncClock.Covers.of_ompHBefore _ hst hv
  included hdef j hj := by
    unfold completeArcs
    simp only [hdef, hj, Bool.not_true, Bool.false_eq_true, ↓reduceIte]
    simpa [taskBefore, modifyTask] using SyncClock.Covers.of_ompHBefore _ hst hv
  dependences dk hdk := by
    rw [releaseDependencies_eq]
    exact covers_release _ _ hst hv dk (.inl hdk)

end

/-- The fields of a task's record that `completeTask` reads. -/
def SameTargets (d d' : TaskData I G) : Prop :=
  d'.type.undeferred = d.type.undeferred ∧ d'.barrierIndex = d.barrierIndex ∧
    d'.parent = d.parent ∧ d'.taskGroup = d.taskGroup ∧ d'.dependencies = d.dependencies

theorem PassedOn.congr {d d' : TaskData I G} {v : Comp → ℚ} {sh : Shared I G}
    (h : PassedOn d' v sh) (hd : SameTargets d d') : PassedOn d v sh := by
  obtain ⟨h₁, h₂, h₃, h₄, h₅⟩ := hd
  obtain ⟨hb, ht, hg, hi, hdep⟩ := h
  rw [h₁, h₂] at hb
  rw [h₁, h₃] at ht hi
  rw [h₁, h₄] at hg
  rw [h₅] at hdep
  exact ⟨hb, ht, hg, hi, hdep⟩

variable [DecidableEq I]

theorem sameTargets_completing (t : ℚ) (status : TaskStatus) (i : I) (s : View I G) :
    SameTargets (s.1.task i) ((completing t status i s).1.task i) := by
  unfold completing beforeComplete
  dsimp only
  split <;> split <;> simp [taskAfter, modifyTask, suspendTaskEnd, SameTargets]

theorem dependencies_taskBefore (sh : Shared I G) (i j : I) (tc : ThreadClock) :
    ((sh.taskBefore true j tc).task i).dependencies = (sh.task i).dependencies ∧
      ((sh.taskwaitBefore true j tc).task i).dependencies = (sh.task i).dependencies := by
  unfold taskBefore taskwaitBefore modifyTask
  by_cases hi : i = j
  · subst hi; simp
  · simp [hi]

theorem completeArcs_deps [DecidableEq G] (sh : Shared I G) (i : I) (tc : ThreadClock) :
    ((sh.completeArcs true i tc).task i).dependencies = (sh.task i).dependencies ∧
      (sh.completeArcs true i tc).heap = sh.heap := by
  have hwait : ∀ j, ((taskwaitBefore true j tc (barrierBefore true (sh.task i).barrierIndex tc
      sh)).task i).dependencies = (sh.task i).dependencies := fun j =>
    (dependencies_taskBefore _ i j tc).2
  unfold completeArcs
  dsimp only
  split
  · cases (sh.task i).parent with
    | none => split <;> exact ⟨rfl, rfl⟩
    | some j => split <;> exact ⟨hwait j, rfl⟩
  · split
    · exact ⟨(dependencies_taskBefore sh i _ tc).1, rfl⟩
    · exact ⟨rfl, rfl⟩

/-- A late fulfilment passes on what the fulfilling thread has in `completeTask`. -/
theorem passedOn_lateFulfill [DecidableEq G] {t : ℚ} {i : I} (next : I)
    {s : View I G} {v : Comp → ℚ}
    (hst : (completing t .lateFulfill i s).2.getState ≠ .init)
    (hv : ∀ x, x ≠ .thread → v x ≤ (((completing t .lateFulfill i s).2.clocks .useful).get x)) :
    PassedOn (s.1.task i) v (taskSchedule true t i .lateFulfill next s).1 := by
  have h := passedOn_completeArcs (completing t .lateFulfill i s).1 i hst hv
  obtain ⟨hdeps, hheap⟩ := completeArcs_deps (completing t .lateFulfill i s).1 i
    (completing t .lateFulfill i s).2
  rw [← hdeps, ← hheap] at h
  exact h.congr (sameTargets_completing t .lateFulfill i s)

end Shared

namespace Team

variable {T K G : Type} [DecidableEq T] [DecidableEq K] [DecidableEq G] {crew : Crew T}
  {σ : Team T K G} {t : ℚ} {p : T} {v : Comp → ℚ}

theorem passedOn_lateFulfill (h : Shape crew σ) {κ : K} {next : T ⊕ K}
    (ha : σ.Allowed crew p (.taskSchedule (.inr κ) .lateFulfill next))
    (hv : ∀ x, x ≠ .thread → v x ≤ (σ.clock p).elapsed .useful x t) :
    (σ.step crew ⟨t, p, .taskSchedule (.inr κ) .lateFulfill next⟩).shared.PassedOn
      (σ.shared.task (.inr κ)) v := by
  have hstate := getState_completing (t := t) h rfl ha (by simp [EndsUseful])
  have hgrows := (Quiet.completing t .lateFulfill (.inr κ) (σ.shared, σ.clock p)).grows
  refine Shared.passedOn_lateFulfill next (by rw [hstate]; decide) fun x hx => ?_
  -- in `STATE_OMP` the clock stores its value
  have hle := (hv x hx).trans (hgrows x hx)
  rwa [ThreadClock.elapsed_of_stopped (by rw [hstate]; rfl)] at hle

theorem le_elapsed_run {a : Label T K G} (ha : (machine crew K G).guard σ a)
    {mid : List (Label T K G)} (hmid : (machine crew K G).Valid (σ.step crew a) mid) {x : Comp}
    (hx : x ≠ .thread) :
    (σ.clock a.thread).elapsed .useful x a.time ≤
      (((machine crew K G).run (σ.step crew a) mid).clock a.thread).elapsed .useful x
        ((machine crew K G).run (σ.step crew a) mid).now := by
  refine hmid.inv
    (I := fun σ' => ∀ x, x ≠ .thread → (σ.clock a.thread).elapsed .useful x a.time ≤
      (σ'.clock a.thread).elapsed .useful x σ'.now) ?_ ?_ x hx
  · intro σ' b hσ' hb x hx
    exact le_elapsed_step hb hσ' hx
  · intro x hx
    rw [now_step]
    exact grows_step ha.2 x hx

end Team

/-- After the late fulfilment of a detached task, everything that waits for the task has the values
that the fulfilling thread had, and whatever it was ahead of; in particular those of the end of
the body if the thread that executed the body fulfils the event. -/
theorem lateFulfill_ge_body {T K G : Type} [DecidableEq T] [DecidableEq K] [DecidableEq G]
    (S : Team.Setup T K G) (pre mid : List (Label T K G)) (t u : ℚ) (q p : T) (κ : K)
    (next next' : T ⊕ K)
    (hvalid : S.Valid (pre ++ ⟨t, q, .taskSchedule (.inr κ) .detach next⟩ ::
      (mid ++ [⟨u, p, .taskSchedule (.inr κ) .lateFulfill next'⟩]))) :
    let before := S.reached (pre ++ ⟨t, q, .taskSchedule (.inr κ) .detach next⟩ :: mid)
    let after := S.reached (pre ++ ⟨t, q, .taskSchedule (.inr κ) .detach next⟩ ::
      (mid ++ [⟨u, p, .taskSchedule (.inr κ) .lateFulfill next'⟩]))
    (∀ v : Comp → ℚ, (∀ x, x ≠ .thread → v x ≤ (before.clock p).elapsed .useful x u) →
      after.shared.PassedOn (before.shared.task (.inr κ)) v) ∧
    (p = q → after.shared.PassedOn (before.shared.task (.inr κ)) fun x =>
      ((S.reached pre).clock q).elapsed .useful x t) := by
  obtain ⟨hpre, hdetach, hmid, hlate⟩ := Machine.along_between hvalid
  obtain ⟨hshape, -⟩ := S.shape hpre
  simp only [Team.Setup.reached, Machine.run_append_cons, Machine.run_nil]
  simp only [Team.Setup.reached] at hshape
  generalize (Team.machine S.crew K G).run (.initial S.now S.clock S.shared) pre = σ at *
  have hshape' := hmid.inv (fun _ _ hσ ha => Team.Shape.step hσ ha) (hshape.step hdetach)
  refine ⟨fun v hv => Team.passedOn_lateFulfill hshape' hlate.2 hv, ?_⟩
  rintro rfl
  refine Team.passedOn_lateFulfill hshape' hlate.2 fun x hx => ?_
  -- the executing thread keeps the values of the body
  have hkeep := Team.le_elapsed_run hdetach hmid hx
  exact hkeep.trans (ThreadClock.elapsed_mono _ _ _ hlate.1)

/-- As in `taskInFirstBarrier` thread `true` executes a task from 5 on; at 10 its body ends. -/
def detached : List (Label Bool Unit Empty) :=
  taskInFirstBarrier ++ [⟨10, true, .taskSchedule (.inr ()) .detach (.inl true)⟩]

/-- Fulfilled by the thread that executed it, the task passes on the 7 units of its body. -/
theorem lateFulfill_ge_body_sameThread :
    7 ≤ ((((twoThreads Unit Empty).reached
      (taskInFirstBarrier ++ ⟨10, true, .taskSchedule (.inr ()) .detach (.inl true)⟩ ::
        ([] ++ [⟨11, true, .taskSchedule (.inr ()) .lateFulfill (.inl true)⟩]))).shared.barrier
          0).clocks .useful).get .critical := by
  have h := ((lateFulfill_ge_body (twoThreads Unit Empty) taskInFirstBarrier [] 10 11 true true ()
    (.inl true) (.inl true) (by decide +kernel)).2 rfl).barrier (by decide +kernel)
  have hval : (((twoThreads Unit Empty).reached taskInFirstBarrier).clock true).elapsed
      .useful .critical 10 = 7 := by decide +kernel
  have hindex : (((twoThreads Unit Empty).reached
      (taskInFirstBarrier ++ ⟨10, true, .taskSchedule (.inr ()) .detach (.inl true)⟩ ::
        [])).shared.task (.inr ())).barrierIndex = 0 := by decide +kernel
  have hle := h.2 .critical (by decide)
  rw [hindex] at hle
  dsimp only at hle
  rw [hval] at hle
  exact hle

/-- Fulfilled by the other thread, it passes on 2 units, to the barrier and to its parent: neither
has the 7 units of the body. -/
theorem lateFulfill_misses_body :
    let after := (twoThreads Unit Empty).reached
      (detached ++ [⟨11, false, .taskSchedule (.inr ()) .lateFulfill (.inl false)⟩])
    (twoThreads Unit Empty).Valid
      (detached ++ [⟨11, false, .taskSchedule (.inr ()) .lateFulfill (.inl false)⟩]) ∧
    (((twoThreads Unit Empty).reached taskInFirstBarrier).clock true).elapsed
      .useful .critical 10 = 7 ∧
    ((after.shared.barrier 0).clocks .useful).critical = 2 ∧
    ((after.shared.task (.inl false)).taskwait.clocks .useful).critical = 2 := by
  refine ⟨?_, ?_, ?_, ?_⟩ <;> decide +kernel

end CritPath
