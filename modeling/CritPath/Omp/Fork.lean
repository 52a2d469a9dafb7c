import CritPath.Omp.Team

/-!
# The fork

`parallel_begin` signals `Barrier[1]` and the implicit tasks read it when they
begin. Barrier clock 1 is also the one that thread 0 resets when it enters its
first barrier. A thread whose implicit task begins before that gets the clock of
the fork, whatever else happens (`implicitTaskBegin_ge_fork`); one that begins
later does not (`implicitTaskBegin_misses_fork`).
-/

namespace CritPath

open Lib

namespace Team

variable {T K G : Type} [DecidableEq T] [DecidableEq K] [DecidableEq G] {crew : Crew T}
  {σ : Team T K G}

theorem entered_le_step (h : Shape crew σ) {a : Label T K G} (ha : (machine crew K G).guard σ a)
    (q : T) :
    σ.phases.entered crew.primary q ≤ (σ.step crew a).phases.entered crew.primary q := by
  obtain ⟨t, p, call⟩ := a
  obtain ⟨-, hallowed⟩ := ha
  cases call with
  | barrierBegin =>
    obtain ⟨hs, -, hp⟩ := hallowed
    refine Phases.le_entered_enter p _ (h.leads_iff hs) (fun hpr => ?_) q
    obtain rfl : p = crew.primary := hpr
    exact h.phases.not_busy hp
  | barrierReset => exact (Phases.entered_le _ _ q).trans (Phases.entered_prepare q).ge
  | _ => exact le_refl _

/-- Until thread 0 has entered its first barrier, clock 1 covers the fork. -/
def ForkHeld (crew : Crew T) (v : Comp → ℚ) (σ : Team T K G) : Prop :=
  σ.phases.entered crew.primary crew.primary = 0 → (σ.shared.barrier 1).Covers v

theorem ForkHeld.parallelBegin (crew : Crew T) (σ : Team T K G) (t : ℚ) (p : T) :
    ForkHeld crew (fun x => (σ.clock p).elapsed .useful x t)
      (σ.step crew ⟨t, p, .parallelBegin⟩) := by
  intro _
  show ((Function.update σ.shared.barrier 1 _) 1).Covers _
  rw [Function.update_self]
  refine .of_ompHBefore _ (by simp) fun x _ => le_of_eq ?_
  rw [← ThreadClock.elapsed_enterState t .omp]
  simp [ThreadClock.elapsed]

theorem ForkHeld.step {v : Comp → ℚ} (hv : ForkHeld crew v σ) (h : Shape crew σ) {a : Label T K G}
    (ha : (machine crew K G).guard σ a) : ForkHeld crew v (σ.step crew a) := by
  intro hzero
  have hbefore := entered_le_step h ha crew.primary
  refine covers_step h ha (hv (by omega)) fun hreset hbusy => ?_
  -- the reset completes the entry to a barrier
  obtain ⟨t, p, call⟩ := a
  obtain rfl : call = .barrierReset := hreset
  have hbegun := h.phases.busy hbusy
  have hentered : σ.phases.begun crew.primary = 0 :=
    (Phases.entered_prepare crew.primary).symm.trans hzero
  omega

theorem le_elapsed_implicitTaskBegin {v : Comp → ℚ} (hv : (σ.shared.barrier 1).Covers v) {t : ℚ}
    (ht : 0 ≤ t) (p : T) {x : Comp} (hx : x ≠ .thread) :
    v x ≤ ((σ.step crew ⟨t, p, .implicitTaskBegin⟩).clock p).elapsed .useful x t := by
  simp only [step, onThread, Shared.implicitTaskBegin, Shared.barrierAfter, Function.update_self,
    ThreadClock.elapsed_enterState]
  exact hv.le_elapsed _ ht hx

theorem nonneg_now_step {a : Label T K G} (hσ : 0 ≤ σ.now) (ha : (machine crew K G).guard σ a) :
    0 ≤ ((machine crew K G).step σ a).now :=
  (hσ.trans ha.1).trans (now_step a).ge

theorem Setup.shape (S : Setup T K G) {as : List (Label T K G)} (hvalid : S.Valid as) :
    Shape S.crew (S.reached as) ∧ 0 ≤ (S.reached as).now := by
  exact hvalid.inv (I := fun σ => Shape S.crew σ ∧ 0 ≤ σ.now)
    (fun σ a hσ ha => ⟨hσ.1.step ha, nonneg_now_step hσ.2 ha⟩)
    ⟨.initial S.crew S.now S.clock S.shared, S.nonneg⟩

end Team

/-- An implicit task that begins before thread 0 has entered its first barrier starts with at least
the clocks of the primary thread at the fork, from any state of the clocks and records. -/
theorem implicitTaskBegin_ge_fork {T K G : Type} [DecidableEq T] [DecidableEq K] [DecidableEq G]
    (S : Team.Setup T K G) (pre mid : List (Label T K G)) (t u : ℚ) (q : T)
    (hvalid : S.Valid
      (pre ++ ⟨t, S.crew.primary, .parallelBegin⟩ :: (mid ++ [⟨u, q, .implicitTaskBegin⟩])))
    (hfirst : (S.reached (pre ++ ⟨t, S.crew.primary, .parallelBegin⟩ :: mid)).phases.entered
      S.crew.primary S.crew.primary = 0) (x : Comp) (hx : x ≠ .thread) :
    ((S.reached pre).clock S.crew.primary).elapsed .useful x t ≤
      ((S.reached (pre ++ ⟨t, S.crew.primary, .parallelBegin⟩ ::
        (mid ++ [⟨u, q, .implicitTaskBegin⟩]))).clock q).elapsed .useful x u := by
  obtain ⟨hpre, hfork, hmid, hbegin⟩ := Machine.along_between hvalid
  obtain ⟨hshape, hnow⟩ := S.shape hpre
  rw [Team.Setup.reached, Machine.run_append_cons] at hfirst
  rw [Team.Setup.reached, Team.Setup.reached, Machine.run_append_cons, Machine.run_concat]
  -- from the fork on: shape, time, and the fork held in clock 1
  obtain ⟨-, hnow', hheld⟩ := hmid.inv (I := fun σ => Team.Shape S.crew σ ∧ 0 ≤ σ.now ∧
      Team.ForkHeld S.crew
        (fun x => ((S.reached pre).clock S.crew.primary).elapsed .useful x t) σ)
    (fun σ a hσ ha => ⟨hσ.1.step ha, Team.nonneg_now_step hσ.2.1 ha, hσ.2.2.step hσ.1 ha⟩)
    ⟨hshape.step hfork, Team.nonneg_now_step hnow hfork, .parallelBegin S.crew _ t _⟩
  exact Team.le_elapsed_implicitTaskBegin (hheld hfirst) (hnow'.trans hbegin.1) q hx

def twoThreads (K G : Type) : Team.Setup Bool K G where
  crew := .pair
  now := 1
  nonneg := by decide
  clock p := if p then .new else ThreadClock.new.enterState true 1 .useful 1
  shared := .fresh

theorem implicitTaskBegin_ge_fork_timely :
    2 ≤ (((twoThreads Empty Empty).reached
      [⟨3, false, .parallelBegin⟩, ⟨4, true, .implicitTaskBegin⟩]).clock true).elapsed
        .useful .critical 4 := by
  have h := implicitTaskBegin_ge_fork (twoThreads Empty Empty) [] [] 3 4 true (by decide +kernel)
    (by decide +kernel) .critical (by decide)
  have hval : (((twoThreads Empty Empty).reached []).clock Crew.pair.primary).elapsed
      .useful .critical 3 = 2 := by decide +kernel
  exact hval ▸ h

/-- Thread `false` works from 1 to 3, forks and enters its first barrier before the implicit task of
thread `true` begins. -/
def lateWorker : List (Label Bool Empty Empty) :=
  [⟨3, false, .parallelBegin⟩, ⟨4, false, .implicitTaskBegin⟩, ⟨5, false, .barrierBegin⟩,
   ⟨6, false, .barrierReset⟩, ⟨7, true, .implicitTaskBegin⟩]

/-- The reset of clock 1 overtakes the other thread: it begins with 0, the fork had 2. -/
theorem implicitTaskBegin_misses_fork :
    (twoThreads Empty Empty).Valid lateWorker ∧
    (((twoThreads Empty Empty).reached lateWorker).clock true).elapsed .useful .critical 7 <
      ((twoThreads Empty Empty).clock false).elapsed .useful .critical 3 := by
  constructor <;> decide +kernel

end CritPath
