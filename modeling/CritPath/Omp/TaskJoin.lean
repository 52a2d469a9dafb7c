import CritPath.Omp.Fork

/-!
# Explicit tasks at barriers

A deferred task that completes signals the barrier clock of its own
`BarrierIndex`. Explicit tasks never pass a barrier themselves, so this is
always clock 0, whatever barrier the team is about to leave. A completion is
joined at barrier `k` nevertheless if the executing thread has yet to enter the
barrier, as it brings its clock there itself, or if it waits in a barrier that
uses clock 0 (`barrierEnd_ge_completed`). In the other barriers it is lost
(`barrierEnd_misses_completed`). A completion that does not come from the states
that `suspendTaskEnd` checks (`EndsUseful`) signals clocks that are not stopped.
-/

namespace CritPath

open Lib

namespace Team

variable {T K G : Type} [DecidableEq T] [DecidableEq K] {crew : Crew T} {σ : Team T K G} {t : ℚ}
  {p q : T} {k : ℕ} {v : Comp → ℚ}

/-- In `completeTask` the thread is in `STATE_OMP`. -/
theorem getState_completing (h : Shape crew σ) {κ : K} {status : TaskStatus} {next : T ⊕ K}
    (hst : status.completes = true) (ha : σ.Allowed crew q (.taskSchedule (.inr κ) status next))
    (hends : σ.EndsUseful q status) :
    (Shared.completing t status (.inr κ) (σ.shared, σ.clock q)).2.getState = .omp := by
  have hrun := (h.explicit κ (ha.2.1 hst).2.1).2
  have hbefore : (Shared.beforeComplete true t status (.inr κ) (σ.shared, σ.clock q)).2.getState =
      .omp := by
    unfold Shared.beforeComplete
    by_cases hlate : status = .lateFulfill
    · simp [hlate, Shared.taskAfter]
    · have hcheck : (σ.clock q).stack.take 2 = [.useful, .omp] := by
        apply hends
        cases status <;> simp_all [TaskStatus.completes]
      have hl : (σ.clock q).stack = .useful :: .omp :: (σ.clock q).stack.drop 2 := by
        rw [← List.take_append_drop 2 (σ.clock q).stack, hcheck]
        simp
      have huseful : (σ.clock q).getState = .useful := by rw [ThreadClock.getState, hl]; rfl
      simp only [hlate, ↓reduceIte, Shared.suspendTaskEnd, hrun]
      rw [ThreadClock.getState, ThreadClock.stack_exitState, huseful, if_neg (by decide), hl]
      rfl
  unfold Shared.completing
  simp only
  split
  · simpa [Shared.taskAfter] using hbefore
  · exact hbefore

variable [DecidableEq G]

theorem grows_step {call : Callback T K G} (ha : σ.Allowed crew p call) :
    Grows t (σ.clock p) ((σ.step crew ⟨t, p, call⟩).clock p) := by
  cases call with
  | work o =>
    simp only [step, onThread, Function.update_self]
    exact .exec t o _
  | parallelBegin =>
    simp only [step, onThread, Function.update_self]
    exact .enterState t .omp _
  | implicitTaskBegin =>
    simp only [step, onThread, Function.update_self, Shared.implicitTaskBegin, Shared.barrierAfter]
    refine Grows.trans ?_ ((Grows.ompHAfter t _ _).trans (.enterState t .useful _))
    split
    · exact .enterState t .omp _
    · exact .refl t _
  | barrierBegin =>
    rw [clock_barrierBegin]
    exact .enterState t .omp _
  | barrierReset =>
    rw [clock_barrierReset]
    exact .refl t _
  | barrierEnd pd =>
    simp only [step, onThread, Function.update_self, Shared.syncRegionEnd, Shared.barrierAfter]
    refine Grows.trans ?_ (.exitState t _ _)
    split
    · exact .ompHAfter t _ _
    · exact .refl t _
  | wait call =>
    have hq := Quiet.waitCall t (σ.current p) call (σ.shared, σ.clock p)
    simpa only [step, onThread, Function.update_self] using hq.grows
  | taskCreate κ type =>
    have hq := Quiet.taskCreate t (σ.current p) (.inr κ) ha.2.2.2 (σ.shared, σ.clock p)
    simpa only [step, onThread, Function.update_self] using hq.grows
  | dependences κ deps =>
    have hq := Quiet.dependences t (.inr κ) deps (σ.shared, σ.clock p)
    simpa only [step, onThread, Function.update_self] using hq.grows
  | taskSchedule i status next =>
    simp only [step, onThread, Function.update_self]
    by_cases hc : status.completes = true ∧ (σ.shared.task i).type.undeferred = false
    · have hs := taskSchedule_signals (t := t) hc.1 i next (σ.shared, σ.clock p) hc.2
      exact hs.before.trans hs.after
    · have hq : Quiet t (σ.shared, σ.clock p)
          (Shared.taskSchedule true t i status next (σ.shared, σ.clock p)) :=
        .taskSchedule i next _ fun hst => by simpa [hst] using hc
      exact hq.grows

structure Carries (crew : Crew T) (k : ℕ) (q : T) (v : Comp → ℚ) (σ : Team T K G) : Prop where
  thread : σ.phases.begun q ≤ k → ∀ x, x ≠ .thread → v x ≤ (σ.clock q).elapsed .useful x σ.now
  barrier : k < σ.phases.begun q → Phases.Live crew.primary σ.phases k →
    (σ.shared.barrier (k % 3)).Covers v

theorem le_elapsed_step {a : Label T K G} (ha : (machine crew K G).guard σ a)
    (hv : ∀ x, x ≠ .thread → v x ≤ (σ.clock q).elapsed .useful x σ.now) {x : Comp}
    (hx : x ≠ .thread) :
    v x ≤ ((σ.step crew a).clock q).elapsed .useful x (σ.step crew a).now := by
  obtain ⟨t, p, call⟩ := a
  rw [now_step]
  by_cases hqp : q = p
  · subst hqp
    exact Grows.later hv ha.1 (grows_step ha.2) hx
  · rw [clock_step_of_ne hqp]
    exact (hv x hx).trans (ThreadClock.elapsed_mono _ _ _ ha.1)

theorem Carries.step (hc : Carries crew k q v σ) (h : Shape crew σ) {a : Label T K G}
    (ha : (machine crew K G).guard σ a) : Carries crew k q v (σ.step crew a) := by
  -- outside of barrier callbacks the counts stay
  have hsame : (σ.step crew a).phases = σ.phases → a.call ≠ .barrierReset →
      Carries crew k q v (σ.step crew a) := fun hphases hreset =>
    ⟨fun hk x hx => le_elapsed_step ha (hc.thread (hphases ▸ hk)) hx,
      fun hk hlive => covers_step h ha (hc.barrier (hphases ▸ hk) (hphases ▸ hlive))
        fun heq => absurd heq hreset⟩
  obtain ⟨t, p, call⟩ := a
  cases call with
  | barrierBegin =>
    obtain ⟨hs, -, hp⟩ := ha.2
    have hmono : σ.phases.begun q ≤ (σ.step crew ⟨t, p, .barrierBegin⟩).phases.begun q := by
      by_cases hqp : q = p
      · subst hqp; simp [Team.step, Phases.enter]
      · simp [Team.step, Phases.enter, hqp]
    refine ⟨fun hk x hx => le_elapsed_step ha (hc.thread (hmono.trans hk)) hx, fun hk hlive => ?_⟩
    by_cases hk' : k < σ.phases.begun q
    · exact covers_step h ha (hc.barrier hk' (hlive.of_enter h.phases (h.leads_iff hs) hp)) (by simp)
    · -- `q` enters barrier `k` and brings `v`
      obtain rfl : q = p := by
        by_contra hqp
        exact hk' (by simpa [Team.step, Phases.enter, hqp] using hk)
      have hk'' : k < σ.phases.begun q + 1 := by simpa [Team.step, Phases.enter] using hk
      have hended : k = σ.phases.ended q := by
        have : σ.phases.begun q = σ.phases.ended q := hp
        omega
      rw [barrier_barrierBegin h hs, hended, Function.update_self]
      refine .of_ompHBefore _ (by simp) fun x hx => ?_
      have hv := le_elapsed_step ha (hc.thread (by omega)) hx
      rw [clock_barrierBegin, now_step] at hv
      simpa [ThreadClock.elapsed] using hv
  | barrierReset =>
    obtain ⟨-, hbusy⟩ := ha.2
    obtain ⟨hnext, hbegun⟩ := Phases.live_prepare h.phases hbusy
    refine ⟨fun hk x hx => le_elapsed_step ha (hc.thread hk) hx, fun hk hlive => ?_⟩
    have hne : k ≠ σ.phases.ended crew.primary + 1 := by
      have hk' : k < σ.phases.begun q := hk
      have := hbegun q
      omega
    refine covers_step h ha (hc.barrier hk (hlive.of_prepare h.phases hbusy hne)) fun _ _ hmod => ?_
    exact hne (hlive.eq_of_mod h.phases.prepare hnext hmod)
  | barrierEnd pd =>
    exact ⟨fun hk x hx => le_elapsed_step ha (hc.thread hk) hx, fun hk hlive =>
      covers_step h ha (hc.barrier hk hlive.of_leave) (by simp)⟩
  | _ => exact hsame rfl (by simp)

theorem Carries.taskSchedule (h : Shape crew σ) {κ : K} {status : TaskStatus} {next : T ⊕ K}
    (hst : status.completes = true) (ha : σ.Allowed crew q (.taskSchedule (.inr κ) status next))
    (hends : σ.EndsUseful q status)
    (hdeferred : (σ.shared.task (.inr κ)).type.undeferred = false)
    (hindex : σ.phases.begun q = σ.phases.ended q ∨ (σ.shared.task (.inl q)).barrierIndex = 0)
    (hk : σ.phases.ended q ≤ k) :
    Carries crew k q
      (fun x => (Shared.completing t status (.inr κ) (σ.shared, σ.clock q)).2.elapsed .useful x t)
      (σ.step crew ⟨t, q, .taskSchedule (.inr κ) status next⟩) := by
  have hsignals := taskSchedule_signals (t := t) hst (.inr κ) next (σ.shared, σ.clock q) hdeferred
  have hbegun := h.phases.begun_le q
  refine ⟨fun _ x hx => ?_, fun hlt _ => ?_⟩
  · simpa [Team.step, onThread] using hsignals.after x hx
  · -- the thread waits in barrier `k`, whose clock is clock 0
    have hlt' : k < σ.phases.begun q := hlt
    have hzero : k % 3 = 0 := by
      rcases hindex with heq | hidx
      · omega
      · have := (h.implicit q ha.1).1
        have : σ.phases.ended q = k := by omega
        omega
    have hκ := (h.explicit κ (ha.2.1 hst).2.1).1
    show ((Shared.taskSchedule true t (.inr κ) status next (σ.shared, σ.clock q)).1.barrier
      (k % 3)).Covers _
    rw [hsignals.barrier, hzero, hκ, Function.update_self]
    have hstate := getState_completing (t := t) h hst ha hends
    refine .of_ompHBefore _ (by rw [hstate]; decide) fun x _ => ?_
    simp [ThreadClock.elapsed, hstate]

end Team

def taskInFirstBarrier : List (Label Bool Unit Empty) :=
  [⟨2, false, .parallelBegin⟩, ⟨2, false, .implicitTaskBegin⟩, ⟨2, true, .implicitTaskBegin⟩,
   ⟨3, false, .taskCreate () { explicit := true }⟩, ⟨3, false, .barrierBegin⟩,
   ⟨3, false, .barrierReset⟩, ⟨3, true, .barrierBegin⟩,
   ⟨5, true, .taskSchedule (.inl true) .switch (.inr ())⟩]

end CritPath
