import CritPath.Omp.Team

/-!
# Barriers without explicit tasks

The three barrier clocks rotate: barrier `k` uses clock `k % 3`, and thread 0
resets the clock of the next barrier when it enters one. As long as a barrier
is live its clock holds the clocks with which the threads have entered it, no
more and no less (`Joined.holds`), so a thread leaves it with the maximum over
the team.
-/

namespace CritPath

open Lib

/-- The callbacks of explicit tasks. -/
def Callback.ofTask {T K G : Type} : Callback T K G → Bool
  | .taskCreate _ _ | .dependences _ _ | .taskSchedule _ _ _ => true
  | _ => false

namespace Team

variable {T K G : Type}

def entries (σ : Team T K G) (k : ℕ) : Set ThreadClock :=
  {c | ∃ q, k < σ.phases.begun q ∧ c = σ.entry k q}

theorem entries_nonempty {σ : Team T K G} {p : T} (hp : σ.phases.begun p = σ.phases.ended p + 1) :
    (σ.entries (σ.phases.ended p)).Nonempty := ⟨_, p, by omega, rfl⟩

variable [DecidableEq T]

/-- A started team without explicit tasks: waiting threads keep the clock with which they entered
the barrier, and the clock of a live barrier holds the entries. -/
structure Joined (crew : Crew T) (σ : Team T K G) : Prop where
  shape : Shape crew σ
  started : ∀ p, σ.started p = true
  current : ∀ p, σ.current p = .inl p
  waits : ∀ p, σ.phases.begun p = σ.phases.ended p + 1 →
    σ.clock p = σ.entry (σ.phases.ended p) p ∧ (σ.clock p).getState = .omp
  holds : ∀ k, Phases.Live crew.primary σ.phases k → (σ.shared.barrier (k % 3)).Holds (σ.entries k)

namespace Joined

variable {crew : Crew T} {σ : Team T K G} {t : ℚ} {p : T}

theorem ready (crew : Crew T) (now : ℚ) (clock : T → ThreadClock) :
    Joined crew (.ready crew now clock : Team T K G) where
  shape := .ready crew now clock
  started _ := rfl
  current _ := rfl
  waits _ hp := absurd hp (by simp [Team.ready, initial, Phases.start])
  holds k _ := by
    have hnone : (Team.ready crew now clock : Team T K G).entries k = ∅ := by
      simp [entries, Team.ready, initial, Phases.start]
    rw [hnone]
    exact .fresh

theorem onThread (h : Joined crew σ) (hp : σ.phases.begun p = σ.phases.ended p)
    {f : Shared (T ⊕ K) G × ThreadClock → Shared (T ⊕ K) G × ThreadClock}
    (hf : Quiet t (σ.shared, σ.clock p) (f (σ.shared, σ.clock p))) :
    Joined crew (σ.onThread t p f) where
  shape := h.shape.congr rfl rfl rfl hf.fields
  started := h.started
  current := h.current
  waits q hq := by
    have hqp : q ≠ p := by
      rintro rfl
      have hq' : σ.phases.begun q = σ.phases.ended q + 1 := hq
      omega
    simpa [Team.onThread, hqp] using h.waits q hq
  holds k hk := by
    show ((f (σ.shared, σ.clock p)).1.barrier (k % 3)).Holds (σ.entries k)
    rw [hf.barrier]
    exact h.holds k hk

variable [DecidableEq K] [DecidableEq G]

theorem barrierBegin (h : Joined crew σ) (hp : σ.phases.begun p = σ.phases.ended p) :
    Joined crew (σ.step crew ⟨t, p, .barrierBegin⟩) where
  shape := h.shape.barrierBegin (h.started p) hp
  started := h.started
  current := h.current
  waits q hq := by
    by_cases hqp : q = p
    · subst hqp
      rw [clock_barrierBegin]
      simp [step, Team.onThread, Shared.barrierBegin, Phases.enter]
    · have hq' : σ.phases.begun q = σ.phases.ended q + 1 := by
        simpa [step, Phases.enter, hqp] using hq
      have hentry : (σ.step crew ⟨t, p, .barrierBegin⟩).entry (σ.phases.ended q) q =
          σ.entry (σ.phases.ended q) q := by
        simp only [step, Function.update_apply]
        split
        · rename_i hk; simp [hqp, hk]
        · rfl
      rw [clock_step_of_ne hqp]
      exact ⟨(h.waits q hq').1.trans hentry.symm, (h.waits q hq').2⟩
  holds k hk := by
    have hlive := Phases.Live.of_enter h.shape.phases (h.shape.leads_iff (h.started p)) hp hk
    rw [barrier_barrierBegin h.shape (h.started p)]
    by_cases hkp : k = σ.phases.ended p
    · -- the barrier that `p` enters
      subst hkp
      have hentries : (σ.step crew ⟨t, p, .barrierBegin⟩).entries (σ.phases.ended p) =
          insert ((σ.clock p).enterState true t .omp t) (σ.entries (σ.phases.ended p)) := by
        ext c
        constructor
        · rintro ⟨q, hq, rfl⟩
          by_cases hqp : q = p
          · subst hqp
            left
            simp [step, Team.onThread, Shared.barrierBegin]
          · right
            exact ⟨q, by simpa [step, Phases.enter, hqp] using hq, by simp [step, hqp]⟩
        · rintro (rfl | ⟨q, hq, rfl⟩)
          · refine ⟨p, ?_, ?_⟩
            · simp [step, Phases.enter, hp]
            · simp [step, Team.onThread, Shared.barrierBegin]
          · have hqp : q ≠ p := by
              rintro rfl
              omega
            exact ⟨q, by simpa [step, Phases.enter, hqp] using hq, by simp [step, hqp]⟩
      rw [Function.update_self, hentries]
      exact (h.holds _ hlive).ompHBefore (by simp)
    · -- another live barrier has another clock
      have hmod : k % 3 ≠ σ.phases.ended p % 3 := fun hmod =>
        hkp (hlive.eq_of_mod h.shape.phases (h.shape.phases.live_ended p) hmod)
      have hentries : (σ.step crew ⟨t, p, .barrierBegin⟩).entries k = σ.entries k := by
        ext c
        constructor
        · rintro ⟨q, hq, rfl⟩
          refine ⟨q, ?_, by simp [step, hkp]⟩
          by_cases hqp : q = p
          · subst hqp
            have : k < σ.phases.begun q + 1 := by simpa [step, Phases.enter] using hq
            omega
          · simpa [step, Phases.enter, hqp] using hq
        · rintro ⟨q, hq, rfl⟩
          refine ⟨q, ?_, by simp [step, hkp]⟩
          by_cases hqp : q = p
          · subst hqp; simp [step, Phases.enter]; omega
          · simpa [step, Phases.enter, hqp] using hq
      rw [Function.update_of_ne hmod, hentries]
      exact h.holds k hlive

theorem barrierReset (h : Joined crew σ) (hb : σ.phases.busy = true) :
    Joined crew (σ.step crew ⟨t, crew.primary, .barrierReset⟩) where
  shape := h.shape.barrierReset
  started := h.started
  current := h.current
  waits q hq := by
    rw [clock_barrierReset]
    exact h.waits q hq
  holds k hk := by
    obtain ⟨hnext, hbegun⟩ := Phases.live_prepare h.shape.phases hb
    rw [barrier_barrierReset h.shape (h.started _)]
    by_cases hkn : k = σ.phases.ended crew.primary + 1
    · -- nobody has entered the next barrier
      subst hkn
      have hnone : (σ.step crew ⟨t, crew.primary, .barrierReset⟩).entries
          (σ.phases.ended crew.primary + 1) = ∅ := by
        refine Set.eq_empty_of_forall_notMem ?_
        rintro c ⟨q, hq, -⟩
        exact absurd hq (not_lt.mpr (hbegun q))
      rw [Function.update_self, hnone]
      exact .ompCReset _
    · have hmod : k % 3 ≠ (σ.phases.ended crew.primary + 1) % 3 := fun hmod =>
        hkn (hk.eq_of_mod h.shape.phases.prepare hnext hmod)
      rw [Function.update_of_ne hmod]
      exact h.holds k (hk.of_prepare h.shape.phases hb hkn)

theorem barrierEnd (h : Joined crew σ) {parallelData : Bool}
    (hp : σ.phases.begun p = σ.phases.ended p + 1)
    (hall : ∀ q, σ.phases.begun p ≤ σ.phases.entered crew.primary q) :
    Joined crew (σ.step crew ⟨t, p, .barrierEnd parallelData⟩) where
  shape := h.shape.barrierEnd hp hall
  started := h.started
  current := h.current
  waits q hq := by
    have hqp : q ≠ p := by
      rintro rfl
      have : σ.phases.begun q = σ.phases.ended q + 1 + 1 := by simpa [step, Phases.leave] using hq
      omega
    have hq' : σ.phases.begun q = σ.phases.ended q + 1 := by
      simpa [step, Phases.leave, hqp] using hq
    have hended : (σ.step crew ⟨t, p, .barrierEnd parallelData⟩).phases.ended q =
        σ.phases.ended q := by
      simp [step, Phases.leave, hqp]
    rw [clock_step_of_ne hqp, hended]
    exact h.waits q hq'
  holds k hk := by
    have hlive := hk.of_leave
    show ((σ.step crew ⟨t, p, .barrierEnd parallelData⟩).shared.barrier (k % 3)).Holds
      (σ.entries k)
    rcases barrier_barrierEnd h.shape (h.started p) parallelData (k % 3) with hk' | ⟨hmod, hk'⟩
    · rw [hk']
      exact h.holds k hlive
    · -- the barrier that `p` leaves
      obtain rfl := hlive.eq_of_mod h.shape.phases (h.shape.phases.live_ended p) hmod
      rw [hk']
      exact (h.holds _ hlive).ompHAfter (entries_nonempty hp) _

theorem step (h : Joined crew σ) {a : Label T K G} (ha : (machine crew K G).guard σ a)
    (htask : a.call.ofTask = false) (hforked : σ.forked = true) : Joined crew (σ.step crew a) := by
  obtain ⟨t, p, call⟩ := a
  obtain ⟨-, hallowed⟩ := ha
  have hexec : σ.Executes p → σ.phases.begun p = σ.phases.ended p := fun he =>
    he.resolve_left fun hne => hne (h.current p)
  cases call with
  | work o => exact h.onThread (f := fun s => (s.1, s.2.exec t o)) (hexec hallowed) (.clock (.exec t o _))
  | wait call => exact h.onThread (hexec hallowed) (.waitCall t _ call _)
  | parallelBegin => exact absurd (hforked.symm.trans hallowed.2) (by decide)
  | implicitTaskBegin => exact absurd ((h.started p).symm.trans hallowed.2) (by decide)
  | barrierBegin => exact h.barrierBegin hallowed.2.2
  | barrierReset =>
    obtain ⟨hp, hbusy⟩ := hallowed
    rw [show p = crew.primary from hp]
    exact h.barrierReset hbusy
  | barrierEnd pd => exact h.barrierEnd hallowed.2.1 hallowed.2.2.1
  | taskCreate κ type => cases htask
  | dependences κ deps => cases htask
  | taskSchedule i status next => cases htask

theorem isGreatest_entry (h : Joined crew σ) {parallelData : Bool}
    (hp : σ.phases.begun p = σ.phases.ended p + 1)
    (hall : ∀ q, σ.phases.begun p ≤ σ.phases.entered crew.primary q)
    (hpd : performs crew p parallelData) {x : Comp} (hx : x ≠ .thread) :
    IsGreatest (Set.range fun q => ((σ.entry (σ.phases.ended p) q).clocks .useful).get x)
      (((σ.step crew ⟨t, p, .barrierEnd parallelData⟩).clock p).elapsed .useful x t) := by
  have hentries : σ.entries (σ.phases.ended p) = Set.range (σ.entry (σ.phases.ended p)) := by
    ext c
    constructor
    · rintro ⟨q, -, rfl⟩
      exact ⟨q, rfl⟩
    · rintro ⟨q, rfl⟩
      have := (hall q).trans (Phases.entered_le _ _ q)
      exact ⟨q, by omega, rfl⟩
  have hmax := ((h.holds _ (h.shape.phases.live_ended p)).resolve (entries_nonempty hp)).2
    .useful (by decide) x hx
  rw [hentries, ← Set.range_comp] at hmax
  obtain ⟨hclock, hstate⟩ := h.waits p hp
  have hle := hmax.2 ⟨p, rfl⟩
  have hval : ((σ.step crew ⟨t, p, .barrierEnd parallelData⟩).clock p).elapsed .useful x t =
      ((σ.shared.barrier (σ.phases.ended p % 3)).clocks .useful).get x := by
    rw [elapsed_barrierEnd h.shape (h.started p) hpd hx, hstate, runTerm_omp_useful, add_zero]
    apply max_eq_right
    rw [ThreadClock.elapsed, hstate, runTerm_omp_useful, add_zero, hclock]
    exact hle
  rw [hval]
  exact hmax

end Joined

section
variable [DecidableEq K] [DecidableEq G] {crew : Crew T}

theorem forked_step (σ : Team T K G) (a : Label T K G) (h : σ.forked = true) :
    (σ.step crew a).forked = true := by
  obtain ⟨t, p, call⟩ := a
  cases call with
  | parallelBegin => rfl
  | _ => exact h

theorem joined_run (now : ℚ) (clock : T → ThreadClock) {as : List (Label T K G)}
    (hvalid : (machine crew K G).Valid (.ready crew now clock) as)
    (htask : (machine crew K G).Along (fun _ a => a.call.ofTask = false) (.ready crew now clock) as) :
    Joined crew ((machine crew K G).run (.ready crew now clock) as) := by
  have hinv := (Machine.along_and.mpr ⟨hvalid, htask⟩).inv
    (I := fun σ => Joined crew σ ∧ σ.forked = true)
    (fun σ a hσ ha => ⟨hσ.1.step ha.1 ha.2 hσ.2, forked_step σ a hσ.2⟩)
    ⟨.ready crew now clock, rfl⟩
  exact hinv.1

end

end Team

/-- In a team with fresh barrier clocks and without explicit tasks, a thread that leaves a barrier
through its clock gets the maximum over the team of the clocks at the entries to this barrier. -/
theorem barrierEnd_isGreatest_entry {T K G : Type} [DecidableEq T] [DecidableEq K] [DecidableEq G]
    (crew : Crew T) (now : ℚ) (clock : T → ThreadClock) (as : List (Label T K G)) (t : ℚ) (p : T)
    (parallelData : Bool)
    (hvalid : (Team.machine crew K G).Valid (.ready crew now clock)
      (as ++ [⟨t, p, .barrierEnd parallelData⟩]))
    (htask : ∀ a ∈ as, a.call.ofTask = false)
    (hperforms : parallelData = true ∨ p = crew.primary) (x : Comp) (hx : x ≠ .thread) :
    IsGreatest
      (Set.range fun q => (((((Team.machine crew K G).run (.ready crew now clock) as).entry
        (((Team.machine crew K G).run (.ready crew now clock) as).phases.ended p) q).clocks
          .useful).get x))
      ((((Team.machine crew K G).run (.ready crew now clock)
        (as ++ [⟨t, p, .barrierEnd parallelData⟩])).clock p).elapsed .useful x t) := by
  obtain ⟨hbefore, hend⟩ := (Machine.along_append _ _).mp hvalid
  have hjoined := Team.joined_run now clock hbefore (Machine.along_of_forall _ htask)
  rw [Machine.run_concat]
  obtain ⟨⟨-, -, hbegun, hall, -⟩, -⟩ := hend
  exact hjoined.isGreatest_entry hbegun hall hperforms hx

def meeting (n : ℕ) : List (Label Bool Empty Empty) :=
  [⟨4 * n + 2, false, .barrierBegin⟩, ⟨4 * n + 3, false, .barrierReset⟩,
   ⟨4 * n + 4, true, .barrierBegin⟩]

/-- Two threads meet in four barriers, of which the last one has the clock of the first. -/
def fourMeetings : List (Label Bool Empty Empty) :=
  ((List.range 3).flatMap fun n => meeting n ++
    [⟨4 * n + 5, false, .barrierEnd true⟩, ⟨4 * n + 5, true, .barrierEnd true⟩]) ++ meeting 3

def working (_ : Bool) : ThreadClock := ThreadClock.new.enterState true 1 .useful 1

theorem barrierEnd_isGreatest_entry_fourMeetings :
    IsGreatest (Set.range fun q => ((((Team.machine Crew.pair Empty Empty).run
      (.ready .pair 1 working) fourMeetings).entry 3 q).clocks .useful).get .critical) 12 := by
  have h := barrierEnd_isGreatest_entry .pair 1 working fourMeetings 17 false true
    (by decide +kernel) (by decide) (.inl rfl) .critical (by decide)
  have hval : ((((Team.machine Crew.pair Empty Empty).run (.ready .pair 1 working)
      (fourMeetings ++ [⟨17, false, .barrierEnd true⟩])).clock false).elapsed .useful .critical 17) =
      12 := by
    decide +kernel
  rw [hval] at h
  exact h

end CritPath
