import CritPath.Measure.Job
import Mathlib.Data.Finset.Lattice.Fold
import Mathlib.Data.Fintype.Basic

/-!
# The clocks that `MPI_Finalize` merges

When the ranks reach `MPI_Finalize` some are still measuring and some have been
stopped. Each puts the stored critical components of its main thread's clock
into one `Allreduce` with the maximum. For a measuring rank the stored value of
a clock that runs in `STATE_MPI` leaves out the time (`closed_eq`), for a
stopped rank it is the total, and `finishMeasurement` of rank 0 adds its end
time to the maximum or not (`result_eq`).

`CLOCK_USEFUL` does not run in `STATE_MPI`, so its result is the greatest total.
The result of `CLOCK_OOMP` is right up to the difference of the end times iff the
two kinds of values are `Comparable` (`finalize_within_iff`).
-/

namespace CritPath

/-- A rank that reaches `MPI_Finalize` on its main thread `me`. It calls `getTime` in `mpiTimer`
(`entered`) and in the `stopMeasurement` of `finishMeasurement` (`finish`). A stopped rank may
have been finished by `dump_on_stop`. -/
structure FinalRank (T S B : Type) where
  session : Session T S B
  me : T
  entered : ℚ
  finish : ℚ
  unfinished : session.running = true → session.finished = false
  stopped : session.running = false → session.topState me = .init ∧ 0 < session.endProgrammTime
  finish_pos : 0 < finish

theorem Session.clocks_finishMeasurement {T S B : Type} [DecidableEq T] {σ : Session T S B}
    {now : ℚ} (me : T) (hf : σ.finished = false)
    (hE : (σ.stopMeasurement now).endProgrammTime ≠ 0) (i : ClockType) (x : Comp) :
    (((σ.finishMeasurement now me).sys.thread me).clocks i).get x =
      (σ.sys.thread me).elapsed i x (σ.stopMeasurement now).endProgrammTime := by
  -- stopping the measurement first makes no difference
  have hstop : σ.finishMeasurement now me = (σ.stopMeasurement now).finishMeasurement now me := by
    cases hr : σ.running <;> simp [finishMeasurement, stopMeasurement, hr, hf]
  obtain ⟨hclosing, hinit⟩ := closing_finishMeasurement now me hE (running_stopMeasurement σ now)
    ((finished_stopMeasurement σ now).trans hf)
  have htop : ((σ.finishMeasurement now me).sys.thread me).getState = .init := by
    rw [hstop]
    exact hinit me (.inl rfl)
  rw [← sys_stopMeasurement σ now, ← hclosing.elapsed me i x, ← hstop]
  refine (ThreadClock.elapsed_of_stopped ?_ x _).symm
  rw [htop]
  rfl

namespace FinalRank

variable {P T S B : Type} [DecidableEq T] [DecidableEq S] [DecidableEq B]

/-- `mpiTimer`. -/
def enter (r : FinalRank T S B) : Session T S B :=
  r.session.step (r.entered, .op (.enterState r.me .mpi))

/-- `MpiHappensBefore(max_uc, REF_RANK)`. -/
def load (b : B) (r : FinalRank T S B) : Session T S B :=
  r.enter.step (r.entered, .mpiHappensBefore r.me b)

def endTime (r : FinalRank T S B) : ℚ :=
  if r.session.running then r.finish else r.session.endProgrammTime

def stored (i : ClockType) (r : FinalRank T S B) : ℚ :=
  ((r.enter.sys.thread r.me).clocks i).critical

def closed (i : ClockType) (r : FinalRank T S B) : ℚ :=
  (r.enter.sys.thread r.me).elapsed i .critical r.endTime

def state (r : FinalRank T S B) : ClockState := if r.session.running then .mpi else .init

variable [Fintype P]

def maxOver (root : P) (f : P → ℚ) : ℚ := Finset.univ.sup' ⟨root, Finset.mem_univ root⟩ f

variable (root : P) (b : B) (ranks : P → FinalRank T S B)

/-- `max_uc.Allreduce`. -/
def allreduce : IpcData where
  useful := maxOver root fun p => (((ranks p).load b).ipc b).useful
  ompi := maxOver root fun p => (((ranks p).load b).ipc b).ompi
  oomp := maxOver root fun p => (((ranks p).load b).ipc b).oomp

def merged : Session T S B :=
  let r := ranks root
  let σ := (r.load b).step (r.entered, .receive b (allreduce root b ranks))
  σ.mpiFinalize r.me b

/-- `MPI_Finalize` on rank `root`. -/
def mpiFinalize : Session T S B :=
  (merged root b ranks).finishMeasurement (ranks root).finish (ranks root).me

def result (i : ClockType) : ℚ :=
  (((mpiFinalize root b ranks).sys.thread (ranks root).me).clocks i).critical

def maxClosed (i : ClockType) : ℚ :=
  maxOver root fun p => (ranks p).closed i

def spread : ℚ :=
  maxOver root fun p => maxOver root fun q => (ranks p).endTime - (ranks q).endTime

/-- The result is the greatest closed value up to the difference of the end times. -/
def Within (i : ClockType) : Prop :=
  maxClosed root ranks i - spread root ranks ≤ result root b ranks i ∧
    result root b ranks i ≤ maxClosed root ranks i + spread root ranks

/-- Offsets and totals of `CLOCK_OOMP` do not get in each other's way: if rank `root` is measuring,
its end time on top of a stopped rank's total does not exceed the greatest total; if it is
stopped, some value is close to the greatest total without the end time of its rank. -/
def Comparable : Prop :=
  if (ranks root).session.running then
    ∀ p, (ranks p).session.running = false →
      (ranks p).closed .oomp + (ranks root).endTime ≤ maxClosed root ranks .oomp + spread root ranks
  else ∃ p, maxClosed root ranks .oomp - spread root ranks ≤
    (ranks p).closed .oomp - if (ranks p).session.running then (ranks p).endTime else 0

/-! ## Maxima over the ranks -/

section
omit [DecidableEq T] [DecidableEq S] [DecidableEq B]

theorem le_maxOver (f : P → ℚ) (p : P) : f p ≤ maxOver root f :=
  Finset.le_sup' f (Finset.mem_univ p)

theorem exists_eq_maxOver (f : P → ℚ) : ∃ p, maxOver root f = f p := by
  obtain ⟨p, -, hp⟩ := Finset.exists_mem_eq_sup' ⟨root, Finset.mem_univ root⟩ f
  exact ⟨p, hp⟩

theorem sub_le_spread (p q : P) : (ranks p).endTime - (ranks q).endTime ≤ spread root ranks :=
  le_trans (le_maxOver root (fun q => (ranks p).endTime - (ranks q).endTime) q)
    (le_maxOver root (fun p => maxOver root fun q => (ranks p).endTime - (ranks q).endTime) p)

theorem spread_nonneg : 0 ≤ spread root ranks := by
  have h := sub_le_spread root ranks root root
  rwa [sub_self] at h

end

/-! ## One rank -/

section
omit [DecidableEq T] [DecidableEq S] [DecidableEq B]

theorem endTime_pos (r : FinalRank T S B) : 0 < r.endTime := by
  unfold endTime
  cases hr : r.session.running with
  | true => exact r.finish_pos
  | false => exact (r.stopped hr).2

theorem runTerm_state_oomp (r : FinalRank T S B) (t : ℚ) :
    runTerm r.state .oomp t = if r.session.running then t else 0 := by
  unfold state
  cases r.session.running <;> rfl

theorem runTerm_state_useful (r : FinalRank T S B) (t : ℚ) : runTerm r.state .useful t = 0 := by
  unfold state
  cases r.session.running <;> rfl

end

theorem getState_enter (r : FinalRank T S B) : (r.enter.sys.thread r.me).getState = r.state := by
  unfold enter Session.step state
  cases hr : r.session.running with
  | true => simp [Sys.step]
  | false =>
    have hinit : (r.session.sys.thread r.me).getState = .init := (r.stopped hr).1
    simp [Sys.step, ThreadClock.enterState, hinit]

theorem closed_eq (i : ClockType) (r : FinalRank T S B) :
    r.closed i = r.stored i + runTerm r.state i r.endTime := by
  unfold closed ThreadClock.elapsed
  rw [getState_enter]
  rfl

/-! ## Rank `root` -/

theorem get_allreduce {i : ClockType} (hi : i ≠ .ogpu) :
    (allreduce root b ranks).get i = maxOver root fun p => (ranks p).stored i := by
  have hload : ∀ p, ((ranks p).load b).ipc b =
      ((ranks p).enter.sys.thread (ranks p).me).mpiHappensBefore := by
    intro p
    simp [load, Session.step]
  cases i with
  | ogpu => exact absurd rfl hi
  | _ => simp only [allreduce, hload]; rfl

theorem critical_merged {i : ClockType} (hi : i ≠ .ogpu) :
    (((merged root b ranks).sys.thread (ranks root).me).clocks i).critical =
      maxOver root fun p => (ranks p).stored i := by
  have hle : (ranks root).stored i ≤ maxOver root fun p => (ranks p).stored i :=
    le_maxOver root (fun p => (ranks p).stored i) root
  rw [← max_eq_right hle, ← get_allreduce root b ranks hi]
  cases i with
  | ogpu => exact absurd rfl hi
  | _ =>
    simp [merged, load, Session.step, Session.mpiFinalize, ThreadClock.mpiHappensAfter,
      ThreadClock.maxCritical, IpcData.get, stored]

theorem getState_merged :
    ((merged root b ranks).sys.thread (ranks root).me).getState = (ranks root).state := by
  rw [← getState_enter]
  simp [merged, load, Session.step, Session.mpiFinalize]

/-- The close adds the end time of rank `root` to the maximum if the clock runs there. -/
theorem result_eq {i : ClockType} (hi : i ≠ .ogpu) :
    result root b ranks i = (maxOver root fun p => (ranks p).stored i) +
      runTerm (ranks root).state i (ranks root).endTime := by
  have hmerged : ((merged root b ranks).sys.thread (ranks root).me).elapsed i .critical
      (ranks root).endTime = (maxOver root fun p => (ranks p).stored i) +
        runTerm (ranks root).state i (ranks root).endTime := by
    rw [ThreadClock.elapsed, getState_merged, CpClocks.get, critical_merged root b ranks hi]
  rw [← hmerged]
  unfold result mpiFinalize
  by_cases hf : (ranks root).session.finished
  · -- `dump_on_stop` has finished the rank
    have hr : (ranks root).session.running = false := by
      by_contra hr
      have := (ranks root).unfinished (by simpa using hr)
      simp_all
    have hstate : State (ranks root).state i = false := by simp [state, hr, State]
    have hsame : (merged root b ranks).finishMeasurement (ranks root).finish (ranks root).me =
        merged root b ranks := if_pos hf
    rw [hsame, ThreadClock.elapsed_of_stopped (by rw [getState_merged]; exact hstate)]
    rfl
  · have hend : ((merged root b ranks).stopMeasurement (ranks root).finish).endProgrammTime =
        (ranks root).endTime := by
      show (if (ranks root).session.running then _ else _ : Session T S B).endProgrammTime = _
      unfold endTime
      split <;> rfl
    have hf' : (merged root b ranks).finished = false := Bool.eq_false_iff.mpr hf
    rw [← hend]
    refine Session.clocks_finishMeasurement _ hf' ?_ i .critical
    rw [hend]
    exact (endTime_pos _).ne'

/-! ## How far the result is from the greatest total -/

theorem closed_le_maxClosed (i : ClockType) (p : P) :
    (ranks p).closed i ≤ maxClosed root ranks i :=
  le_maxOver root (fun p => (ranks p).closed i) p

theorem stored_eq_oomp (r : FinalRank T S B) :
    r.stored .oomp = r.closed .oomp - if r.session.running then r.endTime else 0 := by
  rw [closed_eq, runTerm_state_oomp, add_sub_cancel_right]

theorem stored_eq_useful (r : FinalRank T S B) : r.stored .useful = r.closed .useful := by
  rw [closed_eq, runTerm_state_useful, add_zero]

/-- The result of `CLOCK_USEFUL` is the greatest total. -/
theorem result_useful : result root b ranks .useful = maxClosed root ranks .useful := by
  rw [result_eq root b ranks ClockType.noConfusion, runTerm_state_useful, add_zero, maxClosed]
  simp only [stored_eq_useful]

theorem within_useful : Within root b ranks .useful := by
  have hD := spread_nonneg root ranks
  rw [Within, result_useful]
  constructor <;> linarith

theorem result_oomp : result root b ranks .oomp = (maxOver root fun p => (ranks p).stored .oomp) +
      if (ranks root).session.running then (ranks root).endTime else 0 := by
  rw [result_eq root b ranks ClockType.noConfusion, runTerm_state_oomp]

section
variable {root b ranks}

theorem within_oomp_running (hr : (ranks root).session.running = true) :
    Within root b ranks .oomp ↔ ∀ p, (ranks p).session.running = false →
      (ranks p).closed .oomp + (ranks root).endTime ≤
        maxClosed root ranks .oomp + spread root ranks := by
  have hresult := result_oomp root b ranks
  rw [if_pos hr] at hresult
  rw [Within, hresult]
  constructor
  · rintro ⟨-, hupper⟩ p hp
    have hle := le_maxOver root (fun p => (ranks p).stored .oomp) p
    have hstored := (ranks p).stored_eq_oomp
    simp only [hp, Bool.false_eq_true, ↓reduceIte, sub_zero] at hstored
    linarith
  · intro hstopped
    constructor
    · -- the rank with the greatest total
      obtain ⟨m, hm⟩ := exists_eq_maxOver root fun p => (ranks p).closed .oomp
      have hle := le_maxOver root (fun p => (ranks p).stored .oomp) m
      have hstored := (ranks m).stored_eq_oomp
      have hspread := sub_le_spread root ranks m root
      have hpos := endTime_pos (ranks root)
      have hD := spread_nonneg root ranks
      rw [maxClosed, hm]
      split at hstored <;> linarith
    · -- the rank with the greatest stored value
      obtain ⟨v, hv⟩ := exists_eq_maxOver root fun p => (ranks p).stored .oomp
      have hclosed := closed_le_maxClosed root ranks .oomp v
      have hstored := (ranks v).stored_eq_oomp
      rw [hv]
      cases hrv : (ranks v).session.running with
      | true =>
        have hspread := sub_le_spread root ranks root v
        rw [if_pos hrv] at hstored
        linarith
      | false =>
        have hcond := hstopped v hrv
        simp only [hrv, Bool.false_eq_true, ↓reduceIte, sub_zero] at hstored
        linarith

theorem within_oomp_stopped (hr : (ranks root).session.running = false) :
    Within root b ranks .oomp ↔ ∃ p, maxClosed root ranks .oomp - spread root ranks ≤
      (ranks p).closed .oomp - if (ranks p).session.running then (ranks p).endTime else 0 := by
  have hresult := result_oomp root b ranks
  simp only [hr, Bool.false_eq_true, ↓reduceIte, add_zero] at hresult
  obtain ⟨v, hv⟩ := exists_eq_maxOver root fun p => (ranks p).stored .oomp
  simp only [Within, hresult, ← stored_eq_oomp]
  constructor
  · rintro ⟨hlower, -⟩
    exact ⟨v, hv ▸ hlower⟩
  · rintro ⟨p, hp⟩
    refine ⟨hp.trans (le_maxOver root (fun p => (ranks p).stored .oomp) p), ?_⟩
    have hclosed := closed_le_maxClosed root ranks .oomp v
    have hstored := (ranks v).stored_eq_oomp
    have hpos := endTime_pos (ranks v)
    have hD := spread_nonneg root ranks
    rw [hv]
    split at hstored <;> linarith

end

theorem within_oomp_iff : Within root b ranks .oomp ↔ Comparable root ranks := by
  rw [Comparable]
  cases hr : (ranks root).session.running with
  | true => simpa using within_oomp_running hr
  | false => simpa using within_oomp_stopped hr

/-- After `MPI_Finalize` the two clocks of rank `root` are the greatest totals up to the difference
of the end times iff the values of `CLOCK_OOMP` are comparable. -/
theorem finalize_within_iff (root : P) (b : B) (ranks : P → FinalRank T S B) :
    (Within root b ranks .useful ∧ Within root b ranks .oomp) ↔ Comparable root ranks := by
  rw [and_iff_right (within_useful root b ranks), within_oomp_iff]

section
variable {root ranks}

theorem comparable_of_alike (h : ∀ p, (ranks p).session.running = (ranks root).session.running) :
    Comparable root ranks := by
  unfold Comparable
  split
  · rename_i hr
    intro p hp
    exact absurd (hp.symm.trans ((h p).trans hr)) Bool.false_ne_true
  · rename_i hr
    obtain ⟨m, hm⟩ := exists_eq_maxOver root fun p => (ranks p).closed .oomp
    have hD := spread_nonneg root ranks
    have hrm : (ranks m).session.running = false := (h m).trans (Bool.eq_false_iff.mpr hr)
    refine ⟨m, ?_⟩
    simp only [hrm, Bool.false_eq_true, ↓reduceIte, maxClosed, hm]
    linarith

/-- If all ranks are measuring or all are stopped, both clocks are right. -/
theorem within_of_alike (h : ∀ p, (ranks p).session.running = (ranks root).session.running) :
    Within root b ranks .useful ∧ Within root b ranks .oomp :=
  ⟨within_useful root b ranks, (within_oomp_iff root b ranks).mpr (comparable_of_alike h)⟩

end

/-! ## A rank that was stopped early -/

def startedAt10 : Session Unit Unit Unit :=
  ({ Session.start Unit Unit [] with running := false }).startTool 10 () .useful

/-- Rank 0 (`false`) measures until 100. Rank 1 has executed the stop marker at 90. -/
def stoppedEarly : Bool → FinalRank Unit Unit Unit
  | false =>
    { session := startedAt10, me := (), entered := 100, finish := 100
      unfinished := fun _ => rfl
      stopped := fun h => Bool.noConfusion h
      finish_pos := by decide +kernel }
  | true =>
    { session := startedAt10.stopTool 90 (), me := (), entered := 95, finish := 100
      unfinished := fun h => Bool.noConfusion h
      stopped := fun _ => ⟨rfl, by decide +kernel⟩
      finish_pos := by decide +kernel }

/-- The totals are 90 and 80, and the end times 10 apart. Rank 0 adds its end time to the total of
rank 1. -/
theorem stoppedEarly_counts_180 :
    maxClosed false stoppedEarly .oomp = 90 ∧ spread false stoppedEarly = 10 ∧
      result false () stoppedEarly .oomp = 180 ∧ ¬ Within false () stoppedEarly .oomp := by
  have hmax : maxClosed false stoppedEarly .oomp = 90 := by decide +kernel
  have hspread : spread false stoppedEarly = 10 := by decide +kernel
  have hresult : result false () stoppedEarly .oomp = 180 := by decide +kernel
  refine ⟨hmax, hspread, hresult, fun h => ?_⟩
  rw [Within, hmax, hspread, hresult] at h
  exact absurd h.2 (by decide +kernel)

end FinalRank

end CritPath
