import CritPath.Clock.Interleave
import CritPath.Clock.System

/-!
# Waiting on a sync clock that nobody has signalled

`OmpHAfter` takes the maximum with the zeros of a fresh sync clock. This is
neutral for stopped clocks; a running clock is stored with the time of its start
subtracted, and the maximum with 0 sets it to the present. `CheckArc` also marks
the sync clock as used, so that the first `OmpHBefore` afterwards takes the
maximum with what is there instead of copying: the sync clock then holds in
addition what the copies would have overwritten (`Behind`).
-/

namespace CritPath

open Lib

namespace SyncClock

variable {s s' : SyncClock} {tc : ThreadClock} {l : Loc}

def Unsignalled (s : SyncClock) : Prop := s.syncState = .init ∧ ∀ l ∈ maxOrder, s.load l = 0

instance (s : SyncClock) : Decidable s.Unsignalled := inferInstanceAs (Decidable (_ ∧ _))

theorem mem_maxOrder : l ∈ maxOrder ↔ l.1 ≠ .ogpu ∧ l.2 ≠ .thread := by
  obtain ⟨i, x⟩ := l
  cases i <;> cases x <;> decide

theorem load_ompHBefore_first (h : s.syncState = .init) (hl : l ∈ maxOrder) :
    (s.ompHBefore true tc).load l = tc.load l :=
  congrArg (CpClocks.get · l.2) (get_ompHBefore_first h (mem_maxOrder.mp hl).1)

theorem load_ompHBefore_later (h : s.syncState ≠ .init) (hl : l ∈ maxOrder) :
    (s.ompHBefore true tc).load l = max (s.load l) (tc.load l) :=
  get_ompHBefore_later h (mem_maxOrder.mp hl).1 (mem_maxOrder.mp hl).2

theorem load_ompHAfter (hl : l ∈ maxOrder) :
    (s.ompHAfter true tc).2.load l = max (tc.load l) (s.load l) :=
  get_ompHAfter (mem_maxOrder.mp hl).1 (mem_maxOrder.mp hl).2

@[simp] theorem load_ompHAfter_fst : (s.ompHAfter true tc).1.load l = s.load l := by
  simp [load]

theorem ogpu_ompHBefore : (s.ompHBefore true tc).clocks .ogpu = s.clocks .ogpu := by
  unfold ompHBefore checkArc
  by_cases h : s.syncState = .init <;> simp [h]

theorem ompHAfter_eq_iff {c : ThreadClock} (hstack : c.stack = tc.stack)
    (hthread : ∀ i, (c.clocks i).thread = (tc.clocks i).thread)
    (hogpu : c.clocks .ogpu = tc.clocks .ogpu) :
    (s.ompHAfter true tc).2 = c ↔ ∀ l ∈ maxOrder, max (tc.load l) (s.load l) = c.load l := by
  constructor
  · rintro rfl l hl
    exact (load_ompHAfter hl).symm
  · intro h
    have hclocks : (s.ompHAfter true tc).2.clocks = c.clocks := by
      funext i
      by_cases hi : i = .ogpu
      · subst hi
        exact hogpu.symm
      · have hget : ∀ x, x ≠ .thread → ((s.ompHAfter true tc).2.clocks i).get x =
            (c.clocks i).get x := fun x hx =>
          (get_ompHAfter hi hx).trans (h (i, x) (mem_maxOrder.mpr ⟨hi, hx⟩))
        refine CpClocks.ext ?_ (hget .proc (by decide)) (hget .critical (by decide))
        rw [thread_ompHAfter, hthread]
    have hst : (s.ompHAfter true tc).2.stack = c.stack := by rw [stack_ompHAfter, hstack]
    cases c
    exact congrArg₂ ThreadClock.mk hclocks hst

theorem ompHAfter_eq_self_iff :
    (s.ompHAfter true tc).2 = tc ↔ ∀ l ∈ maxOrder, s.load l ≤ tc.load l := by
  rw [ompHAfter_eq_iff rfl (fun _ => rfl) rfl]
  exact forall₂_congr fun l _ => max_eq_left_iff

theorem ompHAfter_congr_iff : (s'.ompHAfter true tc).2 = (s.ompHAfter true tc).2 ↔
    ∀ l ∈ maxOrder, max (tc.load l) (s'.load l) = max (tc.load l) (s.load l) := by
  rw [ompHAfter_eq_iff (by simp) (fun i => thread_ompHAfter true) rfl]
  exact forall₂_congr fun l hl => by rw [load_ompHAfter hl]

end SyncClock

namespace Sys

variable {T S : Type} [DecidableEq T] [DecidableEq S] {s : S} {lost : Loc → ℚ} {σ τ : Sys T S}

/-- Every wait at `s` gets at least the values `lost` from its own clock and the sync clock, as they
are in the run from `σ`. `lost` grows by the values that an `OmpHBefore` overwrites. -/
def Harmless (s : S) : (Loc → ℚ) → Sys T S → List (Event T S) → Prop
  | _, _, [] => True
  | lost, σ, e :: es =>
    match e.op with
    | .ompHAfter s' th =>
      (s' = s → ∀ l ∈ maxOrder, lost l ≤ max ((σ.thread th).load l) ((σ.sync s).load l)) ∧
        Harmless s lost (σ.step true e) es
    | .ompHBefore s' _ =>
      Harmless s (if s' = s ∧ (σ.sync s).syncState = .init then
        fun l => max (lost l) ((σ.sync s).load l) else lost) (σ.step true e) es
    | .ompCReset s' => s' = s ∨ Harmless s lost (σ.step true e) es
    | _ => Harmless s lost (σ.step true e) es

/-- In `τ` sync clock `s` is in use, and has the values `lost` in addition to those in `σ`. -/
structure Behind (s : S) (lost : Loc → ℚ) (τ σ : Sys T S) : Prop where
  thread : τ.thread = σ.thread
  others : ∀ s', s' ≠ s → τ.sync s' = σ.sync s'
  used : (τ.sync s).syncState ≠ .init
  values : ∀ l ∈ maxOrder, (τ.sync s).load l = max ((σ.sync s).load l) (lost l)
  ogpu : (τ.sync s).clocks .ogpu = (σ.sync s).clocks .ogpu

section
variable (h : Behind s lost τ σ)
include h

omit [DecidableEq S] in
theorem Behind.setThread (th : T) (f : ThreadClock → ThreadClock) :
    Behind s lost (τ.setThread th (f (τ.thread th))) (σ.setThread th (f (σ.thread th))) where
  thread := by simp only [thread_setThread, h.thread]
  others := h.others
  used := h.used
  values := h.values
  ogpu := h.ogpu

omit [DecidableEq T] in
theorem Behind.setSync_ne {s' : S} (hs : s' ≠ s) (c : SyncClock) :
    Behind s lost (τ.setSync s' c) (σ.setSync s' c) where
  thread := h.thread
  others s'' hs'' := by
    by_cases heq : s'' = s'
    · simp [heq]
    · simpa [heq] using h.others s'' hs''
  used := by simpa [Function.update_of_ne hs.symm] using h.used
  values := by simpa [Function.update_of_ne hs.symm] using h.values
  ogpu := by simpa [Function.update_of_ne hs.symm] using h.ogpu

omit [DecidableEq T] in
theorem Behind.ompHBefore (tc : ThreadClock) :
    Behind s (if (σ.sync s).syncState = .init then fun l => max (lost l) ((σ.sync s).load l)
        else lost)
      (τ.setSync s ((τ.sync s).ompHBefore true tc)) (σ.setSync s ((σ.sync s).ompHBefore true tc)) where
  thread := h.thread
  others s' hs' := by simpa [Function.update_of_ne hs'] using h.others s' hs'
  used := by
    rw [sync_setSync, Function.update_self, SyncClock.syncState_ompHBefore, if_neg h.used]
    exact h.used
  values l hl := by
    rw [sync_setSync, sync_setSync, Function.update_self, Function.update_self,
      SyncClock.load_ompHBefore_later h.used hl, h.values l hl]
    split
    · rename_i hinit
      rw [SyncClock.load_ompHBefore_first hinit hl, max_comm]
      exact congrArg (max _) (max_comm _ _)
    · rename_i hused
      rw [SyncClock.load_ompHBefore_later hused hl, max_right_comm]
  ogpu := by simpa [SyncClock.ogpu_ompHBefore] using h.ogpu

theorem Behind.ompHAfter (th : T) (tc : ThreadClock) :
    Behind s lost ((τ.setSync s ((τ.sync s).ompHAfter true (τ.thread th)).1).setThread th tc)
      ((σ.setSync s ((σ.sync s).ompHAfter true (σ.thread th)).1).setThread th tc) where
  thread := by simp only [thread_setThread, thread_setSync, h.thread]
  others s' hs' := by simpa [Function.update_of_ne hs'] using h.others s' hs'
  used := by
    rw [sync_setThread, sync_setSync, Function.update_self, SyncClock.syncState_ompHAfter,
      if_neg h.used]
    exact h.used
  values l hl := by simpa using h.values l hl
  ogpu := by simpa using h.ogpu

omit [DecidableEq T] in
theorem Behind.ompCReset :
    τ.setSync s ((τ.sync s).ompCReset true) = σ.setSync s ((σ.sync s).ompCReset true) := by
  have hreset : (τ.sync s).ompCReset true = (σ.sync s).ompCReset true := by
    refine congrArg₂ SyncClock.mk ?_ rfl
    funext i
    cases i with
    | ogpu => exact h.ogpu
    | useful => rfl
    | ompi => rfl
    | oomp => rfl
  have hsync : Function.update τ.sync s ((σ.sync s).ompCReset true) =
      Function.update σ.sync s ((σ.sync s).ompCReset true) := by
    funext s'
    by_cases hs' : s' = s
    · simp [hs']
    · simpa [hs'] using h.others s' hs'
  rw [hreset]
  exact congrArg₂ Sys.mk h.thread hsync

omit [DecidableEq T] [DecidableEq S] in
theorem Behind.wait_eq_iff (tc : ThreadClock) :
    ((τ.sync s).ompHAfter true tc).2 = ((σ.sync s).ompHAfter true tc).2 ↔
      ∀ l ∈ maxOrder, lost l ≤ max (tc.load l) ((σ.sync s).load l) := by
  rw [SyncClock.ompHAfter_congr_iff]
  refine forall₂_congr fun l hl => ?_
  rw [h.values l hl, ← max_assoc]
  exact max_eq_left_iff

end

theorem Behind.agrees_iff {es : List (Event T S)} (h : Behind s lost τ σ) :
    (machine T S).Agrees Sys.thread τ σ es ↔ Harmless s lost σ es := by
  induction es generalizing lost τ σ with
  | nil => simp [Harmless, h.thread]
  | cons e es ih =>
    rw [Machine.agrees_cons, and_iff_right h.thread]
    obtain ⟨t, op⟩ := e
    cases op with
    | enterState th cs => exact ih (h.setThread th fun c => c.enterState true t cs t)
    | exitState th => exact ih (h.setThread th fun c => c.exitState true t t)
    | setState th cs => exact ih (h.setThread th fun c => c.setState true t cs t)
    | ompHBefore s' th =>
      by_cases hs : s' = s
      · subst hs
        simpa [Harmless, machine, step, h.thread] using ih (h.ompHBefore (σ.thread th))
      · have hnext := h.setSync_ne hs ((σ.sync s').ompHBefore true (σ.thread th))
        simpa [Harmless, machine, step, hs, h.others s' hs, h.thread] using ih hnext
    | ompHAfter s' th =>
      by_cases hs : s' = s
      · subst hs
        by_cases heq : ((τ.sync s').ompHAfter true (τ.thread th)).2 =
            ((σ.sync s').ompHAfter true (σ.thread th)).2
        · have hlost := heq
          rw [h.thread, h.wait_eq_iff] at hlost
          have hiff := ih (h.ompHAfter th ((σ.sync s').ompHAfter true (σ.thread th)).2)
          refine Iff.trans ?_ (and_iff_right fun _ => hlost).symm
          simpa [machine, step, heq] using hiff
        · refine iff_of_false (fun hagree => heq ?_) fun hharm => heq ?_
          · have hthread := congrFun (hagree [] List.nil_prefix) th
            simpa [machine, step] using hthread
          · rw [h.thread, h.wait_eq_iff]
            exact hharm.1 rfl
      · have hnext := (h.setSync_ne hs ((σ.sync s').ompHAfter true (σ.thread th)).1).setThread th
          fun _ => ((σ.sync s').ompHAfter true (σ.thread th)).2
        refine Iff.trans ?_ (and_iff_right fun heq => absurd heq hs).symm
        simpa [machine, step, h.others s' hs, h.thread] using ih hnext
    | ompCReset s' =>
      by_cases hs : s' = s
      · subst hs
        refine iff_of_true ?_ (.inl rfl)
        show (machine T S).Agrees Sys.thread (τ.setSync s' ((τ.sync s').ompCReset true)) _ es
        rw [h.ompCReset]
        exact Machine.agrees_refl es
      · have hnext := h.setSync_ne hs ((σ.sync s').ompCReset true)
        refine Iff.trans ?_ (or_iff_right hs).symm
        simpa [machine, step, h.others s' hs] using ih hnext

theorem behind_of_unsignalled {th : T} {t : ℚ} (hs : (σ.sync s).Unsignalled)
    (hstate : (σ.thread th).getState ≠ .init)
    (hsame : ((σ.sync s).ompHAfter true (σ.thread th)).2 = σ.thread th) :
    Behind s (fun _ => 0) (σ.step true ⟨t, .ompHAfter s th⟩) σ where
  thread := by simp [step, hsame]
  others s' hs' := by simp [step, hs']
  used := by
    simp only [step, sync_setThread, sync_setSync, Function.update_self]
    rw [SyncClock.syncState_ompHAfter, if_pos hs.1]
    exact hstate
  values l hl := by simp [step, hs.2 l hl]
  ogpu := by simp [step]

theorem step_ompHAfter_of_init {th : T} {t : ℚ} (hs : (σ.sync s).syncState = .init)
    (hstate : (σ.thread th).getState = .init)
    (hsame : ((σ.sync s).ompHAfter true (σ.thread th)).2 = σ.thread th) :
    σ.step true ⟨t, .ompHAfter s th⟩ = σ := by
  have hst : ((σ.sync s).ompHAfter true (σ.thread th)).1.syncState = (σ.sync s).syncState := by
    rw [SyncClock.syncState_ompHAfter, hstate, hs, if_pos rfl]
  have hsync : ((σ.sync s).ompHAfter true (σ.thread th)).1 = σ.sync s :=
    congrArg₂ SyncClock.mk SyncClock.clocks_ompHAfter_fst hst
  simp [step, hsame, hsync, setSync, setThread]

end Sys

/-- Thread `th` waits at a sync clock that nobody has signalled, and a run follows. The wait makes no
difference to any thread, all along the run, exactly if no stored value of the thread is negative
and either the sync clock stays unused, as the thread is in `STATE_INIT`, or no later wait at the
sync clock gets a 0 or a value that a copy should have replaced. -/
theorem early_wait_neutral_iff {T S : Type} [DecidableEq T] [DecidableEq S] (σ : Sys T S) (s : S)
    (th : T) (t : ℚ) (es : List (Event T S)) (hs : (σ.sync s).Unsignalled) :
    (Sys.machine T S).Agrees Sys.thread (σ.step true ⟨t, .ompHAfter s th⟩) σ es ↔
      (∀ l ∈ maxOrder, 0 ≤ (σ.thread th).load l) ∧
        ((σ.thread th).getState = .init ∨ Sys.Harmless s (fun _ => 0) σ es) := by
  have hself : ((σ.sync s).ompHAfter true (σ.thread th)).2 = σ.thread th ↔
      ∀ l ∈ maxOrder, 0 ≤ (σ.thread th).load l := by
    rw [SyncClock.ompHAfter_eq_self_iff]
    exact forall₂_congr fun l hl => by rw [hs.2 l hl]
  by_cases hsame : ((σ.sync s).ompHAfter true (σ.thread th)).2 = σ.thread th
  · rw [and_iff_right (hself.mp hsame)]
    by_cases hstate : (σ.thread th).getState = .init
    · rw [Sys.step_ompHAfter_of_init hs.1 hstate hsame]
      exact iff_of_true (Machine.agrees_refl es) (.inl hstate)
    · rw [or_iff_right hstate]
      exact (Sys.behind_of_unsignalled hs hstate hsame).agrees_iff
  · refine iff_of_false (fun hagree => hsame ?_) fun h => hsame (hself.mpr h.1)
    have hthread := congrFun (hagree [] List.nil_prefix) th
    simpa [Sys.step] using hthread

namespace Sys

/-- Thread `false` works from `t` to 8 and asks for a lock. -/
def atLock (t : ℚ) : Sys Bool Unit :=
  (machine Bool Unit).run (start Bool Unit)
    [⟨t, .enterState false .useful⟩, ⟨8, .enterState false .omp⟩]

end Sys

theorem early_wait_neutral_iff_atLock :
    (Sys.machine Bool Unit).Agrees Sys.thread
      ((Sys.atLock 0).step true ⟨9, .ompHAfter () false⟩) (Sys.atLock 0)
      [⟨10, .enterState true .omp⟩, ⟨10, .ompHBefore () true⟩, ⟨11, .ompHAfter () false⟩] :=
  (early_wait_neutral_iff _ () false 9 _ (by decide +kernel)).mpr
    ⟨by decide +kernel, .inr ⟨fun _ => by decide +kernel, trivial⟩⟩

/-- The first acquisition of a lock: `CLOCK_OMPI` has run since 5 and is stored as -5. The maximum
with the fresh clock of the lock makes it 0, which stands for 10 at time 10. -/
theorem first_acquisition_moves_clock :
    ((Sys.atLock 5).sync ()).Unsignalled ∧
      ((Sys.atLock 5).thread false).elapsed .ompi .critical 10 = 5 ∧
      (((Sys.atLock 5).step true ⟨9, .ompHAfter () false⟩).thread false).elapsed .ompi .critical 10 =
        10 := by
  decide +kernel

end CritPath
