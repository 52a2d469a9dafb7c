import CritPath.Clock.ThreadClock
import CritPath.Lib.Greatest

/-!
# Sync clocks

`syncClock<TimeMetric>`: the clocks a synchronisation object carries from the
threads that arrive at it (`OmpHBefore`) to the threads that leave it
(`OmpHAfter`). `sync_state` is the clock state of the first arc since the last
reset; it decides in `CheckArc` whether an arrival copies or takes the maximum.
Each operation is one function here; `CritPath.Clock.Interleave` takes
`OmpHBefore` apart into its accesses.
-/

namespace CritPath

/-- `syncClock<TimeMetric>` (`init_loc` and `init_fileline` only feed the debug output). -/
structure SyncClock where
  clocks : ClockType → CpClocks
  syncState : ClockState

namespace SyncClock

/-- A sync clock as constructed, and as `OmpCReset` leaves it. -/
def fresh : SyncClock := ⟨fun _ => {}, .init⟩

/-- `CheckArc`: the sync clock after it, and whether the arc is the first one. The check that
the thread's state is `sync_state` only reports. -/
def checkArc (s : SyncClock) (tc : ThreadClock) : SyncClock × Bool :=
  if s.syncState = .init then ({ s with syncState := tc.getState }, true) else (s, false)

/-- `OmpHBefore`: the first arc copies the thread's clocks, later ones take the maximum. -/
def ompHBefore (running : Bool) (s : SyncClock) (tc : ThreadClock) : SyncClock :=
  if !running then s
  else
    match s.checkArc tc with
    | (s, true) => { s with clocks := fun i =>
        match i with
        | .useful | .oomp | .ompi => tc.clocks i
        | .ogpu => s.clocks .ogpu }
    | (s, false) => { s with clocks := fun i =>
        match i with
        | .useful | .oomp | .ompi => (s.clocks i).ompHBefore (tc.clocks i)
        | .ogpu => s.clocks .ogpu }

/-- `OmpHAfter`: the sync clock and the thread clock after it. -/
def ompHAfter (running : Bool) (s : SyncClock) (tc : ThreadClock) : SyncClock × ThreadClock :=
  if !running then (s, tc)
  else
    let (s, _) := s.checkArc tc
    (s, { tc with clocks := fun i =>
        match i with
        | .useful | .oomp | .ompi => (s.clocks i).ompHAfter (tc.clocks i)
        | .ogpu => tc.clocks .ogpu })

def ompCReset (running : Bool) (s : SyncClock) : SyncClock :=
  if !running then s
  else
    { clocks := fun i =>
        match i with
        | .useful | .ompi | .oomp => .reset 0
        | .ogpu => s.clocks .ogpu
      syncState := .init }

section
variable {s : SyncClock} {tc : ThreadClock} {i : ClockType} {x : Comp}

theorem clocks_checkArc : (s.checkArc tc).1.clocks = s.clocks := by
  unfold checkArc; split <;> rfl

theorem syncState_checkArc :
    (s.checkArc tc).1.syncState = if s.syncState = .init then tc.getState else s.syncState := by
  unfold checkArc; split <;> rfl

theorem syncState_ompHBefore : (s.ompHBefore true tc).syncState =
    if s.syncState = .init then tc.getState else s.syncState := by
  unfold ompHBefore checkArc
  by_cases h : s.syncState = .init <;> simp [h]

theorem get_ompHBefore_first (h : s.syncState = .init) (hi : i ≠ .ogpu) :
    (s.ompHBefore true tc).clocks i = tc.clocks i := by
  unfold ompHBefore checkArc
  cases i <;> simp_all

theorem get_ompHBefore_later (h : s.syncState ≠ .init) (hi : i ≠ .ogpu) (hx : x ≠ .thread) :
    ((s.ompHBefore true tc).clocks i).get x = max ((s.clocks i).get x) ((tc.clocks i).get x) := by
  unfold ompHBefore checkArc
  cases i <;> simp_all [CpClocks.get_ompHBefore _ _ hx]

theorem syncState_ompHAfter : (s.ompHAfter true tc).1.syncState =
    if s.syncState = .init then tc.getState else s.syncState := by
  simp [ompHAfter, syncState_checkArc]

@[simp] theorem clocks_ompHAfter_fst : (s.ompHAfter true tc).1.clocks = s.clocks := by
  simp [ompHAfter, clocks_checkArc]

@[simp] theorem stack_ompHAfter (r : Bool) : (s.ompHAfter r tc).2.stack = tc.stack := by
  unfold ompHAfter; split <;> rfl

@[simp] theorem getState_ompHAfter (r : Bool) : (s.ompHAfter r tc).2.getState = tc.getState := by
  simp [ThreadClock.getState]

theorem get_ompHAfter (hi : i ≠ .ogpu) (hx : x ≠ .thread) :
    ((s.ompHAfter true tc).2.clocks i).get x =
      max ((tc.clocks i).get x) ((s.clocks i).get x) := by
  cases i <;> simp_all [ompHAfter, clocks_checkArc, CpClocks.get_ompHAfter _ _ hx]

theorem thread_ompHAfter (r : Bool) : ((s.ompHAfter r tc).2.clocks i).thread =
    (tc.clocks i).thread := by
  unfold ompHAfter
  split
  · rfl
  · cases i <;> rfl

theorem elapsed_ompHAfter (hi : i ≠ .ogpu) (hx : x ≠ .thread) (t : ℚ) :
    (s.ompHAfter true tc).2.elapsed i x t =
      max (tc.elapsed i x t) ((s.clocks i).get x + runTerm tc.getState i t) := by
  simp only [ThreadClock.elapsed, getState_ompHAfter, get_ompHAfter hi hx, max_add_add_right]

theorem le_elapsed_ompHAfter (hi : i ≠ .ogpu) (hx : x ≠ .thread) (t : ℚ) :
    tc.elapsed i x t ≤ (s.ompHAfter true tc).2.elapsed i x t := by
  rw [elapsed_ompHAfter hi hx]; exact le_max_left _ _

@[simp] theorem syncState_ompCReset : (s.ompCReset true).syncState = .init := rfl

end

/-! ## What a sync clock holds -/

/-- The sync clock is marked unused and holds nothing, or its values are the largest ones of the
clocks in `A`. -/
def Holds (s : SyncClock) (A : Set ThreadClock) : Prop :=
  (s.syncState = .init ∧ A = ∅) ∨
  (s.syncState ≠ .init ∧ ∀ i, i ≠ .ogpu → ∀ x, x ≠ .thread →
    IsGreatest ((fun c : ThreadClock => (c.clocks i).get x) '' A) ((s.clocks i).get x))

namespace Holds

variable {s : SyncClock} {tc : ThreadClock} {A : Set ThreadClock}

theorem fresh : Holds .fresh ∅ := .inl ⟨rfl, rfl⟩

theorem ompCReset (s : SyncClock) : Holds (s.ompCReset true) ∅ := .inl ⟨rfl, rfl⟩

theorem resolve (h : Holds s A) (hA : A.Nonempty) : s.syncState ≠ .init ∧
    ∀ i, i ≠ .ogpu → ∀ x, x ≠ .thread →
      IsGreatest ((fun c : ThreadClock => (c.clocks i).get x) '' A) ((s.clocks i).get x) :=
  h.resolve_left fun he => hA.ne_empty he.2

theorem ompHBefore (h : Holds s A) (htc : tc.getState ≠ .init) :
    Holds (s.ompHBefore true tc) (insert tc A) := by
  rcases h with ⟨hst, rfl⟩ | ⟨hst, hmax⟩
  · refine .inr ⟨by rwa [syncState_ompHBefore, if_pos hst], fun i hi x _ => ?_⟩
    rw [get_ompHBefore_first hst hi]
    simp [isGreatest_singleton]
  · refine .inr ⟨by rwa [syncState_ompHBefore, if_neg hst], fun i hi x hx => ?_⟩
    rw [get_ompHBefore_later hst hi hx, Set.image_insert_eq]
    exact Lib.isGreatest_insert_max (hmax i hi x hx) _

theorem ompHAfter (h : Holds s A) (hA : A.Nonempty) (tc : ThreadClock) :
    Holds (s.ompHAfter true tc).1 A := by
  obtain ⟨hst, hmax⟩ := h.resolve hA
  refine .inr ⟨by rwa [syncState_ompHAfter, if_neg hst], ?_⟩
  rwa [clocks_ompHAfter_fst]

end Holds

/-- The sync clock is in use and has at least the values `v` of `CLOCK_USEFUL`. -/
def Covers (s : SyncClock) (v : Comp → ℚ) : Prop :=
  s.syncState ≠ .init ∧ ∀ x, x ≠ .thread → v x ≤ (s.clocks .useful).get x

namespace Covers

variable {s : SyncClock} {tc : ThreadClock} {v : Comp → ℚ}

theorem of_ompHBefore (s : SyncClock) (htc : tc.getState ≠ .init)
    (hv : ∀ x, x ≠ .thread → v x ≤ (tc.clocks .useful).get x) : Covers (s.ompHBefore true tc) v := by
  by_cases hst : s.syncState = .init
  · refine ⟨by rwa [syncState_ompHBefore, if_pos hst], fun x hx => ?_⟩
    rw [get_ompHBefore_first hst (by decide)]
    exact hv x hx
  · refine ⟨by rwa [syncState_ompHBefore, if_neg hst], fun x hx => ?_⟩
    rw [get_ompHBefore_later hst (by decide) hx]
    exact le_max_of_le_right (hv x hx)

theorem ompHBefore (h : Covers s v) (tc : ThreadClock) : Covers (s.ompHBefore true tc) v := by
  refine ⟨by rw [syncState_ompHBefore, if_neg h.1]; exact h.1, fun x hx => ?_⟩
  rw [get_ompHBefore_later h.1 (by decide) hx]
  exact le_max_of_le_left (h.2 x hx)

theorem ompHAfter (h : Covers s v) (tc : ThreadClock) : Covers (s.ompHAfter true tc).1 v := by
  refine ⟨by rw [syncState_ompHAfter, if_neg h.1]; exact h.1, fun x hx => ?_⟩
  rw [clocks_ompHAfter_fst]
  exact h.2 x hx

theorem le_elapsed (h : Covers s v) (tc : ThreadClock) {t : ℚ} (ht : 0 ≤ t) {x : Comp}
    (hx : x ≠ .thread) : v x ≤ (s.ompHAfter true tc).2.elapsed .useful x t := by
  have hrun := runTerm_nonneg tc.getState .useful ht
  rw [elapsed_ompHAfter (by decide) hx]
  apply le_max_of_le_right
  linarith [h.2 x hx]

end Covers

end SyncClock

end CritPath
