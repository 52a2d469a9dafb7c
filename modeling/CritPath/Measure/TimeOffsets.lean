import CritPath.Lib.Rows
import Mathlib.Algebra.Order.Field.Rat
import Mathlib.Data.List.Sort
import Mathlib.Tactic.Linarith
import Mathlib.Tactic.Ring

/-!
# Clock offsets

`init_timer_offsets` measures how far the clock of each rank is ahead of rank 0's.
Rank 0 exchanges time stamps with every other rank 19 times and collects one
sample an exchange; the samples of rank `j` are row `j` of one flat array. Rank 0
sorts each row and broadcasts the middle entries; from then on `getTime` subtracts
the rank's entry. A sample is wrong by at most half the round trip, so an entry is
wrong by at most half the round trip that most exchanges kept to
(`offsetTable_bounds`).
-/

namespace CritPath

open Lib

def nTimes : ℕ := 19

/-- What `getTime` reads on one rank: `CLOCK_REALTIME`, which is ahead of real time by `ahead`,
and the second in which the rank started. -/
structure RankClock where
  ahead : ℚ
  startTimeOffset : ℤ

/-- `getTime()` at the instant `x`. -/
def RankClock.getTime (c : RankClock) (localTimeOffset x : ℚ) : ℚ :=
  x + c.ahead - c.startTimeOffset - localTimeOffset

/-- One exchange of stamps: the instants at which rank 0 takes its first stamp, the other rank
takes its own, and rank 0 takes its second. -/
structure Round where
  send : ℚ
  stamp : ℚ
  recv : ℚ
  send_le_stamp : send ≤ stamp
  stamp_le_recv : stamp ≤ recv

def Round.instant (x : ℚ) : Round := ⟨x, x, x, le_rfl, le_rfl⟩

def Round.roundTrip (m : Round) : ℚ := m.recv - m.send

/-- The sample of one exchange with a rank whose clock is `c`; rank 0's is `c₀`. No offset is
set yet. -/
def Round.sample (c₀ c : RankClock) (m : Round) : ℚ :=
  let localTime := c₀.getTime 0 m.send
  let remoteTime := c.getTime 0 m.stamp
  let endTime := c₀.getTime 0 m.recv
  remoteTime - (localTime + endTime) / 2

/-- The ranks' clocks, and the exchanges: `rounds i j` is exchange `i` with rank `j`. -/
structure PingPong where
  size : ℕ
  clock : ℕ → RankClock
  rounds : ℕ → ℕ → Round

namespace PingPong

/-- Rank 0 after the exchanges: `allTimes[j * NTIMES + i]` is the sample of exchange `i` with
rank `j`. `resize` has filled the array with zeros. -/
def collect (W : PingPong) : List ℚ :=
  (List.range nTimes).foldl (fun allTimes i =>
    (List.range' 1 (W.size - 1)).foldl (fun allTimes j =>
      allTimes.set (j * nTimes + i) ((W.rounds i j).sample (W.clock 0) (W.clock j))) allTimes)
    (List.replicate (W.size * nTimes) 0)

/-- The body of the loop over the ranks, on `allTimes` and `timeOffsets`. -/
def offsetStep (localTimes : List ℚ) (st : List ℚ × List ℚ) (i : ℕ) : List ℚ × List ℚ :=
  let allTimes := (List.range nTimes).foldl (fun allTimes j =>
    allTimes.modify (i * nTimes + j) (· - localTimes.getD j 0)) st.1
  let allTimes := setRow nTimes i ((row nTimes i allTimes).insertionSort (· ≤ ·)) allTimes
  (allTimes, st.2.set i (allTimes.getD (i * nTimes + nTimes / 2) 0))

/-- The table that rank 0 broadcasts. Nothing has been written to `localTimes`. -/
def offsetTable (W : PingPong) : List ℚ :=
  ((List.range W.size).foldl (offsetStep (List.replicate nTimes 0))
    (W.collect, List.replicate W.size 0)).2

/-- `init_timer_offsets()` on one rank: its `timeOffsets` and its `localTimeOffset`. Printing
the table, rank 0 takes its own offset off the entries. -/
def initTimerOffsets (W : PingPong) (verbose : Bool) (rank : ℕ) : List ℚ × ℚ :=
  let timeOffsets := W.offsetTable
  let localTime := timeOffsets.getD rank 0
  (if rank = 0 ∧ verbose then timeOffsets.map (· - localTime) else timeOffsets, localTime)

/-- How far the clock of rank `j` is ahead of rank 0's before any offset is set. -/
def skew (W : PingPong) (j : ℕ) : ℚ := (W.clock j).getTime 0 0 - (W.clock 0).getTime 0 0

/-- What `getTime()` returns on a rank at the instant `x` once the offsets are set. -/
def correctedTime (W : PingPong) (verbose : Bool) (rank : ℕ) (x : ℚ) : ℚ :=
  (W.clock rank).getTime (W.initTimerOffsets verbose rank).2 x

end PingPong

/-! ## One sample -/

/-- A sample is wrong by at most half the round trip: the stamp was taken in between. -/
theorem Round.sample_bounds (W : PingPong) (m : Round) (j : ℕ) :
    W.skew j - m.roundTrip / 2 ≤ m.sample (W.clock 0) (W.clock j) ∧
      m.sample (W.clock 0) (W.clock j) ≤ W.skew j + m.roundTrip / 2 := by
  have h₁ := m.send_le_stamp
  have h₂ := m.stamp_le_recv
  simp only [sample, PingPong.skew, roundTrip, RankClock.getTime]
  constructor <;> linarith

theorem Round.roundTrip_nonneg (m : Round) : 0 ≤ m.roundTrip :=
  sub_nonneg.mpr (m.send_le_stamp.trans m.stamp_le_recv)

namespace PingPong

variable {W : PingPong}

/-! ## The rows of samples -/

/-- The exchanges in the order of the two loops, as pairs of exchange and rank. -/
theorem collect_eq (W : PingPong) : W.collect =
    ((List.range nTimes).flatMap fun i => (List.range' 1 (W.size - 1)).map (i, ·)).foldl
      (fun a p => a.set (p.2 * nTimes + p.1)
        ((W.rounds p.1 p.2).sample (W.clock 0) (W.clock p.2)))
      (List.replicate (W.size * nTimes) 0) := by
  simp only [collect, List.foldl_flatMap, List.foldl_map]

theorem length_collect (W : PingPong) : W.collect.length = W.size * nTimes := by
  rw [collect_eq, length_foldl_set, List.length_replicate]

/-- Which exchange writes an entry can be read off its index. -/
theorem getElem?_collect {i j : ℕ} (hi : i < nTimes) (hj : j < W.size) :
    W.collect[j * nTimes + i]? =
      some (if j = 0 then 0 else (W.rounds i j).sample (W.clock 0) (W.clock j)) := by
  have hdiv : ∀ {i : ℕ} (j : ℕ), i < nTimes → (j * nTimes + i) / nTimes = j ∧
      (j * nTimes + i) % nTimes = i := by
    intro i j hi
    unfold nTimes at *
    omega
  have hlt : j * nTimes + i < W.size * nTimes := by
    have := Nat.mul_le_mul_right nTimes (Nat.succ_le_of_lt hj)
    rw [Nat.succ_mul] at this
    omega
  rw [collect_eq, getElem?_foldl_set (f := fun k =>
    (W.rounds (k % nTimes) (k / nTimes)).sample (W.clock 0) (W.clock (k / nTimes))),
    List.getElem?_replicate_of_lt hlt]
  · have hmem : j * nTimes + i ∈ ((List.range nTimes).flatMap fun i =>
        (List.range' 1 (W.size - 1)).map (i, ·)).map (fun p => p.2 * nTimes + p.1) ↔ j ≠ 0 := by
      simp only [List.mem_map, List.mem_flatMap, List.mem_range, List.mem_range'_1, Prod.exists]
      constructor
      · rintro ⟨i', j', ⟨_, hi', j'', hj', ⟨⟩⟩, heq⟩
        have := (hdiv j' hi').1
        rw [heq, (hdiv j hi).1] at this
        omega
      · intro h0
        exact ⟨i, j, ⟨i, hi, j, by omega, rfl⟩, rfl⟩
    simp only [hmem, (hdiv j hi).1, (hdiv j hi).2]
    by_cases h0 : j = 0 <;> simp [h0]
  · rintro ⟨i', j'⟩ hp
    simp only [List.mem_flatMap, List.mem_range, List.mem_map] at hp
    obtain ⟨_, hi', _, _, ⟨⟩⟩ := hp
    simp only [(hdiv j' hi').1, (hdiv j' hi').2]

/-- Row `j` holds the samples of rank `j`, in the order of the exchanges; rank 0's is zero. -/
theorem row_collect {j : ℕ} (hj : j < W.size) : row nTimes j W.collect =
    (List.range nTimes).map fun i =>
      if j = 0 then 0 else (W.rounds i j).sample (W.clock 0) (W.clock j) := by
  have hlen : j * nTimes + nTimes ≤ W.collect.length := by
    rw [length_collect, ← Nat.succ_mul]
    exact Nat.mul_le_mul_right _ hj
  refine List.ext_getElem? fun i => ?_
  by_cases hi : i < nTimes
  · rw [getElem?_row hi, getElem?_collect hi hj, List.getElem?_map, List.getElem?_range hi]
    rfl
  · rw [List.getElem?_eq_none (by rw [length_row hlen]; omega),
      List.getElem?_eq_none (by simpa using hi)]

/-! ## The loop over the ranks -/

/-- Subtracting the zeros in `localTimes` changes nothing. -/
theorem offsetStep_eq (st : List ℚ × List ℚ) (i : ℕ) :
    offsetStep (List.replicate nTimes 0) st i =
      let allTimes := setRow nTimes i ((row nTimes i st.1).insertionSort (· ≤ ·)) st.1
      (allTimes, st.2.set i (allTimes.getD (i * nTimes + nTimes / 2) 0)) := by
  have hzero : ∀ (L : List ℕ) (a : List ℚ), L.foldl (fun allTimes j =>
      allTimes.modify (i * nTimes + j) (· - (List.replicate nTimes (0 : ℚ)).getD j 0)) a = a := by
    intro L a
    induction L generalizing a with
    | nil => rfl
    | cons j L ih =>
      have hj : (List.replicate nTimes (0 : ℚ)).getD j 0 = 0 := by
        rw [List.getD_eq_getElem?_getD, List.getElem?_replicate]
        split <;> rfl
      rw [List.foldl_cons, ih, hj]
      simp only [sub_zero]
      exact List.modify_id _ _
  simp only [offsetStep, hzero]

def middle (r : List ℚ) : ℚ := (r.insertionSort (· ≤ ·)).getD (nTimes / 2) 0

theorem foldl_offsetStep (a t : List ℚ) (size : ℕ) (ha : a.length = size * nTimes)
    (ht : t.length = size) {n : ℕ} (hn : n ≤ size) :
    let st := (List.range n).foldl (offsetStep (List.replicate nTimes 0)) (a, t)
    st.1.length = size * nTimes ∧ st.2.length = size ∧
      (∀ k, n * nTimes ≤ k → st.1[k]? = a[k]?) ∧
      ∀ j < n, st.2[j]? = some (middle (row nTimes j a)) := by
  induction n with
  | zero => exact ⟨ha, ht, fun _ _ => rfl, fun _ h => absurd h (Nat.not_lt_zero _)⟩
  | succ n ih =>
    obtain ⟨hlen, htlen, hkeep, hdone⟩ := ih (Nat.le_of_succ_le hn)
    simp only [List.range_succ, List.foldl_append, List.foldl_cons, List.foldl_nil]
    generalize (List.range n).foldl (offsetStep (List.replicate nTimes 0)) (a, t) = st
      at hlen htlen hkeep hdone
    have hroom : n * nTimes + nTimes ≤ st.1.length := by
      rw [hlen, ← Nat.succ_mul]
      exact Nat.mul_le_mul_right _ hn
    have hrow : row nTimes n st.1 = row nTimes n a := by
      refine List.ext_getElem? fun i => ?_
      simp only [row, List.getElem?_take, List.getElem?_drop]
      split
      · exact hkeep _ (Nat.le_add_right ..)
      · rfl
    have hsorted : ((row nTimes n st.1).insertionSort (· ≤ ·)).length = nTimes := by
      rw [List.length_insertionSort, length_row hroom]
    rw [offsetStep_eq]
    refine ⟨by rw [length_setRow hsorted hroom, hlen], by rw [List.length_set, htlen],
      fun k hk => ?_, fun j hj => ?_⟩
    · rw [Nat.succ_mul] at hk
      rw [getElem?_setRow_of_le hsorted hroom hk]
      exact hkeep k (by omega)
    · rcases Nat.lt_succ_iff_lt_or_eq.mp hj with hj | rfl
      · rw [List.getElem?_set_ne (by omega)]
        exact hdone j hj
      · rw [List.getElem?_set_self (by omega), List.getD_eq_getElem?_getD,
          getElem?_setRow hsorted hroom (by decide), hrow, ← List.getD_eq_getElem?_getD]
        rfl

theorem getElem?_offsetTable {j : ℕ} (hj : j < W.size) : W.offsetTable[j]? =
    some (middle ((List.range nTimes).map fun i =>
      if j = 0 then 0 else (W.rounds i j).sample (W.clock 0) (W.clock j))) := by
  rw [← row_collect hj]
  exact (foldl_offsetStep _ _ W.size (length_collect W) List.length_replicate le_rfl).2.2.2 j hj

theorem length_offsetTable (W : PingPong) : W.offsetTable.length = W.size :=
  (foldl_offsetStep _ _ W.size (length_collect W) List.length_replicate le_rfl).2.1

/-- The middle of 19 values lies where ten of them do. -/
theorem middle_bounds {f : ℕ → ℚ} (lo hi : ℚ)
    (h : 10 ≤ (List.range nTimes).countP fun i => lo ≤ f i ∧ f i ≤ hi) :
    lo ≤ middle ((List.range nTimes).map f) ∧ middle ((List.range nTimes).map f) ≤ hi := by
  have hperm := List.perm_insertionSort (· ≤ ·) ((List.range nTimes).map f)
  obtain ⟨x, hx, hbounds⟩ := middle_of_majority (m := 9) lo hi
    (List.pairwise_insertionSort (· ≤ ·) ((List.range nTimes).map f))
    (by simp [List.length_insertionSort, nTimes])
    (by rw [hperm.countP_eq, List.countP_map]; exact h)
  have hmid : middle ((List.range nTimes).map f) = x := by
    rw [middle, List.getD_eq_getElem?_getD]
    exact congrArg (·.getD 0) hx
  rwa [hmid]

theorem offsetTable_zero (h : 0 < W.size) : W.offsetTable[0]? = some 0 := by
  rw [getElem?_offsetTable h]
  have hzero := middle_bounds (f := fun _ => 0) 0 0 (by decide)
  exact congrArg some (le_antisymm hzero.2 hzero.1)

/-- Ten exchanges with a round trip of at most `R` put the entry within half of it. -/
theorem offsetTable_bounds {j : ℕ} {R : ℚ} (h0 : j ≠ 0) (hj : j < W.size)
    (h : 10 ≤ (List.range nTimes).countP fun i => (W.rounds i j).roundTrip ≤ R) :
    ∃ v, W.offsetTable[j]? = some v ∧ |v - W.skew j| ≤ R / 2 := by
  have hgood : 10 ≤ (List.range nTimes).countP fun i =>
      W.skew j - R / 2 ≤ (W.rounds i j).sample (W.clock 0) (W.clock j) ∧
        (W.rounds i j).sample (W.clock 0) (W.clock j) ≤ W.skew j + R / 2 := by
    refine h.trans (List.countP_mono_left fun i _ hi => ?_)
    simp only [decide_eq_true_eq] at hi ⊢
    obtain ⟨h₁, h₂⟩ := (W.rounds i j).sample_bounds W j
    constructor <;> linarith
  refine ⟨_, getElem?_offsetTable hj, ?_⟩
  obtain ⟨hlow, hhigh⟩ := middle_bounds _ _ hgood
  simp only [h0, if_false]
  rw [abs_le]
  constructor <;> linarith

def middleSample (W : PingPong) (j : ℕ) : ℚ :=
  middle ((List.range nTimes).map fun i => (W.rounds i j).sample (W.clock 0) (W.clock j))

theorem localTimeOffset_eq (verbose : Bool) {rank : ℕ} (h : rank < W.size) :
    (W.initTimerOffsets verbose rank).2 = if rank = 0 then 0 else W.middleSample rank := by
  simp only [initTimerOffsets, List.getD_eq_getElem?_getD]
  split
  · rename_i h0
    subst h0
    rw [offsetTable_zero h]
    rfl
  · rename_i h0
    rw [getElem?_offsetTable h, Option.getD_some]
    simp only [h0, if_false]
    rfl

theorem timeOffsets_eq (W : PingPong) (verbose : Bool) (rank : ℕ) (h : 0 < W.size) :
    (W.initTimerOffsets verbose rank).1 = W.offsetTable := by
  simp only [initTimerOffsets]
  split
  · rename_i hr
    rw [hr.1, List.getD_eq_getElem?_getD, offsetTable_zero h]
    simp only [Option.getD_some, sub_zero, List.map_id']
  · rfl

end PingPong

/-- Whenever at least 10 of the 19 exchanges with each rank have a round trip of at most `R`,
every rank ends with a table whose entries are within `R / 2` of the true offsets, rank 0's
entry is zero, and the times that two ranks read at the same instant are at most `R` apart. That
`R` is not negative is asked for only when there is no exchange. -/
theorem initTimerOffsets_accurate (W : PingPong) (verbose : Bool) (R : ℚ) (hsize : 0 < W.size)
    (hR : W.size = 1 → 0 ≤ R)
    (hgood : ∀ j, 0 < j → j < W.size →
      10 ≤ (List.range nTimes).countP fun i => (W.rounds i j).roundTrip ≤ R) :
    (∀ rank < W.size, (W.initTimerOffsets verbose rank).1.length = W.size ∧
      (W.initTimerOffsets verbose rank).1[0]? = some 0 ∧
      ∀ j < W.size, ∃ v, (W.initTimerOffsets verbose rank).1[j]? = some v ∧
        |v - W.skew j| ≤ R / 2) ∧
    ∀ r < W.size, ∀ r' < W.size, ∀ x,
      |W.correctedTime verbose r x - W.correctedTime verbose r' x| ≤ R := by
  have hR0 : 0 ≤ R := by
    by_cases h1 : W.size = 1
    · exact hR h1
    · -- some exchange with rank 1 kept to `R`
      have hpos := hgood 1 Nat.one_pos (by omega)
      obtain ⟨i, -, hi⟩ := List.countP_pos_iff.mp (Nat.lt_of_lt_of_le (by decide) hpos)
      exact (W.rounds i 1).roundTrip_nonneg.trans (of_decide_eq_true hi)
  have hentry : ∀ j < W.size, ∃ v, W.offsetTable[j]? = some v ∧ |v - W.skew j| ≤ R / 2 := by
    intro j hj
    by_cases h0 : j = 0
    · subst h0
      refine ⟨0, PingPong.offsetTable_zero hj, ?_⟩
      simp only [PingPong.skew, sub_self, abs_zero]
      exact div_nonneg hR0 (by norm_num)
    · exact PingPong.offsetTable_bounds h0 hj (hgood j (Nat.pos_of_ne_zero h0) hj)
  -- a corrected time differs from rank 0's raw time by the error of the entry
  have htime : ∀ r < W.size, ∀ x,
      |W.correctedTime verbose r x - (W.clock 0).getTime 0 x| ≤ R / 2 := by
    intro r hr x
    obtain ⟨v, hv, hvs⟩ := hentry r hr
    have hoff : (W.initTimerOffsets verbose r).2 = v := by
      simp only [PingPong.initTimerOffsets, List.getD_eq_getElem?_getD, hv, Option.getD_some]
    have herr : W.correctedTime verbose r x - (W.clock 0).getTime 0 x = -(v - W.skew r) := by
      simp only [PingPong.correctedTime, hoff, PingPong.skew, RankClock.getTime]
      ring
    rw [herr, abs_neg]
    exact hvs
  refine ⟨fun rank _ => ?_, fun r hr r' hr' x => ?_⟩
  · rw [PingPong.timeOffsets_eq W verbose rank hsize]
    exact ⟨PingPong.length_offsetTable W, PingPong.offsetTable_zero hsize, hentry⟩
  · have h₁ := abs_le.mp (htime r hr x)
    have h₂ := abs_le.mp (htime r' hr' x)
    rw [abs_le]
    constructor <;> linarith

def slowRounds : PingPong where
  size := 2
  clock j := if j = 0 then ⟨0, 100⟩ else ⟨1 / 2, 103⟩
  rounds i _ :=
    if i < 10 then ⟨i, i, i + 2, le_rfl, by linarith⟩ else ⟨i, i, i + 1000, le_rfl, by linarith⟩

/-- Nine bad exchanges do no harm: the entry is within 1 of the true offset. -/
theorem initTimerOffsets_accurate_slowRounds :
    ∃ v, (slowRounds.initTimerOffsets true 1).1[1]? = some v ∧ |v - slowRounds.skew 1| ≤ 2 / 2 :=
  ((initTimerOffsets_accurate slowRounds true 2 (by decide) (by decide) (fun j h₀ h₁ => by
    obtain rfl : j = 1 := by simp only [slowRounds] at h₁; omega
    decide +kernel)).1 1 (by decide)).2.2 1 (by decide)

end CritPath
