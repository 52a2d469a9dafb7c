import CritPath.Measure.Accounting
import CritPath.Measure.Finalize
import Mathlib.Algebra.BigOperators.Ring.Finset
import Mathlib.Algebra.Order.BigOperators.Group.Finset
import Mathlib.Algebra.Order.BigOperators.Group.List
import Mathlib.Algebra.Order.Field.Basic

/-!
# The reported metrics

`finishMeasurement` computes maxima and sums over the threads of its process into
seven slots, reduces them over the processes, divides each by the number of
processes or of threads, and derives the efficiencies on rank 0. Slot 0 is the
useful computation of the threads; slot 6 the greatest one of a process, counted
once for each of its threads. Slots 1, 3 and 4 count once for each process.

The load balances rest on three sums over all threads that lie in order
(`sum_useful_le`, `sum_localMax_le`): what the threads computed, what they would
have if all in a process did as much as its busiest thread, and if all did as much
as the busiest of all.
-/

namespace CritPath

open FinalRank (maxOver)

/-- What `finishMeasurement` reads in one process once all clocks are closed: the registered
clocks, the finishing thread's own and the runtime. -/
structure ProcClocks where
  registered : List (ClockType → CpClocks)
  own : ClockType → CpClocks
  totalRuntimeReal : ℚ

/-- The values that a session holds when `finishMeasurement` on thread `me` has closed its
clocks. -/
def Session.finalClocks {T S B : Type} (totalRuntimeReal : ℚ) (me : T) (σ : Session T S B) :
    ProcClocks where
  registered := σ.threadClocks.map fun th => (σ.sys.thread th).clocks
  own := (σ.sys.thread me).clocks
  totalRuntimeReal := totalRuntimeReal

/-- `uc_max` and `uc_avg` in slots 0 and 2, in the loop over `thread_clocks`. -/
structure ThreadSums where
  max0 : ℚ := 0
  avg0 : ℚ := 0
  max2 : ℚ := 0
  avg2 : ℚ := 0

def ThreadSums.add (s : ThreadSums) (clocks : ClockType → CpClocks) : ThreadSums :=
  let currUc := (clocks .useful).thread
  let currOot := (clocks .oomp).thread
  { max0 := if currUc > s.max0 then currUc else s.max0
    avg0 := s.avg0 + currUc
    max2 := if currOot > s.max2 then currOot else s.max2
    avg2 := s.avg2 + currOot }

namespace ProcClocks

/-- `num_threads`: without registered clocks there is the main thread. -/
def numThreads (p : ProcClocks) : ℕ := if p.registered.length > 0 then p.registered.length else 1

def threadSums (p : ProcClocks) : ThreadSums :=
  if p.registered.length > 0 then p.registered.foldl .add {}
  else
    { max0 := (p.own .useful).thread
      avg0 := (p.own .useful).thread
      max2 := (p.own .oomp).thread
      avg2 := (p.own .oomp).thread }

def ucMax (p : ProcClocks) : ℕ → ℚ
  | 0 => p.threadSums.max0
  | 1 => (p.own .ompi).proc
  | 2 => p.threadSums.max2
  | 3 => (p.own .useful).proc
  | 4 => (p.own .oomp).proc
  | 5 => (p.own .useful).proc - (p.own .oomp).proc
  | 6 => p.threadSums.max0
  | _ => 0

def ucAvg (p : ProcClocks) : ℕ → ℚ
  | 0 => p.threadSums.avg0
  | 1 => (p.own .ompi).proc
  | 2 => p.threadSums.avg2
  | 3 => (p.own .useful).proc
  | 4 => (p.own .oomp).proc
  | 5 => ((p.own .useful).proc - (p.own .oomp).proc) * p.numThreads
  | 6 => p.threadSums.max0 * p.numThreads
  | _ => 0

end ProcClocks

structure SharedMetrics where
  numberOfProcs : ℕ
  totalThreads : ℕ
  maxComputation : ℕ → ℚ
  avgComputation : ℕ → ℚ
  totalRuntimeReal : ℚ

/-- The slots whose averages are over processes. -/
def perProcess (i : ℕ) : Prop := i = 1 ∨ i = 3 ∨ i = 4

instance (i : ℕ) : Decidable (perProcess i) :=
  inferInstanceAs (Decidable (i = 1 ∨ i = 3 ∨ i = 4))

/-- The branch with `useMpi`. -/
def mpiBranch {P : Type} [Fintype P] (root : P) (procs : P → ProcClocks) : SharedMetrics where
  numberOfProcs := Fintype.card P
  totalThreads := ∑ p, (procs p).numThreads
  maxComputation i := maxOver root fun p => (procs p).ucMax i
  avgComputation i :=
    if perProcess i then (∑ p, (procs p).ucAvg i) / (Fintype.card P : ℕ)
    else (∑ p, (procs p).ucAvg i) / (∑ p, (procs p).numThreads : ℕ)
  totalRuntimeReal := maxOver root fun p => (procs p).totalRuntimeReal

/-- The branch without MPI. `total_threads` is still the number of registered clocks. -/
def serialBranch (p : ProcClocks) : SharedMetrics where
  numberOfProcs := 1
  totalThreads := p.registered.length
  maxComputation := p.ucMax
  avgComputation i := if perProcess i then p.ucAvg i else p.ucAvg i / p.numThreads
  totalRuntimeReal := p.totalRuntimeReal

/-- Slot 5 is reported with the runtime added. -/
def SharedMetrics.addRuntime (s : SharedMetrics) : SharedMetrics :=
  { s with
    avgComputation := Function.update s.avgComputation 5 (s.avgComputation 5 + s.totalRuntimeReal)
    maxComputation := Function.update s.maxComputation 5 (s.maxComputation 5 + s.totalRuntimeReal) }

structure Metrics where
  commE : ℚ
  te : ℚ
  serE : ℚ
  lb : ℚ
  pe : ℚ
  mpiLB : ℚ
  ompLB : ℚ
  ompTE : ℚ
  mpiTE : ℚ
  mpiSerE : ℚ
  ompSerE : ℚ
  mpiCommE : ℚ
  ompCommE : ℚ
  ompPE : ℚ
  mpiPE : ℚ
  deriving DecidableEq

/-- The efficiencies as rank 0 computes them; `own` are its clocks. -/
def popMetrics (own : ClockType → CpClocks) (s : SharedMetrics) : Metrics :=
  let totalRuntimeIdeal := (own .useful).critical
  let totalOutsideOMPIdeal := (own .oomp).critical
  let s := s.addRuntime
  let commE := s.maxComputation 0 / s.totalRuntimeReal
  let te := totalRuntimeIdeal / s.totalRuntimeReal
  let serE := s.maxComputation 0 / totalRuntimeIdeal
  let lb := s.avgComputation 0 / s.maxComputation 0
  let pe := lb * commE
  let mpiLB := s.avgComputation 6 / s.maxComputation 0
  let ompLB := lb / mpiLB
  let ompTE := totalOutsideOMPIdeal / s.totalRuntimeReal
  let mpiTE := te / ompTE
  let mpiSerE := s.maxComputation 3 / totalRuntimeIdeal
  let ompSerE := serE / mpiSerE
  let mpiCommE := mpiSerE * mpiTE
  let ompCommE := ompSerE * ompTE
  let ompPE := ompLB * ompCommE
  let mpiPE := mpiLB * mpiCommE
  { commE, te, serE, lb, pe, mpiLB, ompLB, ompTE, mpiTE, mpiSerE, ompSerE, mpiCommE, ompCommE,
    ompPE, mpiPE }

/-! ## The products -/

structure Metrics.Hierarchy (m : Metrics) : Prop where
  pe : m.pe = m.lb * m.commE
  pe_levels : m.pe = m.mpiPE * m.ompPE
  commE : m.commE = m.serE * m.te
  commE_levels : m.commE = m.mpiCommE * m.ompCommE
  lb_levels : m.lb = m.mpiLB * m.ompLB
  serE_levels : m.serE = m.mpiSerE * m.ompSerE
  te_levels : m.te = m.mpiTE * m.ompTE

/-- The divisions cancel when no denominator is zero. -/
theorem popMetrics_hierarchy {own : ClockType → CpClocks} {s : SharedMetrics}
    (hreal : s.totalRuntimeReal ≠ 0) (hideal : (own .useful).critical ≠ 0)
    (houtside : (own .oomp).critical ≠ 0) (h3 : s.maxComputation 3 ≠ 0)
    (hmpiLB : (popMetrics own s).mpiLB ≠ 0) : (popMetrics own s).Hierarchy := by
  have hlb : (popMetrics own s).lb = (popMetrics own s).mpiLB * (popMetrics own s).ompLB :=
    (mul_div_cancel₀ _ hmpiLB).symm
  have hte : (popMetrics own s).te = (popMetrics own s).mpiTE * (popMetrics own s).ompTE :=
    (div_mul_cancel₀ _ (div_ne_zero houtside hreal)).symm
  have hserE : (popMetrics own s).serE = (popMetrics own s).mpiSerE * (popMetrics own s).ompSerE :=
    (mul_div_cancel₀ _ (div_ne_zero h3 hideal)).symm
  have hcommE : (popMetrics own s).commE = (popMetrics own s).serE * (popMetrics own s).te :=
    (div_mul_div_cancel₀ hideal).symm
  have hlevels : (popMetrics own s).commE =
      (popMetrics own s).mpiCommE * (popMetrics own s).ompCommE := by
    rw [hcommE, hserE, hte]
    exact mul_mul_mul_comm ..
  refine ⟨rfl, ?_, hcommE, hlevels, hlb, hserE, hte⟩
  calc (popMetrics own s).pe
      = (popMetrics own s).lb * (popMetrics own s).commE := rfl
    _ = ((popMetrics own s).mpiLB * (popMetrics own s).mpiCommE) *
          ((popMetrics own s).ompLB * (popMetrics own s).ompCommE) := by
        rw [hlb, hlevels]
        exact mul_mul_mul_comm ..

/-! ## The sums over the threads -/

namespace ThreadSums

theorem foldl_add (L : List (ClockType → CpClocks)) (s : ThreadSums) :
    (L.foldl add s).avg0 = s.avg0 + (L.map fun c => (c .useful).thread).sum ∧
      s.max0 ≤ (L.foldl add s).max0 ∧ ∀ c ∈ L, (c .useful).thread ≤ (L.foldl add s).max0 := by
  induction L generalizing s with
  | nil => simp
  | cons c L ih =>
    obtain ⟨hsum, hstart, hall⟩ := ih (s.add c)
    have hmax : s.max0 ≤ (s.add c).max0 ∧ (c .useful).thread ≤ (s.add c).max0 := by
      simp only [add]
      split
      · rename_i h
        exact ⟨h.le, le_rfl⟩
      · rename_i h
        exact ⟨le_rfl, not_lt.mp h⟩
    refine ⟨?_, hmax.1.trans hstart, fun c' hc' => ?_⟩
    · rw [List.foldl_cons, hsum, List.map_cons, List.sum_cons, ← add_assoc]
      rfl
    · rcases List.mem_cons.mp hc' with rfl | hc'
      · exact hmax.2.trans hstart
      · exact hall c' hc'

end ThreadSums

namespace ProcClocks

def threads (p : ProcClocks) : List (ClockType → CpClocks) :=
  if p.registered.length > 0 then p.registered else [p.own]

theorem numThreads_eq (p : ProcClocks) : p.numThreads = p.threads.length := by
  unfold numThreads threads
  split <;> rfl

theorem numThreads_pos (p : ProcClocks) : 0 < p.numThreads := by
  unfold numThreads
  split
  · assumption
  · exact Nat.one_pos

theorem avg0_eq (p : ProcClocks) :
    p.threadSums.avg0 = (p.threads.map fun c => (c .useful).thread).sum := by
  unfold threadSums threads
  split
  · rw [(ThreadSums.foldl_add p.registered {}).1]
    exact zero_add _
  · simp

theorem le_max0 (p : ProcClocks) {c : ClockType → CpClocks} (hc : c ∈ p.threads) :
    (c .useful).thread ≤ p.threadSums.max0 := by
  unfold threadSums
  unfold threads at hc
  split at hc
  · rename_i h
    rw [if_pos h]
    exact (ThreadSums.foldl_add p.registered {}).2.2 c hc
  · rename_i h
    obtain rfl := List.mem_singleton.mp hc
    rw [if_neg h]

theorem sum_useful_le (p : ProcClocks) : p.ucAvg 0 ≤ p.ucAvg 6 := by
  show p.threadSums.avg0 ≤ p.threadSums.max0 * p.numThreads
  have hle := List.sum_le_card_nsmul (p.threads.map fun c => (c .useful).thread) p.threadSums.max0
    (List.forall_mem_map.mpr fun c hc => p.le_max0 hc)
  rwa [List.length_map, nsmul_eq_mul, ← avg0_eq, ← numThreads_eq, mul_comm] at hle

theorem avg0_nonneg {p : ProcClocks} (h : ∀ c ∈ p.threads, 0 ≤ (c .useful).thread) :
    0 ≤ p.ucAvg 0 := by
  show 0 ≤ p.threadSums.avg0
  rw [avg0_eq]
  exact List.sum_nonneg (List.forall_mem_map.mpr h)

theorem le_avg0 {p : ProcClocks} (h : ∀ c ∈ p.threads, 0 ≤ (c .useful).thread)
    {c : ClockType → CpClocks} (hc : c ∈ p.threads) : (c .useful).thread ≤ p.ucAvg 0 := by
  show _ ≤ p.threadSums.avg0
  rw [avg0_eq]
  exact List.single_le_sum (List.forall_mem_map.mpr h) _ (List.mem_map_of_mem hc)

end ProcClocks

/-! ## The values of a measurement -/

namespace Session

theorem threadClocks_finishMeasurement {T S B : Type} [DecidableEq T] (now : ℚ) (me : T)
    (σ : Session T S B) : (σ.finishMeasurement now me).threadClocks = σ.threadClocks :=
  finishMeasurement_inv (p := fun σ' => σ'.threadClocks = σ.threadClocks) now (fun _ _ h => h) me
    (fun _ => rfl) fun _ => threadClocks_stopMeasurement ..

theorem threadClocks_measurement {T S B : Type} [DecidableEq T] [DecidableEq S] [DecidableEq B]
    (L : List T) {calls post : List (ℚ × Action T S B)} (E now : ℚ) (me : T)
    (hcalls : ∀ a ∈ calls, a.2.IsCall) (hpost : ∀ a ∈ post, a.2.IsCall) :
    (sessionAfter L (measurement calls E post now me)).threadClocks = L := by
  rw [sessionAfter, measurement, Lib.Machine.run_append, Lib.Machine.run_concat]
  show (finishMeasurement now me _).threadClocks = L
  rw [threadClocks_finishMeasurement, Lib.Machine.run_cons, (globals_run hpost).2.2.2]
  exact (threadClocks_stopMeasurement _ E).trans (globals_run hcalls).2.2.2

end Session

theorem activeTime_nonneg (i : ClockType) (segs : List (ClockState × ℚ × ℚ)) :
    0 ≤ activeTime i segs := by
  refine List.sum_nonneg (List.forall_mem_map.mpr fun s _ => ?_)
  split
  · exact le_max_left ..
  · exact le_rfl

theorem finalClocks_nonneg {T S B : Type} [DecidableEq T] [DecidableEq S] [DecidableEq B]
    (L : List T) (calls post : List (ℚ × Action T S B)) (E now R : ℚ) (me : T)
    (hcalls : ∀ a ∈ calls, a.2.IsCall) (hpost : ∀ a ∈ post, a.2.IsCall)
    (hsorted : calls.Pairwise (·.1 ≤ ·.1)) (hE : ∀ a ∈ calls, a.1 ≤ E) (hE0 : E ≠ 0)
    {c : ClockType → CpClocks}
    (hc : c ∈ ((sessionAfter L (measurement calls E post now me)).finalClocks R me).threads) :
    0 ≤ (c .useful).thread := by
  obtain ⟨th, hth, rfl⟩ : ∃ th, (th = me ∨ th ∈ L) ∧
      c = ((sessionAfter L (measurement calls E post now me)).sys.thread th).clocks := by
    unfold ProcClocks.threads Session.finalClocks at hc
    rw [Session.threadClocks_measurement L E now me hcalls hpost] at hc
    split at hc
    · obtain ⟨th, hth, rfl⟩ := List.mem_map.mp hc
      exact ⟨th, .inr hth, rfl⟩
    · exact ⟨me, .inl rfl, List.mem_singleton.mp hc⟩
  rw [thread_measurement L calls post E now me hcalls hpost hsorted hE hE0 .useful hth]
  exact activeTime_nonneg ..

/-! ## The load balances -/

section
variable {P : Type} [Fintype P] (root : P) (procs : P → ProcClocks)

theorem sum_localMax_le : ∑ p, (procs p).ucAvg 6 ≤
    (mpiBranch root procs).maxComputation 0 * ((mpiBranch root procs).totalThreads : ℕ) := by
  have hterm : ∀ p, (procs p).ucAvg 6 ≤
      (mpiBranch root procs).maxComputation 0 * ((procs p).numThreads : ℕ) := by
    intro p
    refine mul_le_mul_of_nonneg_right ?_ (Nat.cast_nonneg _)
    exact FinalRank.le_maxOver root (fun p => (procs p).ucMax 0) p
  calc ∑ p, (procs p).ucAvg 6
      ≤ ∑ p, (mpiBranch root procs).maxComputation 0 * ((procs p).numThreads : ℕ) :=
        Finset.sum_le_sum fun p _ => hterm p
    _ = (mpiBranch root procs).maxComputation 0 * ((mpiBranch root procs).totalThreads : ℕ) := by
        rw [← Finset.mul_sum, mpiBranch, Nat.cast_sum]

theorem totalThreads_pos : 0 < (mpiBranch root procs).totalThreads :=
  Nat.lt_of_lt_of_le (procs root).numThreads_pos
    (Finset.single_le_sum (f := fun p => (procs p).numThreads) (fun _ _ => Nat.zero_le _)
      (Finset.mem_univ root))

theorem avg_le_localMax : ∑ p, (procs p).ucAvg 0 ≤ ∑ p, (procs p).ucAvg 6 :=
  Finset.sum_le_sum fun p _ => (procs p).sum_useful_le

theorem useful_pos (hnonneg : ∀ p, ∀ c ∈ (procs p).threads, 0 ≤ (c .useful).thread)
    (hpos : ∃ p, ∃ c ∈ (procs p).threads, 0 < (c .useful).thread) :
    0 < ∑ p, (procs p).ucAvg 0 ∧ 0 < (mpiBranch root procs).maxComputation 0 := by
  obtain ⟨p, c, hc, hcpos⟩ := hpos
  constructor
  · calc 0 < (c .useful).thread := hcpos
      _ ≤ (procs p).ucAvg 0 := ProcClocks.le_avg0 (hnonneg p) hc
      _ ≤ ∑ p, (procs p).ucAvg 0 :=
        Finset.single_le_sum (f := fun p => (procs p).ucAvg 0)
          (fun q _ => ProcClocks.avg0_nonneg (hnonneg q)) (Finset.mem_univ p)
  · calc 0 < (c .useful).thread := hcpos
      _ ≤ (procs p).ucMax 0 := (procs p).le_max0 hc
      _ ≤ (mpiBranch root procs).maxComputation 0 :=
        FinalRank.le_maxOver root (fun p => (procs p).ucMax 0) p

/-- The two load balances as fractions of what the busiest thread would have computed. -/
theorem loadBalance_eq (own : ClockType → CpClocks) :
    (popMetrics own (mpiBranch root procs)).lb = (∑ p, (procs p).ucAvg 0) /
      ((mpiBranch root procs).maxComputation 0 * (mpiBranch root procs).totalThreads) ∧
    (popMetrics own (mpiBranch root procs)).mpiLB = (∑ p, (procs p).ucAvg 6) /
      ((mpiBranch root procs).maxComputation 0 * (mpiBranch root procs).totalThreads) :=
  ⟨(div_div _ _ _).trans (congrArg _ (mul_comm _ _)),
    (div_div _ _ _).trans (congrArg _ (mul_comm _ _))⟩

end

/-! ## One process -/

theorem mpiBranch_unit (p : ProcClocks) :
    mpiBranch () (fun _ => p) = { serialBranch p with totalThreads := p.numThreads } := by
  have hmax : ∀ v : ℚ, maxOver () (fun _ : Unit => v) = v := fun v => by
    obtain ⟨_, h⟩ := FinalRank.exists_eq_maxOver () fun _ : Unit => v
    exact h
  simp only [mpiBranch, serialBranch, hmax, Finset.univ_unique, Finset.sum_singleton,
    Fintype.card_unique, Nat.cast_one, div_one]

/-- For any processes, each with any number of threads, of which one has computed: the metrics of
rank 0 multiply up, and `0 < LB ≤ mpiLB ≤ 1`, `0 < ompLB ≤ 1`. A single process gets the same
values with and without MPI; the number of threads that is printed is the same if at least one
thread is registered. -/
theorem popMetrics_consistent {P : Type} [Fintype P] (root : P) (procs : P → ProcClocks)
    (hnonneg : ∀ p, ∀ c ∈ (procs p).threads, 0 ≤ (c .useful).thread)
    (hpos : ∃ p, ∃ c ∈ (procs p).threads, 0 < (c .useful).thread)
    (hreal : 0 < (mpiBranch root procs).totalRuntimeReal)
    (hideal : 0 < ((procs root).own .useful).critical)
    (houtside : 0 < ((procs root).own .oomp).critical)
    (h3 : 0 < (mpiBranch root procs).maxComputation 3) :
    (popMetrics (procs root).own (mpiBranch root procs)).Hierarchy ∧
    (0 < (popMetrics (procs root).own (mpiBranch root procs)).lb ∧
      (popMetrics (procs root).own (mpiBranch root procs)).lb ≤
        (popMetrics (procs root).own (mpiBranch root procs)).mpiLB ∧
      (popMetrics (procs root).own (mpiBranch root procs)).mpiLB ≤ 1) ∧
    (0 < (popMetrics (procs root).own (mpiBranch root procs)).ompLB ∧
      (popMetrics (procs root).own (mpiBranch root procs)).ompLB ≤ 1) ∧
    ∀ p : ProcClocks,
      popMetrics p.own (mpiBranch () fun _ => p) = popMetrics p.own (serialBranch p) ∧
      mpiBranch () (fun _ => p) =
        { serialBranch p with totalThreads := (mpiBranch () fun _ => p).totalThreads } ∧
      (p.registered ≠ [] →
        (mpiBranch () fun _ => p).totalThreads = (serialBranch p).totalThreads) := by
  obtain ⟨hsum, hmax⟩ := useful_pos root procs hnonneg hpos
  have hthreads : (0 : ℚ) < (mpiBranch root procs).totalThreads :=
    Nat.cast_pos.mpr (totalThreads_pos root procs)
  obtain ⟨hlb, hmpiLB⟩ := loadBalance_eq root procs (procs root).own
  have hall := mul_pos hmax hthreads
  have hlbpos : 0 < (popMetrics (procs root).own (mpiBranch root procs)).lb := by
    rw [hlb]
    exact div_pos hsum hall
  have hle : (popMetrics (procs root).own (mpiBranch root procs)).lb ≤
      (popMetrics (procs root).own (mpiBranch root procs)).mpiLB := by
    rw [hlb, hmpiLB]
    exact div_le_div_of_nonneg_right (avg_le_localMax procs) hall.le
  have hone : (popMetrics (procs root).own (mpiBranch root procs)).mpiLB ≤ 1 := by
    rw [hmpiLB, div_le_one hall]
    exact sum_localMax_le root procs
  have hmpipos := hlbpos.trans_le hle
  refine ⟨popMetrics_hierarchy hreal.ne' hideal.ne' houtside.ne' h3.ne' hmpipos.ne',
    ⟨hlbpos, hle, hone⟩, ⟨div_pos hlbpos hmpipos, (div_le_one hmpipos).mpr hle⟩, fun p => ?_⟩
  rw [mpiBranch_unit]
  refine ⟨rfl, rfl, fun hreg => ?_⟩
  exact if_pos (List.length_pos_iff.mpr hreg)

def raggedJob (p : Bool) : ProcClocks :=
  let clocks (u : ℚ) : ClockType → CpClocks := fun _ => ⟨u, u, 8⟩
  if p then ⟨[clocks 2], clocks 2, 9⟩ else ⟨[clocks 4, clocks 1, clocks 2], clocks 4, 10⟩

theorem popMetrics_consistent_raggedJob :
    (popMetrics (raggedJob false).own (mpiBranch false raggedJob)).Hierarchy ∧
    (popMetrics (raggedJob false).own (mpiBranch false raggedJob)).lb = 9 / 16 ∧
    (popMetrics (raggedJob false).own (mpiBranch false raggedJob)).mpiLB = 7 / 8 :=
  ⟨(popMetrics_consistent false raggedJob (by decide +kernel) (by decide +kernel)
    (by decide +kernel) (by decide +kernel) (by decide +kernel) (by decide +kernel)).1,
    by decide +kernel, by decide +kernel⟩

end CritPath
