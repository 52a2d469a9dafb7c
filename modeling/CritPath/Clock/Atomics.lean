import CritPath.Clock.Basic
import CritPath.Lib.Retry
import Mathlib.Algebra.BigOperators.Group.Finset.Basic
import Mathlib.Data.Fintype.Basic
import Mathlib.Data.List.FinRange
import Mathlib.Order.Bounds.Basic

/-!
# The lock-free updates

`update_maximum` and `atomic_add<double>` are compare-exchange loops
(`Lib.Retry`) on one atomic value. Any number of calls run at once, from any
threads; a step is one load or one `compare_exchange_weak`, and a schedule picks
the call of each step and which exchanges fail spuriously. The loop condition
and the computation of the desired value are local to the call and go with the
load or exchange before them.
-/

namespace CritPath

open Lib Lib.Retry

/-- `update_maximum(maximum_value, value)`: `while (prev_value < value && !exchange)`. -/
def updateMaximumLoop (T : Type) [LinearOrder T] : Loop T T where
  wants value prev_value := prev_value < value
  next value _ := value
  decide_wants _ _ := inferInstance

/-- `atomic_add<double>(operand, value_to_add)`: the exchange of `old` for `old + value_to_add` is
tried until it succeeds. -/
def atomicAddLoop : Loop ℚ ℚ where
  wants _ _ := True
  next value_to_add old := old + value_to_add
  decide_wants _ _ := inferInstance

theorem effect_updateMaximumLoop {T : Type} [LinearOrder T] (value prev : T) :
    (updateMaximumLoop T).effect value prev = max prev value := by
  unfold Loop.effect updateMaximumLoop
  split
  · rename_i h; exact (max_eq_right h.le).symm
  · rename_i h; exact (max_eq_left (not_lt.mp h)).symm

/-- A call that nobody interferes with is the sequential update of the clocks. -/
theorem effect_updateMaximumLoop_eq_updateMaximum (value prev : ℚ) :
    (updateMaximumLoop ℚ).effect value prev = updateMaximum prev value := by
  rw [effect_updateMaximumLoop, updateMaximum_eq]

@[simp] theorem effect_atomicAddLoop (x old : ℚ) : atomicAddLoop.effect x old = old + x :=
  if_pos trivial

/-! ## Orders of calls -/

section
variable {ι T : Type} [LinearOrder T]

/-- Whatever the order of the calls, the largest of the values remains. -/
theorem isGreatest_foldr_max (init : T) (values : ι → T) (order : List ι) :
    IsGreatest (insert init {v | ∃ i ∈ order, values i = v})
      (order.foldr (fun i u => max u (values i)) init) := by
  induction order with
  | nil => exact ⟨Set.mem_insert _ _, by rintro v (rfl | ⟨i, hi, -⟩) <;> simp_all⟩
  | cons i order ih =>
    rw [List.foldr_cons]
    set m := order.foldr (fun i u => max u (values i)) init
    constructor
    · rcases max_choice m (values i) with h | h
      · rw [h]
        rcases ih.1 with h0 | ⟨j, hj, hv⟩
        · exact .inl h0
        · exact .inr ⟨j, List.mem_cons_of_mem _ hj, hv⟩
      · exact .inr ⟨i, List.mem_cons_self, h.symm⟩
    · rintro v (rfl | ⟨j, hj, rfl⟩)
      · exact le_max_of_le_left (ih.2 (Set.mem_insert _ _))
      · rcases List.mem_cons.mp hj with rfl | hj
        · exact le_max_right _ _
        · exact le_max_of_le_left (ih.2 (.inr ⟨j, hj, rfl⟩))

/-- Whatever the order of the calls, every value is added once. -/
theorem foldr_add_eq_sum [Fintype ι] [DecidableEq ι] (init : ℚ) (values : ι → ℚ) {order : List ι}
    (hnd : order.Nodup) (hall : ∀ i, i ∈ order) :
    order.foldr (fun i u => u + values i) init = init + ∑ i, values i := by
  have hfold : ∀ l : List ι, l.foldr (fun i u => u + values i) init = init + (l.map values).sum := by
    intro l
    induction l with
    | nil => simp
    | cons i l ih => rw [List.foldr_cons, ih, List.map_cons, List.sum_cons]; ring
  have huniv : order.toFinset = Finset.univ := Finset.eq_univ_of_forall fun i => by simp [hall i]
  rw [hfold, ← List.sum_toFinset values hnd, huniv]

end

/-! ## Interleaved calls -/

variable {n : ℕ} {T : Type} [LinearOrder T]

def updateMaximumCalls (init : T) (values : Fin n → T) (ls : List (Fin n × Bool)) :
    Shared (Fin n) T :=
  ((updateMaximumLoop T).machine values).run (.start init) ls

def atomicAddCalls (init : ℚ) (values : Fin n → ℚ) (ls : List (Fin n × Bool)) :
    Shared (Fin n) ℚ :=
  (atomicAddLoop.machine values).run (.start init) ls

theorem value_le_updateMaximumCalls_concat (init : T) (values : Fin n → T)
    (ls : List (Fin n × Bool)) (l : Fin n × Bool) :
    (updateMaximumCalls init values ls).value ≤
      (updateMaximumCalls init values (ls ++ [l])).value := by
  unfold updateMaximumCalls
  rw [Machine.run_concat]
  rcases (updateMaximumLoop T).value_step values init ls l with h | h
  · exact h.ge
  · refine le_of_le_of_eq ?_ h.symm
    rw [effect_updateMaximumLoop]
    exact le_max_left _ _

theorem value_le_updateMaximumCalls_append (init : T) (values : Fin n → T)
    (ls ms : List (Fin n × Bool)) :
    (updateMaximumCalls init values ls).value ≤
      (updateMaximumCalls init values (ls ++ ms)).value := by
  induction ms generalizing ls with
  | nil => rw [List.append_nil]
  | cons m ms ih =>
    calc (updateMaximumCalls init values ls).value
        ≤ (updateMaximumCalls init values (ls ++ [m])).value :=
          value_le_updateMaximumCalls_concat init values ls m
      _ ≤ (updateMaximumCalls init values (ls ++ [m] ++ ms)).value := ih (ls ++ [m])
      _ = (updateMaximumCalls init values (ls ++ m :: ms)).value := by simp

theorem isGreatest_updateMaximumCalls {init : T} {values : Fin n → T} {ls : List (Fin n × Bool)}
    (hret : (updateMaximumCalls init values ls).allReturned) :
    IsGreatest (insert init (Set.range values)) (updateMaximumCalls init values ls).value := by
  obtain ⟨order, -, hall, hval⟩ := Loop.exists_order hret
  have hmax := isGreatest_foldr_max init values order
  have hset : {v | ∃ i ∈ order, values i = v} = Set.range values := by
    ext v
    simp [hall]
  simp only [effect_updateMaximumLoop] at hval
  rw [hset] at hmax
  exact hval ▸ hmax

theorem value_atomicAddCalls {init : ℚ} {values : Fin n → ℚ} {ls : List (Fin n × Bool)}
    (hret : (atomicAddCalls init values ls).allReturned) :
    (atomicAddCalls init values ls).value = init + ∑ i, values i := by
  obtain ⟨order, hnd, hall, hval⟩ := Loop.exists_order hret
  simp only [effect_atomicAddLoop] at hval
  exact hval.trans (foldr_add_eq_sum init values hnd hall)

/-- The updates lose nothing, in any interleaving and with any spurious failures: the maximum
never decreases and ends as the largest of the initial value and all arguments; the sum ends as
the initial value plus all arguments. Every interleaving can be completed, so that all calls
return. -/
theorem lockFree_updates_lose_nothing :
    (∀ (T : Type) [LinearOrder T] (n : ℕ) (init : T) (values : Fin n → T)
        (ls : List (Fin n × Bool)),
      (∀ pre, pre <+: ls → (updateMaximumCalls init values pre).value ≤
        (updateMaximumCalls init values ls).value) ∧
      ((updateMaximumCalls init values ls).allReturned →
        IsGreatest (insert init (Set.range values)) (updateMaximumCalls init values ls).value) ∧
      ∃ ms, (updateMaximumCalls init values (ls ++ ms)).allReturned) ∧
    (∀ (n : ℕ) (init : ℚ) (values : Fin n → ℚ) (ls : List (Fin n × Bool)),
      ((atomicAddCalls init values ls).allReturned →
        (atomicAddCalls init values ls).value = init + ∑ i, values i) ∧
      ∃ ms, (atomicAddCalls init values (ls ++ ms)).allReturned) := by
  refine ⟨fun T _ n init values ls => ⟨?_, isGreatest_updateMaximumCalls, ?_⟩,
    fun n init values ls => ⟨value_atomicAddCalls, ?_⟩⟩
  · rintro pre ⟨ms, rfl⟩
    exact value_le_updateMaximumCalls_append init values pre ms
  · obtain ⟨ms, hms⟩ := (updateMaximumLoop T).exists_allReturned values
      (updateMaximumCalls init values ls) (List.finRange n) List.mem_finRange
    exact ⟨ms, by unfold updateMaximumCalls; rw [Machine.run_append]; exact hms⟩
  · obtain ⟨ms, hms⟩ := atomicAddLoop.exists_allReturned values
      (atomicAddCalls init values ls) (List.finRange n) List.mem_finRange
    exact ⟨ms, by unfold atomicAddCalls; rw [Machine.run_append]; exact hms⟩

end CritPath
