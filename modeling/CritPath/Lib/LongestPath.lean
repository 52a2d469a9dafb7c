import Mathlib.Algebra.Order.Monoid.Defs
import Mathlib.Order.Bounds.Basic

/-!
# Longest paths in space-time diagrams

A diagram has processes and numbered instants. Between two instants each
process gains some weight, and arcs lead from a process at one instant to a
process at a later one, at a cost. A path starts anywhere with weight `0` and
follows processes and arcs. Values that obey the one-instant recursion are the
weights of the longest paths (`Bellman.isGreatest_path`).
-/

namespace CritPath.Lib

/-- Processes `P`, instants `ℕ`, weights in `α`. -/
structure Diagram (P α : Type) where
  /-- What process `p` gains between instants `k` and `k + 1`. -/
  gain : ℕ → P → α
  /-- An arc from process `a` at instant `j` to process `b` at instant `k`, with its cost. -/
  arc : ℕ → P → ℕ → P → α → Prop
  arc_lt : ∀ {j a k b c}, arc j a k b c → j < k

namespace Diagram

variable {P α : Type} [AddCommMonoid α]

/-- `D.Path k p x`: some path of weight `x` ends at process `p` at instant `k`. -/
inductive Path (D : Diagram P α) : ℕ → P → α → Prop where
  | start (k : ℕ) (p : P) : Path D k p 0
  | segment {k : ℕ} {p : P} {x : α} : Path D k p x → Path D (k + 1) p (x + D.gain k p)
  | arc {j k : ℕ} {a b : P} {x c : α} : Path D j a x → D.arc j a k b c → Path D k b (x + c)

/-- The values that reach process `p` at instant `k + 1` from earlier instants. -/
def incoming (D : Diagram P α) (val : ℕ → P → α) (k : ℕ) (p : P) : Set α :=
  insert (val k p + D.gain k p) {y | ∃ j a c, D.arc j a (k + 1) p c ∧ y = val j a + c}

variable [LinearOrder α]

/-- The recursion of longest paths. -/
structure Bellman (D : Diagram P α) (val : ℕ → P → α) : Prop where
  gain_nonneg : ∀ k p, 0 ≤ D.gain k p
  zero : ∀ p, val 0 p = 0
  succ : ∀ k p, IsGreatest (D.incoming val k p) (val (k + 1) p)

variable {D : Diagram P α} {val : ℕ → P → α}

theorem Bellman.add_gain_le (h : D.Bellman val) (k : ℕ) (p : P) :
    val k p + D.gain k p ≤ val (k + 1) p :=
  (h.succ k p).2 (.inl rfl)

theorem Bellman.add_cost_le (h : D.Bellman val) {j k : ℕ} {a b : P} {c : α}
    (harc : D.arc j a k b c) : val j a + c ≤ val k b := by
  obtain ⟨k, rfl⟩ := Nat.exists_eq_add_of_lt (D.arc_lt harc)
  exact (h.succ (j + k) b).2 (.inr ⟨j, a, c, harc, rfl⟩)

theorem Bellman.path_val (h : D.Bellman val) (k : ℕ) (p : P) : D.Path k p (val k p) := by
  induction k using Nat.strong_induction_on generalizing p with
  | _ k ih =>
    cases k with
    | zero => rw [h.zero]; exact .start 0 p
    | succ k =>
      rcases (h.succ k p).1 with heq | ⟨j, a, c, harc, heq⟩
      · rw [heq]; exact (ih k (Nat.lt_succ_self k) p).segment
      · rw [heq]; exact (ih j (D.arc_lt harc) a).arc harc

variable [IsOrderedAddMonoid α]

theorem Bellman.nonneg (h : D.Bellman val) (k : ℕ) (p : P) : 0 ≤ val k p := by
  induction k with
  | zero => exact (h.zero p).ge
  | succ k ih => exact (add_nonneg ih (h.gain_nonneg k p)).trans (h.add_gain_le k p)

theorem Bellman.path_le (h : D.Bellman val) {k : ℕ} {p : P} {x : α} (hp : D.Path k p x) :
    x ≤ val k p := by
  induction hp with
  | start k p => exact h.nonneg k p
  | segment _ ih => exact (add_le_add_left ih _).trans (h.add_gain_le _ _)
  | arc _ harc ih => exact (add_le_add_left ih _).trans (h.add_cost_le harc)

theorem Bellman.isGreatest_path (h : D.Bellman val) (k : ℕ) (p : P) :
    IsGreatest {x | D.Path k p x} (val k p) :=
  ⟨h.path_val k p, fun _ hp => h.path_le hp⟩

end Diagram

end CritPath.Lib
