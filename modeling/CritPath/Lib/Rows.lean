import Mathlib.Data.List.Basic
import Mathlib.Order.Lattice

/-!
# Flat arrays in rows

An array of rows of equal width `w` is one list; row `i` starts at `i * w`. The
lemmas say what a series of writes, and the replacement of one row, leave at each
index. The middle entry of a sorted row lies wherever the majority of the row
does, however far away the others are (`middle_of_majority`).
-/

namespace CritPath.Lib

def row {α : Type*} (w i : ℕ) (a : List α) : List α := (a.drop (i * w)).take w

def setRow {α : Type*} (w i : ℕ) (r a : List α) : List α :=
  a.take (i * w) ++ r ++ a.drop (i * w + w)

section
variable {α ι : Type*} {a r : List α} {w i k : ℕ}

theorem getElem?_row {j : ℕ} (h : j < w) : (row w i a)[j]? = a[i * w + j]? := by
  rw [row, List.getElem?_take_of_lt h, List.getElem?_drop]

theorem length_row (h : i * w + w ≤ a.length) : (row w i a).length = w := by
  simp only [row, List.length_take, List.length_drop]
  omega

theorem length_setRow (hr : r.length = w) (h : i * w + w ≤ a.length) :
    (setRow w i r a).length = a.length := by
  simp only [setRow, List.length_append, List.length_take, List.length_drop]
  omega

theorem getElem?_setRow {j : ℕ} (hr : r.length = w) (h : i * w + w ≤ a.length) (hj : j < w) :
    (setRow w i r a)[i * w + j]? = r[j]? := by
  have htake : (a.take (i * w)).length = i * w := List.length_take_of_le (by omega)
  rw [setRow, List.append_assoc, List.getElem?_append_right (by omega), htake,
    Nat.add_sub_cancel_left, List.getElem?_append_left (by omega)]

theorem getElem?_setRow_of_le (hr : r.length = w) (h : i * w + w ≤ a.length)
    (hk : i * w + w ≤ k) : (setRow w i r a)[k]? = a[k]? := by
  have hlen : (a.take (i * w) ++ r).length = i * w + w := by
    rw [List.length_append, List.length_take_of_le (by omega), hr]
  rw [setRow, List.getElem?_append_right (by omega), hlen, List.getElem?_drop,
    Nat.add_sub_cancel' hk]

theorem length_foldl_set (g : ι → ℕ) (v : ι → α) (L : List ι) (a : List α) :
    (L.foldl (fun a x => a.set (g x) (v x)) a).length = a.length := by
  induction L generalizing a with
  | nil => rfl
  | cons x L ih =>
    rw [List.foldl_cons, ih, List.length_set]

theorem getElem?_foldl_set {L : List ι} {g : ι → ℕ} {v : ι → α} {f : ℕ → α}
    (hf : ∀ x ∈ L, v x = f (g x)) (a : List α) (k : ℕ) :
    (L.foldl (fun a x => a.set (g x) (v x)) a)[k]? =
      if k ∈ L.map g then a[k]?.map fun _ => f k else a[k]? := by
  induction L generalizing a with
  | nil => simp
  | cons x L ih =>
    have hx := hf x (List.mem_cons_self ..)
    rw [List.foldl_cons, ih fun y hy => hf y (List.mem_cons_of_mem _ hy), List.getElem?_set']
    by_cases hk : g x = k
    · subst hk
      by_cases hL : g x ∈ L.map g
      · simp [hL, Function.comp_def]
      · simp [hL, hx]
        rfl
    · have hmem : k ∈ (x :: L).map g ↔ k ∈ L.map g := by
        simp [Ne.symm hk]
      simp only [hk, if_false, hmem]

end

theorem middle_of_majority {α : Type*} [LinearOrder α] {l : List α} {m : ℕ} (lo hi : α)
    (hs : l.Pairwise (· ≤ ·)) (hl : l.length = 2 * m + 1)
    (h : m < l.countP fun x => lo ≤ x ∧ x ≤ hi) : ∃ x, l[m]? = some x ∧ lo ≤ x ∧ x ≤ hi := by
  have hm : m < l.length := by omega
  refine ⟨l[m], List.getElem?_eq_getElem hm, ?_⟩
  -- the list is `m` entries up to the middle, the middle, and `m` entries from it on
  have hsplit : l = l.take m ++ l[m] :: l.drop (m + 1) := by
    rw [List.getElem_cons_drop, List.take_append_drop]
  have hlow : (l.take m).length = m := List.length_take_of_le (Nat.le_of_lt hm)
  have hhigh : (l.drop (m + 1)).length = m := by rw [List.length_drop]; omega
  generalize l.take m = l₁ at hsplit hlow
  generalize l.drop (m + 1) = l₂ at hsplit hhigh
  generalize l[m] = x at hsplit ⊢
  subst hsplit
  obtain ⟨-, hx, hbelow⟩ := List.pairwise_append.mp hs
  have habove := (List.pairwise_cons.mp hx).1
  rw [List.countP_append, List.countP_cons] at h
  by_contra hout
  rcases not_and_or.mp hout with hlt | hgt
  · -- then nothing up to the middle is within the bounds
    have hnone : l₁.countP (fun x => decide (lo ≤ x ∧ x ≤ hi)) = 0 := by
      refine List.countP_eq_zero.mpr fun y hy => ?_
      have hyx : y ≤ x := hbelow y hy x (List.mem_cons_self ..)
      simp only [decide_eq_true_eq, not_and]
      exact fun hlo => absurd (hlo.trans hyx) hlt
    have hsome := List.countP_le_length (p := fun x => decide (lo ≤ x ∧ x ≤ hi)) (l := l₂)
    simp only [hnone, hout, decide_false, Bool.false_eq_true, if_false] at h
    omega
  · have hnone : l₂.countP (fun x => decide (lo ≤ x ∧ x ≤ hi)) = 0 := by
      refine List.countP_eq_zero.mpr fun y hy => ?_
      simp only [decide_eq_true_eq, not_and]
      exact fun _ hhi => absurd ((habove y hy).trans hhi) hgt
    have hsome := List.countP_le_length (p := fun x => decide (lo ≤ x ∧ x ≤ hi)) (l := l₁)
    simp only [hnone, hout, decide_false, Bool.false_eq_true, if_false] at h
    omega

end CritPath.Lib
