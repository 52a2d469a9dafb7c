import Mathlib.Data.Nat.Notation

/-!
# Ranges of a memory

A memory is a function of the address. `load` reads a range and `store` writes
one; the lemmas say what a range holds after a write at it, behind it or
elsewhere, and how a range splits.
-/

namespace CritPath.Lib.Bytes

variable {α : Type}

def load (m : ℕ → α) (a : ℕ) : ℕ → List α
  | 0 => []
  | n + 1 => m a :: load m (a + 1) n

/-- The memory with `xs` written from `a` on. -/
def store (m : ℕ → α) (a : ℕ) (xs : List α) : ℕ → α := fun q =>
  if a ≤ q then (xs[q - a]?).getD (m q) else m q

variable {m m' : ℕ → α} {a b n k : ℕ} {xs : List α}

@[simp] theorem load_zero : load m a 0 = [] := rfl

@[simp] theorem length_load : (load m a n).length = n := by
  induction n generalizing a with
  | zero => rfl
  | succ n ih => rw [load, List.length_cons, ih]

theorem getElem?_load {i : ℕ} (h : i < n) : (load m a n)[i]? = some (m (a + i)) := by
  induction n generalizing a i with
  | zero => omega
  | succ n ih =>
    cases i with
    | zero => rfl
    | succ i =>
      rw [load, List.getElem?_cons_succ, ih (by omega)]
      congr 2
      omega

theorem load_add (m : ℕ → α) (a n k : ℕ) : load m a (n + k) = load m a n ++ load m (a + n) k := by
  induction n generalizing a with
  | zero => simp
  | succ n ih =>
    rw [Nat.add_right_comm, load, ih, load, List.cons_append]
    congr 3
    omega

theorem drop_load (h : k ≤ n) : (load m a n).drop k = load m (a + k) (n - k) := by
  obtain ⟨j, rfl⟩ := Nat.exists_eq_add_of_le h
  rw [load_add, List.drop_left' length_load, Nat.add_sub_cancel_left]

theorem load_congr (h : ∀ q, a ≤ q → q < a + n → m q = m' q) : load m a n = load m' a n := by
  induction n generalizing a with
  | zero => rfl
  | succ n ih =>
    rw [load, load, h a (Nat.le_refl a) (by omega), ih fun q hq hq' => h q (by omega) (by omega)]

theorem store_of_outside {q : ℕ} (h : q < a ∨ a + xs.length ≤ q) : store m a xs q = m q := by
  unfold store
  split
  · rw [List.getElem?_eq_none (by omega)]
    rfl
  · rfl

theorem load_store_of_disjoint (h : b + n ≤ a ∨ a + xs.length ≤ b) :
    load (store m a xs) b n = load m b n :=
  load_congr fun q hq hq' => store_of_outside (by omega)

theorem load_store_self (m : ℕ → α) (a : ℕ) (xs : List α) :
    load (store m a xs) a xs.length = xs := by
  refine List.ext_getElem? fun i => ?_
  by_cases hi : i < xs.length
  · rw [getElem?_load hi, store, if_pos (Nat.le_add_right a i), Nat.add_sub_cancel_left,
      List.getElem?_eq_getElem hi]
    rfl
  · rw [List.getElem?_eq_none (by rw [length_load]; omega), List.getElem?_eq_none (by omega)]

theorem load_store_behind (m : ℕ → α) (a n : ℕ) (xs : List α) :
    load (store m (a + n) xs) a (n + xs.length) = load m a n ++ xs := by
  rw [load_add, load_store_self, load_store_of_disjoint (.inl (Nat.le_refl _))]

end CritPath.Lib.Bytes
