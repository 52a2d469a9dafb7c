import Mathlib.Order.Lattice

/-!
# Reductions in any order and bracketing

A `Bracketing` is a tree over the contributors of a reduction: its leaves in
order say in which order the contributions are combined, its shape how they are
grouped. `pick key` keeps one of two values by comparing only their keys, the
second one on a tie. It is associative, and it is commutative only as far as
equal keys mean equal values: the leaf a reduction ends with is one with the
greatest key (`exists_reduce_pick`), and on a tie the order decides which.
-/

namespace CritPath.Lib.Reduction

inductive Bracketing (ι : Type)
  | leaf (i : ι)
  | node (l r : Bracketing ι)
  deriving DecidableEq

namespace Bracketing

variable {ι α : Type}

def leaves : Bracketing ι → List ι
  | leaf i => [i]
  | node l r => l.leaves ++ r.leaves

/-- Every contributor is a leaf exactly once. -/
def Covers (t : Bracketing ι) : Prop := t.leaves.Nodup ∧ ∀ i, i ∈ t.leaves

def reduce (op : α → α → α) (f : ι → α) : Bracketing ι → α
  | leaf i => f i
  | node l r => op (l.reduce op f) (r.reduce op f)

def ofList (t : Bracketing ι) : List ι → Bracketing ι
  | [] => t
  | i :: is => ofList (node t (leaf i)) is

theorem leaves_ofList (t : Bracketing ι) (is : List ι) :
    (ofList t is).leaves = t.leaves ++ is := by
  induction is generalizing t with
  | nil => simp [ofList]
  | cons i is ih => simp [ofList, ih, leaves]

end Bracketing

open Bracketing

variable {ι α κ : Type} [LinearOrder κ] (key : α → κ)

/-- The second value unless the first one has a greater key. -/
def pick (a b : α) : α := if key b < key a then a else b

variable {key} {a b c : α}

variable (key) in
theorem pick_eq_or (a b : α) : pick key a b = a ∨ pick key a b = b := by
  unfold pick
  split
  · exact .inl rfl
  · exact .inr rfl

variable (key) in
theorem key_le_pick (a b : α) : key a ≤ key (pick key a b) ∧ key b ≤ key (pick key a b) := by
  unfold pick
  split
  · rename_i h; exact ⟨le_rfl, h.le⟩
  · rename_i h; exact ⟨not_lt.mp h, le_rfl⟩

theorem pick_of_le (h : key a ≤ key b) : pick key a b = b := if_neg (not_lt.mpr h)

theorem pick_of_lt (h : key b < key a) : pick key a b = a := if_pos h

variable (key) in
theorem pick_assoc (a b c : α) :
    pick key (pick key a b) c = pick key a (pick key b c) := by
  rcases lt_or_ge (key c) (key b) with hcb | hbc
  · rw [pick_of_lt hcb]
    rcases lt_or_ge (key b) (key a) with hba | hab
    · rw [pick_of_lt hba, pick_of_lt (hcb.trans hba)]
    · rw [pick_of_le hab, pick_of_lt hcb]
  · rw [pick_of_le hbc]
    rcases pick_eq_or key a b with h | h
    · rw [h]
    · have hab := (key_le_pick key a b).1
      rw [h] at hab ⊢
      rw [pick_of_le hbc, pick_of_le (hab.trans hbc)]

/-- Two values can be exchanged unless they differ and have the same key. -/
theorem pick_comm_iff : pick key a b = pick key b a ↔ (key a = key b → a = b) := by
  rcases lt_trichotomy (key a) (key b) with h | h | h
  · rw [pick_of_le h.le, pick_of_lt h]
    exact ⟨fun _ he => absurd he h.ne, fun _ => rfl⟩
  · rw [pick_of_le h.le, pick_of_le h.ge]
    exact ⟨fun he _ => he.symm, fun he => (he h).symm⟩
  · rw [pick_of_lt h, pick_of_le h.le]
    exact ⟨fun _ he => absurd he h.ne', fun _ => rfl⟩

variable (key) in
/-- A reduction ends with a contribution of the greatest key. -/
theorem exists_reduce_pick (f : ι → α) (t : Bracketing ι) :
    ∃ i ∈ t.leaves, t.reduce (pick key) f = f i ∧ ∀ j ∈ t.leaves, key (f j) ≤ key (f i) := by
  induction t with
  | leaf i => exact ⟨i, by simp [leaves], rfl, by simp [leaves]⟩
  | node l r ihl ihr =>
    obtain ⟨i, hi, hli, hlmax⟩ := ihl
    obtain ⟨j, hj, hrj, hrmax⟩ := ihr
    have hle := key_le_pick key (f i) (f j)
    have hmax : ∀ k ∈ (node l r).leaves, key (f k) ≤ key (pick key (f i) (f j)) := by
      intro k hk
      rcases List.mem_append.mp hk with hk | hk
      · exact (hlmax k hk).trans hle.1
      · exact (hrmax k hk).trans hle.2
    simp only [reduce, hli, hrj]
    rcases pick_eq_or key (f i) (f j) with h | h
    · exact ⟨i, List.mem_append_left _ hi, h, by rw [← h]; exact hmax⟩
    · exact ⟨j, List.mem_append_right _ hj, h, by rw [← h]; exact hmax⟩

variable (key) in
/-- A list of contributors, folded with the one seen so far as second argument. -/
theorem exists_foldl_pick (f : ι → α) (i : ι) (is : List ι) :
    ∃ j ∈ i :: is, is.foldl (fun a k => pick key (f k) a) (f i) = f j ∧
      ∀ k ∈ i :: is, key (f k) ≤ key (f j) := by
  induction is generalizing i with
  | nil => exact ⟨i, List.mem_cons_self, rfl, by simp⟩
  | cons k is ih =>
    -- after the first step the fold goes on from one of the two
    have hle := key_le_pick key (f k) (f i)
    have hgo : ∀ m, m ∈ i :: k :: is → pick key (f k) (f i) = f m →
        ∃ j ∈ i :: k :: is, (k :: is).foldl (fun a k => pick key (f k) a) (f i) = f j ∧
          ∀ k' ∈ i :: k :: is, key (f k') ≤ key (f j) := by
      intro m hm hpick
      obtain ⟨j, hj, heq, hmax⟩ := ih m
      have hjm : j ∈ i :: k :: is := by
        rcases List.mem_cons.mp hj with rfl | hj
        · exact hm
        · exact List.mem_cons_of_mem _ (List.mem_cons_of_mem _ hj)
      refine ⟨j, hjm, by rw [List.foldl_cons, hpick, heq], fun k' hk' => ?_⟩
      have hmj : key (pick key (f k) (f i)) ≤ key (f j) := by
        rw [hpick]; exact hmax m List.mem_cons_self
      rcases List.mem_cons.mp hk' with rfl | hk'
      · exact hle.2.trans hmj
      rcases List.mem_cons.mp hk' with rfl | hk'
      · exact hle.1.trans hmj
      · exact hmax k' (List.mem_cons_of_mem _ hk')
    rcases pick_eq_or key (f k) (f i) with h | h
    · exact hgo k (by simp) h
    · exact hgo i (by simp) h

/-- The last of several contributions with the greatest key wins. -/
theorem reduce_pick_last {f : ι → α} {t : Bracketing ι} {i : ι}
    (h : ∀ j, key (f j) ≤ key (f i)) : (node t (leaf i)).reduce (pick key) f = f i := by
  obtain ⟨j, -, hj, -⟩ := exists_reduce_pick key f t
  simp only [reduce, hj]
  exact pick_of_le (h j)

end CritPath.Lib.Reduction
