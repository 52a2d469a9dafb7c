import CritPath.Lib.Reduction
import Mathlib.Algebra.Order.Ring.Rat

/-!
# The reduction operator of dependent metrics

With `NUM_UC_INT64 > 0` a piggyback carries records: doubles and the integers
that depend on the first of them. `maxloc` is registered as a commutative
reduction operator on them; it takes the whole record with the greater first
double. Inside a process the same choice is `DependentMetric::maxUpdate`.

`d + 1` and `k + 1` are `NUM_UC_DOUBLE` and `NUM_UC_INT64`. Which contributions
are combined first, and how they are grouped, is up to the MPI library
(`Bracketing`). `maxloc_proper_iff` says when that makes no difference.
-/

namespace CritPath.Mpi

open Lib.Reduction

structure DepMetric (d k : ℕ) where
  fvalues : Fin (d + 1) → ℚ
  ivalues : Fin (k + 1) → BitVec 64

structure DependentMetric where
  refValue : ℚ := 0
  depValue : BitVec 64 := 0
  deriving DecidableEq

variable {d k len : ℕ} {ι : Type}

def DepMetric.f0 (m : DepMetric d k) : ℚ := m.fvalues ⟨0, Nat.succ_pos d⟩

def DepMetric.i0 (m : DepMetric d k) : BitVec 64 := m.ivalues ⟨0, Nat.succ_pos k⟩

/-- `maxloc(invec, inoutvec, len, dtype)`: what `inoutvec` holds afterwards. -/
def maxloc (invec inoutvec : Fin len → DepMetric d k) : Fin len → DepMetric d k := fun i =>
  if (inoutvec i).f0 < (invec i).f0 then
    { fvalues := fun j => (invec i).fvalues j
      ivalues := fun j => (invec i).ivalues j }
  else inoutvec i

namespace DependentMetric

/-- `DependentMetric(const depMetric &values)`. -/
def ofDepMetric (values : DepMetric d k) : DependentMetric := ⟨values.f0, values.i0⟩

def maxUpdate (m other : DependentMetric) : DependentMetric :=
  if m.refValue < other.refValue then ⟨other.refValue, other.depValue⟩ else m

theorem maxUpdate_eq_pick (m other : DependentMetric) :
    m.maxUpdate other = pick refValue other m := rfl

end DependentMetric

/-! ## One element -/

theorem maxloc_apply (a b : Fin len → DepMetric d k) (i : Fin len) :
    maxloc a b i = pick DepMetric.f0 (a i) (b i) := rfl

theorem maxloc_assoc (a b c : Fin len → DepMetric d k) :
    maxloc (maxloc a b) c = maxloc a (maxloc b c) := by
  funext i
  simp only [maxloc_apply]
  exact pick_assoc _ _ _ _

theorem reduce_maxloc_apply (ranks : ι → Fin len → DepMetric d k) (t : Bracketing ι) (i : Fin len) :
    t.reduce maxloc ranks i = t.reduce (pick DepMetric.f0) fun r => ranks r i := by
  induction t with
  | leaf r => rfl
  | node l r ihl ihr => simp only [Bracketing.reduce, maxloc_apply, ihl, ihr]

/-- The metrics folded in the order of a list. -/
def foldMaxUpdate (metric : ι → DependentMetric) (r : ι) (rest : List ι) : DependentMetric :=
  rest.foldl (fun m q => m.maxUpdate (metric q)) (metric r)

theorem exists_foldMaxUpdate (metric : ι → DependentMetric) (r : ι) (rest : List ι) :
    ∃ q ∈ r :: rest, foldMaxUpdate metric r rest = metric q ∧
      ∀ p ∈ r :: rest, (metric p).refValue ≤ (metric q).refValue := by
  simp only [foldMaxUpdate, DependentMetric.maxUpdate_eq_pick]
  exact exists_foldl_pick DependentMetric.refValue metric r rest

/-! ## All contributions -/

/-- The operator is what `commute = 1` promises, on the contributions of the ranks: associative
and commutative, every order and bracketing gives the same vector, and in each element that vector
is the fold of `maxUpdate` over the ranks in any order. -/
structure Proper (ranks : ι → Fin len → DepMetric d k) : Prop where
  assoc : ∀ p q r, maxloc (maxloc (ranks p) (ranks q)) (ranks r) =
    maxloc (ranks p) (maxloc (ranks q) (ranks r))
  comm : ∀ p q, maxloc (ranks p) (ranks q) = maxloc (ranks q) (ranks p)
  same : ∀ t t' : Bracketing ι, t.Covers → t'.Covers →
    t.reduce maxloc ranks = t'.reduce maxloc ranks
  fold : ∀ (t : Bracketing ι) (r : ι) (rest : List ι), t.Covers → (r :: rest).Nodup →
    (∀ q, q ∈ r :: rest) → ∀ i, DependentMetric.ofDepMetric (t.reduce maxloc ranks i) =
      foldMaxUpdate (fun q => .ofDepMetric (ranks q i)) r rest

def TiesEqual (ranks : ι → Fin len → DepMetric d k) : Prop :=
  ∀ i p q, (ranks p i).f0 = (ranks q i).f0 → ranks p i = ranks q i

theorem comm_iff_tiesEqual {ranks : ι → Fin len → DepMetric d k} :
    (∀ p q, maxloc (ranks p) (ranks q) = maxloc (ranks q) (ranks p)) ↔ TiesEqual ranks := by
  constructor
  · intro h i p q
    exact pick_comm_iff.mp (congrFun (h p q) i)
  · intro h p q
    funext i
    exact pick_comm_iff.mpr (h i p q)

/-- The operator is a proper one exactly on contributions without ties between different
records. -/
theorem maxloc_proper_iff (ranks : ι → Fin len → DepMetric d k) :
    Proper ranks ↔ TiesEqual ranks := by
  constructor
  · exact fun h => comm_iff_tiesEqual.mp h.comm
  · intro h
    refine ⟨fun p q r => maxloc_assoc _ _ _, comm_iff_tiesEqual.mpr h, ?_, ?_⟩
    · intro t t' ht ht'
      funext i
      rw [reduce_maxloc_apply, reduce_maxloc_apply]
      obtain ⟨p, hp, hpt, hpmax⟩ := exists_reduce_pick DepMetric.f0 (fun r => ranks r i) t
      obtain ⟨q, hq, hqt, hqmax⟩ := exists_reduce_pick DepMetric.f0 (fun r => ranks r i) t'
      rw [hpt, hqt]
      exact h i p q (le_antisymm (hqmax p (ht'.2 p)) (hpmax q (ht.2 q)))
    · intro t r rest ht _ hall i
      obtain ⟨p, hp, hpt, hpmax⟩ := exists_reduce_pick DepMetric.f0 (fun r => ranks r i) t
      obtain ⟨q, hq, hqf, hqmax⟩ :=
        exists_foldMaxUpdate (fun q => .ofDepMetric (ranks q i)) r rest
      rw [reduce_maxloc_apply, hpt, hqf]
      exact congrArg _ (h i p q (le_antisymm (hqmax p (hall p)) (hpmax q (ht.2 q))))

/-- Records of a job with two ranks that reached their maximum at the same first double. -/
def tied : Bool → Fin 1 → DepMetric 0 0
  | false => fun _ => ⟨fun _ => 1, fun _ => 2⟩
  | true => fun _ => ⟨fun _ => 1, fun _ => 3⟩

theorem tied_order_matters :
    ¬ Proper tied ∧
      DependentMetric.ofDepMetric (maxloc (tied false) (tied true) 0) = ⟨1, 3⟩ ∧
      DependentMetric.ofDepMetric (maxloc (tied true) (tied false) 0) = ⟨1, 2⟩ := by
  have h1 : DependentMetric.ofDepMetric (maxloc (tied false) (tied true) 0) = ⟨1, 3⟩ := by
    decide +kernel
  have h2 : DependentMetric.ofDepMetric (maxloc (tied true) (tied false) 0) = ⟨1, 2⟩ := by
    decide +kernel
  refine ⟨fun h => ?_, h1, h2⟩
  rw [h.comm, h2] at h1
  exact absurd h1 (by decide)

/-- The reductions alone agree exactly if the records with the greatest first double are the same
in each element. -/
theorem reductions_agree_iff (ranks : ι → Fin len → DepMetric d k) [DecidableEq ι] {all : List ι}
    (hnd : all.Nodup) (hall : ∀ r, r ∈ all) :
    (∀ t t' : Bracketing ι, t.Covers → t'.Covers →
      t.reduce maxloc ranks = t'.reduce maxloc ranks) ↔
    ∀ i p q, (∀ r, (ranks r i).f0 ≤ (ranks p i).f0) → (ranks q i).f0 = (ranks p i).f0 →
      ranks p i = ranks q i := by
  constructor
  · intro h i p q hp hq
    by_cases hpq : p = q
    · rw [hpq]
    -- a reduction that takes `p` last, and one that takes `q` last
    have hlast : ∀ r s : ι, r ≠ s → ∃ t : Bracketing ι, (Bracketing.node t (.leaf r)).Covers := by
      intro r s hrs
      refine ⟨.ofList (.leaf s) ((all.erase r).erase s), ?_⟩
      have hs : s ∈ all.erase r := (List.mem_erase_of_ne (Ne.symm hrs)).mpr (hall s)
      have hperm : ([s] ++ (all.erase r).erase s ++ [r]).Perm all := by
        refine ((List.perm_cons_erase hs).symm.append_right [r]).trans ?_
        exact (List.perm_append_singleton r _).trans (List.perm_cons_erase (hall r)).symm
      unfold Bracketing.Covers
      rw [Bracketing.leaves, Bracketing.leaves_ofList]
      exact ⟨hperm.nodup_iff.mpr hnd, fun u => hperm.mem_iff.mpr (hall u)⟩
    obtain ⟨t, ht⟩ := hlast p q hpq
    obtain ⟨t', ht'⟩ := hlast q p (Ne.symm hpq)
    have heq := congrFun (h _ _ ht ht') i
    rw [reduce_maxloc_apply, reduce_maxloc_apply] at heq
    rw [reduce_pick_last (i := p) hp, reduce_pick_last (i := q) (by rw [hq]; exact hp)] at heq
    exact heq
  · intro h t t' ht ht'
    funext i
    rw [reduce_maxloc_apply, reduce_maxloc_apply]
    obtain ⟨p, hp, hpt, hpmax⟩ := exists_reduce_pick DepMetric.f0 (fun r => ranks r i) t
    obtain ⟨q, hq, hqt, hqmax⟩ := exists_reduce_pick DepMetric.f0 (fun r => ranks r i) t'
    rw [hpt, hqt]
    exact h i p q (fun r => hpmax r (ht.2 r)) (le_antisymm (hpmax q (ht.2 q)) (hqmax p (ht'.2 p)))

theorem reductions_agree_iff_tied : ¬ ∀ t t' : Bracketing Bool, t.Covers → t'.Covers →
    t.reduce maxloc tied = t'.reduce maxloc tied := by
  intro h
  have heq := (reductions_agree_iff tied (show [false, true].Nodup by decide) (by decide)).mp h 0
    false true (by decide +kernel) rfl
  exact absurd (congrArg DepMetric.i0 heq) (by decide)

end CritPath.Mpi
