import Mathlib.Data.List.Nodup
import Mathlib.Data.List.Perm.Basic
import Mathlib.Data.List.Range

/-!
# Pools of numbered objects

A pool hands out objects and takes them back. Objects are numbered in the order
they are made; the free ones form a stack, and when it is empty a batch of new
ones is made. `Accounts P out` says that the free objects and those handed out
(`out`, in any order) are distinct objects of the pool. `Untouched n o` says that
an object has not been handed out yet, and `Untouched.get` when it will be.
-/

namespace CritPath.Lib

/-- The free objects, the one returned last first, and the number of objects made. -/
structure Pool where
  free : List ℕ := []
  count : ℕ := 0
  deriving DecidableEq

namespace Pool

/-- Makes `n` new objects, the last of them on top. -/
def grow (n : ℕ) (P : Pool) : Pool :=
  ⟨(List.range' P.count n).reverse ++ P.free, P.count + n⟩

/-- An empty pool is filled with `n` new objects. -/
def refill (n : ℕ) (P : Pool) : Pool := if P.free = [] then P.grow n else P

def get (n : ℕ) (P : Pool) : ℕ × Pool :=
  let P := P.refill n
  (P.free.headD 0, { P with free := P.free.tail })

def put (o : ℕ) (P : Pool) : Pool := { P with free := o :: P.free }

/-- The free objects and those handed out are distinct objects of the pool. -/
structure Accounts (P : Pool) (out : List ℕ) : Prop where
  nodup : (P.free ++ out).Nodup
  lt : ∀ o ∈ P.free ++ out, o < P.count

variable {P : Pool} {out out' : List ℕ} {n o : ℕ}

theorem accounts_empty : Accounts {} [] := ⟨List.nodup_nil, by simp⟩

theorem free_refill_ne_nil (hn : 0 < n) (P : Pool) : (P.refill n).free ≠ [] := by
  unfold refill grow
  split
  · simp; omega
  · assumption

namespace Accounts

theorem put (h : P.Accounts (o :: out)) : (P.put o).Accounts out := by
  have hperm : (P.free ++ o :: out).Perm (o :: P.free ++ out) := List.perm_middle
  exact ⟨hperm.nodup h.nodup, fun o' ho' => h.lt o' (hperm.mem_iff.mpr ho')⟩

variable (h : P.Accounts out)
include h

theorem of_perm (hp : out.Perm out') : P.Accounts out' := by
  have hp' : (P.free ++ out).Perm (P.free ++ out') := hp.append_left P.free
  exact ⟨hp'.nodup h.nodup, fun o ho => h.lt o (hp'.mem_iff.mpr ho)⟩

theorem of_free_perm {free : List ℕ} (hp : P.free.Perm free) :
    Accounts { P with free := free } out := by
  have hp' : (P.free ++ out).Perm (free ++ out) := hp.append_right out
  exact ⟨hp'.nodup h.nodup, fun o ho => h.lt o (hp'.mem_iff.mpr ho)⟩

theorem grow (n : ℕ) : (P.grow n).Accounts out := by
  have hlt : ∀ o ∈ (P.grow n).free ++ out, o < (P.grow n).count := by
    intro o ho
    simp only [Pool.grow, List.mem_append, List.mem_reverse, List.mem_range'_1, or_assoc] at ho ⊢
    rcases ho with ho | ho
    · omega
    · have := h.lt o (List.mem_append.mpr ho)
      omega
  refine ⟨?_, hlt⟩
  simp only [Pool.grow, List.append_assoc]
  refine List.Nodup.append (List.nodup_reverse.mpr List.nodup_range') h.nodup fun o hnew hold => ?_
  have := h.lt o hold
  simp only [List.mem_reverse, List.mem_range'_1] at hnew
  omega

theorem refill (n : ℕ) : (P.refill n).Accounts out := by
  unfold Pool.refill
  split
  · exact h.grow n
  · exact h

theorem get (hn : 0 < n) : (P.get n).2.Accounts ((P.get n).1 :: out) := by
  have href := h.refill n
  obtain ⟨o, free, hfree⟩ := List.exists_cons_of_ne_nil (free_refill_ne_nil hn P)
  unfold Pool.get
  simp only [hfree, List.headD_cons, List.tail_cons]
  have hperm : ((P.refill n).free ++ out).Perm (free ++ o :: out) := by
    rw [hfree]
    exact List.perm_middle.symm
  exact ⟨hperm.nodup href.nodup, fun o' ho' => href.lt o' (hperm.mem_iff.mpr ho')⟩

theorem of_sublist (hs : out'.Sublist out) : P.Accounts out' := by
  have hs' : (P.free ++ out').Sublist (P.free ++ out) := hs.append_left P.free
  exact ⟨h.nodup.sublist hs', fun o ho => h.lt o (hs'.subset ho)⟩

theorem cons (ho : P.Accounts [o]) (hnew : o ∉ out) : P.Accounts (o :: out) := by
  have hfree : o ∉ P.free := fun hmem =>
    (List.nodup_append.mp ho.nodup).2.2 o hmem o (List.mem_singleton.mpr rfl) rfl
  have hperm : (o :: (P.free ++ out)).Perm (P.free ++ o :: out) := List.perm_middle.symm
  refine ⟨hperm.nodup (List.nodup_cons.mpr ⟨?_, h.nodup⟩), fun o' ho' => ?_⟩
  · exact fun hmem => (List.mem_append.mp hmem).elim hfree hnew
  · rcases List.mem_cons.mp (hperm.mem_iff.mpr ho') with rfl | hold
    · exact ho.lt o' (List.mem_append_right _ (List.mem_singleton.mpr rfl))
    · exact h.lt o' hold

/-- An object made elsewhere joins the pool as handed out. -/
theorem mint : Accounts { P with count := P.count + 1 } (P.count :: out) := by
  have hnew : P.count ∉ P.free ++ out := fun hmem => Nat.lt_irrefl _ (h.lt _ hmem)
  have hperm : (P.count :: (P.free ++ out)).Perm (P.free ++ P.count :: out) :=
    List.perm_middle.symm
  refine ⟨hperm.nodup (List.nodup_cons.mpr ⟨hnew, h.nodup⟩), fun o ho => ?_⟩
  rcases List.mem_cons.mp (hperm.mem_iff.mpr ho) with rfl | hold
  · exact Nat.lt_succ_self _
  · exact Nat.lt_succ_of_lt (h.lt o hold)

theorem out_nodup : out.Nodup := (List.nodup_append.mp h.nodup).2.1

theorem free_nodup : P.free.Nodup := (List.nodup_append.mp h.nodup).1

theorem not_mem_free (ho : o ∈ out) : o ∉ P.free := fun hfree =>
  (List.nodup_append.mp h.nodup).2.2 o hfree o ho rfl

theorem lt_count (ho : o ∈ out) : o < P.count :=
  h.lt o (List.mem_append_right _ ho)

end Accounts

/-! ## When an object is handed out for the first time -/

/-- The pool was filled by batches of `n`, and `k` objects are handed out. -/
structure Counts (n : ℕ) (P : Pool) (k : ℕ) : Prop where
  dvd : n ∣ P.count
  sum : P.free.length + k = P.count

/-- The number of objects handed out when `o` is among them for the first time: its batch is handed
out from the top. -/
def limit (n o : ℕ) : ℕ := n * (o / n) + n - o % n

/-- Object `o` is not made yet, or it and the objects of its batch below it are at the bottom of the
stack. -/
def Untouched (n o : ℕ) (P : Pool) : Prop :=
  P.count ≤ n * (o / n) ∨
    P.count = n * (o / n) + n ∧ (List.range' (n * (o / n)) (o % n + 1)).reverse <:+ P.free

theorem reverse_range'_succ (s m : ℕ) :
    (List.range' s (m + 1)).reverse = (s + m) :: (List.range' s m).reverse := by
  rw [List.range'_1_concat, List.reverse_concat]

section
variable {k : ℕ}

theorem counts_empty (n : ℕ) : Counts n {} 0 := ⟨Nat.dvd_zero n, rfl⟩

theorem Counts.put (h : Counts n P (k + 1)) (o : ℕ) : Counts n (P.put o) k := by
  refine ⟨h.dvd, ?_⟩
  have hsum := h.sum
  simp only [Pool.put, List.length_cons]
  omega

theorem Counts.refill (h : Counts n P k) : Counts n (P.refill n) k := by
  unfold Pool.refill
  split
  · rename_i hnil
    have hsum := h.sum
    refine ⟨(Nat.dvd_add_right h.dvd).mpr (Nat.dvd_refl n), ?_⟩
    simp only [hnil, List.length_nil] at hsum
    simp only [Pool.grow, hnil, List.append_nil, List.length_reverse, List.length_range']
    omega
  · exact h

theorem Counts.get (h : Counts n P k) (hn : 0 < n) : Counts n (P.get n).2 (k + 1) := by
  have href := h.refill
  have hsum := href.sum
  refine ⟨href.dvd, ?_⟩
  have hpos := List.length_pos_iff.mpr (free_refill_ne_nil hn P)
  simp only [Pool.get, List.length_tail]
  omega

theorem Untouched.not_mem (h : Untouched n o P) (ha : P.Accounts out) : o ∉ out := by
  intro ho
  have hlt := ha.lt_count ho
  have hdiv : n * (o / n) + o % n = o := Nat.div_add_mod o n
  rcases h with hle | ⟨-, hsuf⟩
  · omega
  · refine ha.not_mem_free ho (hsuf.subset ?_)
    rw [List.mem_reverse, List.mem_range'_1]
    omega

theorem Untouched.put (h : Untouched n o P) (o' : ℕ) : Untouched n o (P.put o') :=
  h.imp_right fun ⟨hc, hsuf⟩ => ⟨hc, hsuf.trans (List.suffix_cons o' P.free)⟩

/-- Fewer than `limit n o` objects are handed out before `o` is. -/
theorem Untouched.lt_limit (h : Untouched n o P) (hn : 0 < n) (hc : Counts n P k) :
    k < limit n o := by
  have hmod := Nat.mod_lt o hn
  have hsum := hc.sum
  unfold limit
  rcases h with hle | ⟨hcount, hsuf⟩
  · omega
  · have hlen := hsuf.length_le
    rw [List.length_reverse, List.length_range'] at hlen
    omega

theorem Untouched.refill (h : Untouched n o P) (hn : 0 < n) (hc : Counts n P k) :
    Untouched n o (P.refill n) := by
  have hmod := Nat.mod_lt o hn
  unfold Pool.refill
  split
  · rename_i hnil
    rcases h with hle | ⟨hcount, hsuf⟩
    · rcases Nat.lt_or_eq_of_le hle with hlt | heq
      · -- an earlier batch
        left
        obtain ⟨c, hcn⟩ := hc.dvd
        show P.count + n ≤ n * (o / n)
        rw [hcn] at hlt ⊢
        have hc' : c + 1 ≤ o / n := (Nat.mul_lt_mul_left hn).mp hlt
        calc n * c + n = n * (c + 1) := by rw [Nat.mul_succ]
          _ ≤ n * (o / n) := Nat.mul_le_mul_left n hc'
      · -- the batch of `o`
        right
        refine ⟨by simp only [Pool.grow]; omega, ?_⟩
        simp only [Pool.grow, hnil, List.append_nil, heq, List.reverse_suffix]
        refine ⟨List.range' (n * (o / n) + (o % n + 1)) (n - (o % n + 1)), ?_⟩
        rw [List.range'_append_1, Nat.add_sub_cancel' (by omega)]
    · rw [hnil] at hsuf
      have := hsuf.length_le
      simp at this
  · exact h

/-- Object `o` is handed out when `limit n o` objects are, and not before. -/
theorem Untouched.get (h : Untouched n o P) (hn : 0 < n) (hc : Counts n P k) :
    k + 1 = limit n o ∧ (P.get n).1 = o ∨ k + 1 < limit n o ∧ Untouched n o (P.get n).2 := by
  have href := h.refill hn hc
  have hcount := hc.refill.sum
  have hmod := Nat.mod_lt o hn
  have hdiv : n * (o / n) + o % n = o := Nat.div_add_mod o n
  obtain ⟨o', free, hfree⟩ := List.exists_cons_of_ne_nil (free_refill_ne_nil hn P)
  have hlen : (P.refill n).free.length = free.length + 1 := by rw [hfree]; rfl
  unfold Pool.get limit
  simp only [hfree, List.headD_cons, List.tail_cons]
  rcases href with hle | ⟨hmade, hsuf⟩
  · exact .inr ⟨by omega, .inl hle⟩
  · rw [hfree, List.suffix_cons_iff] at hsuf
    rcases hsuf with heq | hsuf
    · rw [reverse_range'_succ] at heq
      obtain ⟨ho, hrest⟩ := List.cons.inj heq
      have hfl : free.length = o % n := by rw [← hrest, List.length_reverse, List.length_range']
      exact .inl ⟨by omega, by omega⟩
    · have hle := hsuf.length_le
      rw [List.length_reverse, List.length_range'] at hle
      exact .inr ⟨by omega, .inr ⟨hmade, hsuf⟩⟩

end

end Pool

theorem update_inj_of_fresh {ι β : Type*} [DecidableEq ι] {f : ι → Option β} {b : β}
    (hinj : ∀ x y c, f x = some c → f y = some c → x = y) (hfresh : ∀ x, f x ≠ some b) (x y z : ι)
    (c : β) (hy : Function.update f x (some b) y = some c)
    (hz : Function.update f x (some b) z = some c) : y = z := by
  have hcases : ∀ w, Function.update f x (some b) w = some c →
      (w = x ∧ c = b) ∨ (w ≠ x ∧ f w = some c) := by
    intro w hw
    by_cases hwx : w = x
    · rw [hwx, Function.update_self] at hw
      exact .inl ⟨hwx, (Option.some.inj hw).symm⟩
    · rw [Function.update_of_ne hwx] at hw
      exact .inr ⟨hwx, hw⟩
  rcases hcases y hy with ⟨rfl, rfl⟩ | ⟨-, hold⟩
  · rcases hcases z hz with ⟨rfl, -⟩ | ⟨-, hold⟩
    · rfl
    · exact absurd hold (hfresh z)
  · rcases hcases z hz with ⟨-, rfl⟩ | ⟨-, hold'⟩
    · exact absurd hold (hfresh y)
    · exact hinj y z c hold hold'

end CritPath.Lib
