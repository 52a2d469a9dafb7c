import CritPath.Clock.SyncClock
import CritPath.Lib.Pool
import CritPath.Lib.Runs

/-!
# The pools of the OMPT tool

`ParallelData`, `Taskgroup`, `TaskData` and `DependencyData` come from pools, one
for each type and thread. An object that another thread deletes goes to a second
list of its owner's pool, which the owner takes over when its first list is
empty. Apart from the order this is one stack of free objects (`DataPool.toPool`).

`Delete` calls `Reset` of the type, which leaves the sync clocks inside the
object alone, and so does `Init`. An object that `New` returns is as constructed
only if its clocks were so when it was deleted.
-/

namespace CritPath

open Lib

/-- The types of pool objects. -/
inductive PoolKind where
  | parallelData
  | taskgroup
  | taskData
  | dependencyData
  deriving DecidableEq

inductive SyncSlot where
  | barrier (k : ℕ)
  | ptr
  | task
  | taskwait
  | in_
  | out
  | inoutset
  deriving DecidableEq

/-- The sync clocks in an object of each type. -/
def PoolKind.slots : PoolKind → List SyncSlot
  | .parallelData => [.barrier 0, .barrier 1, .barrier 2]
  | .taskgroup => [.ptr]
  | .taskData => [.task, .taskwait]
  | .dependencyData => [.in_, .out, .inoutset]

/-- `DataPool<T>` of a thread: its objects, numbered as they are allocated. The head of a list is
the back of its vector. -/
structure DataPool where
  dataPointer : List ℕ := []
  remoteDataPointer : List ℕ := []
  total : ℕ := 0

namespace DataPool

def newDatas (ndatas : ℕ) (D : DataPool) : DataPool :=
  if D.remoteDataPointer ≠ [] then
    { D with dataPointer := D.remoteDataPointer, remoteDataPointer := D.dataPointer }
  else
    { D with
      dataPointer := (List.range' D.total (max 4 ndatas)).reverse ++ D.dataPointer
      total := D.total + max 4 ndatas }

def getData (ndatas : ℕ) (D : DataPool) : ℕ × DataPool :=
  let D := if D.dataPointer = [] then D.newDatas ndatas else D
  (D.dataPointer.headD 0, { D with dataPointer := D.dataPointer.tail })

def returnOwnData (o : ℕ) (D : DataPool) : DataPool := { D with dataPointer := o :: D.dataPointer }

def returnData (o : ℕ) (D : DataPool) : DataPool :=
  { D with remoteDataPointer := o :: D.remoteDataPointer }

def toPool (D : DataPool) : Pool := ⟨D.dataPointer ++ D.remoteDataPointer, D.total⟩

/-- `getData` takes the top of the two lists together and allocates when both are empty. -/
theorem toPool_getData (n : ℕ) (D : DataPool) :
    ((D.getData n).1, (D.getData n).2.toPool) = D.toPool.get (max 4 n) := by
  obtain ⟨own, remote, total⟩ := D
  cases own with
  | cons o os => rfl
  | nil =>
    cases remote with
    | cons o os => simp [getData, newDatas, toPool, Pool.get, Pool.refill]
    | nil =>
      have hne : (List.range' total (max 4 n)).reverse ≠ [] := by simp
      obtain ⟨o, os, heq⟩ := List.exists_cons_of_ne_nil hne
      simp [getData, newDatas, toPool, Pool.get, Pool.refill, Pool.grow, heq]

end DataPool

/-- An object of a pool: its type, the thread whose pool owns it, and its number there. -/
structure PoolObject (T : Type) where
  kind : PoolKind
  owner : T
  index : ℕ
  deriving DecidableEq

/-- The pools of all threads and the sync clocks in their objects. `out` and `touched` only serve
statements: the objects in use, and the clocks on which an arc was made since they were
constructed or reset. -/
structure Pools (T : Type) where
  pool : PoolKind → T → DataPool
  clock : PoolObject T → SyncSlot → SyncClock
  out : PoolKind → T → List ℕ
  touched : PoolObject T → SyncSlot → Bool

/-- `New` and `Delete` on thread `th`, and what is done to the clocks of an object in between. -/
inductive PoolOp (T : Type) where
  | new (kind : PoolKind) (th : T) (ndatas : ℕ)
  | delete (th : T) (o : PoolObject T)
  | ompHBefore (running : Bool) (o : PoolObject T) (slot : SyncSlot) (tc : ThreadClock)
  | ompHAfter (running : Bool) (o : PoolObject T) (slot : SyncSlot) (tc : ThreadClock)
  | ompCReset (running : Bool) (o : PoolObject T) (slot : SyncSlot)

namespace Pools

variable {T : Type}

/-- No memory allocated; `memory` is what the clocks' places hold before. -/
def start (memory : PoolObject T → SyncSlot → SyncClock) : Pools T :=
  ⟨fun _ _ => {}, memory, fun _ _ => [], fun _ _ => true⟩

variable [DecidableEq T]

/-- The object that `New` returns on thread `th`. -/
def newObject (σ : Pools T) (kind : PoolKind) (th : T) (ndatas : ℕ) : PoolObject T :=
  ⟨kind, th, ((σ.pool kind th).getData ndatas).1⟩

/-- `New` on thread `th`: objects that it allocates are constructed. -/
def new (σ : Pools T) (kind : PoolKind) (th : T) (ndatas : ℕ) : Pools T :=
  let r := (σ.pool kind th).getData ndatas
  let constructed (o : PoolObject T) : Bool :=
    o.kind = kind && o.owner = th && (σ.pool kind th).total ≤ o.index && o.index < r.2.total
  { pool := Function.update σ.pool kind (Function.update (σ.pool kind) th r.2)
    clock := fun o slot => if constructed o then .fresh else σ.clock o slot
    out := Function.update σ.out kind (Function.update (σ.out kind) th (r.1 :: σ.out kind th))
    touched := fun o slot => if constructed o then false else σ.touched o slot }

/-- `Delete` on thread `th`; no `Reset` touches a clock. -/
def delete (σ : Pools T) (th : T) (o : PoolObject T) : Pools T :=
  let D := σ.pool o.kind o.owner
  let D := if o.owner = th then D.returnOwnData o.index else D.returnData o.index
  { σ with
    pool := Function.update σ.pool o.kind (Function.update (σ.pool o.kind) o.owner D)
    out := Function.update σ.out o.kind
      (Function.update (σ.out o.kind) o.owner ((σ.out o.kind o.owner).erase o.index)) }

def setClock (σ : Pools T) (o : PoolObject T) (slot : SyncSlot) (c : SyncClock) (touched : Bool) :
    Pools T :=
  { σ with
    clock := Function.update σ.clock o (Function.update (σ.clock o) slot c)
    touched := Function.update σ.touched o (Function.update (σ.touched o) slot touched) }

def step (σ : Pools T) : PoolOp T → Pools T
  | .new kind th ndatas => σ.new kind th ndatas
  | .delete th o => σ.delete th o
  | .ompHBefore running o slot tc =>
    σ.setClock o slot ((σ.clock o slot).ompHBefore running tc) (running || σ.touched o slot)
  | .ompHAfter running o slot tc =>
    σ.setClock o slot ((σ.clock o slot).ompHAfter running tc).1 (running || σ.touched o slot)
  | .ompCReset running o slot =>
    σ.setClock o slot ((σ.clock o slot).ompCReset running) (!running && σ.touched o slot)

def InUse (σ : Pools T) (o : PoolObject T) : Prop := o.index ∈ σ.out o.kind o.owner

/-- Objects are used between their `New` and their `Delete`. -/
def Allowed (σ : Pools T) : PoolOp T → Prop
  | .new _ _ _ => True
  | .delete _ o => σ.InUse o
  | .ompHBefore _ o slot _ | .ompHAfter _ o slot _ | .ompCReset _ o slot =>
    σ.InUse o ∧ slot ∈ o.kind.slots

def machine (T : Type) [DecidableEq T] : Machine (Pools T) (PoolOp T) where
  step := step
  guard := Allowed

/-- An object is deleted after its clocks have been reset since their last arc, if there was
one. -/
def DeletesUntouched (σ : Pools T) : PoolOp T → Prop
  | .delete _ o => ∀ slot ∈ o.kind.slots, σ.touched o slot = false
  | _ => True

instance (σ : Pools T) (o : PoolObject T) : Decidable (σ.InUse o) :=
  inferInstanceAs (Decidable (_ ∈ _))

instance (σ : Pools T) : ∀ op, Decidable ((machine T).guard σ op)
  | .new _ _ _ => inferInstanceAs (Decidable True)
  | .delete _ o => inferInstanceAs (Decidable (σ.InUse o))
  | .ompHBefore _ o slot _ | .ompHAfter _ o slot _ | .ompCReset _ o slot =>
    inferInstanceAs (Decidable (σ.InUse o ∧ slot ∈ o.kind.slots))

instance (σ : Pools T) : ∀ op, Decidable (σ.DeletesUntouched op)
  | .delete _ o => inferInstanceAs (Decidable (∀ slot ∈ o.kind.slots, _))
  | .new _ _ _ | .ompHBefore _ _ _ _ | .ompHAfter _ _ _ _ | .ompCReset _ _ _ =>
    inferInstanceAs (Decidable True)

/-! ## What the pools keep -/

/-- Free objects and those in use are accounted for, a clock without an arc since its construction
or its last reset is as constructed, and free objects have only such clocks. -/
structure Inv (σ : Pools T) : Prop where
  accounts : ∀ kind th, (σ.pool kind th).toPool.Accounts (σ.out kind th)
  ogpu : ∀ o slot, o.index < (σ.pool o.kind o.owner).total → (σ.clock o slot).clocks .ogpu = {}
  fresh : ∀ o slot, o.index < (σ.pool o.kind o.owner).total → σ.touched o slot = false →
    σ.clock o slot = .fresh
  free : ∀ o, o.index ∈ (σ.pool o.kind o.owner).toPool.free → ∀ slot ∈ o.kind.slots,
    σ.touched o slot = false

omit [DecidableEq T] in
theorem inv_start (memory : PoolObject T → SyncSlot → SyncClock) : (start memory).Inv :=
  ⟨fun _ _ => Pool.accounts_empty, fun _ _ h => absurd h (Nat.not_lt_zero _),
    fun _ _ h => absurd h (Nat.not_lt_zero _), fun _ h => absurd h List.not_mem_nil⟩

/-- A reset leaves a clock as constructed. -/
theorem ompCReset_eq_fresh {s : SyncClock} (h : s.clocks .ogpu = {}) : s.ompCReset true = .fresh := by
  unfold SyncClock.ompCReset SyncClock.fresh
  simp only [Bool.not_true, Bool.false_eq_true, ↓reduceIte, SyncClock.mk.injEq, and_true]
  funext i
  cases i
  exacts [rfl, rfl, rfl, h]

section
variable {σ : Pools T} {o : PoolObject T} {slot : SyncSlot} {kind : PoolKind} {th : T} {n : ℕ}

theorem pool_new_of_ne {k : PoolKind} {q : T} (h : ¬ (k = kind ∧ q = th)) :
    (σ.new kind th n).pool k q = σ.pool k q ∧ (σ.new kind th n).out k q = σ.out k q := by
  unfold new
  by_cases hk : k = kind
  · subst hk
    have hq : q ≠ th := fun hq => h ⟨rfl, hq⟩
    simp [hq]
  · simp [hk]

theorem pool_new : (σ.new kind th n).pool kind th = ((σ.pool kind th).getData n).2 ∧
    (σ.new kind th n).out kind th = ((σ.pool kind th).getData n).1 :: σ.out kind th := by
  simp [new]

/-- The pool that `New` takes from, before it does. -/
def refilled (σ : Pools T) (kind : PoolKind) (th : T) (n : ℕ) : Pool :=
  (σ.pool kind th).toPool.refill (max 4 n)

theorem toPool_new : ((σ.new kind th n).pool kind th).toPool =
    ⟨(σ.refilled kind th n).free.tail, (σ.refilled kind th n).count⟩ := by
  have h := DataPool.toPool_getData n (σ.pool kind th)
  rw [pool_new.1, (Prod.mk.inj h).2]
  rfl

omit [DecidableEq T] in
theorem newObject_index : (σ.newObject kind th n).index = (σ.refilled kind th n).free.headD 0 :=
  (Prod.mk.inj (DataPool.toPool_getData n (σ.pool kind th))).1

theorem total_new : ((σ.new kind th n).pool kind th).total = (σ.refilled kind th n).count :=
  congrArg Pool.count toPool_new

/-- `New` allocates object `o`. -/
def Constructs (σ : Pools T) (kind : PoolKind) (th : T) (n : ℕ) (o : PoolObject T) : Prop :=
  (o.kind = kind ∧ o.owner = th) ∧ (σ.pool kind th).total ≤ o.index ∧
    o.index < (σ.refilled kind th n).count

theorem constructed_iff :
    (decide (o.kind = kind) && decide (o.owner = th) &&
      decide ((σ.pool kind th).total ≤ o.index) &&
      decide (o.index < ((σ.pool kind th).getData n).2.total)) = true ↔
    σ.Constructs kind th n o := by
  have h : ((σ.pool kind th).getData n).2.total = (σ.refilled kind th n).count := by
    rw [← total_new, pool_new.1]
  simp only [Bool.and_eq_true, decide_eq_true_eq, h, and_assoc, Constructs]

omit [DecidableEq T] in
theorem mem_refilled {i : ℕ} (h : i ∈ (σ.refilled kind th n).free) :
    i ∈ (σ.pool kind th).toPool.free ∨
      (σ.pool kind th).total ≤ i ∧ i < (σ.refilled kind th n).count := by
  unfold refilled Pool.refill at *
  split at h
  · rename_i hnil
    rw [if_pos hnil]
    simp only [Pool.grow, List.mem_append, List.mem_reverse, List.mem_range'_1] at h ⊢
    rcases h with h | h
    · exact .inr h
    · exact .inl h
  · exact .inl h

theorem clock_new (h : ¬ σ.Constructs kind th n o) :
    (σ.new kind th n).clock o slot = σ.clock o slot ∧
      (σ.new kind th n).touched o slot = σ.touched o slot := by
  rw [← constructed_iff] at h
  unfold new
  dsimp only
  rw [if_neg h, if_neg h]
  exact ⟨rfl, rfl⟩

theorem clock_constructed (h : σ.Constructs kind th n o) :
    (σ.new kind th n).clock o slot = .fresh ∧ (σ.new kind th n).touched o slot = false := by
  rw [← constructed_iff] at h
  unfold new
  dsimp only
  rw [if_pos h, if_pos h]
  exact ⟨rfl, rfl⟩

/-- An object that exists after `New` existed before, unless `New` constructed it. -/
theorem lt_total_of_new (ho : o.index < ((σ.new kind th n).pool o.kind o.owner).total)
    (h : ¬ σ.Constructs kind th n o) : o.index < (σ.pool o.kind o.owner).total := by
  by_cases hk : o.kind = kind ∧ o.owner = th
  · rw [hk.1, hk.2, total_new] at ho
    rw [hk.1, hk.2]
    by_contra hle
    exact h ⟨hk, not_lt.mp hle, ho⟩
  · rwa [(pool_new_of_ne hk).1] at ho

/-- What is in the refilled pool has untouched clocks after `New`. -/
theorem Inv.untouched_refilled (h : σ.Inv) (hk : o.kind = kind ∧ o.owner = th)
    (ho : o.index ∈ (σ.refilled kind th n).free) (hs : slot ∈ o.kind.slots) :
    (σ.new kind th n).touched o slot = false := by
  by_cases hnew : σ.Constructs kind th n o
  · exact (clock_constructed hnew).2
  · rw [(clock_new hnew).2]
    refine h.free o ?_ slot hs
    rw [hk.1, hk.2]
    exact (mem_refilled ho).resolve_right fun hr => hnew ⟨hk, hr⟩

theorem Inv.new (h : σ.Inv) (kind : PoolKind) (th : T) (n : ℕ) : (σ.new kind th n).Inv where
  accounts k q := by
    by_cases hk : k = kind ∧ q = th
    · obtain ⟨rfl, rfl⟩ := hk
      have hget := (h.accounts k q).get (n := max 4 n) (by omega)
      rw [← DataPool.toPool_getData] at hget
      rw [pool_new.1, pool_new.2]
      exact hget
    · rw [(pool_new_of_ne hk).1, (pool_new_of_ne hk).2]
      exact h.accounts k q
  ogpu o slot ho := by
    by_cases hnew : σ.Constructs kind th n o
    · rw [(clock_constructed hnew).1]
      rfl
    · rw [(clock_new hnew).1]
      exact h.ogpu o slot (lt_total_of_new ho hnew)
  fresh o slot ho htouched := by
    by_cases hnew : σ.Constructs kind th n o
    · exact (clock_constructed hnew).1
    · rw [(clock_new hnew).2] at htouched
      rw [(clock_new hnew).1]
      exact h.fresh o slot (lt_total_of_new ho hnew) htouched
  free o ho slot hs := by
    by_cases hk : o.kind = kind ∧ o.owner = th
    · rw [hk.1, hk.2, toPool_new] at ho
      exact h.untouched_refilled hk (List.mem_of_mem_tail ho) hs
    · have hnew : ¬ σ.Constructs kind th n o := fun hnew => hk hnew.1
      rw [(pool_new_of_ne hk).1] at ho
      rw [(clock_new hnew).2]
      exact h.free o ho slot hs

/-- A deleted object goes back to the pool that owns it, whichever thread deletes it. -/
theorem Inv.delete (h : σ.Inv) (th : T) (hout : σ.InUse o)
    (huntouched : ∀ slot ∈ o.kind.slots, σ.touched o slot = false) : (σ.delete th o).Inv := by
  obtain ⟨D, hD⟩ : ∃ D, D = if o.owner = th then (σ.pool o.kind o.owner).returnOwnData o.index
    else (σ.pool o.kind o.owner).returnData o.index := ⟨_, rfl⟩
  have htotal : D.total = (σ.pool o.kind o.owner).total := by
    rw [hD]; split <;> rfl
  have hfree : (o.index :: (σ.pool o.kind o.owner).toPool.free).Perm D.toPool.free := by
    rw [hD]
    split
    · exact .refl _
    · exact List.perm_middle.symm
  have hself : (σ.delete th o).pool o.kind o.owner = D ∧
      (σ.delete th o).out o.kind o.owner = (σ.out o.kind o.owner).erase o.index := by
    simp [Pools.delete, hD]
  have hother : ∀ k q, ¬ (k = o.kind ∧ q = o.owner) →
      (σ.delete th o).pool k q = σ.pool k q ∧ (σ.delete th o).out k q = σ.out k q := by
    intro k q hkq
    by_cases hk : k = o.kind
    · subst hk
      have hq : q ≠ o.owner := fun hq => hkq ⟨rfl, hq⟩
      simp [Pools.delete, hq]
    · simp [Pools.delete, hk]
  have hlt : ∀ o' : PoolObject T, o'.index < ((σ.delete th o).pool o'.kind o'.owner).total →
      o'.index < (σ.pool o'.kind o'.owner).total := by
    intro o' ho'
    by_cases hk : o'.kind = o.kind ∧ o'.owner = o.owner
    · rw [hk.1, hk.2, hself.1, htotal] at ho'
      rwa [hk.1, hk.2]
    · rwa [(hother _ _ hk).1] at ho'
  refine ⟨fun k q => ?_, fun o' slot ho' => h.ogpu o' slot (hlt o' ho'),
    fun o' slot ho' => h.fresh o' slot (hlt o' ho'), fun o' ho' slot hs => ?_⟩
  · by_cases hk : k = o.kind ∧ q = o.owner
    · obtain ⟨rfl, rfl⟩ := hk
      have hacc := (h.accounts o.kind o.owner).of_perm (List.perm_cons_erase hout)
      have hput := hacc.put.of_free_perm hfree
      rw [hself.1, hself.2]
      have heq : D.toPool = { (σ.pool o.kind o.owner).toPool.put o.index with
          free := D.toPool.free } := by
        simp only [DataPool.toPool, Pool.put, htotal]
      rw [heq]
      exact hput
    · rw [(hother k q hk).1, (hother k q hk).2]
      exact h.accounts k q
  · by_cases hk : o'.kind = o.kind ∧ o'.owner = o.owner
    · rw [hk.1, hk.2, hself.1, ← hfree.mem_iff] at ho'
      rcases List.mem_cons.mp ho' with hidx | ho'
      · obtain rfl : o' = o := by
          cases o; cases o'; simp_all
        exact huntouched slot hs
      · exact h.free o' (by rw [hk.1, hk.2]; exact ho') slot hs
    · rw [(hother _ _ hk).1] at ho'
      exact h.free o' ho' slot hs

theorem Inv.setClock (h : σ.Inv) (hout : σ.InUse o) {c : SyncClock} {touched : Bool}
    (hogpu : c.clocks .ogpu = {}) (hc : touched = false → c = .fresh) :
    (σ.setClock o slot c touched).Inv where
  accounts := h.accounts
  ogpu o' slot' ho' := by
    by_cases ho : o' = o
    · subst ho
      by_cases hs : slot' = slot
      · subst hs; simpa [Pools.setClock] using hogpu
      · simpa [Pools.setClock, hs] using h.ogpu o' slot' ho'
    · simpa [Pools.setClock, ho] using h.ogpu o' slot' ho'
  fresh o' slot' ho' htouched := by
    by_cases ho : o' = o
    · subst ho
      by_cases hs : slot' = slot
      · subst hs
        simpa [Pools.setClock] using hc (by simpa [Pools.setClock] using htouched)
      · simpa [Pools.setClock, hs] using
          h.fresh o' slot' ho' (by simpa [Pools.setClock, hs] using htouched)
    · simpa [Pools.setClock, ho] using
        h.fresh o' slot' ho' (by simpa [Pools.setClock, ho] using htouched)
  free o' ho' slot' hs' := by
    have ho : o' ≠ o := by
      rintro rfl
      exact (h.accounts _ _).not_mem_free hout ho'
    simpa [Pools.setClock, ho] using h.free o' ho' slot' hs'

theorem Inv.step {op : PoolOp T} (h : σ.Inv) (hop : (machine T).guard σ op)
    (hdel : σ.DeletesUntouched op) : (σ.step op).Inv := by
  have hlt : ∀ {o : PoolObject T}, σ.InUse o → o.index < (σ.pool o.kind o.owner).total :=
    fun {o} ho => (h.accounts o.kind o.owner).lt_count ho
  cases op with
  | new kind th n => exact h.new kind th n
  | delete th o => exact h.delete th hop hdel
  | ompHBefore running o slot tc =>
    refine h.setClock hop.1 ?_ fun ht => ?_
    · have hogpu := h.ogpu o slot (hlt hop.1)
      unfold SyncClock.ompHBefore SyncClock.checkArc
      split
      · exact hogpu
      · split <;> rename_i heq <;> split at heq <;> cases heq <;> exact hogpu
    · rw [Bool.or_eq_false_iff] at ht
      rw [ht.1]
      exact h.fresh o slot (hlt hop.1) ht.2
  | ompHAfter running o slot tc =>
    refine h.setClock hop.1 ?_ fun ht => ?_
    · have hogpu := h.ogpu o slot (hlt hop.1)
      cases running with
      | false => exact hogpu
      | true => rw [SyncClock.clocks_ompHAfter_fst]; exact hogpu
    · rw [Bool.or_eq_false_iff] at ht
      rw [ht.1]
      exact h.fresh o slot (hlt hop.1) ht.2
  | ompCReset running o slot =>
    have hogpu := h.ogpu o slot (hlt hop.1)
    refine h.setClock hop.1 ?_ fun ht => ?_
    · cases running <;> exact hogpu
    · cases running with
      | false => exact h.fresh o slot (hlt hop.1) (by simpa using ht)
      | true => exact ompCReset_eq_fresh hogpu

end

end Pools

/-- If every object is deleted with its clocks reset since their last arc, if any, then every object
that `New` returns, on any thread, is an object of its own and has its clocks as constructed. -/
theorem new_asConstructed {T : Type} [DecidableEq T] (memory : PoolObject T → SyncSlot → SyncClock)
    (ops : List (PoolOp T)) (hvalid : (Pools.machine T).Valid (.start memory) ops)
    (hdelete : (Pools.machine T).Along Pools.DeletesUntouched (.start memory) ops)
    (kind : PoolKind) (th : T) (ndatas : ℕ) :
    ¬ ((Pools.machine T).run (.start memory) ops).InUse
        (((Pools.machine T).run (.start memory) ops).newObject kind th ndatas) ∧
    ∀ slot ∈ kind.slots,
      (((Pools.machine T).run (.start memory) ops).new kind th ndatas).clock
        (((Pools.machine T).run (.start memory) ops).newObject kind th ndatas) slot = .fresh := by
  have hinv : ((Pools.machine T).run (.start memory) ops).Inv :=
    (Machine.along_and.mpr ⟨hvalid, hdelete⟩).inv (fun σ op hσ hop => hσ.step hop.1 hop.2)
      (Pools.inv_start memory)
  generalize (Pools.machine T).run (.start memory) ops = σ at *
  have hnew := hinv.new kind th ndatas
  have hout := (hnew.accounts kind th).out_nodup
  rw [Pools.pool_new.2] at hout
  refine ⟨(List.nodup_cons.mp hout).1, fun slot hs => ?_⟩
  have hmem : (σ.newObject kind th ndatas).index ∈ (σ.refilled kind th ndatas).free := by
    obtain ⟨i, is, heq⟩ := List.exists_cons_of_ne_nil
      (Pool.free_refill_ne_nil (n := max 4 ndatas) (by omega) (σ.pool kind th).toPool)
    rw [Pools.newObject_index]
    unfold Pools.refilled
    rw [heq]
    exact List.mem_cons_self
  refine hnew.fresh _ slot ?_ (hinv.untouched_refilled ⟨rfl, rfl⟩ hmem hs)
  refine (hnew.accounts kind th).lt_count ?_
  rw [Pools.pool_new.2]
  exact List.mem_cons_self

def workedFive : ThreadClock :=
  (ThreadClock.new.enterState true 1 .useful 1).enterState true 6 .omp 6

def resetGroup : List (PoolOp Bool) :=
  [.new .taskgroup false 0, .ompHBefore true ⟨.taskgroup, false, 3⟩ .ptr workedFive,
   .ompCReset true ⟨.taskgroup, false, 3⟩ .ptr, .delete true ⟨.taskgroup, false, 3⟩]

theorem new_asConstructed_resetGroup :
    (((Pools.machine Bool).run (.start fun _ _ => .fresh) resetGroup).new .taskgroup false 0).clock
      (((Pools.machine Bool).run (.start fun _ _ => .fresh) resetGroup).newObject .taskgroup false
        0) .ptr = .fresh :=
  (new_asConstructed (fun _ _ => .fresh) resetGroup (by decide +kernel) (by decide +kernel)
    .taskgroup false 0).2 .ptr (by decide)

def signalled (kind : PoolKind) (slot : SyncSlot) : List (PoolOp Bool) :=
  [.new kind false 0, .ompHBefore true ⟨kind, false, 3⟩ slot workedFive,
   .delete false ⟨kind, false, 3⟩]

/-- A clock of any type of object that was signalled in one use is not as constructed in the
next: when the owner of the object has deleted it, its next `New` returns the object with the 5
units in the clock. -/
theorem new_returns_signalled : ∀ kind : PoolKind, ∀ slot ∈ kind.slots,
    (Pools.machine Bool).Valid (.start fun _ _ => .fresh) (signalled kind slot) ∧
    ((Pools.machine Bool).run (.start fun _ _ => .fresh)
      (signalled kind slot)).newObject kind false 0 = ⟨kind, false, 3⟩ ∧
    ((((Pools.machine Bool).run (.start fun _ _ => .fresh) (signalled kind slot)).new kind
      false 0).clock ⟨kind, false, 3⟩ slot).syncState = .omp ∧
    (((((Pools.machine Bool).run (.start fun _ _ => .fresh) (signalled kind slot)).new kind
      false 0).clock ⟨kind, false, 3⟩ slot).clocks .useful).critical = 5 := by
  intro kind
  cases kind <;> decide +kernel

/-- `parallel_begin` signals `Barrier[1]`, and the next parallel region gets the same object. -/
theorem parallelData_returned_signalled :
    (Pools.machine Bool).Valid (.start fun _ _ => .fresh) (signalled .parallelData (.barrier 1)) ∧
    ((Pools.machine Bool).run (.start fun _ _ => .fresh)
      (signalled .parallelData (.barrier 1))).newObject .parallelData false 0 =
        ⟨.parallelData, false, 3⟩ ∧
    ((((Pools.machine Bool).run (.start fun _ _ => .fresh)
      (signalled .parallelData (.barrier 1))).new .parallelData false 0).clock
        ⟨.parallelData, false, 3⟩ (.barrier 1)).syncState = .omp ∧
    (((((Pools.machine Bool).run (.start fun _ _ => .fresh)
      (signalled .parallelData (.barrier 1))).new .parallelData false 0).clock
        ⟨.parallelData, false, 3⟩ (.barrier 1)).clocks .useful).critical = 5 :=
  new_returns_signalled .parallelData (.barrier 1) (by decide)

end CritPath
