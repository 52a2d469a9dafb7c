import CritPath.Lib.Runs
import Mathlib.Data.List.Nodup
import Mathlib.Data.List.Perm.Basic

/-!
# Which pool a data object belongs to

The factories of requests and of messages, `rf` and `mf`, each have a pool of
`RequestData`: blocks of memory that the pool has allocated and a list of free
objects. The destructor of a pool destroys the free objects and frees the blocks.
A matched probe takes its object from `rf` and registers it in `mf`;
`MPI_Imrecv` makes it a request of `rf`, `MPI_Mrecv` returns it to the pool of
`mf`. No call takes an object out of the pool of `mf`.

Every call has one section on a pool, behind the lock of the pool; the calls of
several threads are any sequence of them.
-/

namespace CritPath.Tracking.PoolOwnership

open Lib

/-- A data object: the block of memory and its place there. -/
structure Addr where
  block : ℕ
  slot : ℕ
  deriving DecidableEq

/-- The free objects, the one returned last first, and the blocks. -/
structure DataPool where
  dataPointer : List Addr := []
  memory : List ℕ := []
  deriving DecidableEq

namespace DataPool

def newDatas (ndatas block : ℕ) (P : DataPool) : DataPool where
  dataPointer := ((List.range ndatas).map (Addr.mk block)).reverse ++ P.dataPointer
  memory := P.memory ++ [block]

/-- The object, the pool and the number of blocks allocated so far. -/
def getData (ndatas mallocs : ℕ) (P : DataPool) : Addr × DataPool × ℕ :=
  let r := if P.dataPointer = [] then (P.newDatas ndatas mallocs, mallocs + 1) else (P, mallocs)
  (r.1.dataPointer.headD ⟨0, 0⟩, { r.1 with dataPointer := r.1.dataPointer.tail }, r.2)

def returnData (a : Addr) (P : DataPool) : DataPool :=
  { P with dataPointer := a :: P.dataPointer }

end DataPool

/-- The pools, and the objects in use: of the predefined handles, in calls that have not made them a
request yet, of requests and of messages. -/
structure Pools where
  rf : DataPool := {}
  mf : DataPool := {}
  mallocs : ℕ := 0
  predefined : List Addr := []
  held : List Addr := []
  requests : List Addr := []
  messages : List Addr := []

inductive Op
  /-- `rf.initPredefined()`. -/
  | initPredefined
  /-- The constructor of a nonblocking or persistent operation: `rf.newData()`. -/
  | newData
  /-- Its destructor: `rf.newRequest(request, rData, persistent)`. -/
  | newRequest (a : Addr)
  | completeRequest (a : Addr) (persistent : Bool)
  | freeHandle (a : Addr)
  /-- `MPI_Mprobe`, and `MPI_Improbe` with a message: the destructor of `mpiMprobePB`. -/
  | mprobe
  /-- The constructor of `mpiRecvPB` for a message. -/
  | mrecv (a : Addr)
  /-- The constructor of `mpiIrecvPB` for a message. -/
  | imrecv (a : Addr)
  deriving DecidableEq

namespace Pools

def step (ndatas : ℕ) (σ : Pools) : Op → Pools
  | .initPredefined =>
    let r := σ.rf.getData ndatas σ.mallocs
    { σ with rf := r.2.1, mallocs := r.2.2, predefined := r.1 :: σ.predefined }
  | .newData =>
    let r := σ.rf.getData ndatas σ.mallocs
    { σ with rf := r.2.1, mallocs := r.2.2, held := r.1 :: σ.held }
  | .newRequest a => { σ with held := σ.held.erase a, requests := a :: σ.requests }
  | .completeRequest a persistent =>
    if persistent then σ
    else { σ with requests := σ.requests.erase a, rf := σ.rf.returnData a }
  | .freeHandle a => { σ with requests := σ.requests.erase a, rf := σ.rf.returnData a }
  | .mprobe =>
    let r := σ.rf.getData ndatas σ.mallocs
    { σ with rf := r.2.1, mallocs := r.2.2, messages := r.1 :: σ.messages }
  | .mrecv a => { σ with messages := σ.messages.erase a, mf := σ.mf.returnData a }
  | .imrecv a => { σ with messages := σ.messages.erase a, held := a :: σ.held }

/-- Calls are on objects that are there. -/
def Allowed (σ : Pools) : Op → Prop
  | .initPredefined | .newData | .mprobe => True
  | .newRequest a => a ∈ σ.held
  | .completeRequest a _ | .freeHandle a => a ∈ σ.requests
  | .mrecv a | .imrecv a => a ∈ σ.messages

instance (σ : Pools) : ∀ op, Decidable (σ.Allowed op)
  | .initPredefined | .newData | .mprobe => .isTrue trivial
  | .newRequest a => inferInstanceAs (Decidable (a ∈ σ.held))
  | .completeRequest a _ | .freeHandle a => inferInstanceAs (Decidable (a ∈ σ.requests))
  | .mrecv a | .imrecv a => inferInstanceAs (Decidable (a ∈ σ.messages))

/-- Every free object is in a block of its pool, and in one free list once. -/
structure Owned (σ : Pools) : Prop where
  rf : ∀ a ∈ σ.rf.dataPointer, a.block ∈ σ.rf.memory
  mf : ∀ a ∈ σ.mf.dataPointer, a.block ∈ σ.mf.memory
  once : (σ.rf.dataPointer ++ σ.mf.dataPointer).Nodup

/-- The destructor that runs second touches no memory that the first has freed. -/
def Destructible (first second : DataPool) : Prop :=
  ∀ a ∈ second.dataPointer, a.block ∉ first.memory

end Pools

def machine (ndatas : ℕ) : Machine Pools Op where
  step := Pools.step ndatas
  guard := Pools.Allowed

instance (ndatas : ℕ) (σ : Pools) (op : Op) : Decidable ((machine ndatas).guard σ op) :=
  inferInstanceAs (Decidable (σ.Allowed op))

/-! ## The objects of a pool -/

/-- The free objects and those in use (`out`) are distinct objects in the blocks of the pool. -/
structure DataPool.Tracks (P : DataPool) (mallocs : ℕ) (out : List Addr) : Prop where
  nodup : (P.dataPointer ++ out).Nodup
  mem : ∀ a ∈ P.dataPointer ++ out, a.block ∈ P.memory
  lt : ∀ b ∈ P.memory, b < mallocs

namespace DataPool.Tracks

variable {P : DataPool} {mallocs ndatas : ℕ} {out out' : List Addr} {a : Addr}

theorem of_perm (h : P.Tracks mallocs out) (hp : out.Perm out') : P.Tracks mallocs out' := by
  have hp' : (P.dataPointer ++ out).Perm (P.dataPointer ++ out') := hp.append_left _
  exact ⟨hp'.nodup h.nodup, fun a ha => h.mem a (hp'.mem_iff.mpr ha), h.lt⟩

theorem newDatas (h : P.Tracks mallocs out) (ndatas : ℕ) :
    (P.newDatas ndatas mallocs).Tracks (mallocs + 1) out := by
  have hnew : ∀ a ∈ ((List.range ndatas).map (Addr.mk mallocs)).reverse, a.block = mallocs := by
    intro a ha
    obtain ⟨i, -, rfl⟩ := List.mem_map.mp (List.mem_reverse.mp ha)
    rfl
  have hinj : Function.Injective (Addr.mk mallocs) := fun i j hij => (Addr.mk.inj hij).2
  refine ⟨?_, fun a ha => ?_, fun b hb => ?_⟩
  · rw [DataPool.newDatas, List.append_assoc]
    refine List.Nodup.append (List.nodup_reverse.mpr (List.nodup_range.map hinj)) h.nodup ?_
    intro a ha hold
    have hlt := h.lt _ (h.mem a hold)
    rw [hnew a ha] at hlt
    exact Nat.lt_irrefl _ hlt
  · rw [DataPool.newDatas, List.append_assoc] at ha
    rcases List.mem_append.mp ha with ha | ha
    · exact List.mem_append_right _ (List.mem_singleton.mpr (hnew a ha))
    · exact List.mem_append_left _ (h.mem a ha)
  · rcases List.mem_append.mp hb with hb | hb
    · exact Nat.lt_succ_of_lt (h.lt b hb)
    · rw [List.mem_singleton.mp hb]
      exact Nat.lt_succ_self _

theorem getData (h : P.Tracks mallocs out) (hn : 0 < ndatas) :
    (P.getData ndatas mallocs).2.1.Tracks (P.getData ndatas mallocs).2.2
      ((P.getData ndatas mallocs).1 :: out) := by
  have htake : ∀ {Q : DataPool} {k : ℕ}, Q.Tracks k out → Q.dataPointer ≠ [] →
      DataPool.Tracks { Q with dataPointer := Q.dataPointer.tail } k
        (Q.dataPointer.headD ⟨0, 0⟩ :: out) := by
    intro Q k hQ hne
    obtain ⟨a, free, hfree⟩ := List.exists_cons_of_ne_nil hne
    have hperm : (Q.dataPointer ++ out).Perm (free ++ a :: out) := by
      rw [hfree]
      exact List.perm_middle.symm
    simp only [hfree, List.headD_cons, List.tail_cons]
    exact ⟨hperm.nodup hQ.nodup, fun a' ha' => hQ.mem a' (hperm.mem_iff.mpr ha'), hQ.lt⟩
  unfold DataPool.getData
  split
  · rename_i hnil
    refine htake (h.newDatas ndatas) ?_
    simp [DataPool.newDatas, hnil]
    omega
  · exact htake h ‹_›

theorem returnData (h : P.Tracks mallocs (a :: out)) : (P.returnData a).Tracks mallocs out := by
  have hperm : (P.dataPointer ++ a :: out).Perm (a :: P.dataPointer ++ out) := List.perm_middle
  exact ⟨hperm.nodup h.nodup, fun a' ha' => h.mem a' (hperm.mem_iff.mpr ha'), h.lt⟩

end DataPool.Tracks

/-! ## Every run -/

namespace Pools

def out (σ : Pools) : List Addr :=
  σ.mf.dataPointer ++ (σ.predefined ++ (σ.held ++ (σ.requests ++ σ.messages)))

structure Inv (σ : Pools) : Prop where
  tracks : σ.rf.Tracks σ.mallocs σ.out
  memory : σ.mf.memory = []

theorem inv_init : Inv {} := ⟨⟨List.nodup_nil, by simp [out], by simp⟩, rfl⟩

variable {σ : Pools} {ndatas : ℕ}

theorem pull {a : Addr} {l l' : List Addr} (h : l.Perm (a :: l')) (before : List Addr) :
    (before ++ l).Perm (a :: (before ++ l')) :=
  (h.append_left before).trans List.perm_middle

theorem perm_held {a : Addr} (ha : a ∈ σ.held) :
    σ.out.Perm (a :: { σ with held := σ.held.erase a }.out) :=
  pull (pull ((List.perm_cons_erase ha).append_right _) _) _

theorem perm_requests {a : Addr} (ha : a ∈ σ.requests) :
    σ.out.Perm (a :: { σ with requests := σ.requests.erase a }.out) :=
  pull (pull (pull ((List.perm_cons_erase ha).append_right _) _) _) _

theorem perm_messages {a : Addr} (ha : a ∈ σ.messages) :
    σ.out.Perm (a :: { σ with messages := σ.messages.erase a }.out) :=
  pull (pull (pull (pull (List.perm_cons_erase ha) _) _) _) _

theorem Inv.step (hn : 0 < ndatas) (h : σ.Inv) {op : Op} (hal : σ.Allowed op) :
    (σ.step ndatas op).Inv := by
  have hget := h.tracks.getData hn
  cases op with
  | initPredefined => exact ⟨hget.of_perm (pull (.refl _) _).symm, h.memory⟩
  | newData => exact ⟨hget.of_perm (pull (pull (.refl _) _) _).symm, h.memory⟩
  | mprobe => exact ⟨hget.of_perm (pull (pull (pull (pull (.refl _) _) _) _) _).symm, h.memory⟩
  | newRequest a =>
    have hperm := (perm_held hal).trans (pull (pull (pull (.refl _) _) _) _).symm
    exact ⟨h.tracks.of_perm hperm, h.memory⟩
  | completeRequest a persistent =>
    cases persistent with
    | true => exact h
    | false => exact ⟨(h.tracks.of_perm (perm_requests hal)).returnData, h.memory⟩
  | freeHandle a => exact ⟨(h.tracks.of_perm (perm_requests hal)).returnData, h.memory⟩
  | mrecv a => exact ⟨h.tracks.of_perm (perm_messages hal), h.memory⟩
  | imrecv a =>
    have hperm := (perm_messages hal).trans (pull (pull (.refl _) _) _).symm
    exact ⟨h.tracks.of_perm hperm, h.memory⟩

/-- The free list of `mf` gets one object with every `MPI_Mrecv`. -/
theorem mf_step (op : Op) : (σ.step ndatas op).mf.dataPointer =
    match op with
    | .mrecv a => a :: σ.mf.dataPointer
    | _ => σ.mf.dataPointer := by
  cases op with
  | completeRequest a persistent => cases persistent <;> rfl
  | _ => rfl

/-- All free objects are objects of `rf`, so `mf` must not have any. -/
theorem Inv.owned_iff (h : σ.Inv) : σ.Owned ↔ σ.mf.dataPointer = [] := by
  constructor
  · intro ho
    refine List.eq_nil_iff_forall_not_mem.mpr fun a ha => ?_
    have hmem := ho.mf a ha
    rw [h.memory] at hmem
    cases hmem
  · intro hnil
    have hnodup := h.tracks.nodup
    refine ⟨fun a ha => h.tracks.mem a (List.mem_append_left _ ha), by simp [hnil], ?_⟩
    rw [hnil, List.append_nil]
    exact (List.nodup_append.mp hnodup).1

theorem Inv.destructible (h : σ.Inv) (ho : σ.Owned) :
    Destructible σ.rf σ.mf ∧ Destructible σ.mf σ.rf := by
  constructor
  · intro a ha
    rw [h.owned_iff.mp ho] at ha
    cases ha
  · intro a _
    rw [h.memory]
    exact List.not_mem_nil

end Pools

def Op.isMrecv : Op → Bool
  | .mrecv _ => true
  | _ => false

theorem mf_run (ndatas : ℕ) (σ : Pools) (ops : List Op) :
    ((machine ndatas).run σ ops).mf.dataPointer = [] ↔
      σ.mf.dataPointer = [] ∧ ∀ op ∈ ops, op.isMrecv = false := by
  induction ops generalizing σ with
  | nil => simp
  | cons op ops ih =>
    rw [Machine.run_cons, ih, List.forall_mem_cons, ← and_assoc]
    refine and_congr_left fun _ => ?_
    show (σ.step ndatas op).mf.dataPointer = [] ↔ _
    rw [Pools.mf_step]
    cases op <;> simp [Op.isMrecv]

/-- After every run of calls the free objects belong to their pools, and the pools can be destroyed
in either order, exactly if no message was received by `MPI_Mrecv`. -/
theorem owned_iff_no_mrecv {ndatas : ℕ} (hn : 0 < ndatas) (ops : List Op)
    (hv : (machine ndatas).Valid {} ops) :
    (((machine ndatas).run {} ops).Owned ∧
        Pools.Destructible ((machine ndatas).run {} ops).rf ((machine ndatas).run {} ops).mf ∧
        Pools.Destructible ((machine ndatas).run {} ops).mf ((machine ndatas).run {} ops).rf) ↔
      ∀ op ∈ ops, op.isMrecv = false := by
  have hinv := hv.inv (I := Pools.Inv) (fun σ op h hal => h.step hn hal) Pools.inv_init
  have hmf := mf_run ndatas {} ops
  rw [and_iff_left_of_imp hinv.destructible, hinv.owned_iff, hmf]
  exact and_iff_right rfl

/-- A message received by `MPI_Imrecv` and completed. -/
theorem owned_after_imrecv :
    ((machine 4).run {} [.mprobe, .imrecv ⟨0, 3⟩, .newRequest ⟨0, 3⟩,
      .completeRequest ⟨0, 3⟩ false]).Owned :=
  ((owned_iff_no_mrecv (by decide) _ (by decide)).mpr (by decide)).1

/-- A message received by `MPI_Mrecv`: the object of `rf` is in the free list of `mf`, and `rf`,
which is destroyed first, frees the block that it is in. -/
theorem mrecv_returns_to_other_pool :
    (machine 4).Valid {} [.mprobe, .mrecv ⟨0, 3⟩] ∧
      ((machine 4).run {} [.mprobe, .mrecv ⟨0, 3⟩]).mf = ⟨[⟨0, 3⟩], []⟩ ∧
      ¬ ((machine 4).run {} [.mprobe, .mrecv ⟨0, 3⟩]).Owned ∧
      ¬ Pools.Destructible ((machine 4).run {} [.mprobe, .mrecv ⟨0, 3⟩]).rf
        ((machine 4).run {} [.mprobe, .mrecv ⟨0, 3⟩]).mf := by
  have hmf : ((machine 4).run {} [.mprobe, .mrecv ⟨0, 3⟩]).mf = ⟨[⟨0, 3⟩], []⟩ := by decide
  have hmem : (⟨0, 3⟩ : Addr) ∈ ((machine 4).run {} [.mprobe, .mrecv ⟨0, 3⟩]).mf.dataPointer := by
    rw [hmf]
    exact List.mem_singleton.mpr rfl
  refine ⟨by decide, hmf, fun h => ?_, fun h => h _ hmem (by decide)⟩
  have hown := h.mf _ hmem
  rw [hmf] at hown
  cases hown

end CritPath.Tracking.PoolOwnership
