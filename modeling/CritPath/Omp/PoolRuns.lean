import CritPath.Omp.Pools

/-!
# A pool between its owner and other threads

`getData` is several steps of the owning thread: the test of its list, the test
of the counter `remote` without the lock, the locked section that swaps the two
lists or the allocation of new objects one by one, and the pop. Between any two
of them other threads may return objects in a locked section of their own. The
pools of all threads of one type of objects are run together; without
interruption a call is the `getData` of `DataPool` (`getData_uninterrupted`).
-/

namespace CritPath

open Lib

/-- `total - DataPointer.size() - RemoteDataPointer.size()`. -/
def DataPool.getMissing (D : DataPool) : ℤ :=
  D.total - D.dataPointer.length - D.remoteDataPointer.length

namespace PoolRuns

inductive Phase
  | idle
  /-- In `newDatas`, before the test of `remote`. -/
  | refill
  /-- Before the locked section. -/
  | swapping
  /-- In the loop, with `k` objects constructed, before `total += ndatas`. -/
  | filling (k : ℕ)
  /-- Before `DataPointer.back()`. -/
  | popping
  deriving DecidableEq

def Phase.uncounted : Phase → ℕ
  | .filling k => k
  | _ => 0

/-- A pool with the counter `remote`, the phase of its owner, and the objects handed out. -/
structure SharedPool extends DataPool where
  remote : ℕ := 0
  phase : Phase := .idle
  out : List ℕ := []

inductive PoolAct
  | begin
  | test
  | swap
  | push
  | count
  | pop
  | returnOwnData (o : ℕ)
  | returnData (o : ℕ)
  deriving DecidableEq

def PoolAct.byOwner : PoolAct → Bool
  | .returnData _ => false
  | _ => true

namespace SharedPool

/-- `ndatas` objects fit the page. -/
def step (ndatas : ℕ) (P : SharedPool) : PoolAct → SharedPool
  | .begin => { P with phase := if P.dataPointer = [] then .refill else .popping }
  | .test => { P with phase := if 0 < P.remote then .swapping else .filling 0 }
  | .swap =>
    { P with
      dataPointer := P.remoteDataPointer
      remoteDataPointer := P.dataPointer
      remote := 0
      phase := .popping }
  | .push =>
    { P with
      dataPointer := (P.total + P.phase.uncounted) :: P.dataPointer
      phase := .filling (P.phase.uncounted + 1) }
  | .count => { P with total := P.total + max 4 ndatas, phase := .popping }
  | .pop =>
    { P with
      dataPointer := P.dataPointer.tail
      phase := .idle
      out := P.dataPointer.headD 0 :: P.out }
  | .returnOwnData o =>
    { P with toDataPool := P.toDataPool.returnOwnData o, out := P.out.erase o }
  | .returnData o =>
    { P with
      toDataPool := P.toDataPool.returnData o
      remote := P.remote + 1
      out := P.out.erase o }

/-- The owner goes through its phases, and objects that are handed out are returned. -/
def Allowed (ndatas : ℕ) (P : SharedPool) : PoolAct → Prop
  | .begin => P.phase = .idle
  | .test => P.phase = .refill
  | .swap => P.phase = .swapping
  | .push => P.phase.uncounted < max 4 ndatas ∧ P.phase = .filling P.phase.uncounted
  | .count => P.phase = .filling (max 4 ndatas)
  | .pop => P.phase = .popping
  | .returnOwnData o => P.phase = .idle ∧ o ∈ P.out
  | .returnData o => o ∈ P.out

instance (ndatas : ℕ) (P : SharedPool) : ∀ act, Decidable (P.Allowed ndatas act)
  | .begin => inferInstanceAs (Decidable (P.phase = .idle))
  | .test => inferInstanceAs (Decidable (P.phase = .refill))
  | .swap => inferInstanceAs (Decidable (P.phase = .swapping))
  | .push => inferInstanceAs
      (Decidable (P.phase.uncounted < max 4 ndatas ∧ P.phase = .filling P.phase.uncounted))
  | .count => inferInstanceAs (Decidable (P.phase = .filling (max 4 ndatas)))
  | .pop => inferInstanceAs (Decidable (P.phase = .popping))
  | .returnOwnData o => inferInstanceAs (Decidable (P.phase = .idle ∧ o ∈ P.out))
  | .returnData o => inferInstanceAs (Decidable (o ∈ P.out))

def made (P : SharedPool) : ℕ := P.total + P.phase.uncounted

def free (P : SharedPool) : List ℕ := P.dataPointer ++ P.remoteDataPointer

/-- Every object made is handed out once or free once; the counters agree with the lists. -/
structure Conserved (P : SharedPool) : Prop where
  once : P.out.Nodup
  away : ∀ o ∈ P.out, o ∉ P.free
  returned : ∀ o < P.made, o ∉ P.out → P.free.count o = 1
  known : ∀ o ∈ P.free ++ P.out, o < P.made
  remote : P.remote = P.remoteDataPointer.length
  total : P.made = P.free.length + P.out.length
  missing : P.phase.uncounted = 0 → P.toDataPool.getMissing = P.out.length
  nonempty : P.phase = .popping → P.dataPointer ≠ []

end SharedPool

inductive Act (T : Type)
  | own (thread : T) (act : PoolAct)
  | returnData (thread owner : T) (o : ℕ)
  deriving DecidableEq

variable {T : Type} [DecidableEq T]

def step (ndatas : ℕ) (σ : T → SharedPool) : Act T → T → SharedPool
  | .own thread act => Function.update σ thread ((σ thread).step ndatas act)
  | .returnData _ owner o => Function.update σ owner ((σ owner).step ndatas (.returnData o))

/-- `Delete` calls `returnData` on the pools of other threads only. -/
def Allowed (ndatas : ℕ) (σ : T → SharedPool) : Act T → Prop
  | .own thread act => act.byOwner = true ∧ (σ thread).Allowed ndatas act
  | .returnData thread owner o => thread ≠ owner ∧ (σ owner).Allowed ndatas (.returnData o)

def machine (T : Type) [DecidableEq T] (ndatas : ℕ) : Machine (T → SharedPool) (Act T) where
  step := step ndatas
  guard := Allowed ndatas

instance (ndatas : ℕ) (σ : T → SharedPool) :
    ∀ act, Decidable ((machine T ndatas).guard σ act)
  | .own thread act =>
    inferInstanceAs (Decidable (act.byOwner = true ∧ (σ thread).Allowed ndatas act))
  | .returnData thread owner o =>
    inferInstanceAs (Decidable (thread ≠ owner ∧ (σ owner).Allowed ndatas (.returnData o)))

/-! ## One pool -/

namespace SharedPool

variable {P : SharedPool} {ndatas : ℕ}

/-- What a phase says about the lists. -/
def PhaseOk (P : SharedPool) : Prop :=
  match P.phase with
  | .idle => True
  | .refill => P.dataPointer = []
  | .swapping => P.dataPointer = [] ∧ P.remoteDataPointer ≠ []
  | .filling k => P.dataPointer.length = k
  | .popping => P.dataPointer ≠ []

structure Inv (P : SharedPool) : Prop where
  perm : (P.dataPointer ++ (P.remoteDataPointer ++ P.out)).Perm (List.range P.made)
  remote : P.remote = P.remoteDataPointer.length
  phase : P.PhaseOk

theorem inv_init : Inv {} := ⟨by simp [made, Phase.uncounted], rfl, trivial⟩

theorem Inv.conserved (h : P.Inv) : P.Conserved := by
  have hperm : (P.free ++ P.out).Perm (List.range P.made) := by
    rw [free, List.append_assoc]
    exact h.perm
  have hnodup : (P.free ++ P.out).Nodup := hperm.nodup_iff.mpr List.nodup_range
  have hmem : ∀ o, o ∈ P.free ++ P.out ↔ o < P.made := fun o => by
    rw [hperm.mem_iff, List.mem_range]
  have hlen : P.made = P.free.length + P.out.length := by
    have := hperm.length_eq
    rw [List.length_append, List.length_range] at this
    exact this.symm
  obtain ⟨hfree, hout, hdisj⟩ := List.nodup_append.mp hnodup
  refine ⟨hout, fun o ho hf => hdisj o hf o ho rfl, fun o hlt hnot => ?_,
    fun o ho => (hmem o).mp ho, h.remote, hlen, fun h0 => ?_, fun hp => ?_⟩
  · have hin := (List.mem_append.mp ((hmem o).mpr hlt)).resolve_right hnot
    exact List.count_eq_one_of_mem hfree hin
  · rw [made, h0, free, List.length_append] at hlen
    rw [DataPool.getMissing]
    omega
  · have hph := h.phase
    rwa [PhaseOk, hp] at hph

theorem perm_return {own remoteData out : List ℕ} {o : ℕ} (ho : o ∈ out) :
    (o :: own ++ (remoteData ++ out.erase o)).Perm (own ++ (remoteData ++ out)) ∧
      (own ++ (o :: remoteData ++ out.erase o)).Perm (own ++ (remoteData ++ out)) := by
  have hout : (o :: out.erase o).Perm out := (List.perm_cons_erase ho).symm
  have hremote : (o :: remoteData ++ out.erase o).Perm (remoteData ++ out) :=
    List.perm_middle.symm.trans (hout.append_left remoteData)
  exact ⟨List.perm_middle.symm.trans (hremote.append_left own), hremote.append_left own⟩

theorem Inv.step (h : P.Inv) {act : PoolAct} (hal : P.Allowed ndatas act) :
    (P.step ndatas act).Inv := by
  obtain ⟨⟨own, remoteData, total⟩, remote, phase, out⟩ := P
  obtain ⟨hperm, hremote, hphase⟩ := h
  simp only [made] at hperm
  cases act with
  | begin =>
    obtain rfl : phase = .idle := hal
    cases own with
    | nil => exact ⟨hperm, hremote, rfl⟩
    | cons o own => exact ⟨hperm, hremote, List.cons_ne_nil o own⟩
  | test =>
    obtain rfl : phase = .refill := hal
    obtain rfl : own = [] := hphase
    by_cases h0 : 0 < remote
    · simp only [SharedPool.step, if_pos h0]
      exact ⟨hperm, hremote, rfl, List.length_pos_iff.mp (hremote ▸ h0)⟩
    · simp only [SharedPool.step, if_neg h0]
      exact ⟨hperm, hremote, rfl⟩
  | swap =>
    obtain rfl : phase = .swapping := hal
    obtain ⟨rfl, hne⟩ : own = [] ∧ remoteData ≠ [] := hphase
    exact ⟨hperm, rfl, hne⟩
  | push =>
    obtain ⟨k, rfl⟩ : ∃ k, phase = .filling k := ⟨_, hal.2⟩
    refine ⟨?_, hremote, congrArg (· + 1) hphase⟩
    show ((total + k) :: own ++ (remoteData ++ out)).Perm (List.range (total + k + 1))
    rw [List.range_succ]
    exact (hperm.cons _).trans (List.perm_append_singleton _ _).symm
  | count =>
    obtain rfl : phase = .filling (max 4 ndatas) := hal
    refine ⟨hperm, hremote, ?_⟩
    have hlen : own.length = max 4 ndatas := hphase
    exact List.length_pos_iff.mp (by simp only [SharedPool.step]; omega)
  | pop =>
    obtain rfl : phase = .popping := hal
    obtain ⟨o, own, rfl⟩ := List.exists_cons_of_ne_nil (show own ≠ [] from hphase)
    refine ⟨?_, hremote, trivial⟩
    have hmove : (own ++ (remoteData ++ o :: out)).Perm (o :: own ++ (remoteData ++ out)) := by
      refine (List.Perm.append_left own List.perm_middle).trans List.perm_middle
    exact hmove.trans hperm
  | returnOwnData o =>
    obtain ⟨rfl, ho⟩ : phase = .idle ∧ o ∈ out := hal
    exact ⟨(perm_return ho).1.trans hperm, hremote, trivial⟩
  | returnData o =>
    refine ⟨(perm_return hal).2.trans hperm, congrArg (· + 1) hremote, ?_⟩
    cases phase with
    | idle => trivial
    | refill => exact hphase
    | swapping => exact ⟨hphase.1, List.cons_ne_nil _ _⟩
    | filling k => exact hphase
    | popping => exact hphase

/-! ## Whole calls -/

def getActs (ndatas : ℕ) (P : SharedPool) : List PoolAct :=
  if P.dataPointer ≠ [] then [.begin, .pop]
  else if 0 < P.remote then [.begin, .test, .swap, .pop]
  else [.begin, .test] ++ List.replicate (max 4 ndatas) .push ++ [.count, .pop]

theorem foldl_push (n k total : ℕ) (own remoteData : List ℕ) (remote : ℕ) (out : List ℕ) :
    (List.replicate n PoolAct.push).foldl (SharedPool.step ndatas)
        ⟨⟨own, remoteData, total⟩, remote, .filling k, out⟩ =
      ⟨⟨(List.range' (total + k) n).reverse ++ own, remoteData, total⟩, remote, .filling (k + n),
        out⟩ := by
  induction n generalizing k own with
  | zero => rfl
  | succ n ih =>
    have hstep : SharedPool.step ndatas ⟨⟨own, remoteData, total⟩, remote, .filling k, out⟩ .push =
        ⟨⟨(total + k) :: own, remoteData, total⟩, remote, .filling (k + 1), out⟩ := rfl
    rw [List.replicate_succ, List.foldl_cons, hstep, ih, List.range'_succ, List.reverse_cons,
      List.append_assoc, ← Nat.add_assoc, Nat.add_right_comm k 1 n]
    rfl

/-- Without interruption the steps are the call. -/
theorem getData_uninterrupted (h : P.Inv) (hidle : P.phase = .idle) :
    ((P.getActs ndatas).foldl (SharedPool.step ndatas) P).toDataPool =
        (P.toDataPool.getData ndatas).2 ∧
      ((P.getActs ndatas).foldl (SharedPool.step ndatas) P).out =
        (P.toDataPool.getData ndatas).1 :: P.out := by
  have hremote := h.remote
  obtain ⟨⟨own, remoteData, total⟩, remote, phase, out⟩ := P
  obtain rfl : phase = .idle := hidle
  obtain rfl : remote = remoteData.length := hremote
  cases own with
  | cons o own => exact ⟨rfl, rfl⟩
  | nil =>
    cases remoteData with
    | cons o remoteData => exact ⟨rfl, rfl⟩
    | nil =>
      have hacts : getActs ndatas ⟨⟨[], [], total⟩, 0, .idle, out⟩ =
          [.begin, .test] ++ List.replicate (max 4 ndatas) .push ++ [.count, .pop] := rfl
      have hstart : [PoolAct.begin, .test].foldl (SharedPool.step ndatas)
          ⟨⟨[], [], total⟩, 0, .idle, out⟩ = ⟨⟨[], [], total⟩, 0, .filling 0, out⟩ := rfl
      simp only [List.length_nil, hacts, List.foldl_append, hstart, foldl_push]
      exact ⟨rfl, rfl⟩

end SharedPool

/-! ## All pools -/

theorem inv_step {ndatas : ℕ} {σ : T → SharedPool} {act : Act T} (h : ∀ t, (σ t).Inv)
    (hal : Allowed ndatas σ act) : ∀ t, (step ndatas σ act t).Inv := by
  cases act with
  | own thread act =>
    exact (Function.forall_update_iff σ (p := fun _ P => P.Inv)).mpr
      ⟨(h thread).step hal.2, fun t _ => h t⟩
  | returnData thread owner o =>
    exact (Function.forall_update_iff σ (p := fun _ P => P.Inv)).mpr
      ⟨(h owner).step hal.2, fun t _ => h t⟩

/-- In every interleaving of the threads, every pool conserves its objects. -/
theorem pools_conserve (ndatas : ℕ) (acts : List (Act T))
    (hv : (machine T ndatas).Valid (fun _ => {}) acts) :
    ∀ t, ((machine T ndatas).run (fun _ => {}) acts t).Conserved := by
  have h := hv.inv (I := fun σ => ∀ t, (σ t).Inv) (fun σ act h hal => inv_step h hal)
    fun _ => SharedPool.inv_init
  exact fun t => (h t).conserved

def refilling : List (Act Bool) :=
  [.own true .begin, .own true .test] ++ List.replicate 4 (.own true .push) ++
    [.own true .count, .own true .pop, .own true .begin, .returnData false true 3]

theorem pools_conserve_refilling :
    ((machine Bool 1).run (fun _ => {}) refilling true).Conserved :=
  pools_conserve 1 refilling (by decide) true

end PoolRuns

end CritPath
