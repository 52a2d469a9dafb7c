import CritPath.Clock.CriticalPath
import CritPath.Mpi.Exchange
import Mathlib.Data.Fintype.Prod
import Mathlib.Data.Fintype.Sum

/-!
# The critical path over threads and processes

A hybrid run has the threads and the sync clocks of all processes. Threads
synchronise inside a process over sync clocks, and processes communicate by MPI
operations: a thread hands its critical clocks to an operation
(`MpiHappensBefore`), and a thread that gets the result merges it
(`MpiHappensAfter`). The result is the maximum of what was handed in; a message
has one sender.

For the component `critical` an MPI operation is one more sync clock, and for the
component `proc` it is nothing (`asSync`). Either way the run is one of
`CritPath.Clock.System` (`Tracks`), whose clocks are longest paths: `critical`
over all processes and `proc` inside one.
-/

namespace CritPath

open Lib

/-- The clocks of all processes, and the maximum of what each MPI operation was given. -/
structure Hybrid (T S O : Type) where
  sys : Sys T S
  sent : O → Option IpcData

inductive HybridOp (T S O : Type) where
  | omp (op : Op T S)
  | mpiHappensBefore (o : O) (th : T)
  | mpiHappensAfter (o : O) (th : T)
  deriving DecidableEq

structure HybridEvent (T S O : Type) where
  time : ℚ
  op : HybridOp T S O

/-- `MPI_MAX` of what an operation has and what it gets. -/
def combine (sent : Option IpcData) (uc : IpcData) : IpcData :=
  match sent with
  | none => uc
  | some v => v.max uc

namespace Hybrid

variable {T S O : Type} [DecidableEq T] [DecidableEq S] [DecidableEq O]

def start (T S O : Type) : Hybrid T S O := ⟨.start T S, fun _ => none⟩

def step (h : Hybrid T S O) (e : HybridEvent T S O) : Hybrid T S O :=
  match e.op with
  | .omp op => { h with sys := h.sys.step true ⟨e.time, op⟩ }
  | .mpiHappensBefore o th =>
    let uc := combine (h.sent o) (h.sys.thread th).mpiHappensBefore
    { h with sent := Function.update h.sent o (some uc) }
  | .mpiHappensAfter o th =>
    match h.sent o with
    -- nothing has arrived, so the call does not return
    | none => h
    | some uc => { h with sys := h.sys.setThread th ((h.sys.thread th).mpiHappensAfter true uc) }

theorem step_merge {h : Hybrid T S O} {o : O} {uc : IpcData} (hs : h.sent o = some uc)
    (t : ℚ) (th : T) : h.step ⟨t, .mpiHappensAfter o th⟩ =
      { h with sys := h.sys.setThread th ((h.sys.thread th).mpiHappensAfter true uc) } := by
  simp [step, hs]

def machine (T S O : Type) [DecidableEq T] [DecidableEq S] [DecidableEq O] :
    Machine (Hybrid T S O) (HybridEvent T S O) where
  step := step

def after (es : List (HybridEvent T S O)) (k : ℕ) : Hybrid T S O :=
  (machine T S O).after (start T S O) es k

def stateAt (es : List (HybridEvent T S O)) (k : ℕ) (th : T) : ClockState :=
  ((after es k).sys.thread th).getState

end Hybrid

/-! ## Hybrid runs as runs of sync clocks -/

def Op.lift {T S : Type} (O : Type) : Op T S → Op T (S ⊕ O)
  | .enterState th cs => .enterState th cs
  | .exitState th => .exitState th
  | .setState th cs => .setState th cs
  | .ompHBefore s th => .ompHBefore (.inl s) th
  | .ompHAfter s th => .ompHAfter (.inl s) th
  | .ompCReset s => .ompCReset (.inl s)

section
variable {T S O : Type}

/-- Between processes an MPI operation carries clocks as a sync clock does; inside a process
(`global = false`) no arc leads to it. -/
def HybridOp.asSync (global : Bool) : HybridOp T S O → Op T (S ⊕ O)
  | .omp op => op.lift O
  | .mpiHappensBefore o th => if global then .ompHBefore (.inr o) th else .ompCReset (.inr o)
  | .mpiHappensAfter o th => if global then .ompHAfter (.inr o) th else .ompCReset (.inr o)

def asSync (global : Bool) (es : List (HybridEvent T S O)) : List (Event T (S ⊕ O)) :=
  es.map fun e => ⟨e.time, e.op.asSync global⟩

def pathComp (global : Bool) : Comp := if global then .critical else .proc

variable [DecidableEq T] [DecidableEq S] [DecidableEq O]

/-- Time order; arcs on a sync clock between two resets made in one state other than `STATE_INIT`;
MPI operations in `STATE_MPI`; and nothing merged before something was handed in. -/
structure HybridDisciplined (global : Bool) (es : List (HybridEvent T S O)) : Prop where
  sorted : es.Pairwise (·.time ≤ ·.time)
  agree : ∀ {s j k a b}, j < k → NoReset (asSync global es) (.inl s) j k →
    ArcAt (asSync global es) (.inl s) j a → ArcAt (asSync global es) (.inl s) k b →
    Hybrid.stateAt es j a = Hybrid.stateAt es k b
  omp : ∀ {s k a}, ArcAt (asSync global es) (.inl s) k a → Hybrid.stateAt es k a ≠ .init
  mpi : ∀ {o k a}, ArcAt (asSync global es) (.inr o) k a → Hybrid.stateAt es k a = .mpi
  preceded : ∀ {s k b}, OpAt (asSync global es) k (.ompHAfter s b) →
    ∃ j a, Held (asSync global es) s k j a

end

/-! ## The simulation -/

section
variable {T S O : Type}

structure Tracks (x : Comp) (h : Hybrid T S O) (σ : Sys T (S ⊕ O)) : Prop where
  stack : ∀ th, (σ.thread th).stack = (h.sys.thread th).stack
  thread : ∀ th i, i ≠ .ogpu →
    ((σ.thread th).clocks i).critical = ((h.sys.thread th).clocks i).get x
  syncState : ∀ s, (σ.sync (.inl s)).syncState = (h.sys.sync s).syncState
  sync : ∀ s i, i ≠ .ogpu →
    ((σ.sync (.inl s)).clocks i).critical = ((h.sys.sync s).clocks i).get x

/-- The sync clocks of the MPI operations hold what the operations were given. -/
def Carries (h : Hybrid T S O) (σ : Sys T (S ⊕ O)) : Prop :=
  ∀ o, match h.sent o with
    | none => (σ.sync (.inr o)).syncState = .init
    | some uc => (σ.sync (.inr o)).syncState ≠ .init ∧
        ∀ i, i ≠ .ogpu → ((σ.sync (.inr o)).clocks i).critical = uc.get i

namespace Tracks

variable {x : Comp} {h : Hybrid T S O} {σ : Sys T (S ⊕ O)}

theorem start (x : Comp) : Tracks x (.start T S O) (.start T (S ⊕ O)) where
  stack _ := rfl
  thread _ _ _ := by cases x <;> rfl
  syncState _ := rfl
  sync _ _ _ := by cases x <;> rfl

theorem getState (ht : Tracks x h σ) (th : T) :
    (σ.thread th).getState = (h.sys.thread th).getState := by
  unfold ThreadClock.getState
  rw [ht.stack]

theorem elapsed (ht : Tracks x h σ) (th : T) {i : ClockType} (hi : i ≠ .ogpu) (t : ℚ) :
    (σ.thread th).elapsed i .critical t = (h.sys.thread th).elapsed i x t := by
  unfold ThreadClock.elapsed
  rw [ht.getState]
  exact congrArg (· + _) (ht.thread th i hi)

variable [DecidableEq T]

theorem setThread (ht : Tracks x h σ) {th : T} {c c' : ThreadClock} (hstack : c'.stack = c.stack)
    (hval : ∀ i, i ≠ .ogpu → (c'.clocks i).critical = (c.clocks i).get x) :
    Tracks x { h with sys := h.sys.setThread th c } (σ.setThread th c') where
  stack a := by
    by_cases ha : a = th
    · subst ha; simpa using hstack
    · simpa [ha] using ht.stack a
  thread a i hi := by
    by_cases ha : a = th
    · subst ha; simpa using hval i hi
    · simpa [ha] using ht.thread a i hi
  syncState := ht.syncState
  sync := ht.sync

variable [DecidableEq S] [DecidableEq O]

omit [DecidableEq T] in
theorem setSync (ht : Tracks x h σ) {s : S} {c c' : SyncClock}
    (hstate : c'.syncState = c.syncState)
    (hval : ∀ i, i ≠ .ogpu → (c'.clocks i).critical = (c.clocks i).get x) :
    Tracks x { h with sys := h.sys.setSync s c } (σ.setSync (.inl s) c') where
  stack := ht.stack
  thread := ht.thread
  syncState a := by
    by_cases ha : a = s
    · subst ha; simpa using hstate
    · simpa [ha] using ht.syncState a
  sync a i hi := by
    by_cases ha : a = s
    · subst ha; simpa using hval i hi
    · simpa [ha] using ht.sync a i hi

theorem omp (ht : Tracks x h σ) (hx : x ≠ .thread) (t : ℚ) (op : Op T S) :
    Tracks x (h.step ⟨t, .omp op⟩) (σ.step true ⟨t, op.lift O⟩) := by
  cases op with
  | enterState th cs =>
    refine ht.setThread ?_ fun i hi => ?_
    · rw [ThreadClock.stack_enterState, ThreadClock.stack_enterState, ht.stack]
    · rw [ThreadClock.clocks_enterState, ThreadClock.clocks_enterState, CpClocks.get_addAll,
        ht.getState, ← ht.thread th i hi]
      rfl
  | exitState th =>
    have hstack : ((σ.thread th).exitState true t t).stack =
        ((h.sys.thread th).exitState true t t).stack := by
      rw [ThreadClock.stack_exitState, ThreadClock.stack_exitState, ht.stack, ht.getState]
    refine ht.setThread hstack fun i hi => ?_
    have hstate : ((σ.thread th).exitState true t t).getState =
        ((h.sys.thread th).exitState true t t).getState := by
      unfold ThreadClock.getState
      rw [hstack]
    rw [ThreadClock.clocks_exitState, ThreadClock.clocks_exitState, CpClocks.get_addAll,
      ht.getState, hstate, ← ht.thread th i hi]
    rfl
  | setState th cs =>
    refine ht.setThread ?_ fun i hi => ?_
    · simp [ThreadClock.setState, ht.stack]
    · rw [ThreadClock.clocks_setState, ThreadClock.clocks_setState, CpClocks.get_addAll,
        ht.getState, ← ht.thread th i hi]
      rfl
  | ompHBefore s th =>
    refine ht.setSync ?_ fun i hi => ?_
    · rw [SyncClock.syncState_ompHBefore, SyncClock.syncState_ompHBefore, ht.syncState, ht.getState]
    · have hst := ht.syncState s
      by_cases hinit : (h.sys.sync s).syncState = .init
      · rw [SyncClock.get_ompHBefore_first hinit hi,
          SyncClock.get_ompHBefore_first (hst.trans hinit) hi]
        exact ht.thread th i hi
      · have hval : (((σ.sync (.inl s)).ompHBefore true (σ.thread th)).clocks i).get .critical = _ :=
          SyncClock.get_ompHBefore_later (fun he => hinit (hst.symm.trans he)) hi (by decide)
        rw [SyncClock.get_ompHBefore_later hinit hi hx, ← ht.sync s i hi, ← ht.thread th i hi]
        exact hval
  | ompHAfter s th =>
    refine (ht.setSync ?_ fun i hi => ?_).setThread ?_ fun i hi => ?_
    · rw [SyncClock.syncState_ompHAfter, SyncClock.syncState_ompHAfter, ht.syncState, ht.getState]
    · rw [SyncClock.clocks_ompHAfter_fst, SyncClock.clocks_ompHAfter_fst]
      exact ht.sync s i hi
    · rw [SyncClock.stack_ompHAfter, SyncClock.stack_ompHAfter, ht.stack]
    · have hval : (((σ.sync (.inl s)).ompHAfter true (σ.thread th)).2.clocks i).get .critical = _ :=
        SyncClock.get_ompHAfter hi (by decide)
      rw [SyncClock.get_ompHAfter hi hx, ← ht.sync s i hi, ← ht.thread th i hi]
      exact hval
  | ompCReset s =>
    refine ht.setSync rfl fun i hi => ?_
    cases i with
    | useful | ompi | oomp => cases x <;> rfl
    | ogpu => exact absurd rfl hi

omit [DecidableEq T] in
theorem setSync_inr (ht : Tracks x h σ) (o : O) (c : SyncClock) :
    Tracks x h (σ.setSync (.inr o) c) where
  stack := ht.stack
  thread := ht.thread
  syncState s := by simpa using ht.syncState s
  sync s i hi := by simpa using ht.sync s i hi

end Tracks

variable [DecidableEq T] [DecidableEq S] [DecidableEq O] {h : Hybrid T S O} {σ : Sys T (S ⊕ O)}

theorem sync_inr_step_lift (σ : Sys T (S ⊕ O)) (t : ℚ) (op : Op T S) (o : O) :
    (σ.step true ⟨t, op.lift O⟩).sync (.inr o) = σ.sync (.inr o) := by
  cases op <;> simp [Sys.step, Op.lift]

theorem get_mpiHappensBefore (c : ThreadClock) {i : ClockType} (hi : i ≠ .ogpu) :
    c.mpiHappensBefore.get i = (c.clocks i).critical := by
  cases i with
  | useful | ompi | oomp => rfl
  | ogpu => exact absurd rfl hi

theorem get_max (v uc : IpcData) {i : ClockType} (hi : i ≠ .ogpu) :
    (v.max uc).get i = max (v.get i) (uc.get i) := by
  cases i with
  | useful | ompi | oomp => rfl
  | ogpu => exact absurd rfl hi

theorem get_mpiHappensAfter (c : ThreadClock) (uc : IpcData) {i : ClockType} (hi : i ≠ .ogpu) :
    ((c.mpiHappensAfter true uc).clocks i).critical = max (c.clocks i).critical (uc.get i) := by
  cases i with
  | useful | ompi | oomp => exact updateMaximum_eq _ _
  | ogpu => exact absurd rfl hi

theorem Carries.mpiHappensBefore (hc : Carries h σ) (ht : Tracks .critical h σ) (t : ℚ) (o : O)
    (th : T) (hinit : (h.sys.thread th).getState ≠ .init) :
    Carries (h.step ⟨t, .mpiHappensBefore o th⟩)
      (σ.setSync (.inr o) ((σ.sync (.inr o)).ompHBefore true (σ.thread th))) := by
  intro o'
  have hσ := hc o'
  by_cases ho : o' = o
  · subst ho
    have hth : ∀ i, i ≠ .ogpu → ((σ.thread th).clocks i).critical =
        (h.sys.thread th).mpiHappensBefore.get i := fun i hi =>
      (ht.thread th i hi).trans (get_mpiHappensBefore _ hi).symm
    simp only [Hybrid.step, Function.update_self, Sys.sync_setSync]
    rw [SyncClock.syncState_ompHBefore]
    cases hs : h.sent o' with
    | none =>
      -- the first one copies
      rw [hs] at hσ
      refine ⟨by rw [if_pos hσ, ht.getState]; exact hinit, fun i hi => ?_⟩
      rw [SyncClock.get_ompHBefore_first hσ hi]
      exact hth i hi
    | some uc =>
      rw [hs] at hσ
      refine ⟨by rw [if_neg hσ.1]; exact hσ.1, fun i hi => ?_⟩
      rw [combine, get_max _ _ hi, ← hσ.2 i hi, ← hth i hi]
      exact SyncClock.get_ompHBefore_later (x := .critical) hσ.1 hi (by decide)
  · simpa [Hybrid.step, ho] using hσ

theorem Tracks.mpiHappensAfter (ht : Tracks .critical h σ) (hc : Carries h σ) {o : O}
    {uc : IpcData} (hs : h.sent o = some uc) (th : T) :
    Tracks .critical
      { h with sys := h.sys.setThread th ((h.sys.thread th).mpiHappensAfter true uc) }
      ((σ.setSync (.inr o) ((σ.sync (.inr o)).ompHAfter true (σ.thread th)).1).setThread th
        ((σ.sync (.inr o)).ompHAfter true (σ.thread th)).2) := by
  have hσ := hc o
  rw [hs] at hσ
  refine (ht.setSync_inr o _).setThread ?_ fun i hi => ?_
  · rw [SyncClock.stack_ompHAfter, ThreadClock.stack_mpiHappensAfter, ht.stack]
  · have hth : _ = ((h.sys.thread th).clocks i).critical := ht.thread th i hi
    show _ = (((h.sys.thread th).mpiHappensAfter true uc).clocks i).critical
    rw [get_mpiHappensAfter _ _ hi, ← hσ.2 i hi, ← hth]
    exact SyncClock.get_ompHAfter (x := .critical) hi (by decide)

/-- Values are handed in outside `STATE_INIT` and merged once something was handed in. -/
def Hybrid.Ready (h : Hybrid T S O) (e : HybridEvent T S O) : Prop :=
  match e.op with
  | .omp _ => True
  | .mpiHappensBefore _ th => (h.sys.thread th).getState ≠ .init
  | .mpiHappensAfter o _ => h.sent o ≠ none

theorem Tracks.step_global (ht : Tracks .critical h σ) (hc : Carries h σ)
    {e : HybridEvent T S O} (hr : h.Ready e) :
    Tracks .critical (h.step e) (σ.step true ⟨e.time, e.op.asSync true⟩) ∧
      Carries (h.step e) (σ.step true ⟨e.time, e.op.asSync true⟩) := by
  obtain ⟨t, op⟩ := e
  cases op with
  | omp op =>
    refine ⟨ht.omp (by decide) t op, fun o => ?_⟩
    simp only [HybridOp.asSync, sync_inr_step_lift]
    exact hc o
  | mpiHappensBefore o th =>
    have hσ := ht.setSync_inr o ((σ.sync (.inr o)).ompHBefore true (σ.thread th))
    exact ⟨⟨hσ.stack, hσ.thread, hσ.syncState, hσ.sync⟩, hc.mpiHappensBefore ht t o th hr⟩
  | mpiHappensAfter o th =>
    obtain ⟨uc, hs⟩ := Option.ne_none_iff_exists'.mp hr
    rw [Hybrid.step_merge hs]
    refine ⟨ht.mpiHappensAfter hc hs th, fun o' => ?_⟩
    have hσ := hc o'
    by_cases ho : o' = o
    · subst ho
      rw [hs] at hσ
      simpa [Sys.step, HybridOp.asSync, SyncClock.syncState_ompHAfter, hσ.1, hs] using hσ.2
    · simpa [Sys.step, HybridOp.asSync, ho] using hσ

/-- Inside a process too, where merged values reach no component `proc`. -/
theorem Tracks.step_local (ht : Tracks .proc h σ) (e : HybridEvent T S O) :
    Tracks .proc (h.step e) (σ.step true ⟨e.time, e.op.asSync false⟩) := by
  obtain ⟨t, op⟩ := e
  cases op with
  | omp op => exact ht.omp (by decide) t op
  | mpiHappensBefore o th =>
    have hσ := ht.setSync_inr o ((σ.sync (.inr o)).ompCReset true)
    exact ⟨hσ.stack, hσ.thread, hσ.syncState, hσ.sync⟩
  | mpiHappensAfter o th =>
    have hσ := ht.setSync_inr o ((σ.sync (.inr o)).ompCReset true)
    cases hs : h.sent o with
    | none =>
      have hstep : h.step ⟨t, .mpiHappensAfter o th⟩ = h := by simp [Hybrid.step, hs]
      rw [hstep]
      exact hσ
    | some uc =>
      have hproc : ∀ i, (((h.sys.thread th).mpiHappensAfter true uc).clocks i).get .proc =
          ((h.sys.thread th).clocks i).get .proc := fun i => by cases i <;> rfl
      have hth : Tracks .proc
          { h with sys := h.sys.setThread th ((h.sys.thread th).mpiHappensAfter true uc) }
          ((σ.setSync (.inr o) ((σ.sync (.inr o)).ompCReset true)).setThread th (σ.thread th)) :=
        hσ.setThread (by simpa using ht.stack th) fun i hi => by
          rw [hproc]
          exact ht.thread th i hi
      rw [Hybrid.step_merge hs]
      simpa [Sys.setThread, Sys.step, HybridOp.asSync, Sys.setSync] using hth

def Follows (global : Bool) (h : Hybrid T S O) (σ : Sys T (S ⊕ O)) : Prop :=
  Tracks (pathComp global) h σ ∧ (global = true → Carries h σ)

theorem Follows.step {global : Bool} (hf : Follows global h σ) {e : HybridEvent T S O}
    (hr : global = true → h.Ready e) :
    Follows global (h.step e) (σ.step true ⟨e.time, e.op.asSync global⟩) := by
  cases global with
  | false => exact ⟨hf.1.step_local e, fun hg => by cases hg⟩
  | true =>
    obtain ⟨ht, hc⟩ := hf.1.step_global (hf.2 rfl) (hr rfl)
    exact ⟨ht, fun _ => hc⟩

end

/-! ## Whole runs -/

section
variable {T S O : Type} {global : Bool} {es : List (HybridEvent T S O)} {e : HybridEvent T S O}
  {k : ℕ}

theorem getElem?_asSync :
    (asSync global es)[k]? = es[k]?.map fun e => ⟨e.time, e.op.asSync global⟩ :=
  List.getElem?_map

theorem opAt_asSync (op : Op T (S ⊕ O)) :
    OpAt (asSync global es) k op ↔ ∃ e, es[k]? = some e ∧ e.op.asSync global = op := by
  simp [OpAt, getElem?_asSync]

variable [DecidableEq T] [DecidableEq S] [DecidableEq O]

theorem sent_step {h : Hybrid T S O} {o : O} (hs : h.sent o ≠ none) (e : HybridEvent T S O) :
    (h.step e).sent o ≠ none := by
  obtain ⟨t, op | ⟨o', th⟩ | ⟨o', th⟩⟩ := e
  · exact hs
  · by_cases ho : o = o'
    · subst ho; simp [Hybrid.step]
    · simpa [Hybrid.step, ho] using hs
  · simp only [Hybrid.step]
    split <;> exact hs

theorem sent_ne_none {o : O} {j : ℕ} {a : T}
    (h : OpAt (asSync true es) j (.ompHBefore (.inr o) a)) (hj : j < k) :
    (Hybrid.after es k).sent o ≠ none := by
  obtain ⟨e, he, hop⟩ := (opAt_asSync _).mp h
  induction k with
  | zero => omega
  | succ k ih =>
    unfold Hybrid.after at ih ⊢
    rcases Nat.lt_succ_iff_lt_or_eq.mp hj with hlt | rfl
    · cases hk : es[k]? with
      | none => rw [Machine.after_succ_of_none hk]; exact ih hlt
      | some e' => rw [Machine.after_succ hk]; exact sent_step (ih hlt) e'
    · rw [Machine.after_succ he]
      obtain ⟨t, op | ⟨o', th⟩ | ⟨o', th⟩⟩ := e
      · cases op <;> simp [HybridOp.asSync, Op.lift] at hop
      · simp only [HybridOp.asSync, if_true, Op.ompHBefore.injEq, Sum.inr.injEq] at hop
        obtain ⟨rfl, rfl⟩ := hop
        simp [Hybrid.machine, Hybrid.step]
      · simp [HybridOp.asSync] at hop

theorem HybridDisciplined.ready (hd : HybridDisciplined true es) (he : es[k]? = some e) :
    (Hybrid.after es k).Ready e := by
  have hat : OpAt (asSync true es) k (e.op.asSync true) := (opAt_asSync _).mpr ⟨e, he, rfl⟩
  obtain ⟨t, op | ⟨o, th⟩ | ⟨o, th⟩⟩ := e
  · trivial
  · have hmpi : ((Hybrid.after es k).sys.thread th).getState = .mpi := hd.mpi (.inl hat)
    simp [Hybrid.Ready, hmpi]
  · obtain ⟨j, a, hop, hlt, -⟩ := hd.preceded hat
    exact sent_ne_none hop hlt

theorem HybridDisciplined.follows (hd : HybridDisciplined global es) (k : ℕ) :
    Follows global (Hybrid.after es k) (after (asSync global es) k) := by
  induction k with
  | zero => exact ⟨.start _, fun _ _ => rfl⟩
  | succ k ih =>
    have hk : (asSync global es)[k]? = _ := getElem?_asSync
    cases he : es[k]? with
    | none =>
      rw [he] at hk
      unfold Hybrid.after
      rw [Machine.after_succ_of_none he, after_succ_of_none hk]
      exact ih
    | some e =>
      rw [he] at hk
      have hr : global = true → (Hybrid.after es k).Ready e := by
        rintro rfl
        exact hd.ready he
      unfold Hybrid.after at hr ⊢
      rw [Machine.after_succ he, after_succ hk]
      exact ih.step hr

theorem HybridDisciplined.stateAt_asSync (hd : HybridDisciplined global es) (k : ℕ) (th : T) :
    stateAt (asSync global es) k th = Hybrid.stateAt es k th :=
  (hd.follows k).1.getState th

theorem HybridDisciplined.ne_init (hd : HybridDisciplined global es) (s : S ⊕ O) (k : ℕ) (a : T)
    (h : ArcAt (asSync global es) s k a) : stateAt (asSync global es) k a ≠ .init := by
  rw [hd.stateAt_asSync]
  cases s with
  | inl s => exact hd.omp h
  | inr o => rw [hd.mpi h]; decide

theorem HybridDisciplined.disciplined (hd : HybridDisciplined global es) :
    Disciplined (asSync global es) where
  sorted := by
    unfold asSync
    rw [List.pairwise_map]
    exact hd.sorted
  agree {s j k a b} hlt hno hj hk := by
    rw [hd.stateAt_asSync, hd.stateAt_asSync]
    cases s with
    | inl s => exact hd.agree hlt hno hj hk
    | inr o => rw [hd.mpi hj, hd.mpi hk]
  preceded := hd.preceded

/-- Arcs inside a process in `STATE_OMP` agree; only positions in the run have to be looked at. -/
theorem HybridDisciplined.of_omp (hs : es.Pairwise (·.time ≤ ·.time))
    (homp : ∀ k < es.length, ∀ s a, ArcAt (asSync global es) (.inl s) k a →
      Hybrid.stateAt es k a = .omp)
    (hmpi : ∀ k < es.length, ∀ o a, ArcAt (asSync global es) (.inr o) k a →
      Hybrid.stateAt es k a = .mpi)
    (hprec : ∀ k < es.length, ∀ s b, OpAt (asSync global es) k (.ompHAfter s b) →
      ∃ j < k, ∃ a, Held (asSync global es) s k j a) : HybridDisciplined global es := by
  have hlen : (asSync global es).length = es.length := List.length_map _
  have homp' : ∀ {s k a}, ArcAt (asSync global es) (.inl s) k a →
      Hybrid.stateAt es k a = .omp := fun hk => homp _ (hlen ▸ hk.lt) _ _ hk
  constructor
  · exact hs
  · intro s j k a b _ _ hj hk
    rw [homp' hj, homp' hk]
  · intro s k a hk
    rw [homp' hk]
    decide
  · intro o k a hk
    exact hmpi k (hlen ▸ hk.lt) o a hk
  · intro s k b hk
    obtain ⟨j, -, a, h⟩ := hprec k (hlen ▸ hk.lt) s b hk
    exact ⟨j, a, h⟩

end

/-- In a disciplined run of threads and processes the critical component of a clock, with the
running time added, is the weight of the heaviest chain over sync clocks and MPI operations that
ends at the thread, and the `proc` component that of the heaviest chain over sync clocks alone. -/
theorem hybrid_isGreatest_chain {T S O : Type} [DecidableEq T] [DecidableEq S] [DecidableEq O]
    (es : List (HybridEvent T S O)) (global : Bool) (hd : HybridDisciplined global es)
    (i : ClockType) (hi : i ≠ .ogpu) (th : T) (t : ℚ) :
    IsGreatest {w | ChainTo (asSync global es) i th t w}
      (((Hybrid.after es es.length).sys.thread th).elapsed i (pathComp global) t) := by
  have hgr := (bellman hd.disciplined hi hd.ne_init).isGreatest_path (asSync global es).length th
  have hlen : (asSync global es).length = es.length := List.length_map _
  rw [← (hd.follows _).1.elapsed th hi, ← hlen, value_later]
  refine ⟨⟨_, hgr.1, rfl⟩, ?_⟩
  rintro _ ⟨x, hx, rfl⟩
  exact add_le_add_left (hgr.2 hx) _

def handoverSend : List (HybridEvent (Bool × Bool) Unit Unit) :=
  [⟨1, .omp (.enterState (false, false) .useful)⟩, ⟨3, .omp (.enterState (false, false) .omp)⟩,
   ⟨3, .omp (.enterState (false, true) .omp)⟩, ⟨3, .omp (.ompHBefore () (false, false))⟩,
   ⟨4, .omp (.ompHAfter () (false, true))⟩, ⟨4, .omp (.setState (false, true) .useful)⟩,
   ⟨7, .omp (.enterState (false, true) .mpi)⟩, ⟨7, .mpiHappensBefore () (false, true)⟩,
   ⟨7, .omp (.enterState (true, false) .mpi)⟩, ⟨8, .mpiHappensAfter () (true, false)⟩,
   ⟨8, .omp (.setState (true, false) .useful)⟩]

theorem hybrid_isGreatest_chain_handoverSend :
    IsGreatest {w | ChainTo (asSync true handoverSend) .useful (true, false) 9 w} 6 := by
  have h := hybrid_isGreatest_chain handoverSend true
    (.of_omp (by decide +kernel) (by decide +kernel) (by decide +kernel) (by decide +kernel))
    .useful (by decide) (true, false) 9
  have hval : ((Hybrid.after handoverSend handoverSend.length).sys.thread (true, false)).elapsed
      .useful (pathComp true) 9 = 6 := by decide +kernel
  rwa [hval] at h

end CritPath
