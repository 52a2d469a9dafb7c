import CritPath.Tracking.Factories
import Mathlib.Data.List.Nodup
import Mathlib.Data.List.Perm.Subperm
import Mathlib.Data.List.Range
import Mathlib.Data.Int.Order.Basic

/-!
# Completion wrappers

`MPI_Wait`, `MPI_Test` and their variants for arrays: they look up the MPI
handles of the requests, make the PMPI call and complete the requests that it
reports. An array of the application is memory, and `Frame` notes at which
indices the wrapper accesses it and which requests it completes. What the PMPI
call reports is part of the `Completion`; `Permitted` says what MPI lets it
report about requests of which some are active.
-/

namespace CritPath.Tracking

/-- What the wrappers read of the requests, and the MPI library. -/
structure Requests (M S : Type) where
  undefined : ℤ
  undefined_neg : undefined < 0
  /-- `MPI_ERROR` of the status is `MPI_ERR_PENDING`: neither completed nor failed. -/
  pending : S → Bool
  persistent : ℕ → Bool
  handle : Option ℕ → M

inductive Arr where
  | requests
  | myReqs
  | statuses
  deriving DecidableEq

/-- A call of `completeRequest`: the index at which the request was read, and the arguments. The
overload without `mpi_req` has no handle, and `MPI_STATUS_IGNORE` is no status. -/
structure Completed (M S : Type) where
  index : ℤ
  request : Option ℕ
  handle : Option M
  status : Option S
  deriving DecidableEq

/-- The memory of a wrapper, and what it has done. -/
structure Frame (M S : Type) where
  requests : ℤ → Option ℕ
  myReqs : ℤ → M
  accessed : List (Arr × ℤ) := []
  completed : List (Completed M S) := []

structure Entry (S : Type) where
  index : ℤ
  /-- The request is in an array, next to `myReqs`. -/
  inArray : Bool := true
  /-- The index in `array_of_statuses`, for the calls that have one. -/
  statusAt : Option ℕ := none
  status : Option S

def Entry.accesses {S : Type} (e : Entry S) : List (Arr × ℤ) :=
  (.requests, e.index) :: (if e.inArray then [(.myReqs, e.index)] else []) ++
    (e.statusAt.map fun (i : ℕ) => (Arr.statuses, (i : ℤ))).toList

namespace Frame

variable {M S : Type} (R : Requests M S)

/-- The loop that fills `myReqs`. -/
def getHandles (count : ℕ) (σ : Frame M S) : Frame M S :=
  { σ with
    myReqs := fun k => if 0 ≤ k ∧ k < count then R.handle (σ.requests k) else σ.myReqs k
    accessed := σ.accessed ++
      (List.range count).flatMap fun (i : ℕ) => [(.requests, (i : ℤ)), (.myReqs, (i : ℤ))] }

/-- The PMPI call leaves `handles` in `myReqs`. -/
def pmpi (handles : ℤ → M) (σ : Frame M S) : Frame M S := { σ with myReqs := handles }

end Frame

/-- The result of `completeRequest`. -/
def Requests.returned {M S : Type} (R : Requests M S) : Option ℕ → Option ℕ
  | none => none
  | some o => if R.persistent o then some o else none

section
variable {M C V S : Type} (B : Library M C V S)

/-- Both factories return what `Requests.returned` says. -/
theorem PointerFactory.fst_completeRequestWith (R : Requests M S) (f : PointerFactory M C V S)
    (hR : ∀ o, R.persistent o = (f.store.data o).persistent) (req : Option ℕ) (m : M) (status : S) :
    (f.completeRequestWith B req m status).1 = R.returned req := by
  cases req with
  | none => rfl
  | some o =>
    have hpers : (((f.setHandle (some o) m).store.data o).persistent) = R.persistent o := by
      simp [setHandle, Store.modify, hR]
    simp only [completeRequestWith, completeRequest, hpers, Requests.returned]
    split <;> rfl

theorem IntFactory.fst_completeRequestWith (R : Requests M S) (f : IntFactory M C V S) {h o : ℕ}
    (hR : R.persistent h = (f.store.data o).persistent) (ho : f.table.dataTable h = some o) (m : M)
    (status : S) : (f.completeRequestWith B (some h) m status).1 = R.returned (some h) := by
  simp only [completeRequestWith, onObject_some ho, finish, Requests.returned, hR]
  split <;> rfl

end

namespace Frame

variable {M S : Type} (R : Requests M S)

/-- `array_of_requests[k] = rf.completeRequest(array_of_requests[k], ...)`. -/
def complete (e : Entry S) (σ : Frame M S) : Frame M S :=
  { σ with
    requests := Function.update σ.requests e.index (R.returned (σ.requests e.index))
    accessed := σ.accessed ++ e.accesses
    completed := σ.completed ++ [⟨e.index, σ.requests e.index,
      if e.inArray then some (σ.myReqs e.index) else none, e.status⟩] }

def completeAll (es : List (Entry S)) (σ : Frame M S) : Frame M S :=
  es.foldl (fun σ e => σ.complete R e) σ

end Frame

/-! ## The wrappers -/

section Wrappers

variable {M S : Type} (R : Requests M S) (ignored : Bool) (handles : ℤ → M)

/-- The status that a wrapper hands on. With `tmp` it has one of its own to take the place of an
ignored one. -/
def statusArg (tmp : Bool) (status : S) : Option S := if ignored && !tmp then none else some status

def mpiWait (status : S) (σ : Frame M S) : Frame M S :=
  σ.complete R ⟨0, false, none, statusArg ignored true status⟩

def mpiWaitall (count : ℕ) (statuses : ℕ → S) (σ : Frame M S) : Frame M S :=
  ((σ.getHandles R count).pmpi handles).completeAll R
    ((List.range count).map fun (i : ℕ) => ⟨i, true, some i, statusArg ignored true (statuses i)⟩)

def mpiWaitany (count : ℕ) (indx : ℤ) (status : S) (σ : Frame M S) : Frame M S :=
  ((σ.getHandles R count).pmpi handles).complete R ⟨indx, true, none, statusArg ignored true status⟩

def mpiWaitsome (incount : ℕ) (outcount : ℤ) (indices : ℕ → ℤ) (statuses : ℕ → S)
    (σ : Frame M S) : Frame M S :=
  ((σ.getHandles R incount).pmpi handles).completeAll R
    -- `for (int i = 0; i < *outcount; i++)`
    ((List.range outcount.toNat).map fun i =>
      ⟨indices i, true, some i, statusArg ignored true (statuses i)⟩)

/-- `MPI_Test` has no status of its own. -/
def mpiTest (flag : Bool) (status : S) (σ : Frame M S) : Frame M S :=
  if flag then σ.complete R ⟨0, false, none, statusArg ignored false status⟩ else σ

def mpiTestall (count : ℕ) (flag : Bool) (statuses : ℕ → S) (σ : Frame M S) : Frame M S :=
  let σ := (σ.getHandles R count).pmpi handles
  if flag then
    σ.completeAll R
      ((List.range count).map fun (i : ℕ) => ⟨i, true, some i, statusArg ignored true (statuses i)⟩)
  else σ

def mpiTestany (count : ℕ) (indx : ℤ) (flag : Bool) (status : S) (σ : Frame M S) : Frame M S :=
  let σ := (σ.getHandles R count).pmpi handles
  if flag then σ.complete R ⟨indx, true, none, statusArg ignored true status⟩ else σ

def mpiTestsome (incount : ℕ) (outcount : ℤ) (indices : ℕ → ℤ) (statuses : ℕ → S)
    (σ : Frame M S) : Frame M S :=
  ((σ.getHandles R incount).pmpi handles).completeAll R
    ((List.range outcount.toNat).map fun i =>
      ⟨indices i, true, some i, statusArg ignored true (statuses i)⟩)

end Wrappers

inductive Completion (S : Type) where
  | wait (status : S)
  | waitall (count : ℕ) (statuses : ℕ → S)
  | waitany (count : ℕ) (indx : ℤ) (status : S)
  | waitsome (incount : ℕ) (outcount : ℤ) (indices : ℕ → ℤ) (statuses : ℕ → S)
  | test (flag : Bool) (status : S)
  | testall (count : ℕ) (flag : Bool) (statuses : ℕ → S)
  | testany (count : ℕ) (indx : ℤ) (flag : Bool) (status : S)
  | testsome (incount : ℕ) (outcount : ℤ) (indices : ℕ → ℤ) (statuses : ℕ → S)

namespace Completion

variable {M S : Type}

def exec (R : Requests M S) (ignored : Bool) (handles : ℤ → M) : Completion S → Frame M S → Frame M S
  | .wait status => mpiWait R ignored status
  | .waitall count statuses => mpiWaitall R ignored handles count statuses
  | .waitany count indx status => mpiWaitany R ignored handles count indx status
  | .waitsome incount outcount indices statuses =>
    mpiWaitsome R ignored handles incount outcount indices statuses
  | .test flag status => mpiTest R ignored flag status
  | .testall count flag statuses => mpiTestall R ignored handles count flag statuses
  | .testany count indx flag status => mpiTestany R ignored handles count indx flag status
  | .testsome incount outcount indices statuses =>
    mpiTestsome R ignored handles incount outcount indices statuses

def count : Completion S → ℕ
  | .wait _ | .test _ _ => 1
  | .waitall count _ | .waitany count _ _ | .waitsome count _ _ _ | .testall count _ _
  | .testany count _ _ _ | .testsome count _ _ _ => count

/-! ## What MPI reports -/

section
variable (R : Requests M S) (active : ℕ → Bool)

/-- The report of a call that completes any one of the requests. -/
def PermittedAny (count : ℕ) (indx : ℤ) : Prop :=
  (indx = R.undefined ∧ ∀ k < count, active k = false) ∨ ∃ k < count, indx = k ∧ active k = true

/-- The report of a call that completes some of the requests. -/
def PermittedSome (count : ℕ) (outcount : ℤ) (indices : ℕ → ℤ) : Prop :=
  (outcount = R.undefined ∧ ∀ k < count, active k = false) ∨
  ∃ ks : List ℕ, outcount = ks.length ∧ ks.Nodup ∧ (∀ k ∈ ks, k < count ∧ active k = true) ∧
    ∀ (i k : ℕ), ks[i]? = some k → indices i = k

/-- Only an active request is pending. -/
def PermittedAll (count : ℕ) (statuses : ℕ → S) : Prop :=
  ∀ k < count, R.pending (statuses k) = true → active k = true

/-- What the PMPI call may report, if the requests at the indices in `active` are active. -/
def Permitted : Completion S → Prop
  | .wait _ => True
  | .waitall count statuses => PermittedAll R active count statuses
  | .waitany count indx _ => PermittedAny R active count indx
  | .waitsome incount outcount indices _ =>
    PermittedSome R active incount outcount indices ∧ outcount ≠ 0
  | .test flag _ => flag = false → active 0 = true
  | .testall count flag statuses =>
    if flag then PermittedAll R active count statuses else ∃ k < count, active k = true
  | .testany count indx flag _ =>
    if flag then PermittedAny R active count indx else ∃ k < count, active k = true
  | .testsome incount outcount indices _ => PermittedSome R active incount outcount indices

/-- The status of the request at index `k`, if the call reports that it has completed. -/
def reported : Completion S → ℕ → Option S
  | .wait status, k => if k = 0 ∧ active 0 = true then some status else none
  | .waitall count statuses, k =>
    if k < count ∧ active k = true ∧ R.pending (statuses k) = false then some (statuses k) else none
  | .waitany _ indx status, k => if indx = k then some status else none
  | .waitsome _ outcount indices statuses, k | .testsome _ outcount indices statuses, k =>
    ((List.range outcount.toNat).find? fun i => indices i = k).map statuses
  | .test flag status, k => if flag = true ∧ k = 0 ∧ active 0 = true then some status else none
  | .testall count flag statuses, k =>
    if flag = true ∧ k < count ∧ active k = true ∧ R.pending (statuses k) = false then
      some (statuses k)
    else none
  | .testany _ indx flag status, k => if flag = true ∧ indx = k then some status else none

/-- Requests that are not active are null or persistent. -/
def Settled (c : Completion S) (σ : Frame M S) : Prop :=
  ∀ k < c.count, active k = false → R.returned (σ.requests k) = σ.requests k

/-- The wrapper stays inside the arrays, completes what was reported and no other active request, and
leaves the rest of the array alone. -/
structure Correct (c : Completion S) (σ σ' : Frame M S) : Prop where
  inBounds : ∀ a ∈ σ'.accessed, 0 ≤ a.2 ∧ a.2 < c.count
  once : ∀ k < c.count, ∀ s, c.reported R active k = some s →
    (σ'.completed.filter fun d => d.index = (k : ℤ)).map (fun d => (d.request, d.status)) =
      [(σ.requests k, some s)]
  noOther : ∀ k < c.count, active k = true → c.reported R active k = none →
    ∀ d ∈ σ'.completed, d.index ≠ (k : ℤ)
  others : ∀ k : ℤ, (∀ n : ℕ, (n : ℤ) = k → c.reported R active n = none) →
    σ'.requests k = σ.requests k

/-- There is an active request to report for calls that report one, none of the requests is pending
in an error report on all of them, and `MPI_Test` has a status to hand on. -/
def Regular (ignored : Bool) : Completion S → Prop
  | .waitany count _ _ | .testany count _ _ _ => ∃ k < count, active k = true
  | .waitall count statuses => ∀ k < count, R.pending (statuses k) = false
  | .testall count flag statuses => flag = true → ∀ k < count, R.pending (statuses k) = false
  | .test flag _ => flag = true → active 0 = true → ignored = false
  | .wait _ | .waitsome _ _ _ _ | .testsome _ _ _ _ => True

end

end Completion

/-! ## A loop of completions -/

namespace Frame

variable {M S : Type} {R : Requests M S} {σ : Frame M S} {es : List (Entry S)}

theorem accessed_completeAll :
    (σ.completeAll R es).accessed = σ.accessed ++ es.flatMap Entry.accesses := by
  induction es generalizing σ with
  | nil => simp [completeAll]
  | cons e es ih =>
    show ((σ.complete R e).completeAll R es).accessed = _
    rw [ih, List.flatMap_cons, ← List.append_assoc]
    rfl

theorem requests_completeAll_of_notMem {k : ℤ} (hk : k ∉ es.map Entry.index) :
    (σ.completeAll R es).requests k = σ.requests k := by
  induction es generalizing σ with
  | nil => rfl
  | cons e es ih =>
    rw [List.map_cons, List.mem_cons, not_or] at hk
    exact (ih hk.2).trans (Function.update_of_ne hk.1 ..)

theorem requests_completeAll_of_mem (hnd : (es.map Entry.index).Nodup) {e : Entry S} (he : e ∈ es) :
    (σ.completeAll R es).requests e.index = R.returned (σ.requests e.index) := by
  induction es generalizing σ with
  | nil => cases he
  | cons e' es ih =>
    obtain ⟨hnot, hnd⟩ := List.nodup_cons.mp hnd
    show ((σ.complete R e').completeAll R es).requests e.index = _
    rcases List.mem_cons.mp he with rfl | he
    · rw [requests_completeAll_of_notMem hnot]
      exact Function.update_self ..
    · have hne : e.index ≠ e'.index := fun heq => hnot (heq ▸ List.mem_map_of_mem he)
      rw [ih hnd he]
      exact congrArg R.returned (Function.update_of_ne hne ..)

theorem filter_index (hnd : (es.map Entry.index).Nodup) {e : Entry S} (he : e ∈ es) :
    es.filter (fun e' => e'.index = e.index) = [e] := by
  induction es with
  | nil => cases he
  | cons e' es ih =>
    obtain ⟨hnot, hnd⟩ := List.nodup_cons.mp hnd
    rcases List.mem_cons.mp he with rfl | he
    · have hrest : es.filter (fun e' => e'.index = e.index) = [] := by
        rw [List.filter_eq_nil_iff]
        intro e' he' heq
        exact hnot (of_decide_eq_true heq ▸ List.mem_map_of_mem he')
      rw [List.filter_cons_of_pos (by simp), hrest]
    · have hne : e'.index ≠ e.index := fun heq => hnot (heq ▸ List.mem_map_of_mem he)
      rw [List.filter_cons_of_neg (by simpa using hne), ih hnd he]

def call (σ : Frame M S) (e : Entry S) : Completed M S :=
  ⟨e.index, σ.requests e.index, if e.inArray then some (σ.myReqs e.index) else none, e.status⟩

theorem completed_completeAll (hnd : (es.map Entry.index).Nodup) :
    (σ.completeAll R es).completed = σ.completed ++ es.map σ.call := by
  induction es generalizing σ with
  | nil => simp [completeAll]
  | cons e es ih =>
    obtain ⟨hnot, hnd⟩ := List.nodup_cons.mp hnd
    show ((σ.complete R e).completeAll R es).completed = _
    have hcall : es.map (σ.complete R e).call = es.map σ.call := by
      refine List.map_congr_left fun e' he' => ?_
      have hne : e'.index ≠ e.index := fun heq => hnot (heq ▸ List.mem_map_of_mem he')
      have hreq : (σ.complete R e).requests e'.index = σ.requests e'.index :=
        Function.update_of_ne hne ..
      unfold call
      rw [hreq]
      rfl
    rw [ih hnd, hcall, List.map_cons, List.append_cons]
    rfl

end Frame

namespace Completion

variable {M S : Type} {R : Requests M S} {active : ℕ → Bool} {c : Completion S} {σ σ₁ : Frame M S}
  {es : List (Entry S)}

/-- The PMPI call has returned, and nothing is completed yet. -/
structure Returned (R : Requests M S) (active : ℕ → Bool) (c : Completion S) (σ σ₁ : Frame M S) :
    Prop where
  settled : c.Settled R active σ
  requests : σ₁.requests = σ.requests
  completed : σ₁.completed = []
  accessed : ∀ a ∈ σ₁.accessed, 0 ≤ a.2 ∧ a.2 < c.count

variable (es) in
theorem correct_completeAll (hret : Returned R active c σ σ₁)
    (hnd : (es.map Entry.index).Nodup)
    (hbounds : ∀ e ∈ es, ∀ a ∈ e.accesses, 0 ≤ a.2 ∧ a.2 < c.count)
    (hreported : ∀ k s, c.reported R active k = some s →
      ∃ e ∈ es, e.index = (k : ℤ) ∧ e.status = some s)
    (hentries : ∀ e ∈ es, ∃ k < c.count, e.index = (k : ℤ) ∧
      (active k = true → c.reported R active k ≠ none)) :
    Correct R active c σ (σ₁.completeAll R es) where
  inBounds a ha := by
    rw [Frame.accessed_completeAll, List.mem_append, List.mem_flatMap] at ha
    rcases ha with ha | ⟨e, he, ha⟩
    · exact hret.accessed a ha
    · exact hbounds e he a ha
  once k hk s hs := by
    obtain ⟨e, he, hindex, hstatus⟩ := hreported k s hs
    have hfilter := Frame.filter_index hnd he
    rw [hindex] at hfilter
    have hcall : (fun d : Completed M S => decide (d.index = (k : ℤ))) ∘ σ₁.call =
        fun e => decide (e.index = (k : ℤ)) := rfl
    rw [Frame.completed_completeAll hnd, hret.completed, List.nil_append, List.filter_map, hcall, hfilter]
    show [(σ₁.requests e.index, e.status)] = _
    rw [hindex, hstatus, hret.requests]
  noOther k hk hact hnone d hd := by
    rw [Frame.completed_completeAll hnd, hret.completed, List.nil_append] at hd
    obtain ⟨e, he, rfl⟩ := List.mem_map.mp hd
    obtain ⟨k', -, hindex, hrep⟩ := hentries e he
    intro heq
    obtain rfl : k' = k := Int.ofNat.inj (hindex.symm.trans heq)
    exact hrep hact hnone
  others k hk := by
    rw [← hret.requests]
    by_cases hmem : k ∈ es.map Entry.index
    · obtain ⟨e, he, rfl⟩ := List.mem_map.mp hmem
      obtain ⟨k', hlt, hindex, hrep⟩ := hentries e he
      have hinactive : active k' = false := by
        by_contra hact
        exact hrep (by simpa using hact) (hk k' hindex.symm)
      rw [Frame.requests_completeAll_of_mem hnd he, hret.requests, hindex]
      exact hret.settled k' hlt hinactive
    · exact Frame.requests_completeAll_of_notMem hmem

theorem correct_complete {e : Entry S} {k : ℕ} {s : S} (hret : Returned R active c σ σ₁) (hk : k < c.count)
    (hindex : e.index = (k : ℤ)) (hstatusAt : e.statusAt = none)
    (hstatus : active k = true → e.status = some s)
    (hreported : ∀ k', c.reported R active k' = if k' = k ∧ active k = true then some s else none) :
    Correct R active c σ (σ₁.complete R e) := by
  refine correct_completeAll [e] hret (List.nodup_singleton _)
    ?_ ?_ ?_
  · intro e' he' a ha
    obtain rfl := List.mem_singleton.mp he'
    have hindexOf : a.2 = (k : ℤ) := by
      rw [Entry.accesses, hstatusAt, hindex] at ha
      split at ha <;> simp at ha
      · rcases ha with rfl | rfl <;> rfl
      · rw [ha]
    rw [hindexOf]
    exact ⟨Int.natCast_nonneg k, Int.ofNat_lt.mpr hk⟩
  · intro k' s' hs'
    rw [hreported k'] at hs'
    split at hs'
    · rename_i hk'
      obtain rfl := Option.some.inj hs'
      exact ⟨e, List.mem_singleton_self e, hk'.1 ▸ hindex, hstatus hk'.2⟩
    · cases hs'
  · intro e' he'
    obtain rfl := List.mem_singleton.mp he'
    refine ⟨k, hk, hindex, fun hact => ?_⟩
    rw [hreported k, if_pos ⟨rfl, hact⟩]
    exact Option.some_ne_none s

theorem correct_idle (hret : Returned R active c σ σ₁)
    (hreported : ∀ k, c.reported R active k = none) : Correct R active c σ σ₁ := by
  refine correct_completeAll [] hret List.nodup_nil ?_ ?_ ?_
  · exact fun e he => absurd he List.not_mem_nil
  · intro k s hs
    rw [hreported k] at hs
    cases hs
  · exact fun e he => absurd he List.not_mem_nil

theorem getHandles_inBounds (R : Requests M S) (count : ℕ) (handles : ℤ → M) (hσ : σ.accessed = []) :
    ∀ a ∈ ((σ.getHandles R count).pmpi handles).accessed, 0 ≤ a.2 ∧ a.2 < count := by
  intro a ha
  have ha : a ∈ σ.accessed ++ (List.range count).flatMap fun (i : ℕ) =>
    [(Arr.requests, (i : ℤ)), (Arr.myReqs, (i : ℤ))] := ha
  rw [hσ, List.nil_append, List.mem_flatMap] at ha
  obtain ⟨i, hi, ha⟩ := ha
  have hlt := List.mem_range.mp hi
  simp only [List.mem_cons, List.not_mem_nil, or_false] at ha
  rcases ha with rfl | rfl <;> exact ⟨Int.natCast_nonneg i, Int.ofNat_lt.mpr hlt⟩

theorem entry_inBounds {count k i : ℕ} {status : Option S} (hk : k < count) (hi : i < count) :
    ∀ a ∈ (⟨(k : ℤ), true, some i, status⟩ : Entry S).accesses, 0 ≤ a.2 ∧ a.2 < count := by
  intro a ha
  simp only [Entry.accesses, if_true, Option.map_some, Option.toList_some, List.cons_append,
    List.nil_append, List.mem_cons, List.not_mem_nil, or_false] at ha
  rcases ha with rfl | rfl | rfl
  · exact ⟨Int.natCast_nonneg k, Int.ofNat_lt.mpr hk⟩
  · exact ⟨Int.natCast_nonneg k, Int.ofNat_lt.mpr hk⟩
  · exact ⟨Int.natCast_nonneg i, Int.ofNat_lt.mpr hi⟩

theorem nodup_all (count : ℕ) (statuses : ℕ → S) : (((List.range count).map fun (i : ℕ) =>
    (⟨i, true, some i, some (statuses i)⟩ : Entry S)).map Entry.index).Nodup := by
  rw [List.map_map]
  exact List.nodup_range.map fun i j hij => Int.ofNat.inj hij

theorem correct_all {count : ℕ} {statuses : ℕ → S} (hret : Returned R active c σ σ₁) (hcount : c.count = count)
    (hreported : ∀ k, c.reported R active k =
      if k < count ∧ active k = true then some (statuses k) else none) :
    Correct R active c σ (σ₁.completeAll R
      ((List.range count).map fun (i : ℕ) => ⟨i, true, some i, some (statuses i)⟩)) := by
  refine correct_completeAll _ hret (nodup_all count statuses) ?_ ?_ ?_
  · intro e he
    obtain ⟨i, hi, rfl⟩ := List.mem_map.mp he
    rw [hcount]
    exact entry_inBounds (List.mem_range.mp hi) (List.mem_range.mp hi)
  · intro k s hs
    rw [hreported k] at hs
    split at hs
    · rename_i hk
      exact ⟨_, List.mem_map_of_mem (List.mem_range.mpr hk.1), rfl, hs⟩
    · cases hs
  · intro e he
    obtain ⟨i, hi, rfl⟩ := List.mem_map.mp he
    have hlt := List.mem_range.mp hi
    refine ⟨i, hcount ▸ hlt, rfl, fun hact => ?_⟩
    rw [hreported i, if_pos ⟨hlt, hact⟩]
    exact Option.some_ne_none _

theorem correct_some {count : ℕ} {outcount : ℤ} {indices : ℕ → ℤ} {statuses : ℕ → S}
    (hret : Returned R active c σ σ₁) (hcount : c.count = count)
    (hperm : PermittedSome R active count outcount indices)
    (hreported : ∀ k, c.reported R active k =
      ((List.range outcount.toNat).find? fun i => indices i = (k : ℤ)).map statuses) :
    Correct R active c σ (σ₁.completeAll R ((List.range outcount.toNat).map fun i =>
      ⟨indices i, true, some i, some (statuses i)⟩)) := by
  rcases hperm with ⟨hund, -⟩ | ⟨ks, hout, hnd, hks, hindices⟩
  · have hzero : outcount.toNat = 0 := by
      have := R.undefined_neg
      omega
    rw [hzero] at hreported ⊢
    exact correct_idle hret hreported
  · have hlen : outcount.toNat = ks.length := by omega
    rw [hlen] at hreported ⊢
    -- the `i`-th index is that of the `i`-th request reported
    have hget : ∀ i ∈ List.range ks.length, ∃ k ∈ ks, indices i = (k : ℤ) := by
      intro i hi
      have hlt := List.mem_range.mp hi
      exact ⟨ks[i], List.getElem_mem hlt, hindices i ks[i] (List.getElem?_eq_getElem hlt)⟩
    have hmap : (List.range ks.length).map indices = ks.map fun k : ℕ => (k : ℤ) := by
      refine List.ext_getElem (by simp) fun i hi hi' => ?_
      rw [List.getElem_map, List.getElem_map, List.getElem_range]
      exact hindices i _ (List.getElem?_eq_getElem (by simpa using hi'))
    have hle : ks.length ≤ count := by
      have hsub := (List.subperm_of_subset hnd fun k hk => List.mem_range.mpr (hks k hk).1).length_le
      rwa [List.length_range] at hsub
    refine correct_completeAll _ hret ?_ ?_ ?_ ?_
    · rw [List.map_map]
      show ((List.range ks.length).map indices).Nodup
      rw [hmap]
      exact hnd.map fun i j hij => Int.ofNat.inj hij
    · intro e he
      obtain ⟨i, hi, rfl⟩ := List.mem_map.mp he
      obtain ⟨k, hk, hindex⟩ := hget i hi
      rw [hcount, hindex]
      exact entry_inBounds (hks k hk).1 ((List.mem_range.mp hi).trans_le hle)
    · intro k s hs
      rw [hreported k, Option.map_eq_some_iff] at hs
      obtain ⟨i, hfind, rfl⟩ := hs
      have hindex := List.find?_some hfind
      exact ⟨_, List.mem_map_of_mem (List.mem_of_find?_eq_some hfind), of_decide_eq_true hindex, rfl⟩
    · intro e he
      obtain ⟨i, hi, rfl⟩ := List.mem_map.mp he
      obtain ⟨k, hk, hindex⟩ := hget i hi
      refine ⟨k, hcount ▸ (hks k hk).1, hindex, fun _ hnone => ?_⟩
      rw [hreported k, Option.map_eq_none_iff, List.find?_eq_none] at hnone
      exact hnone i hi (decide_eq_true hindex)

/-- A pending request is completed with all others. -/
theorem not_correct_all {count k : ℕ} {statuses : ℕ → S} (hcompleted : σ₁.completed = [])
    (hk : k < count) (hcount : c.count = count) (hact : active k = true)
    (hnone : c.reported R active k = none) :
    ¬ Correct R active c σ (σ₁.completeAll R
      ((List.range count).map fun (i : ℕ) => ⟨i, true, some i, some (statuses i)⟩)) := by
  intro h
  refine h.noOther k (hcount ▸ hk) hact hnone (σ₁.call ⟨k, true, some k, some (statuses k)⟩) ?_ rfl
  rw [Frame.completed_completeAll (nodup_all count statuses), hcompleted, List.nil_append]
  exact List.mem_map_of_mem (List.mem_map_of_mem (List.mem_range.mpr hk))

/-- `MPI_UNDEFINED` is used as an index. -/
theorem not_correct_undefined {e : Entry S} (hindex : e.index = R.undefined) :
    ¬ Correct R active c σ (σ₁.complete R e) := by
  intro h
  have hbounds := (h.inBounds (.requests, e.index) (List.mem_append_right _ List.mem_cons_self)).1
  rw [hindex] at hbounds
  exact absurd hbounds (not_le.mpr R.undefined_neg)

theorem correct_any_iff {count : ℕ} {indx : ℤ} {status : S} (hret : Returned R active c σ σ₁) (hcount : c.count = count)
    (hperm : PermittedAny R active count indx)
    (hreported : ∀ k : ℕ, c.reported R active k = if indx = k then some status else none) :
    Correct R active c σ (σ₁.complete R ⟨indx, true, none, some status⟩) ↔
      ∃ k < count, active k = true := by
  rcases hperm with ⟨hund, hnone⟩ | ⟨k, hk, hindx, hact⟩
  · refine iff_of_false (not_correct_undefined hund) ?_
    rintro ⟨k, hk, hact⟩
    rw [hnone k hk] at hact
    cases hact
  · refine iff_of_true ?_ ⟨k, hk, hact⟩
    refine correct_complete hret (hcount ▸ hk) hindx rfl (fun _ => rfl) ?_
    intro k'
    have heq : indx = (k' : ℤ) ↔ k' = k ∧ active k = true := by
      rw [hindx, and_iff_left hact]
      exact ⟨fun h => (Int.ofNat.inj h).symm, fun h => congrArg _ h.symm⟩
    rw [hreported k', if_congr heq rfl rfl]

theorem correct_all_iff {count : ℕ} {statuses : ℕ → S} (hret : Returned R active c σ σ₁) (hcount : c.count = count)
    (hperm : PermittedAll R active count statuses)
    (hreported : ∀ k, c.reported R active k = if k < count ∧ active k = true ∧
      R.pending (statuses k) = false then some (statuses k) else none) :
    Correct R active c σ (σ₁.completeAll R
        ((List.range count).map fun (i : ℕ) => ⟨i, true, some i, some (statuses i)⟩)) ↔
      ∀ k < count, R.pending (statuses k) = false := by
  constructor
  · intro h k hk
    by_contra hpending
    have hpending : R.pending (statuses k) = true := by simpa using hpending
    refine not_correct_all hret.completed hk hcount (hperm k hk hpending) ?_ h
    rw [hreported k, hpending]
    simp
  · intro h
    refine correct_all hret hcount fun k => ?_
    rw [hreported k]
    refine if_congr (and_congr_right fun hk => ?_) rfl rfl
    rw [h k hk]
    exact and_iff_left rfl

@[simp] theorem statusArg_true (ignored : Bool) (status : S) :
    statusArg ignored true status = some status := by
  simp [statusArg]

end Completion

open Completion in
/-- A completion wrapper does with the requests what its PMPI call has reported exactly if there is
an active request for `MPI_Waitany` and `MPI_Testany`, no request is pending in the report of
`MPI_Waitall` and `MPI_Testall`, and `MPI_Test` has not ignored the status of a request that it
completes. -/
theorem completion_wrappers_correct_iff {M S : Type} (R : Requests M S) (active : ℕ → Bool)
    (ignored : Bool) (handles : ℤ → M) (c : Completion S) (requests : ℤ → Option ℕ) (myReqs : ℤ → M)
    (hperm : c.Permitted R active)
    (hset : c.Settled R active { requests := requests, myReqs := myReqs }) :
    Correct R active c { requests := requests, myReqs := myReqs }
        (c.exec R ignored handles { requests := requests, myReqs := myReqs }) ↔
      c.Regular R active ignored := by
  have hnone : ({ requests := requests, myReqs := myReqs } : Frame M S).accessed = [] := rfl
  have hbounds := fun count => getHandles_inBounds R count handles hnone
  have hnil : ∀ count : ℕ, ∀ a ∈ ([] : List (Arr × ℤ)), 0 ≤ a.2 ∧ a.2 < count :=
    fun _ a ha => absurd ha List.not_mem_nil
  cases c with
  | wait status =>
    refine iff_of_true ?_ trivial
    exact correct_complete ⟨hset, rfl, rfl, hnil 1⟩ Nat.zero_lt_one rfl rfl (fun _ => statusArg_true ..)
      fun k => rfl
  | waitall count statuses =>
    simp only [exec, mpiWaitall, statusArg_true]
    exact correct_all_iff ⟨hset, rfl, rfl, hbounds count⟩ rfl hperm fun k => rfl
  | waitany count indx status =>
    simp only [exec, mpiWaitany, statusArg_true]
    exact correct_any_iff ⟨hset, rfl, rfl, hbounds count⟩ rfl hperm fun k => rfl
  | waitsome incount outcount indices statuses =>
    refine iff_of_true ?_ trivial
    simp only [exec, mpiWaitsome, statusArg_true]
    exact correct_some ⟨hset, rfl, rfl, hbounds incount⟩ rfl hperm.1 fun k => rfl
  | test flag status =>
    cases flag with
    | false =>
      refine iff_of_true ?_ fun h => absurd h Bool.false_ne_true
      exact correct_idle ⟨hset, rfl, rfl, hnil 1⟩ fun k => by simp [reported]
    | true =>
      have hreported : ∀ k, (test true status).reported R active k =
          if k = 0 ∧ active 0 = true then some status else none := fun k => by simp [reported]
      cases ignored with
      | false =>
        refine iff_of_true ?_ fun _ _ => rfl
        exact correct_complete ⟨hset, rfl, rfl, hnil 1⟩ Nat.zero_lt_one rfl rfl (fun _ => rfl) hreported
      | true =>
        constructor
        · intro h _ hact
          have honce := h.once 0 Nat.zero_lt_one status (by rw [hreported, if_pos ⟨rfl, hact⟩])
          simp [exec, mpiTest, statusArg, Frame.complete] at honce
        · intro h
          exact correct_complete ⟨hset, rfl, rfl, hnil 1⟩ Nat.zero_lt_one rfl rfl
            (fun hact => absurd (h rfl hact) (by decide)) hreported
  | testall count flag statuses =>
    cases flag with
    | false =>
      refine iff_of_true ?_ fun h => absurd h Bool.false_ne_true
      exact correct_idle ⟨hset, rfl, rfl, hbounds count⟩ fun k => by simp [reported]
    | true =>
      simp only [exec, mpiTestall, statusArg_true, Regular, if_true, true_imp_iff]
      refine correct_all_iff ⟨hset, rfl, rfl, hbounds count⟩ rfl hperm fun k => ?_
      simp [reported]
  | testany count indx flag status =>
    cases flag with
    | false =>
      refine iff_of_true ?_ hperm
      exact correct_idle ⟨hset, rfl, rfl, hbounds count⟩ fun k => by simp [reported]
    | true =>
      simp only [exec, mpiTestany, statusArg_true]
      refine correct_any_iff ⟨hset, rfl, rfl, hbounds count⟩ rfl hperm fun k => ?_
      simp [reported]
  | testsome incount outcount indices statuses =>
    refine iff_of_true ?_ trivial
    simp only [exec, mpiTestsome, statusArg_true]
    exact correct_some ⟨hset, rfl, rfl, hbounds incount⟩ rfl hperm fun k => rfl

def threeRequests : Requests ℕ ℕ where
  undefined := -32766
  undefined_neg := by decide
  pending s := s = 99
  persistent o := o = 2
  handle req := req.getD 0

def threeFrame : Frame ℕ ℕ where
  requests k := if k = 1 then some 1 else if k = 2 then some 2 else none
  myReqs _ := 0

open Completion in
/-- `MPI_Waitsome` with status 7 for the only request that is active. -/
theorem completion_wrappers_correct_iff_waitsome :
    Correct threeRequests (fun k => k = 1) (.waitsome 3 1 (fun _ => 1) fun _ => 7) threeFrame
      (Completion.exec threeRequests true (fun _ => 0) (.waitsome 3 1 (fun _ => 1) fun _ => 7)
        threeFrame) :=
  (completion_wrappers_correct_iff threeRequests (fun k => k = 1) true (fun _ => 0)
    (.waitsome 3 1 (fun _ => 1) fun _ => 7) threeFrame.requests (fun _ => 0)
    ⟨.inr ⟨[1], rfl, by decide, by decide, by
      intro i k h
      cases i with
      | zero => exact congrArg _ (Option.some.inj h)
      | succ i => cases h⟩, by decide⟩
    (by unfold Settled; decide)).mpr trivial

/-- `MPI_Waitany` on requests that are all null: the wrapper uses `MPI_UNDEFINED` as an index. -/
theorem waitany_uses_undefined :
    (Completion.waitany 3 (-32766) 0).Permitted threeRequests (fun _ => false) ∧
      (Arr.requests, (-32766 : ℤ)) ∈ (Completion.exec threeRequests false (fun _ => 0)
        (.waitany 3 (-32766) 0) ⟨fun _ => none, fun _ => 0, [], []⟩).accessed :=
  ⟨.inl ⟨rfl, fun _ _ => rfl⟩, by decide⟩

end CritPath.Tracking
