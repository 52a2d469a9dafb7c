import CritPath.Tracking.Buffers
import CritPath.Tracking.Completion

/-!
# The statuses that the tool reads

`completePBWC` and the destructors of `mpiRecvPB` and `mpiMprobePB` read
`MPI_SOURCE` and `MPI_TAG` of a status. Where the application ignores the status,
the wrapper has to put one of its own in its place before the PMPI call. The
completion wrappers do so always (`MPI_Test` never), the constructors only if the
tool is running and the source is a process.
-/

namespace CritPath.Tracking

/-! ## Completion -/

/-- The request is completed by `completePBWC`, and not cancelled. -/
def RequestData.readsStatus {M V : Type} (d : RequestData M PbCallback V) : Prop :=
  d.completionCallback = some (.complete .completePBWC) ∧ d.cancelled = false

namespace Completion

variable {M S V : Type} {R : Requests M S} {active : ℕ → Bool}

/-- The status that the PMPI call has filled for the request at index `k`. -/
def filled (R : Requests M S) : Completion S → ℤ → Option S
  | .wait status, k => if k = 0 then some status else none
  | .waitall count statuses, k => if 0 ≤ k ∧ k < count then some (statuses k.toNat) else none
  | .waitany _ indx status, k => if indx = k ∧ indx ≠ R.undefined then some status else none
  | .waitsome _ outcount indices statuses, k | .testsome _ outcount indices statuses, k =>
    ((List.range outcount.toNat).find? fun i => indices i = k).map statuses
  | .test flag status, k => if flag = true ∧ k = 0 then some status else none
  | .testall count flag statuses, k =>
    if flag = true ∧ 0 ≤ k ∧ k < count then some (statuses k.toNat) else none
  | .testany _ indx flag status, k =>
    if flag = true ∧ indx = k ∧ indx ≠ R.undefined then some status else none

/-- The completion of a request with data in `data` reads a status. -/
def Reads (data : ℕ → RequestData M PbCallback V) (request : Option ℕ) : Prop :=
  ∃ o, request = some o ∧ (data o).readsStatus

/-- Every status that is read when the requests are completed was filled for its request. -/
def ReadsFilled (R : Requests M S) (data : ℕ → RequestData M PbCallback V) (c : Completion S)
    (σ : Frame M S) : Prop :=
  ∀ d ∈ σ.completed, Reads data d.request → ∃ s, d.status = some s ∧ c.filled R d.index = some s

/-- `MPI_Test` does not ignore the status of a request that reads it, and `MPI_UNDEFINED` is not the
index of one. -/
def Guarded (R : Requests M S) (data : ℕ → RequestData M PbCallback V) (ignored : Bool)
    (requests : ℤ → Option ℕ) : Completion S → Prop
  | .test flag _ => flag = true → ignored = true → ¬ Reads data (requests 0)
  | .waitany _ indx _ => indx = R.undefined → ¬ Reads data (requests indx)
  | .testany _ indx flag _ => flag = true → indx = R.undefined → ¬ Reads data (requests indx)
  | _ => True

theorem mem_completed {σ : Frame M S} {es : List (Entry S)} {d : Completed M S}
    (hd : d ∈ (σ.completeAll R es).completed) :
    d ∈ σ.completed ∨ ∃ e ∈ es, d.index = e.index ∧ d.status = e.status := by
  induction es generalizing σ with
  | nil => exact .inl hd
  | cons e es ih =>
    rcases ih (σ := σ.complete R e) hd with hd | ⟨e', he', h⟩
    · rcases List.mem_append.mp hd with hd | hd
      · exact .inl hd
      · obtain rfl := List.mem_singleton.mp hd
        exact .inr ⟨e, List.mem_cons_self, rfl, rfl⟩
    · exact .inr ⟨e', List.mem_cons_of_mem _ he', h⟩

variable {data : ℕ → RequestData M PbCallback V} {c : Completion S} {σ : Frame M S}

theorem readsFilled_completeAll {es : List (Entry S)} (hσ : σ.completed = [])
    (hes : ∀ e ∈ es, ∃ s, e.status = some s ∧ c.filled R e.index = some s) :
    ReadsFilled R data c (σ.completeAll R es) := by
  intro d hd _
  rcases mem_completed hd with hd | ⟨e, he, hindex, hstatus⟩
  · rw [hσ] at hd
    cases hd
  · rw [hindex, hstatus]
    exact hes e he

theorem readsFilled_complete_iff {e : Entry S} (hσ : σ.completed = []) :
    ReadsFilled R data c (σ.complete R e) ↔
      (Reads data (σ.requests e.index) → ∃ s, e.status = some s ∧ c.filled R e.index = some s) := by
  have hcompleted : (σ.complete R e).completed = [σ.call e] := by
    show σ.completed ++ [σ.call e] = _
    rw [hσ]
    rfl
  unfold ReadsFilled
  rw [hcompleted]
  exact List.forall_mem_singleton

theorem readsFilled_all {count : ℕ} {statuses : ℕ → S} (hσ : σ.completed = [])
    (hfilled : ∀ k : ℤ, 0 ≤ k ∧ k < count → c.filled R k = some (statuses k.toNat)) :
    ReadsFilled R data c (σ.completeAll R
      ((List.range count).map fun (i : ℕ) => ⟨i, true, some i, some (statuses i)⟩)) := by
  refine readsFilled_completeAll hσ fun e he => ?_
  obtain ⟨i, hi, rfl⟩ := List.mem_map.mp he
  have hlt := List.mem_range.mp hi
  exact ⟨_, rfl, hfilled i ⟨Int.natCast_nonneg i, Int.ofNat_lt.mpr hlt⟩⟩

theorem find_index {count : ℕ} {outcount : ℤ} {indices : ℕ → ℤ}
    (hperm : PermittedSome R active count outcount indices) {i : ℕ}
    (hi : i ∈ List.range outcount.toNat) :
    ((List.range outcount.toNat).find? fun j => indices j = indices i) = some i := by
  rcases hperm with ⟨hund, -⟩ | ⟨ks, hout, hnd, -, hindices⟩
  · have hneg := R.undefined_neg
    have hzero : outcount.toNat = 0 := by omega
    rw [hzero] at hi
    cases hi
  · have hlen : outcount.toNat = ks.length := by omega
    rw [hlen] at hi ⊢
    have hget : ∀ j, j < ks.length → ∀ k, indices j = (k : ℕ) → ks[j]? = some k := by
      intro j hj k hk
      have hj' := hindices j ks[j] (List.getElem?_eq_getElem hj)
      rw [List.getElem?_eq_getElem hj, Int.ofNat.inj (hj'.symm.trans hk)]
    cases hfind : (List.range ks.length).find? fun j => indices j = indices i with
    | none =>
      have hno := List.find?_eq_none.mp hfind i hi
      simp at hno
    | some j =>
      have hj := List.mem_range.mp (List.mem_of_find?_eq_some hfind)
      have hlt := List.mem_range.mp hi
      have heq : indices j = indices i := by simpa using List.find?_some hfind
      have hi' := hindices i ks[i] (List.getElem?_eq_getElem hlt)
      have hks := hget j hj ks[i] (heq.trans hi')
      have hks' : ks[j] = ks[i] := by simpa [List.getElem?_eq_getElem hj] using hks
      exact congrArg some ((hnd.getElem_inj_iff).mp hks')

theorem readsFilled_some {count : ℕ} {outcount : ℤ} {indices : ℕ → ℤ} {statuses : ℕ → S}
    (hσ : σ.completed = []) (hperm : PermittedSome R active count outcount indices)
    (hfilled : ∀ k, c.filled R k =
      ((List.range outcount.toNat).find? fun i => indices i = k).map statuses) :
    ReadsFilled R data c (σ.completeAll R ((List.range outcount.toNat).map fun i =>
      ⟨indices i, true, some i, some (statuses i)⟩)) := by
  refine readsFilled_completeAll hσ fun e he => ?_
  obtain ⟨i, hi, rfl⟩ := List.mem_map.mp he
  refine ⟨_, rfl, ?_⟩
  rw [hfilled, find_index hperm hi]
  rfl

/-- The statuses that the completion wrappers hand to `completePBWC`. -/
theorem readsFilled_iff {ignored : Bool} {handles : ℤ → M} {requests : ℤ → Option ℕ}
    {myReqs : ℤ → M} (hperm : c.Permitted R active) :
    ReadsFilled R data c (c.exec R ignored handles { requests := requests, myReqs := myReqs }) ↔
      c.Guarded R data ignored requests := by
  -- a status of a single request at index `indx`
  have hany : ∀ (indx : ℤ) (status : S) (σ : Frame M S), σ.completed = [] →
      σ.requests = requests →
      c.filled R indx = (if indx ≠ R.undefined then some status else none) →
      (ReadsFilled R data c (σ.complete R ⟨indx, true, none, some status⟩) ↔
        (indx = R.undefined → ¬ Reads data (requests indx))) := by
    intro indx status σ hσ hreq hfilled
    rw [readsFilled_complete_iff hσ, hreq, hfilled]
    by_cases hund : indx = R.undefined
    · simp [hund]
    · simp [hund]
  cases c with
  | wait status =>
    refine iff_of_true ((readsFilled_complete_iff rfl).mpr fun _ => ⟨status, ?_, rfl⟩) trivial
    exact statusArg_true ignored status
  | waitall count statuses =>
    refine iff_of_true ?_ trivial
    simp only [exec, mpiWaitall, statusArg_true]
    exact readsFilled_all rfl fun k hk => if_pos hk
  | waitany count indx status =>
    simp only [exec, mpiWaitany, statusArg_true]
    exact hany indx status _ rfl rfl (by simp [filled])
  | waitsome incount outcount indices statuses =>
    refine iff_of_true ?_ trivial
    simp only [exec, mpiWaitsome, statusArg_true]
    exact readsFilled_some rfl hperm.1 fun k => rfl
  | test flag status =>
    cases flag with
    | false => exact iff_of_true (fun d hd => absurd hd List.not_mem_nil) fun h => by cases h
    | true =>
      refine (readsFilled_complete_iff rfl).trans ?_
      cases ignored with
      | false => exact iff_of_true (fun _ => ⟨status, rfl, rfl⟩) fun _ h => by cases h
      | true => simp [Guarded, statusArg]
  | testall count flag statuses =>
    refine iff_of_true ?_ trivial
    cases flag with
    | false => exact fun d hd => absurd hd List.not_mem_nil
    | true =>
      simp only [exec, mpiTestall, statusArg_true]
      exact readsFilled_all rfl fun k hk => if_pos ⟨rfl, hk⟩
  | testany count indx flag status =>
    cases flag with
    | false => exact iff_of_true (fun d hd => absurd hd List.not_mem_nil) fun h => by cases h
    | true =>
      simp only [exec, mpiTestany, statusArg_true, Guarded, true_imp_iff]
      exact hany indx status _ rfl rfl (by simp [filled])
  | testsome incount outcount indices statuses =>
    refine iff_of_true ?_ trivial
    simp only [exec, mpiTestsome, statusArg_true]
    exact readsFilled_some rfl hperm fun k => rfl

end Completion

/-! ## Receives and probes -/

/-- Where a status argument points to. -/
inductive StatusPtr where
  | ignore
  | application
  | tStatus
  deriving DecidableEq

/-- The status objects that a PMPI call fills. -/
def StatusPtr.filled (status : StatusPtr) : List StatusPtr :=
  if status = .ignore then [] else [status]

section
variable (E : Setting)

/-- What a constructor does to `*status`. It ends early if the tool is not running or there is no
process at the other side. -/
def substituted (running : Bool) (src tag : ℤ) (status : StatusPtr) : StatusPtr :=
  if running = false then status
  else if src = E.procNull then status
  else if (src = E.anySource ∨ tag = E.anyTag) ∧ status = .ignore then .tStatus
  else status

/-- The status that the destructor of `mpiRecvPB` reads, with `pStatus` as its member. -/
def mpiRecvReads (running : Bool) (src tag : ℤ) (pStatus : StatusPtr) : List StatusPtr :=
  if running = false then []
  else if src = E.procNull then []
  else if src = E.anySource ∨ tag = E.anyTag then [pStatus]
  else []

/-- The status that the destructor of `mpiMprobePB` reads; it looks at the running flag later. -/
def mpiMprobeReads (flag : Bool) (src tag : ℤ) (pStatus : StatusPtr) : List StatusPtr :=
  if flag = false then []
  else if src = E.anySource ∨ tag = E.anyTag then [pStatus]
  else []

/-- A receive or matched probe, with the running flag in the constructor and the destructor. -/
inductive RecvCall where
  | recv (src tag : ℤ)
  /-- `remote` and `tag` are those of the message's data. -/
  | mrecv (remote tag : ℤ)
  /-- `MPI_Mprobe` with `flag` set, or `MPI_Improbe`. -/
  | mprobe (src tag : ℤ) (flag : Bool)
  deriving DecidableEq

/-- `src` and `tag` of `mpiRecvPB` for a message. While the tool is not running its `RequestData`
stays as constructed. -/
def mrecvField (before : Bool) (field : ℤ) : ℤ := if before then field else -42

namespace RecvCall

/-- `*status` after the constructor, which is what `pStatus` is and what the PMPI call gets. -/
def status (before : Bool) (status : StatusPtr) : RecvCall → StatusPtr
  | .recv src tag | .mprobe src tag _ => substituted E before src tag status
  | .mrecv _ _ => status

/-- The statuses that the PMPI call fills. -/
def fills (before : Bool) (status : StatusPtr) (c : RecvCall) : List StatusPtr :=
  match c with
  | .mprobe _ _ false => []
  | _ => (c.status E before status).filled

/-- The statuses that the destructor reads. -/
def reads (before after : Bool) (status : StatusPtr) (c : RecvCall) : List StatusPtr :=
  let pStatus := c.status E before status
  match c with
  | .recv src tag => mpiRecvReads E after src tag pStatus
  | .mrecv remote tag =>
    mpiRecvReads E after (mrecvField before remote) (mrecvField before tag) pStatus
  | .mprobe src tag flag => mpiMprobeReads E flag src tag pStatus

/-- The constructor has seen to the status, or it is not read. -/
def Guarded (before after : Bool) (status : StatusPtr) : RecvCall → Prop
  | .recv src tag => status = .ignore → after = true → src ≠ E.procNull →
    (src = E.anySource ∨ tag = E.anyTag) → before = true
  | .mrecv remote tag => status = .ignore → after = true → mrecvField before remote ≠ E.procNull →
    ¬ (mrecvField before remote = E.anySource ∨ mrecvField before tag = E.anyTag)
  | .mprobe src tag flag => status = .ignore → flag = true →
    (src = E.anySource ∨ tag = E.anyTag) → before = true ∧ src ≠ E.procNull

variable {E} {before after : Bool} {status : StatusPtr} {src tag : ℤ}

theorem mem_filled {p : StatusPtr} : p ∈ p.filled ↔ p ≠ .ignore := by
  cases p <;> decide

theorem substituted_ne_ignore (hwild : src = E.anySource ∨ tag = E.anyTag) :
    substituted E before src tag status ≠ .ignore ↔
      (status = .ignore → before = true ∧ src ≠ E.procNull) := by
  unfold substituted
  cases before with
  | false => simp
  | true =>
    by_cases hsrc : src = E.procNull
    · simp [hsrc]
    · cases status <;> simp [hsrc, hwild]

theorem mem_mpiRecvReads {p q : StatusPtr} : p ∈ mpiRecvReads E after src tag q ↔
    (after = true ∧ src ≠ E.procNull ∧ (src = E.anySource ∨ tag = E.anyTag)) ∧ p = q := by
  unfold mpiRecvReads
  cases after with
  | false => simp
  | true =>
    by_cases hsrc : src = E.procNull
    · simp [hsrc]
    · by_cases hwild : src = E.anySource ∨ tag = E.anyTag
      · simp [hsrc, hwild]
      · simp [hsrc, hwild]

theorem mem_mpiMprobeReads {flag : Bool} {p q : StatusPtr} : p ∈ mpiMprobeReads E flag src tag q ↔
    (flag = true ∧ (src = E.anySource ∨ tag = E.anyTag)) ∧ p = q := by
  unfold mpiMprobeReads
  cases flag with
  | false => simp
  | true =>
    by_cases hwild : src = E.anySource ∨ tag = E.anyTag
    · simp [hwild]
    · simp [hwild]

theorem forall_reads_iff {c : Prop} {q : StatusPtr} :
    (∀ p, c ∧ p = q → p ∈ q.filled) ↔ (c → q ≠ .ignore) := by
  constructor
  · exact fun h hc => mem_filled.mp (h q ⟨hc, rfl⟩)
  · rintro h p ⟨hc, rfl⟩
    exact mem_filled.mpr (h hc)

/-- The statuses that the destructors read were filled by the PMPI call. -/
theorem reads_filled_iff (c : RecvCall) :
    (∀ p ∈ c.reads E before after status, p ∈ c.fills E before status) ↔
      c.Guarded E before after status := by
  cases c with
  | recv src tag =>
    simp only [reads, RecvCall.status, mem_mpiRecvReads, fills, forall_reads_iff, Guarded]
    constructor
    · intro h hstatus hafter hsrc hwild
      exact ((substituted_ne_ignore hwild).mp (h ⟨hafter, hsrc, hwild⟩) hstatus).1
    · rintro h ⟨hafter, hsrc, hwild⟩
      exact (substituted_ne_ignore hwild).mpr fun hstatus => ⟨h hstatus hafter hsrc hwild, hsrc⟩
  | mrecv remote tag =>
    simp only [reads, RecvCall.status, mem_mpiRecvReads, fills, forall_reads_iff, Guarded]
    constructor
    · exact fun h hstatus hafter hsrc hwild => h ⟨hafter, hsrc, hwild⟩ hstatus
    · exact fun h hread hstatus => h hstatus hread.1 hread.2.1 hread.2.2
  | mprobe src tag flag =>
    cases flag with
    | false => exact iff_of_true (fun p hp => absurd hp List.not_mem_nil) fun _ h => by cases h
    | true =>
      simp only [reads, RecvCall.status, mem_mpiMprobeReads, fills, forall_reads_iff, Guarded]
      constructor
      · exact fun h hstatus _ hwild => (substituted_ne_ignore hwild).mp (h ⟨trivial, hwild⟩) hstatus
      · rintro h ⟨-, hwild⟩
        exact (substituted_ne_ignore hwild).mpr fun hstatus => h hstatus trivial hwild

end RecvCall

end

/-- Every status that the tool reads is real: in the completion calls exactly if `MPI_Test` does not
ignore the status of a wildcard receive that it completes (and the memory at index `MPI_UNDEFINED`
is no such receive), in receives and matched probes exactly if the constructor has not ended before
it replaces an ignored status that is read later. -/
theorem statuses_real_iff {M S V : Type} (E : Setting) (R : Requests M S) (active : ℕ → Bool)
    (data : ℕ → RequestData M PbCallback V) :
    (∀ (c : Completion S) (ignored : Bool) (handles : ℤ → M) (requests : ℤ → Option ℕ)
      (myReqs : ℤ → M), c.Permitted R active →
      (c.ReadsFilled R data (c.exec R ignored handles { requests := requests, myReqs := myReqs }) ↔
        c.Guarded R data ignored requests)) ∧
    ∀ (c : RecvCall) (before after : Bool) (status : StatusPtr),
      (∀ p ∈ c.reads E before after status, p ∈ c.fills E before status) ↔
        c.Guarded E before after status :=
  ⟨fun _ _ _ _ _ hperm => Completion.readsFilled_iff hperm,
    fun c _ _ _ => RecvCall.reads_filled_iff c⟩

/-- `MPI_PROC_NULL`, `MPI_ANY_SOURCE` and `MPI_ANY_TAG` of Open MPI. -/
def openMpi : Setting where
  ndatas := 10
  ndatas_pos := by decide
  procNull := -2
  anySource := -1
  anyTag := -1

def wildcardRecv : RequestData ℕ PbCallback Unit :=
  { RequestData.new 0 () with
    completionCallback := some (.complete .completePBWC), freed := false, remote := -1, tag := 5 }

/-- `MPI_Test` with a status of the application completes a wildcard receive. -/
theorem statuses_real_iff_test :
    (Completion.test true 7).ReadsFilled threeRequests (fun _ => wildcardRecv)
      (Completion.exec threeRequests false (fun _ => 0) (.test true 7)
        { requests := fun _ => some 1, myReqs := fun _ => 0 }) :=
  ((statuses_real_iff openMpi threeRequests (fun _ => true) fun _ => wildcardRecv).1 (.test true 7)
    false (fun _ => 0) (fun _ => some 1) (fun _ => 0) fun _ => rfl).mpr fun _ h => by cases h

/-- `MPI_Test` with `MPI_STATUS_IGNORE` completes a wildcard receive: `completePBWC` reads the source
and tag of `MPI_STATUS_IGNORE`. In `MPI_Mprobe` with a wildcard the destructor does so if the tool is
not running, and in `MPI_Recv` if the tool is started during the call. -/
theorem ignored_statuses_read :
    wildcardRecv.readsStatus ∧
      (Completion.exec threeRequests true (fun _ => 0) (.test true 7)
        { requests := fun _ => some 1, myReqs := fun _ => 0 }).completed = [⟨0, some 1, none, none⟩] ∧
      (RecvCall.mprobe (-1) 5 true).reads openMpi false false .ignore = [.ignore] ∧
      (RecvCall.recv (-1) 5).reads openMpi false true .ignore = [.ignore] := by
  refine ⟨⟨rfl, rfl⟩, ?_⟩
  decide

end CritPath.Tracking
