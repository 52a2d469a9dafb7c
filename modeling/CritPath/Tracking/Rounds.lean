import CritPath.Tracking.Buffers

/-!
# Rounds of a request

The life of one pooled `RequestData`: its owners one after the other, their
rounds from start to completion, and the piggyback operations that write its
`values`. `fini` clears the callbacks and leaves the values, so what a completion
callback hands to `MpiHappensAfter` may come from any earlier round or owner.
Data objects share nothing but the running flag, and that may change between any
two steps here.

The values themselves do not matter, only which piggyback delivered them.
-/

namespace CritPath.Tracking

open Lib

/-- A piggyback operation in flight, with the round that it was started for; `writes` says if it
delivers values. -/
structure PbOp where
  req : PbReq
  round : ℕ
  writes : Bool
  deriving DecidableEq

/-- Who has the object. -/
inductive Place where
  | pool
  | wrapper (w : Nonblocking)
  | message
  | request
  deriving DecidableEq

/-- A call of `MpiHappensAfter`: the round whose piggyback delivered the values, if one did, and the
round that is completed; an inactive request is in none. -/
structure Merge where
  values : Option ℕ
  round : Option ℕ
  deriving DecidableEq

structure Life where
  running : Bool := false
  data : PbData := .new none ()
  place : Place := .pool
  /-- Whether the piggybacks of the owner deliver values. -/
  writes : Bool := false
  inFlight : List PbOp := []
  made : ℕ := 0
  round : ℕ := 0
  pending : Bool := false
  /-- The running flag when the last round began. -/
  began : Bool := false
  /-- The round whose piggyback delivered the `values` of the object. -/
  values : Option ℕ := none
  merged : List Merge := []

inductive RoundOp where
  | setRunning (running : Bool)
  /-- The library completes an operation. -/
  | progress (q : PbOp)
  /-- The constructor of a nonblocking class; `root` says if the rank is the root of a broadcast. -/
  | post (c : NbCall) (root : Bool)
  | finish
  | init (c : InitCall)
  | start
  | complete
  /-- `MPI_Cancel`; `done` says if the library cancels the piggyback. -/
  | cancel (done : Bool)
  | free
  /-- `MPI_Mprobe`, and `MPI_Improbe` with a message. -/
  | mprobe (src tag : ℤ)
  /-- The constructor of `mpiIrecvPB` for a message, with the content of its member `tag`. -/
  | imrecv (tag : ℤ)
  deriving DecidableEq

variable (E : Setting)

/-- Whether the piggyback of a call delivers values. -/
def NbCall.receives : NbCall → Bool
  | .isend _ => false
  | .irecv _ _ => true
  | .isendrecv _ src => src ≠ E.procNull
  | .ibcast | .iallreduce => true
  | .ireduce root => root

/-- Whether the constructor calls `MpiHappensBefore`. -/
def NbCall.loads (root : Bool) : NbCall → Bool
  | .isend dest => dest ≠ E.procNull
  | .irecv _ _ => false
  | .isendrecv dest src => !(src = E.procNull ∧ dest = E.procNull)
  | .ibcast => root
  | .iallreduce | .ireduce _ => true

def InitCall.receives : InitCall → Bool
  | .send _ => false
  | .recv _ _ | .bcast _ | .allreduce => true
  | .reduce root => root

namespace Life

def pbList (d : PbData) : List PbReq := d.pbReqs.1.toList ++ d.pbReqs.2.toList

def modify (g : PbData → PbData) (σ : Life) : Life := { σ with data := g σ.data }

def beginRound (σ : Life) : Life :=
  { σ with round := σ.round + 1, pending := true, began := σ.running }

def mpiHappensBefore (σ : Life) : Life := { σ with values := none }

def mpiHappensAfter (σ : Life) : Life :=
  if σ.running then
    { σ with merged := ⟨σ.values, if σ.pending then some σ.round else none⟩ :: σ.merged }
  else σ

/-- The values that the operations of `qs` leave in the object. -/
def written (qs : List PbOp) (values : Option ℕ) : Option ℕ :=
  match qs.find? PbOp.writes with
  | some q => some q.round
  | none => values

/-- The library completes the operations that `p` selects. -/
def finishOps (p : PbOp → Bool) (σ : Life) : Life :=
  { σ with
    inFlight := σ.inFlight.filter fun q => !p q
    values := written (σ.inFlight.filter p) σ.values }

/-- A new library request in `pb_reqs[0]`. -/
def makeRequest (persistent : Bool) (σ : Life) : Life :=
  { σ with
    made := σ.made + 1
    data := { σ.data with pbReqs := (some ⟨σ.made, persistent⟩, σ.data.pbReqs.2) } }

/-- `PMPI_Isend`, `PMPI_Irecv` and the like on the values. -/
def postOn (σ : Life) : Life :=
  { σ.makeRequest false with
    inFlight := ⟨⟨σ.made, false⟩, σ.round, σ.writes⟩ :: σ.inFlight }

/-- `PMPI_Wait(pb_reqs)` or `PMPI_Waitall(2, pb_reqs)`. -/
def waitPb (σ : Life) : Life :=
  (σ.finishOps fun q => q.req ∈ pbList σ.data).modify fun d =>
    { d with pbReqs := (Buffers.waited d.pbReqs.1, Buffers.waited d.pbReqs.2) }

/-- `PMPI_Start(pb_reqs)` or `PMPI_Startall(2, pb_reqs)`; an operation that is in flight is not
started again. -/
def startPb (σ : Life) : Life :=
  let idle := (pbList σ.data).filter fun r => σ.inFlight.all fun q => q.req ≠ r
  { σ with inFlight := (idle.map fun r => ⟨r, σ.round, σ.writes⟩) ++ σ.inFlight }

def clearCancelled (σ : Life) : Life := σ.modify fun d => { d with cancelled := false }

/-- `if (!uc->isCancelled()) MpiHappensAfter(uc, uc->remote);` -/
def mergeUnlessCancelled (σ : Life) : Life :=
  if σ.data.cancelled then σ.clearCancelled else σ.mpiHappensAfter

/-- The receive of `completePBWC`, from the source in the status. That of an inactive request names
none. -/
def recvNow (σ : Life) : Life :=
  { σ with values := if σ.pending then some σ.round else none }

def runCompletion (c : CompletionCallback) (σ : Life) : Life :=
  match c with
  | .completePBWC => if σ.data.cancelled then σ.clearCancelled else σ.recvNow.mpiHappensAfter
  | .completePBHB => σ.waitPb.mergeUnlessCancelled
  | .completePBnoHB => σ.clearCancelled.waitPb
  | .completePersPBHB => if σ.running then σ.waitPb.mergeUnlessCancelled else σ
  | .completePersPBnoHB =>
    let σ := σ.clearCancelled
    if σ.running then σ.waitPb else σ

def completeData (σ : Life) : Life :=
  match σ.data.completionCallback with
  | some (.complete c) => σ.runCompletion c
  | _ => σ

def runStart (c : StartCallback) (σ : Life) : Life :=
  if !σ.running then σ
  else
    match c with
    | .startPersPBHB => σ.mpiHappensBefore.startPb
    | .startPersPBnoHB => σ.startPb

def startData (σ : Life) : Life :=
  match σ.data.startCallback with
  | some (.start c) => σ.runStart c
  | _ => σ

/-- `fini` and the return to the pool. -/
def release (σ : Life) : Life := { σ.modify (.fini none) with place := .pool }

/-- What the constructor of a nonblocking class does when the tool is running. -/
def construct (w : Nonblocking) (loads : Bool) (σ : Life) : Life :=
  if σ.running then
    let σ := if loads then σ.mpiHappensBefore else σ
    (if w.posts then σ.postOn else σ).modify (Buffers.setCallbacks w.early false)
  else σ

def destruct (w : Nonblocking) (σ : Life) : Life :=
  let σ := if σ.running then σ.modify (Buffers.setCallbacks w.callback w.cancel) else σ
  σ.modify (.init none false)

def initCall (w : PersistentInit) (σ : Life) : Life :=
  let σ := σ.modify fun d =>
    { Buffers.setCallbacks w.callback w.cancel d with
      startCallback := (w.start.map .start) <|> d.startCallback }
  let σ := if w.request then σ.makeRequest true else σ
  σ.modify (.init none true)

/-- The destructor of `mpiMprobePB`. -/
def mprobe (src tag : ℤ) (σ : Life) : Life :=
  let σ := σ.modify fun d => { d.init d.handle false with remote := src, tag := tag }
  if σ.running then σ.postOn else σ

def step (σ : Life) : RoundOp → Life
  | .setRunning running => { σ with running := running }
  | .progress q => σ.finishOps fun q' => q' = q
  | .post c root =>
    let σ := ({ σ with writes := c.receives E }.beginRound).construct (c.pb E) (c.loads E root)
    { σ with place := .wrapper (c.pb E) }
  | .finish =>
    match σ.place with
    | .wrapper w => { σ.destruct w with place := .request }
    | _ => σ
  | .init c =>
    { initCall (c.pb E) { σ with writes := c.receives } with place := .request, pending := false }
  | .start => σ.beginRound.startData
  | .complete =>
    let τ := { σ.completeData with pending := false }
    if σ.data.persistent then τ else τ.release
  | .cancel done =>
    let τ := σ.modify fun d => { d with cancelled := true }
    -- `cancelPB`
    if done ∧ σ.data.cancelCallback.isSome then
      { τ with inFlight := σ.inFlight.filter fun q => q.req ∉ pbList σ.data }
    else τ
  | .free => { σ.release with pending := false }
  | .mprobe src tag =>
    { mprobe src tag { σ with writes := src ≠ E.procNull }.beginRound with place := .message }
  | .imrecv tag => { σ with place := .wrapper (mpiImrecvPB (E.peer σ.data.remote tag)) }

/-- The object is taken from the pool, and only inactive persistent requests are started. -/
def Allowed (σ : Life) : RoundOp → Prop
  | .setRunning _ => True
  | .progress q => q ∈ σ.inFlight
  | .post _ _ | .init _ | .mprobe _ _ => σ.place = .pool
  | .finish => ∃ w, σ.place = .wrapper w
  | .start => σ.place = .request ∧ σ.data.persistent = true ∧ σ.pending = false
  | .complete | .free => σ.place = .request
  | .cancel _ => σ.place = .request ∧ σ.pending = true
  | .imrecv _ => σ.place = .message

instance (σ : Life) : Decidable (∃ w, σ.place = .wrapper w) :=
  match h : σ.place with
  | .wrapper w => .isTrue ⟨w, rfl⟩
  | .pool | .message | .request => .isFalse fun ⟨_, hw⟩ => by cases hw

instance (σ : Life) : ∀ l, Decidable (σ.Allowed l)
  | .setRunning _ => inferInstanceAs (Decidable True)
  | .progress _ => inferInstanceAs (Decidable (_ ∈ _))
  | .post _ _ | .init _ | .mprobe _ _ | .complete | .free | .imrecv _ =>
    inferInstanceAs (Decidable (_ = _))
  | .finish => inferInstanceAs (Decidable (∃ w, σ.place = .wrapper w))
  | .start | .cancel _ => inferInstanceAs (Decidable (_ ∧ _))

def machine : Machine Life RoundOp where
  step := step E
  guard := Allowed

def listening (σ : Life) : Bool := σ.inFlight.any PbOp.writes

/-- The running flag agrees with the state of the piggyback:

* a nonblocking call that leaves its piggyback to `completePBHB` ends running only if it began so,
  and ends not running only if no piggyback is left to deliver values or the callback is set already;
* a persistent request that merges is completed while the tool is running exactly if it is active
  and was started so, and a wildcard receive only if it is active;
* requests are freed when no piggyback is left to deliver values;
* `MPI_Imrecv` finds no wildcard in the source of the message and its own `tag`. -/
def Steady (σ : Life) : RoundOp → Prop
  | .finish =>
    match σ.place with
    | .wrapper w =>
      if σ.running then w.callback = some .completePBHB → σ.began = true
      else σ.listening = true → σ.data.completionCallback ≠ none
    | _ => True
  | .complete =>
    match σ.data.completionCallback with
    | some (.complete .completePersPBHB) => σ.running = (σ.pending && σ.began)
    | some (.complete .completePBWC) => σ.running = true → σ.pending = true
    | _ => True
  | .free => σ.listening = false
  | .imrecv tag => E.peer σ.data.remote tag ≠ .wildcard
  | _ => True

instance (σ : Life) (l : RoundOp) : Decidable ((machine E).guard σ l) :=
  inferInstanceAs (Decidable (σ.Allowed l))

instance (σ : Life) (l : RoundOp) : Decidable (σ.Steady E l) := by
  unfold Steady
  split <;> first | infer_instance | split <;> infer_instance

/-- Every call of `MpiHappensAfter` was on values that a piggyback of the completed round
delivered. -/
def OwnRound (σ : Life) : Prop := ∀ m ∈ σ.merged, m.values.isSome ∧ m.values = m.round

instance (σ : Life) : Decidable σ.OwnRound := List.decidableBAll _ _

variable {E} {σ τ : Life}

/-! ## Values and operations in flight -/

/-- The values of the last round are in the object or on their way. -/
def Delivers (σ : Life) : Prop := σ.listening = true ∨ σ.values = some σ.round

/-- Values that are still to come are those of the last round, on the requests of the object. -/
structure Own (σ : Life) : Prop where
  round : ∀ q ∈ σ.inFlight, q.writes = true → q.round = σ.round ∧ q.req ∈ pbList σ.data
  writes : ∀ q ∈ σ.inFlight, q.req ∈ pbList σ.data → q.writes = σ.writes
  made : ∀ q ∈ σ.inFlight, q.req.id < σ.made
  reqs : ∀ r ∈ pbList σ.data, r.id < σ.made

theorem mem_pbList {d : PbData} {r : PbReq} :
    r ∈ pbList d ↔ d.pbReqs.1 = some r ∨ d.pbReqs.2 = some r := by
  simp [pbList]

theorem listening_iff : σ.listening = true ↔ ∃ q ∈ σ.inFlight, q.writes = true := List.any_eq_true

theorem listening_eq_false : σ.listening = false ↔ ∀ q ∈ σ.inFlight, q.writes = false := by
  simp [listening]

theorem not_writes (hidle : σ.listening = false) {q : PbOp} (hq : q ∈ σ.inFlight) :
    q.writes ≠ true :=
  Bool.eq_false_iff.mp (listening_eq_false.mp hidle q hq)

theorem written_eq {qs : List PbOp} {values : Option ℕ} {k : ℕ}
    (h : ∀ q ∈ qs, q.writes = true → q.round = k) :
    written qs values = if qs.any PbOp.writes then some k else values := by
  unfold written
  cases hf : qs.find? PbOp.writes with
  | none =>
    have hnone := List.find?_eq_none.mp hf
    rw [if_neg]
    rintro hany
    obtain ⟨q, hq, hw⟩ := List.any_eq_true.mp hany
    exact hnone q hq hw
  | some q =>
    have hq := List.mem_of_find?_eq_some hf
    have hw := List.find?_some hf
    rw [if_pos (List.any_eq_true.mpr ⟨q, hq, hw⟩), ← h q hq hw]

theorem Own.finishOps (h : σ.Own) (p : PbOp → Bool) : (σ.finishOps p).Own where
  round q hq := h.round q (List.mem_of_mem_filter hq)
  writes q hq := h.writes q (List.mem_of_mem_filter hq)
  made q hq := h.made q (List.mem_of_mem_filter hq)
  reqs := h.reqs

theorem Own.values_finishOps (h : σ.Own) (p : PbOp → Bool) :
    (σ.finishOps p).values = if (σ.inFlight.filter p).any PbOp.writes then some σ.round else σ.values :=
  written_eq fun q hq hw => (h.round q (List.mem_of_mem_filter hq) hw).1

theorem Own.delivers_finishOps (h : σ.Own) (p : PbOp → Bool) (hd : σ.Delivers) :
    (σ.finishOps p).Delivers := by
  by_cases hany : (σ.inFlight.filter p).any PbOp.writes
  · exact .inr (by rw [h.values_finishOps, if_pos hany]; rfl)
  rcases hd with hl | hv
  · obtain ⟨q, hq, hw⟩ := listening_iff.mp hl
    refine .inl (listening_iff.mpr ⟨q, List.mem_filter.mpr ⟨hq, ?_⟩, hw⟩)
    by_contra hp
    exact hany (List.any_eq_true.mpr ⟨q, List.mem_filter.mpr ⟨hq, by simpa using hp⟩, hw⟩)
  · exact .inr (by rw [h.values_finishOps, if_neg hany]; exact hv)

theorem listening_of_finishOps {p : PbOp → Bool} (h : (σ.finishOps p).listening = true) :
    σ.listening = true := by
  obtain ⟨q, hq, hw⟩ := listening_iff.mp h
  exact listening_iff.mpr ⟨q, List.mem_of_mem_filter hq, hw⟩

theorem Own.listening_waitPb (h : σ.Own) : σ.waitPb.listening = false := by
  refine listening_eq_false.mpr fun q hq => ?_
  obtain ⟨hq, hp⟩ := List.mem_filter.mp hq
  by_contra hw
  simp [(h.round q hq (by simpa using hw)).2] at hp

theorem mem_pbList_waitPb {r : PbReq} (h : r ∈ pbList σ.waitPb.data) : r ∈ pbList σ.data := by
  refine mem_pbList.mpr ((mem_pbList.mp h).imp ?_ ?_)
  · exact fun h => (Option.filter_eq_some_iff.mp h).1
  · exact fun h => (Option.filter_eq_some_iff.mp h).1

theorem Own.waitPb (h : σ.Own) : σ.waitPb.Own where
  round _ hq hw := absurd hw (not_writes h.listening_waitPb hq)
  writes q hq hr := h.writes q (List.mem_of_mem_filter hq) (mem_pbList_waitPb hr)
  made q hq := h.made q (List.mem_of_mem_filter hq)
  reqs r hr := h.reqs r (mem_pbList_waitPb hr)

theorem Own.values_waitPb (h : σ.Own) (hd : σ.Delivers) : σ.waitPb.values = some σ.round := by
  rcases h.delivers_finishOps (fun q => q.req ∈ pbList σ.data) hd with hl | hv
  · have hno : (σ.finishOps fun q => q.req ∈ pbList σ.data).listening = false := h.listening_waitPb
    rw [hl] at hno
    cases hno
  · exact hv

theorem Own.of_idle (hidle : σ.listening = false) (hreqs : ∀ q ∈ σ.inFlight, q.req ∉ pbList σ.data)
    (hmade : ∀ q ∈ σ.inFlight, q.req.id < σ.made) (hlt : ∀ r ∈ pbList σ.data, r.id < σ.made) :
    σ.Own where
  round _ hq hw := absurd hw (not_writes hidle hq)
  writes q hq hr := absurd hr (hreqs q hq)
  made := hmade
  reqs := hlt

theorem Own.of_no_reqs (hidle : σ.listening = false) (hreqs : σ.data.pbReqs = (none, none))
    (hmade : ∀ q ∈ σ.inFlight, q.req.id < σ.made) : σ.Own := by
  have hnone : ∀ r, r ∉ pbList σ.data := by simp [mem_pbList, hreqs]
  exact .of_idle hidle (fun q _ => hnone q.req) hmade fun r hr => absurd hr (hnone r)

/-! ## What the places of the object promise -/

structure Pooled (σ : Life) : Prop where
  idle : σ.listening = false
  completion : σ.data.completionCallback = none
  start : σ.data.startCallback = none
  reqs : σ.data.pbReqs = (none, none)

structure Wrapped (w : Nonblocking) (σ : Life) : Prop where
  pending : σ.pending = true
  waits : σ.listening = true →
    Buffers.Waits (Buffers.setCallbacks w.callback w.cancel σ.data).completionCallback
  early : σ.data.completionCallback = none ∨ Buffers.Waits σ.data.completionCallback
  delivers : w.callback = some .completePBHB → σ.began = true → σ.Delivers
  delivered : σ.data.completionCallback = some (.complete .completePBHB) → σ.Delivers
  once : w.callback ≠ some .completePersPBHB

variable (E) in
structure Probed (σ : Life) : Prop where
  pending : σ.pending = true
  completion : σ.data.completionCallback = none
  source : σ.listening = true → σ.data.remote ≠ E.procNull
  delivers : σ.began = true → σ.data.remote ≠ E.procNull → σ.Delivers

structure Once (σ : Life) : Prop where
  pending : σ.pending = true
  waits : σ.listening = true → Buffers.Waits σ.data.completionCallback
  delivers : σ.data.completionCallback = some (.complete .completePBHB) →
    σ.Delivers ∨ σ.data.cancelled = true
  once : σ.data.completionCallback ≠ some (.complete .completePersPBHB)

structure Paired (d : PbData) (writes : Bool) : Prop where
  starts : d.completionCallback = some (.complete .completePersPBHB) → writes = true ∧
    ∃ c r, d.startCallback = some (.start c) ∧ d.pbReqs.1 = some r ∧ r.persistent = true
  ends : ∀ c, d.startCallback = some (.start c) → writes = true →
    d.completionCallback = some (.complete .completePersPBHB)
  repeated : d.completionCallback ≠ some (.complete .completePBHB)

structure Repeated (σ : Life) : Prop where
  paired : Paired σ.data σ.writes
  waits : σ.listening = true → σ.data.completionCallback = some (.complete .completePersPBHB) ∧
    σ.pending = true ∧ σ.began = true
  delivers : σ.data.completionCallback = some (.complete .completePersPBHB) →
    σ.pending = true → σ.began = true → σ.Delivers ∨ σ.data.cancelled = true

variable (E) in
def Placed (σ : Life) : Prop :=
  match σ.place with
  | .pool => σ.Pooled
  | .wrapper w => σ.Wrapped w
  | .message => σ.Probed E
  | .request => if σ.data.persistent then σ.Repeated else σ.Once

variable (E) in
structure Inv (σ : Life) : Prop where
  own : σ.Own
  merged : σ.OwnRound
  placed : σ.Placed E

structure Sound (w : Nonblocking) (receives : Bool) : Prop where
  waits : w.posts = true →
    Buffers.Waits ((w.callback.map PbCallback.complete) <|> (w.early.map PbCallback.complete))
  early : ∀ c, w.early = some c → Buffers.Waits (some (.complete c))
  callback : w.callback = some .completePBHB → w.posts = true ∧ receives = true
  earlyCallback : w.early = some .completePBHB → w.posts = true ∧ receives = true
  once : w.callback ≠ some .completePersPBHB

theorem sound_pb (c : NbCall) : Sound (c.pb E) (c.receives E) := by
  cases c with
  | isend dest =>
    by_cases hd : dest = E.procNull <;>
      constructor <;> simp [NbCall.pb, mpiIsendPB, hd, Buffers.Waits]
  | irecv src tag =>
    cases hp : E.peer src tag <;>
      constructor <;> simp [NbCall.pb, mpiIrecvPB, hp, Buffers.Waits, NbCall.receives]
  | isendrecv dest src =>
    by_cases hs : src = E.procNull <;>
      constructor <;> simp [NbCall.pb, mpiIsendrecvPB, hs, Buffers.Waits, NbCall.receives]
  | ibcast => constructor <;> simp [NbCall.pb, mpiIcollBcastPB, Buffers.Waits, NbCall.receives]
  | iallreduce =>
    constructor <;> simp [NbCall.pb, mpiIcollAllreducePB, Buffers.Waits, NbCall.receives]
  | ireduce root =>
    cases root <;>
      constructor <;> simp [NbCall.pb, mpiIcollReducePB, Buffers.Waits, NbCall.receives]

/-- What a class of persistent operations needs for the same. -/
structure SoundInit (w : PersistentInit) (receives : Bool) : Prop where
  starts : w.callback = some .completePersPBHB →
    receives = true ∧ w.start.isSome = true ∧ w.request = true
  ends : w.start.isSome = true → receives = true → w.callback = some .completePersPBHB
  repeated : w.callback ≠ some .completePBHB

theorem soundInit_pb (c : InitCall) : SoundInit (c.pb E) c.receives := by
  cases c with
  | send dest =>
    by_cases hd : dest = E.procNull <;>
      constructor <;> simp [InitCall.pb, mpiSendInitPB, hd, InitCall.receives]
  | recv src tag =>
    cases hp : E.peer src tag <;>
      constructor <;> simp [InitCall.pb, mpiRecvInitPB, hp, InitCall.receives]
  | bcast root => constructor <;> simp [InitCall.pb, mpiCollBcastInitPB, InitCall.receives]
  | allreduce => constructor <;> simp [InitCall.pb, mpiCollAllreduceInitPB, InitCall.receives]
  | reduce root =>
    cases root <;> constructor <;> simp [InitCall.pb, mpiCollReduceInitPB, InitCall.receives]

/-! ## Steps that keep the owner -/

theorem Placed.mono (h : σ.Placed E) (hdata : τ.data = σ.data) (hplace : τ.place = σ.place)
    (hpending : τ.pending = σ.pending) (hbegan : τ.began = σ.began) (hwrites : τ.writes = σ.writes)
    (hl : τ.listening = true → σ.listening = true) (hd : σ.Delivers → τ.Delivers) :
    τ.Placed E := by
  unfold Placed at h ⊢
  rw [hplace, hdata]
  cases hp : σ.place with
  | pool =>
    rw [hp] at h
    refine ⟨?_, hdata ▸ h.completion, hdata ▸ h.start, hdata ▸ h.reqs⟩
    exact Bool.eq_false_iff.mpr fun hτ => by simp [h.idle] at hl; exact absurd hτ (by simp [hl])
  | wrapper w =>
    rw [hp] at h
    constructor
    · exact hpending ▸ h.pending
    · exact fun hτ => hdata ▸ h.waits (hl hτ)
    · exact hdata ▸ h.early
    · exact fun hw hb => hd (h.delivers hw (hbegan ▸ hb))
    · exact fun hc => hd (h.delivered (hdata ▸ hc))
    · exact h.once
  | message =>
    rw [hp] at h
    constructor
    · exact hpending ▸ h.pending
    · exact hdata ▸ h.completion
    · exact fun hτ => hdata ▸ h.source (hl hτ)
    · exact fun hb hr => hd (h.delivers (hbegan ▸ hb) (hdata ▸ hr))
  | request =>
    rw [hp] at h
    dsimp only at h ⊢
    split at h
    · rw [if_pos ‹_›]
      constructor
      · rw [hdata, hwrites]
        exact h.paired
      · rw [hdata, hpending, hbegan]
        exact fun hτ => h.waits (hl hτ)
      · rw [hdata, hpending, hbegan]
        exact fun hc hτ hb => (h.delivers hc hτ hb).imp_left hd
    · rw [if_neg ‹_›]
      constructor
      · exact hpending ▸ h.pending
      · exact fun hτ => hdata ▸ h.waits (hl hτ)
      · exact fun hc => by rw [hdata] at hc ⊢; exact (h.delivers hc).imp_left hd
      · exact hdata ▸ h.once

theorem Inv.setRunning (hi : σ.Inv E) (running : Bool) :
    ({ σ with running := running } : Life).Inv E where
  own := ⟨hi.own.round, hi.own.writes, hi.own.made, hi.own.reqs⟩
  merged := hi.merged
  placed := hi.placed.mono rfl rfl rfl rfl rfl id id

theorem Inv.finishOps (hi : σ.Inv E) (p : PbOp → Bool) : (σ.finishOps p).Inv E where
  own := hi.own.finishOps p
  merged := hi.merged
  placed := hi.placed.mono rfl rfl rfl rfl rfl listening_of_finishOps (hi.own.delivers_finishOps p)

/-! ## Completion -/

/-- What a completion callback leaves as it is. -/
structure Kept (σ τ : Life) : Prop where
  completion : τ.data.completionCallback = σ.data.completionCallback
  start : τ.data.startCallback = σ.data.startCallback
  reqs : ∀ r, r.persistent = true → σ.data.pbReqs.1 = some r → τ.data.pbReqs.1 = some r
  place : τ.place = σ.place
  persistent : τ.data.persistent = σ.data.persistent
  writes : τ.writes = σ.writes
  own : σ.Own → τ.Own
  listening : σ.Own → τ.listening = true → σ.listening = true

namespace Kept

theorem refl (σ : Life) : Kept σ σ :=
  ⟨rfl, rfl, fun _ _ h => h, rfl, rfl, rfl, id, fun _ h => h⟩

theorem trans {υ : Life} (h : Kept σ τ) (h' : Kept τ υ) : Kept σ υ where
  completion := h'.completion.trans h.completion
  start := h'.start.trans h.start
  reqs r hr hσ := h'.reqs r hr (h.reqs r hr hσ)
  place := h'.place.trans h.place
  persistent := h'.persistent.trans h.persistent
  writes := h'.writes.trans h.writes
  own ho := h'.own (h.own ho)
  listening ho hl := h.listening ho (h'.listening (h.own ho) hl)

theorem clearCancelled (σ : Life) : Kept σ σ.clearCancelled :=
  ⟨rfl, rfl, fun _ _ h => h, rfl, rfl, rfl, fun h => ⟨h.round, h.writes, h.made, h.reqs⟩, fun _ h => h⟩

theorem recvNow (σ : Life) : Kept σ σ.recvNow :=
  ⟨rfl, rfl, fun _ _ h => h, rfl, rfl, rfl, fun h => ⟨h.round, h.writes, h.made, h.reqs⟩, fun _ h => h⟩

theorem mpiHappensAfter (σ : Life) : Kept σ σ.mpiHappensAfter := by
  unfold Life.mpiHappensAfter
  split
  · exact ⟨rfl, rfl, fun _ _ h => h, rfl, rfl, rfl, fun h => ⟨h.round, h.writes, h.made, h.reqs⟩,
      fun _ h => h⟩
  · exact .refl σ

theorem waitPb (σ : Life) : Kept σ σ.waitPb where
  completion := rfl
  start := rfl
  reqs r hr hσ := Option.filter_eq_some_iff.mpr ⟨hσ, hr⟩
  place := rfl
  persistent := rfl
  writes := rfl
  own h := h.waitPb
  listening h hl := by simp [h.listening_waitPb] at hl

theorem mergeUnlessCancelled (σ : Life) : Kept σ σ.mergeUnlessCancelled := by
  unfold Life.mergeUnlessCancelled
  split
  · exact clearCancelled σ
  · exact mpiHappensAfter σ

theorem runCompletion (c : CompletionCallback) (σ : Life) : Kept σ (σ.runCompletion c) := by
  cases c with
  | completePBWC =>
    unfold Life.runCompletion
    dsimp only
    split
    · exact clearCancelled σ
    · exact (recvNow σ).trans (mpiHappensAfter _)
  | completePBHB => exact (waitPb σ).trans (mergeUnlessCancelled _)
  | completePBnoHB => exact (clearCancelled σ).trans (waitPb _)
  | completePersPBHB =>
    unfold Life.runCompletion
    dsimp only
    split
    · exact (waitPb σ).trans (mergeUnlessCancelled _)
    · exact .refl σ
  | completePersPBnoHB =>
    unfold Life.runCompletion
    dsimp only
    split
    · exact (clearCancelled σ).trans (waitPb _)
    · exact clearCancelled σ

theorem completeData (σ : Life) : Kept σ σ.completeData := by
  unfold Life.completeData
  split
  · exact runCompletion _ σ
  · exact .refl σ

theorem paired (h : Kept σ τ) (hp : Paired σ.data σ.writes) : Paired τ.data τ.writes where
  starts hc := by
    obtain ⟨hw, c, r, hstart, hr, hpers⟩ := hp.starts (h.completion ▸ hc)
    exact ⟨h.writes ▸ hw, c, r, h.start ▸ hstart, h.reqs r hpers hr, hpers⟩
  ends c hstart hw := h.completion ▸ hp.ends c (h.start ▸ hstart) (h.writes ▸ hw)
  repeated := h.completion ▸ hp.repeated

end Kept

theorem OwnRound.mpiHappensAfter (h : σ.OwnRound)
    (hv : σ.running = true → σ.pending = true ∧ σ.values = some σ.round) :
    σ.mpiHappensAfter.OwnRound := by
  unfold Life.mpiHappensAfter
  split
  case isFalse => exact h
  case isTrue hr =>
    obtain ⟨hpending, hvalues⟩ := hv hr
    intro m hm
    rcases List.mem_cons.mp hm with rfl | hm
    · simp [hpending, hvalues]
    · exact h m hm

/-- A wait that finds the values of the round, unless it is cancelled. -/
theorem OwnRound.waitPb_merge (h : σ.OwnRound) (ho : σ.Own)
    (hv : σ.running = true → σ.pending = true ∧ (σ.Delivers ∨ σ.data.cancelled = true)) :
    σ.waitPb.mergeUnlessCancelled.OwnRound := by
  unfold mergeUnlessCancelled
  split
  case isTrue => exact h
  case isFalse hc =>
    refine OwnRound.mpiHappensAfter h fun hr => ?_
    obtain ⟨hpending, hd | hcancelled⟩ := hv hr
    · exact ⟨hpending, ho.values_waitPb hd⟩
    · exact absurd hcancelled hc

theorem OwnRound.runCompletion (h : σ.OwnRound) (ho : σ.Own) {c : CompletionCallback}
    (hwait : c = .completePBHB ∨ c = .completePersPBHB → σ.running = true →
      σ.pending = true ∧ (σ.Delivers ∨ σ.data.cancelled = true))
    (hwildcard : c = .completePBWC → σ.running = true → σ.pending = true) :
    (σ.runCompletion c).OwnRound := by
  cases c with
  | completePBWC =>
    unfold Life.runCompletion
    dsimp only
    split
    · exact h
    · refine OwnRound.mpiHappensAfter h fun hr => ?_
      have hpending := hwildcard rfl hr
      exact ⟨hpending, by simp [recvNow, hpending]⟩
  | completePBHB => exact h.waitPb_merge ho (hwait (.inl rfl))
  | completePBnoHB => exact h
  | completePersPBHB =>
    unfold Life.runCompletion
    dsimp only
    split
    · exact h.waitPb_merge ho (hwait (.inr rfl))
    · exact h
  | completePersPBnoHB =>
    unfold Life.runCompletion
    dsimp only
    split <;> exact h

theorem completeData_cases (σ : Life) :
    (∃ c, σ.data.completionCallback = some (.complete c) ∧ σ.completeData = σ.runCompletion c) ∨
      (∀ c, σ.data.completionCallback ≠ some (.complete c)) ∧ σ.completeData = σ := by
  unfold completeData
  split
  case h_1 c hc => exact .inl ⟨c, hc, rfl⟩
  case h_2 hc => exact .inr ⟨hc, rfl⟩

theorem Own.listening_merge (h : σ.Own) : σ.waitPb.mergeUnlessCancelled.listening = false :=
  Bool.eq_false_iff.mpr fun hl =>
    have hwaited := (Kept.mergeUnlessCancelled σ.waitPb).listening h.waitPb hl
    Bool.false_ne_true (h.listening_waitPb.symm.trans hwaited)

/-- A callback that waits leaves nothing to come. -/
theorem Own.listening_completeData (h : σ.Own) (hw : Buffers.Waits σ.data.completionCallback) :
    σ.completeData.listening = false := by
  unfold Life.completeData
  rcases hw with hc | hc
  · rw [hc]
    exact h.listening_merge
  · rw [hc]
    exact ((Kept.clearCancelled σ).own h).listening_waitPb

theorem Once.completeData (h : σ.Once) (ho : σ.Own) (hm : σ.OwnRound) :
    σ.completeData.OwnRound ∧ σ.completeData.listening = false := by
  constructor
  · rcases σ.completeData_cases with ⟨c, hc, he⟩ | ⟨-, he⟩
    · rw [he]
      refine hm.runCompletion ho ?_ fun _ _ => h.pending
      rintro (rfl | rfl) -
      · exact ⟨h.pending, h.delivers hc⟩
      · exact absurd hc h.once
    · rwa [he]
  · refine Bool.eq_false_iff.mpr fun hl => ?_
    have hw := h.waits ((Kept.completeData σ).listening ho hl)
    rw [ho.listening_completeData hw] at hl
    cases hl

theorem Repeated.completeData (h : σ.Repeated) (ho : σ.Own) (hm : σ.OwnRound)
    (hs : σ.Steady E .complete) : σ.completeData.OwnRound ∧ σ.completeData.listening = false := by
  constructor
  · rcases σ.completeData_cases with ⟨c, hc, he⟩ | ⟨-, he⟩
    · rw [he]
      refine hm.runCompletion ho ?_ ?_
      · rintro (rfl | rfl) hr
        · exact absurd hc h.paired.repeated
        · -- The flag says that the request is active and was started running.
          simp only [Steady, hc, hr] at hs
          obtain ⟨hpending, hbegan⟩ := Bool.and_eq_true_iff.mp hs.symm
          exact ⟨hpending, h.delivers hc hpending hbegan⟩
      · rintro rfl hr
        simp only [Steady, hc] at hs
        exact hs hr
    · rwa [he]
  · refine Bool.eq_false_iff.mpr fun hl => ?_
    obtain ⟨hc, hpending, hbegan⟩ := h.waits ((Kept.completeData σ).listening ho hl)
    simp only [Steady, hc, hpending, hbegan, Bool.and_self] at hs
    simp only [Life.completeData, hc, runCompletion, hs, if_true, ho.listening_merge] at hl
    cases hl

theorem inv_release (ho : σ.Own) (hm : σ.OwnRound) (hidle : σ.listening = false) (pending : Bool) :
    ({ σ.release with pending := pending } : Life).Inv E where
  own := .of_no_reqs hidle rfl ho.made
  merged := hm
  placed := ⟨hidle, rfl, rfl, rfl⟩

theorem Inv.complete (hi : σ.Inv E) (hplace : σ.place = .request) (hs : σ.Steady E .complete) :
    (step E σ .complete).Inv E := by
  have hk := Kept.completeData σ
  have hplaced := hi.placed
  unfold Placed at hplaced
  rw [hplace] at hplaced
  unfold step
  dsimp only at hplaced ⊢
  split at hplaced
  case isTrue hp =>
    obtain ⟨hm, hidle⟩ := hplaced.completeData hi.own hi.merged hs
    rw [if_pos hp]
    have ho := hk.own hi.own
    refine ⟨⟨ho.round, ho.writes, ho.made, ho.reqs⟩, hm, ?_⟩
    unfold Placed
    dsimp only
    rw [hk.place, hplace, hk.persistent, if_pos hp]
    refine ⟨hk.paired hplaced.paired, ?_, fun _ h => Bool.noConfusion h⟩
    exact fun hl => absurd (hidle.symm.trans hl) Bool.false_ne_true
  case isFalse hp =>
    obtain ⟨hm, hidle⟩ := hplaced.completeData hi.own hi.merged
    rw [if_neg hp]
    exact inv_release (hk.own hi.own) hm hidle false

/-! ## Starting and ending requests -/

theorem Inv.free (hi : σ.Inv E) (hidle : σ.listening = false) : (step E σ .free).Inv E :=
  inv_release hi.own hi.merged hidle false

theorem step_cancel (σ : Life) (done : Bool) : ∃ qs, (∀ q ∈ qs, q ∈ σ.inFlight) ∧
    step E σ (.cancel done) =
      { σ with data := { σ.data with cancelled := true }, inFlight := qs } := by
  unfold step
  dsimp only
  split
  · exact ⟨_, fun q hq => List.mem_of_mem_filter hq, rfl⟩
  · exact ⟨σ.inFlight, fun q hq => hq, rfl⟩

theorem Inv.cancel (hi : σ.Inv E) (hplace : σ.place = .request) (done : Bool) :
    (step E σ (.cancel done)).Inv E := by
  obtain ⟨qs, hqs, he⟩ := step_cancel (E := E) σ done
  rw [he]
  have hl : qs.any PbOp.writes = true → σ.listening = true := fun h =>
    have ⟨q, hq, hw⟩ := List.any_eq_true.mp h
    listening_iff.mpr ⟨q, hqs q hq, hw⟩
  refine ⟨⟨fun q hq => hi.own.round q (hqs q hq), fun q hq => hi.own.writes q (hqs q hq),
    fun q hq => hi.own.made q (hqs q hq), hi.own.reqs⟩, hi.merged, ?_⟩
  have hplaced := hi.placed
  unfold Placed at hplaced ⊢
  dsimp only
  rw [hplace] at hplaced ⊢
  dsimp only at hplaced ⊢
  split at hplaced
  case isTrue hp =>
    rw [if_pos hp]
    obtain ⟨hstarts, hends, hrepeated⟩ := hplaced.paired
    exact ⟨⟨hstarts, hends, hrepeated⟩, fun h => hplaced.waits (hl h), fun _ _ _ => .inr rfl⟩
  case isFalse hp =>
    rw [if_neg hp]
    exact ⟨hplaced.pending, fun h => hplaced.waits (hl h), fun _ => .inr rfl, hplaced.once⟩

theorem Own.startPb (h : σ.Own) (hidle : σ.listening = false) : σ.startPb.Own where
  round q hq hw := by
    rcases List.mem_append.mp hq with hq | hq
    · obtain ⟨r, hr, rfl⟩ := List.mem_map.mp hq
      exact ⟨rfl, List.mem_of_mem_filter hr⟩
    · exact absurd hw (not_writes hidle hq)
  writes q hq hr := by
    rcases List.mem_append.mp hq with hq | hq
    · obtain ⟨r, -, rfl⟩ := List.mem_map.mp hq
      rfl
    · exact h.writes q hq hr
  made q hq := by
    rcases List.mem_append.mp hq with hq | hq
    · obtain ⟨r, hr, rfl⟩ := List.mem_map.mp hq
      exact h.reqs r (List.mem_of_mem_filter hr)
    · exact h.made q hq
  reqs := h.reqs

theorem Own.listening_startPb (h : σ.Own) (hidle : σ.listening = false) {r : PbReq}
    (hr : r ∈ pbList σ.data) (hw : σ.writes = true) : σ.startPb.listening = true := by
  refine listening_iff.mpr ⟨⟨r, σ.round, σ.writes⟩, List.mem_append_left _ ?_, hw⟩
  refine List.mem_map.mpr ⟨r, List.mem_filter.mpr ⟨hr, ?_⟩, rfl⟩
  -- An operation on `r` in flight would deliver values.
  refine List.all_eq_true.mpr fun q hq => decide_eq_true fun hqr => ?_
  exact not_writes hidle hq ((h.writes q hq (hqr ▸ hr)).trans hw)

theorem writes_of_startPb (hidle : σ.listening = false) (hl : σ.startPb.listening = true) :
    σ.writes = true := by
  obtain ⟨q, hq, hw⟩ := listening_iff.mp hl
  rcases List.mem_append.mp hq with hq | hq
  · obtain ⟨r, -, rfl⟩ := List.mem_map.mp hq
    exact hw
  · exact absurd hw (not_writes hidle hq)

theorem Own.beginRound (h : σ.Own) (hidle : σ.listening = false) : σ.beginRound.Own where
  round _ hq hw := absurd hw (not_writes hidle hq)
  writes := h.writes
  made := h.made
  reqs := h.reqs

theorem Repeated.beginRound (h : σ.Repeated) (hidle : σ.listening = false)
    (hno : σ.running = true → ∀ c, σ.data.startCallback ≠ some (.start c)) :
    σ.beginRound.Repeated where
  paired := h.paired
  waits hl := absurd (hidle.symm.trans hl) Bool.false_ne_true
  delivers hc _ hb := by
    obtain ⟨-, c, -, hc, -⟩ := h.paired.starts hc
    exact absurd hc (hno hb c)

theorem repeated_startPb (ho : σ.Own) (hp : Paired σ.data σ.writes) (hidle : σ.listening = false)
    (hpending : σ.pending = true) (hbegan : σ.began = true) {c : StartCallback}
    (hstart : σ.data.startCallback = some (.start c)) : σ.startPb.Repeated where
  paired := hp
  waits hl := ⟨hp.ends c hstart (writes_of_startPb hidle hl), hpending, hbegan⟩
  delivers hc _ _ := by
    obtain ⟨hw, -, r, -, hr, -⟩ := hp.starts hc
    exact .inl (.inl (ho.listening_startPb hidle (mem_pbList.mpr (.inl hr)) hw))

theorem inv_of_repeated (ho : σ.Own) (hm : σ.OwnRound) (hplace : σ.place = .request)
    (hp : σ.data.persistent = true) (h : σ.Repeated) : σ.Inv E := by
  refine ⟨ho, hm, ?_⟩
  unfold Placed
  rw [hplace, hp]
  exact h

theorem Inv.start (hi : σ.Inv E) (hplace : σ.place = .request) (hp : σ.data.persistent = true)
    (hpending : σ.pending = false) : (step E σ .start).Inv E := by
  have h : σ.Repeated := by simpa only [Placed, hplace, hp, if_true] using hi.placed
  have hidle : σ.listening = false := Bool.eq_false_iff.mpr fun hl =>
    Bool.false_ne_true (hpending.symm.trans (h.waits hl).2.1)
  have ho := hi.own.beginRound hidle
  unfold step startData
  dsimp only
  split
  case h_1 c hc =>
    unfold runStart
    split
    case isTrue hr =>
      refine inv_of_repeated ho hi.merged hplace hp (h.beginRound hidle fun hr' => ?_)
      simp [Life.beginRound, hr'] at hr
    case isFalse hr =>
      have hrunning : σ.beginRound.running = true := by simpa using hr
      have hbegan : σ.beginRound.began = true := hrunning
      -- `MpiHappensBefore` changes nothing but the values.
      have hstarted : ∀ τ : Life, τ.Own → τ.OwnRound → τ.place = .request →
          τ.data = σ.data → τ.writes = σ.writes → τ.listening = false → τ.pending = true →
          τ.began = true → τ.startPb.Inv E := by
        intro τ hτ hm hτplace hdata hwrites hτidle hτpending hτbegan
        refine inv_of_repeated (hτ.startPb hτidle) hm hτplace (hdata ▸ hp) ?_
        refine repeated_startPb hτ ?_ hτidle hτpending hτbegan (hdata ▸ hc)
        rw [hdata, hwrites]
        exact h.paired
      cases c with
      | startPersPBHB =>
        exact hstarted _ ⟨ho.round, ho.writes, ho.made, ho.reqs⟩ hi.merged hplace rfl rfl hidle rfl
          hbegan
      | startPersPBnoHB => exact hstarted _ ho hi.merged hplace rfl rfl hidle rfl hbegan
  case h_2 hc =>
    exact inv_of_repeated ho hi.merged hplace hp (h.beginRound hidle fun _ => hc)

/-! ## New owners -/

theorem Pooled.own_postOn (h : σ.Pooled) (hmade : ∀ q ∈ σ.inFlight, q.req.id < σ.made) :
    σ.postOn.Own := by
  have hlist : pbList σ.postOn.data = [⟨σ.made, false⟩] := by
    simp [pbList, postOn, makeRequest, h.reqs]
  constructor
  · intro q hq hw
    rcases List.mem_cons.mp hq with rfl | hq
    · exact ⟨rfl, by simp [hlist]⟩
    · exact absurd hw (not_writes h.idle hq)
  · intro q hq hr
    rcases List.mem_cons.mp hq with rfl | hq
    · rfl
    · rw [hlist, List.mem_singleton] at hr
      have := hmade q hq
      rw [hr] at this
      exact absurd this (lt_irrefl _)
  · intro q hq
    rcases List.mem_cons.mp hq with rfl | hq
    · exact Nat.lt_succ_self _
    · exact Nat.lt_succ_of_lt (hmade q hq)
  · intro r hr
    rw [hlist, List.mem_singleton] at hr
    rw [hr]
    exact Nat.lt_succ_self _

theorem Pooled.listening_postOn (h : σ.Pooled) : σ.postOn.listening = σ.writes := by
  have : σ.inFlight.any PbOp.writes = false := h.idle
  simp [listening, postOn, this]

/-- The callback that the constructor sets. -/
theorem completion_early {d : PbData} (h : d.completionCallback = none)
    (early : Option CompletionCallback) :
    (Buffers.setCallbacks early false d).completionCallback = early.map .complete := by
  simp [Buffers.setCallbacks, h]

/-- What the constructor of a class does with an object from the pool when the tool is running. -/
theorem Pooled.post (h : σ.Pooled) (hmade : ∀ q ∈ σ.inFlight, q.req.id < σ.made)
    {w : Nonblocking} (hw : Sound w σ.writes) (hpending : σ.pending = true) :
    ((if w.posts then σ.postOn else σ).modify (Buffers.setCallbacks w.early false)).Own ∧
      ((if w.posts then σ.postOn else σ).modify (Buffers.setCallbacks w.early false)).Wrapped w := by
  have hearly : w.early.map PbCallback.complete = none ∨
      Buffers.Waits (w.early.map PbCallback.complete) := by
    cases he : w.early with
    | none => exact .inl rfl
    | some c => exact .inr (hw.early c he)
  have hset : w.early.map PbCallback.complete = some (.complete .completePBHB) →
      w.early = some .completePBHB := by
    cases w.early <;> simp
  by_cases hposts : w.posts = true
  · rw [if_pos hposts]
    have hc := completion_early (d := σ.postOn.data) h.completion w.early
    have hl : (σ.postOn.modify (Buffers.setCallbacks w.early false)).listening = σ.writes :=
      h.listening_postOn
    obtain ⟨hround, hwrites, hlt, hreqs⟩ := h.own_postOn hmade
    refine ⟨⟨hround, hwrites, hlt, hreqs⟩, hpending, fun _ => ?_, hc ▸ hearly, ?_, ?_, hw.once⟩
    · have hlast := hw.waits hposts
      rw [← hc] at hlast
      exact hlast
    · exact fun hcallback _ => .inl (hl.trans (hw.callback hcallback).2)
    · intro hdone
      have hfirst := hset (hc.symm.trans hdone)
      exact .inl (hl.trans (hw.earlyCallback hfirst).2)
  · rw [if_neg hposts]
    have hc := completion_early h.completion w.early
    refine ⟨?_, hpending, ?_, hc ▸ hearly, ?_, ?_, hw.once⟩
    · exact .of_no_reqs h.idle h.reqs hmade
    · exact fun hl => absurd (h.idle.symm.trans hl) Bool.false_ne_true
    · exact fun hcallback => absurd (hw.callback hcallback).1 hposts
    · exact fun hdone => absurd (hw.earlyCallback (hset (hc.symm.trans hdone))).1 hposts

theorem Pooled.construct (h : σ.Pooled) (hmade : ∀ q ∈ σ.inFlight, q.req.id < σ.made)
    {w : Nonblocking} (hw : Sound w σ.writes) (hpending : σ.pending = true)
    (hbegan : σ.began = σ.running) (loads : Bool) :
    (σ.construct w loads).Own ∧ (σ.construct w loads).Wrapped w := by
  unfold Life.construct
  split
  case isTrue =>
    cases loads with
    | true =>
      have hloaded : σ.mpiHappensBefore.Pooled := ⟨h.idle, h.completion, h.start, h.reqs⟩
      exact hloaded.post hmade hw hpending
    | false => exact h.post hmade hw hpending
  case isFalse hr =>
    constructor
    · exact .of_no_reqs h.idle h.reqs hmade
    · refine ⟨hpending, ?_, .inl h.completion, ?_, ?_, hw.once⟩
      · exact fun hl => absurd (h.idle.symm.trans hl) Bool.false_ne_true
      · exact fun _ hb => absurd (hbegan.symm.trans hb) hr
      · exact fun hc => nomatch h.completion.symm.trans hc

theorem merged_construct (w : Nonblocking) (loads : Bool) (σ : Life) :
    (σ.construct w loads).merged = σ.merged := by
  unfold construct
  cases loads <;> cases w.posts <;> split <;> rfl

theorem Inv.post (hi : σ.Inv E) (hplace : σ.place = .pool) (c : NbCall) (root : Bool) :
    (step E σ (.post c root)).Inv E := by
  have h : σ.Pooled := by simpa only [Placed, hplace] using hi.placed
  have hbegun : ({ σ with writes := c.receives E } : Life).beginRound.Pooled :=
    ⟨h.idle, h.completion, h.start, h.reqs⟩
  obtain ⟨ho, hw⟩ := hbegun.construct hi.own.made (sound_pb c) rfl rfl (c.loads E root)
  refine ⟨⟨ho.round, ho.writes, ho.made, ho.reqs⟩, ?_, ?_⟩
  · rw [OwnRound, step]
    dsimp only
    rw [merged_construct]
    exact hi.merged
  · exact ⟨hw.pending, hw.waits, hw.early, hw.delivers, hw.delivered, hw.once⟩

theorem destruct_eq (w : Nonblocking) (σ : Life) : ∃ d, σ.destruct w = { σ with data := d } ∧
    d.pbReqs = σ.data.pbReqs ∧ d.persistent = false ∧
    d.completionCallback = if σ.running then
      (Buffers.setCallbacks w.callback w.cancel σ.data).completionCallback
      else σ.data.completionCallback := by
  unfold destruct
  dsimp only
  split <;> exact ⟨_, rfl, rfl, rfl, rfl⟩

theorem Inv.finish (hi : σ.Inv E) (hplace : ∃ w, σ.place = .wrapper w)
    (hs : σ.Steady E .finish) : (step E σ .finish).Inv E := by
  obtain ⟨w, hw⟩ := hplace
  have h : σ.Wrapped w := by simpa only [Placed, hw] using hi.placed
  simp only [Steady, hw] at hs
  obtain ⟨d, he, hreqs, hpers, hc⟩ := σ.destruct_eq w
  simp only [step, hw, he]
  have hlist : pbList d = pbList σ.data := by simp only [pbList, hreqs]
  refine ⟨⟨?_, ?_, hi.own.made, ?_⟩, hi.merged, ?_⟩
  · exact hlist ▸ hi.own.round
  · exact hlist ▸ hi.own.writes
  · exact hlist ▸ hi.own.reqs
  unfold Placed
  dsimp only
  rw [hpers]
  by_cases hr : σ.running = true
  · rw [if_pos hr] at hs hc
    refine ⟨h.pending, fun hl => hc ▸ h.waits hl, fun hdone => .inl ?_, fun hdone => ?_⟩
    · -- The callback is the one of the destructor or, without one, that of the constructor.
      cases hcb : w.callback with
      | none => exact h.delivered (by simpa [Buffers.setCallbacks, hcb] using hc.symm.trans hdone)
      | some c =>
        obtain rfl : c = .completePBHB := by
          simpa [Buffers.setCallbacks, hcb] using hc.symm.trans hdone
        exact h.delivers hcb (hs hcb)
    · cases hcb : w.callback with
      | none =>
        have hearly : σ.data.completionCallback = some (.complete .completePersPBHB) := by
          simpa [Buffers.setCallbacks, hcb] using hc.symm.trans hdone
        simpa [hearly, Buffers.Waits] using h.early
      | some c =>
        obtain rfl : c = .completePersPBHB := by
          simpa [Buffers.setCallbacks, hcb] using hc.symm.trans hdone
        exact h.once hcb
  · rw [if_neg hr] at hs hc
    refine ⟨h.pending, fun hl => ?_, fun hdone => .inl (h.delivered (hc ▸ hdone)), fun hdone => ?_⟩
    · exact hc ▸ h.early.resolve_left (hs hl)
    · have hearly := hc.symm.trans hdone
      simpa [hearly, Buffers.Waits] using h.early

theorem Pooled.initCall (h : σ.Pooled) (w : PersistentInit) : ∃ d n,
    initCall w σ = { σ with data := d, made := n } ∧ σ.made ≤ n ∧ d.persistent = true ∧
    d.completionCallback = w.callback.map .complete ∧ d.startCallback = w.start.map .start ∧
    (w.request = true → d.pbReqs.1 = some ⟨σ.made, true⟩) ∧
    ∀ r ∈ pbList d, r = ⟨σ.made, true⟩ ∧ n = σ.made + 1 := by
  unfold Life.initCall
  dsimp only
  split
  case isTrue hreq =>
    refine ⟨_, _, rfl, Nat.le_succ _, rfl, ?_, ?_, fun _ => rfl, ?_⟩
    · simp [makeRequest, modify, RequestData.init, Buffers.setCallbacks, h.completion]
    · simp [makeRequest, modify, RequestData.init, Buffers.setCallbacks, h.start]
    · intro r hr
      simp [mem_pbList, makeRequest, modify, RequestData.init, Buffers.setCallbacks, h.reqs] at hr
      exact ⟨hr.symm, rfl⟩
  case isFalse hreq =>
    refine ⟨_, _, rfl, le_refl _, rfl, ?_, ?_, fun h => absurd h hreq, ?_⟩
    · simp [modify, RequestData.init, Buffers.setCallbacks, h.completion]
    · simp [modify, RequestData.init, Buffers.setCallbacks, h.start]
    · intro r hr
      simp [mem_pbList, modify, RequestData.init, Buffers.setCallbacks, h.reqs] at hr

theorem Inv.init (hi : σ.Inv E) (hplace : σ.place = .pool) (c : InitCall) :
    (step E σ (.init c)).Inv E := by
  have h : σ.Pooled := by simpa only [Placed, hplace] using hi.placed
  have hw := soundInit_pb (E := E) c
  have hnew : ({ σ with writes := c.receives } : Life).Pooled :=
    ⟨h.idle, h.completion, h.start, h.reqs⟩
  obtain ⟨d, n, he, hn, hpers, hcompletion, hstart, hreq, hlist⟩ := hnew.initCall (c.pb E)
  simp only [step, he]
  have hown : ∀ q ∈ σ.inFlight, q.req ∉ pbList d := by
    intro q hq hr
    have hlt := hi.own.made q hq
    rw [(hlist _ hr).1] at hlt
    exact absurd hlt (lt_irrefl _)
  refine inv_of_repeated ?_ hi.merged rfl hpers ⟨⟨?_, ?_, ?_⟩, ?_, ?_⟩
  · refine .of_idle h.idle hown (fun q hq => lt_of_lt_of_le (hi.own.made q hq) hn) fun r hr => ?_
    obtain ⟨rfl, rfl⟩ := hlist r hr
    exact Nat.lt_succ_self _
  · intro hc
    obtain ⟨hreceives, hsome, hrequest⟩ := hw.starts (by simpa using hcompletion.symm.trans hc)
    obtain ⟨s, hs⟩ := Option.isSome_iff_exists.mp hsome
    exact ⟨hreceives, s, _, by rw [hstart, hs]; rfl, hreq hrequest, rfl⟩
  · intro s hs hreceives
    have hsome : (c.pb E).start.isSome = true := by
      have := hstart.symm.trans hs
      cases hcs : (c.pb E).start with
      | none => simp [hcs] at this
      | some _ => rfl
    rw [hcompletion, hw.ends hsome hreceives]
    rfl
  · exact fun hc => hw.repeated (by simpa using hcompletion.symm.trans hc)
  · exact fun hl => absurd (h.idle.symm.trans hl) Bool.false_ne_true
  · exact fun _ hpending => Bool.noConfusion hpending

theorem Inv.mprobe (hi : σ.Inv E) (hplace : σ.place = .pool) (src tag : ℤ) :
    (step E σ (.mprobe src tag)).Inv E := by
  have h : σ.Pooled := by simpa only [Placed, hplace] using hi.placed
  have hnew : (({ σ with writes := src ≠ E.procNull } : Life).beginRound.modify fun d =>
      { d.init d.handle false with remote := src, tag := tag }).Pooled :=
    ⟨h.idle, h.completion, h.start, h.reqs⟩
  simp only [step, Life.mprobe]
  split
  case isTrue hr =>
    have hown := hnew.own_postOn hi.own.made
    exact ⟨⟨hown.round, hown.writes, hown.made, hown.reqs⟩, hi.merged, rfl, h.completion,
      fun hl => of_decide_eq_true (hnew.listening_postOn.symm.trans hl),
      fun _ hsrc => .inl (hnew.listening_postOn.trans (decide_eq_true hsrc))⟩
  case isFalse hr =>
    refine ⟨?_, hi.merged, rfl, h.completion, ?_, ?_⟩
    · exact .of_no_reqs h.idle h.reqs hi.own.made
    · exact fun hl => absurd (h.idle.symm.trans hl) Bool.false_ne_true
    · exact fun hb _ => absurd hb hr

theorem Inv.imrecv (hi : σ.Inv E) (hplace : σ.place = .message) {tag : ℤ}
    (hs : σ.Steady E (.imrecv tag)) : (step E σ (.imrecv tag)).Inv E := by
  have h : σ.Probed E := by simpa only [Placed, hplace] using hi.placed
  refine ⟨⟨hi.own.round, hi.own.writes, hi.own.made, hi.own.reqs⟩, hi.merged, ?_⟩
  simp only [Steady] at hs
  change Life.Wrapped _ _
  cases hpeer : E.peer σ.data.remote tag with
  | wildcard => exact absurd hpeer hs
  | procNull =>
    have hnull : σ.data.remote = E.procNull := by
      by_contra hne
      simp only [Setting.peer, if_neg hne] at hpeer
      split at hpeer <;> cases hpeer
    constructor
    · exact h.pending
    · exact fun hl => absurd hnull (h.source hl)
    · exact .inl h.completion
    · exact fun hc => nomatch hc
    · exact fun hc => nomatch h.completion.symm.trans hc
    · exact fun hc => nomatch hc
  | specific =>
    have hnull : σ.data.remote ≠ E.procNull := by
      intro he
      simp [Setting.peer, he] at hpeer
    constructor
    · exact h.pending
    · exact fun _ => .inl rfl
    · exact .inl h.completion
    · exact fun _ hb => h.delivers hb hnull
    · exact fun hc => nomatch h.completion.symm.trans hc
    · exact fun hc => nomatch hc

theorem Inv.step (hi : σ.Inv E) {l : RoundOp} (hg : σ.Allowed l) (hs : σ.Steady E l) :
    (step E σ l).Inv E := by
  cases l with
  | setRunning running => exact hi.setRunning running
  | progress q => exact hi.finishOps _
  | post c root => exact hi.post hg c root
  | finish => exact hi.finish hg hs
  | init c => exact hi.init hg c
  | start => exact hi.start hg.1 hg.2.1 hg.2.2
  | complete => exact hi.complete hg hs
  | cancel done => exact hi.cancel hg.1 done
  | free => exact hi.free hs
  | mprobe src tag => exact hi.mprobe hg src tag
  | imrecv tag => exact hi.imrecv hg hs

theorem inv_new (running : Bool) : ({ running := running } : Life).Inv E where
  own := .of_no_reqs rfl rfl fun _ hq => absurd hq List.not_mem_nil
  merged _ hm := absurd hm List.not_mem_nil
  placed := ⟨rfl, rfl, rfl, rfl⟩

end Life

open Life in
/-- In runs where the running flag agrees with the piggybacks, `MpiHappensAfter` is called on
delivered values only. -/
theorem merges_own_round (E : Setting) (running : Bool) (ops : List RoundOp)
    (hv : (machine E).Valid { running := running } ops)
    (hs : (machine E).Along (Steady E) { running := running } ops) :
    ((machine E).run { running := running } ops).OwnRound := by
  have hboth := Machine.along_and.mpr ⟨hv, hs⟩
  have hi : ((machine E).run { running := running } ops).Inv E :=
    hboth.inv (I := fun σ => σ.Inv E) (fun _ _ hi h => hi.step h.1 h.2) (inv_new running)
  exact hi.merged

def pausedRounds : List RoundOp :=
  [.init (.recv 0 5), .start, .complete, .setRunning true, .start, .complete, .setRunning false,
    .complete, .setRunning true, .start, .progress ⟨⟨0, true⟩, 3, true⟩, .complete, .free,
    .post .ibcast false, .finish, .setRunning false, .setRunning true, .complete]

theorem merges_own_round_pausedRounds :
    ((Life.machine twoDatas).run {} pausedRounds).merged =
        [⟨some 4, some 4⟩, ⟨some 3, some 3⟩, ⟨some 2, some 2⟩] ∧
      ((Life.machine twoDatas).run {} pausedRounds).OwnRound :=
  ⟨by decide +kernel,
    merges_own_round twoDatas false pausedRounds (by decide +kernel) (by decide +kernel)⟩

def lateStart : List RoundOp := [.init (.recv 0 5), .start, .setRunning true, .complete]

/-- A round that is started before the tool and completed after, a wait on an inactive request, a
round whose piggyback is left to the next one, and a call in the middle of which the tool is started
on a used object. -/
def staleRuns : List (List RoundOp) :=
  [lateStart,
    [.setRunning true, .init (.recv 0 5), .start, .complete, .complete],
    [.setRunning true, .init .allreduce, .start, .setRunning false, .complete, .setRunning true,
      .start, .complete],
    [.setRunning true, .post (.irecv 0 5) false, .finish, .complete, .setRunning false,
      .post (.irecv 0 5) false, .setRunning true, .finish, .complete]]

theorem staleRuns_merge_stale : ∀ ops ∈ staleRuns,
    (Life.machine twoDatas).Valid {} ops ∧
      ¬ ((Life.machine twoDatas).run {} ops).OwnRound := by
  decide +kernel

theorem lateStart_merges_stale :
    (Life.machine twoDatas).Valid {} lateStart ∧
      ¬ ((Life.machine twoDatas).run {} lateStart).OwnRound :=
  staleRuns_merge_stale lateStart List.mem_cons_self

end CritPath.Tracking
