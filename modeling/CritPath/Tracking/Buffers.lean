import CritPath.Mpi.Piggyback
import CritPath.Tracking.HandleTable

/-!
# Piggyback buffers in flight

A pooled `RequestData` is the buffer of the piggyback operation on its `pb_reqs`.
Calls come one after the other, with the constructor and the destructor of their
piggyback class as steps of their own, so that calls of several threads may
overlap; the library completes operations at any time. Requests and messages are
named by their data object. The pool of messages gets objects of the pool of
requests (`mpiMprobePB`) and hands none out.

What the piggybacks carry, the calls of the application itself and the blocking
classes, whose `RequestData` is on the stack, are not part of this model.
-/

namespace CritPath.Tracking

open Lib

/-- A request of the library for a piggyback operation. -/
structure PbReq where
  id : ℕ
  persistent : Bool
  deriving DecidableEq

inductive PbCallback where
  | start (c : StartCallback)
  | complete (c : CompletionCallback)
  | cancelPB
  deriving DecidableEq

abbrev PbData := RequestData (Option PbReq) PbCallback Unit

/-- The number of data objects that `newDatas` makes, and the special ranks and tags. -/
structure Setting where
  ndatas : ℕ
  ndatas_pos : 0 < ndatas
  procNull : ℤ
  anySource : ℤ
  anyTag : ℤ

/-- What the receives distinguish of their `src` and `tag`. -/
inductive Peer where
  | procNull
  | wildcard
  | specific
  deriving DecidableEq

def Setting.peer (E : Setting) (src tag : ℤ) : Peer :=
  if src = E.procNull then .procNull
  else if src = E.anySource ∨ tag = E.anyTag then .wildcard
  else .specific

/-! ## The piggyback classes -/

/-- What a class of nonblocking operations does with its `RequestData` while the tool is running:
if its constructor posts the piggyback, and the callbacks that the constructor (`early`) and the
destructor set. -/
structure Nonblocking where
  posts : Bool
  early : Option CompletionCallback := none
  callback : Option CompletionCallback := none
  cancel : Bool := false
  deriving DecidableEq

inductive NbCall where
  | isend (dest : ℤ)
  | irecv (src tag : ℤ)
  | isendrecv (dest src : ℤ)
  | ibcast
  | iallreduce
  | ireduce (root : Bool)
  deriving DecidableEq

variable (E : Setting)

def mpiIsendPB (dest : ℤ) : Nonblocking :=
  if dest = E.procNull then { posts := false }
  else { posts := true, callback := some .completePBnoHB }

def mpiIrecvPB : Peer → Nonblocking
  | .procNull => { posts := false }
  | .wildcard => { posts := false, callback := some .completePBWC }
  | .specific => { posts := true, callback := some .completePBHB, cancel := true }

/-- `mpiIrecvPB` for a message. -/
def mpiImrecvPB (source : Peer) : Nonblocking := { mpiIrecvPB source with posts := false }

def mpiIsendrecvPB (dest src : ℤ) : Nonblocking where
  posts := !(src = E.procNull ∧ dest = E.procNull)
  callback := some (if src = E.procNull then .completePBnoHB else .completePBHB)
  cancel := true

def mpiIcollBcastPB : Nonblocking := { posts := true, callback := some .completePBHB }

def mpiIcollAllreducePB : Nonblocking := { posts := true, callback := some .completePBHB }

def mpiIcollReducePB (root : Bool) : Nonblocking :=
  { posts := true, early := some (if root then .completePBHB else .completePBnoHB) }

def NbCall.pb : NbCall → Nonblocking
  | .isend dest => mpiIsendPB E dest
  | .irecv src tag => mpiIrecvPB (E.peer src tag)
  | .isendrecv dest src => mpiIsendrecvPB E dest src
  | .ibcast => mpiIcollBcastPB
  | .iallreduce => mpiIcollAllreducePB
  | .ireduce root => mpiIcollReducePB root

/-- What a class of persistent operations does with its `RequestData`: if it makes a request for the
piggyback, and the callbacks. -/
structure PersistentInit where
  request : Bool := false
  start : Option StartCallback := none
  callback : Option CompletionCallback := none
  cancel : Bool := false

inductive InitCall where
  | send (dest : ℤ)
  | recv (src tag : ℤ)
  | bcast (root : Bool)
  | allreduce
  | reduce (root : Bool)
  deriving DecidableEq

def mpiSendInitPB (dest : ℤ) : PersistentInit :=
  if dest = E.procNull then {}
  else { request := true, start := some .startPersPBHB, callback := some .completePersPBnoHB }

def mpiRecvInitPB : Peer → PersistentInit
  | .procNull => {}
  | .wildcard => { callback := some .completePBWC }
  | .specific =>
    { request := true, start := some .startPersPBnoHB, callback := some .completePersPBHB
      cancel := true }

def mpiCollBcastInitPB (root : Bool) : PersistentInit where
  request := true
  start := some (if root then .startPersPBHB else .startPersPBnoHB)
  callback := some .completePersPBHB

def mpiCollAllreduceInitPB : PersistentInit :=
  { request := true, start := some .startPersPBHB, callback := some .completePersPBHB }

def mpiCollReduceInitPB (root : Bool) : PersistentInit where
  request := true
  start := some .startPersPBHB
  callback := some (if root then .completePersPBHB else .completePersPBnoHB)

def InitCall.pb : InitCall → PersistentInit
  | .send dest => mpiSendInitPB E dest
  | .recv src tag => mpiRecvInitPB (E.peer src tag)
  | .bcast root => mpiCollBcastInitPB root
  | .allreduce => mpiCollAllreduceInitPB
  | .reduce root => mpiCollReduceInitPB root

/-! ## Calls and the library -/

/-- A piggyback object between its constructor and its destructor. -/
inductive Wrapper where
  | nonblocking (w : Nonblocking) (o : ℕ)
  /-- `mpiRecvPB` for a message, with its copy of `pb_reqs`. -/
  | mrecv (source : Peer) (pbReqs : Option PbReq × Option PbReq)
  deriving DecidableEq

def Wrapper.owned : Wrapper → List ℕ
  | .nonblocking _ o => [o]
  | .mrecv _ _ => []

inductive BufferOp where
  /-- `startTool` and `stopTool`. -/
  | setRunning (running : Bool)
  /-- The library completes an operation. -/
  | progress (r : PbReq)
  | post (c : NbCall)
  | finish (w : Wrapper)
  | init (c : InitCall)
  | start (o : ℕ)
  | complete (o : ℕ)
  | cancel (o : ℕ)
  | free (o : ℕ)
  /-- `MPI_Mprobe`, and `MPI_Improbe` with a message. -/
  | mprobe (src tag : ℤ)
  | mrecv (o : ℕ)
  /-- `tag` is what the constructor leaves in the uninitialised member. -/
  | imrecv (o : ℕ) (tag : ℤ)
  deriving DecidableEq

structure Buffers where
  running : Bool := false
  rf : Pool := {}
  mf : List ℕ := []
  data : ℕ → PbData
  /-- Operations started and not completed, with the objects that are their buffers. -/
  active : List (PbReq × ℕ) := []
  made : ℕ := 0
  requests : List ℕ := []
  messages : List ℕ := []
  wrappers : List Wrapper := []

namespace Buffers

def start (memory : ℕ → PbData) : Buffers := { data := memory }

def modify (o : ℕ) (g : PbData → PbData) (σ : Buffers) : Buffers :=
  { σ with data := Function.update σ.data o (g (σ.data o)) }

def newData (σ : Buffers) : ℕ × Buffers :=
  let r := σ.rf.get E.ndatas
  (r.1,
    { σ with
      rf := r.2
      data := fun i => if σ.rf.count ≤ i ∧ i < r.2.count then .new none () else σ.data i })

/-- A new library request in `pb_reqs[0]`. -/
def makeRequest (persistent : Bool) (o : ℕ) (σ : Buffers) : Buffers :=
  modify o (fun d => { d with pbReqs := (some ⟨σ.made, persistent⟩, d.pbReqs.2) })
    { σ with made := σ.made + 1 }

/-- The library starts an operation; on `MPI_REQUEST_NULL` there is none. -/
def activate (r : Option PbReq) (o : ℕ) (σ : Buffers) : Buffers :=
  match r with
  | some r => { σ with active := (r, o) :: σ.active }
  | none => σ

/-- `PMPI_Isend`, `PMPI_Irecv` and the like on the values of `o`. -/
def postOn (o : ℕ) (σ : Buffers) : Buffers :=
  activate (some ⟨σ.made, false⟩) o (σ.makeRequest false o)

/-- The operations of both requests have completed. -/
def waitFor (reqs : Option PbReq × Option PbReq) (σ : Buffers) : Buffers :=
  { σ with active := σ.active.filter fun q => some q.1 ≠ reqs.1 ∧ some q.1 ≠ reqs.2 }

/-- A request that is not persistent is `MPI_REQUEST_NULL` after the wait. -/
def waited (r : Option PbReq) : Option PbReq := r.filter PbReq.persistent

/-- `PMPI_Wait(pb_reqs)` or `PMPI_Waitall(2, pb_reqs)`. -/
def waitPb (o : ℕ) (σ : Buffers) : Buffers :=
  let reqs := (σ.data o).pbReqs
  if reqs.2 = none then
    (σ.waitFor (reqs.1, none)).modify o fun d => { d with pbReqs := (waited reqs.1, none) }
  else
    (σ.waitFor reqs).modify o fun d => { d with pbReqs := (waited reqs.1, waited reqs.2) }

/-- `PMPI_Start(pb_reqs)` or `PMPI_Startall(2, pb_reqs)`. -/
def startPb (o : ℕ) (σ : Buffers) : Buffers :=
  let reqs := (σ.data o).pbReqs
  if reqs.2 = none then σ.activate reqs.1 o else (σ.activate reqs.1 o).activate reqs.2 o

def clearCancelled (o : ℕ) (σ : Buffers) : Buffers :=
  σ.modify o fun d => { d with cancelled := false }

/-- The completion callbacks. -/
def runCompletion (c : CompletionCallback) (o : ℕ) (σ : Buffers) : Buffers :=
  match c with
  -- The piggyback receive of a wildcard starts and completes here.
  | .completePBWC => σ.clearCancelled o
  | .completePBHB => (σ.waitPb o).clearCancelled o
  | .completePBnoHB => (σ.clearCancelled o).waitPb o
  | .completePersPBHB => if σ.running then (σ.waitPb o).clearCancelled o else σ
  | .completePersPBnoHB =>
    let σ := σ.clearCancelled o
    if σ.running then σ.waitPb o else σ

def completeData (o : ℕ) (σ : Buffers) : Buffers :=
  match (σ.data o).completionCallback with
  | some (.complete c) => σ.runCompletion c o
  | _ => σ

/-- `RequestData::start`; the start callbacks do nothing unless the tool is running. -/
def startData (o : ℕ) (σ : Buffers) : Buffers :=
  match (σ.data o).startCallback with
  | some (.start _) => if σ.running then σ.startPb o else σ
  | _ => σ

def release (o : ℕ) (σ : Buffers) : Buffers :=
  { σ.modify o (.fini none) with rf := σ.rf.put o }

/-- `setCompletionCallback` and `setCancelCallback`. -/
def setCallbacks (callback : Option CompletionCallback) (cancel : Bool) (d : PbData) : PbData :=
  { d with
    completionCallback := (callback.map .complete) <|> d.completionCallback
    cancelCallback := if cancel then some .cancelPB else d.cancelCallback }

/-- The constructor of a nonblocking class with its new object. -/
def construct (w : Nonblocking) (o : ℕ) (σ : Buffers) : Buffers :=
  if σ.running then
    (if w.posts then σ.postOn o else σ).modify o (setCallbacks w.early false)
  else σ

def postCall (w : Nonblocking) (σ : Buffers) : Buffers :=
  let r := σ.newData E
  let σ := r.2.construct w r.1
  { σ with wrappers := .nonblocking w r.1 :: σ.wrappers }

def destruct (w : Nonblocking) (o : ℕ) (σ : Buffers) : Buffers :=
  let σ := if σ.running then σ.modify o (setCallbacks w.callback w.cancel) else σ
  σ.modify o (.init none false)

def finishCall (w : Nonblocking) (o : ℕ) (σ : Buffers) : Buffers :=
  let σ := σ.destruct w o
  { σ with requests := o :: σ.requests }

def initCall (w : PersistentInit) (σ : Buffers) : Buffers :=
  let r := σ.newData E
  let σ := r.2.modify r.1 fun d =>
    { setCallbacks w.callback w.cancel d with
      startCallback := (w.start.map .start) <|> d.startCallback }
  let σ := if w.request then σ.makeRequest true r.1 else σ
  let σ := σ.modify r.1 (.init none true)
  { σ with requests := r.1 :: σ.requests }

/-- The destructor of `mpiMprobePB`. -/
def mprobe (src tag : ℤ) (σ : Buffers) : Buffers :=
  let r := σ.newData E
  let σ := r.2.modify r.1 fun d => { d.init d.handle false with remote := src, tag := tag }
  let σ := { σ with messages := r.1 :: σ.messages }
  if σ.running then σ.postOn r.1 else σ

def step (σ : Buffers) : BufferOp → Buffers
  | .setRunning running => { σ with running := running }
  | .progress r => σ.waitFor (some r, none)
  | .post c => σ.postCall E (c.pb E)
  | .finish w =>
    let σ := { σ with wrappers := σ.wrappers.erase w }
    match w with
    | .nonblocking w o => σ.finishCall w o
    | .mrecv source pbReqs =>
      if σ.running ∧ source = .specific then σ.waitFor pbReqs else σ
  | .init c => σ.initCall E (c.pb E)
  | .start o => σ.startData o
  | .complete o =>
    if (σ.data o).persistent then σ.completeData o
    else release o { σ.completeData o with requests := σ.requests.erase o }
  -- `cancelPB` asks the library to complete the operations.
  | .cancel o => σ.modify o fun d => { d with cancelled := true }
  | .free o => release o { σ with requests := σ.requests.erase o }
  | .mprobe src tag => σ.mprobe E src tag
  | .mrecv o =>
    let copy := if σ.running then σ.data o else .new none ()
    let σ := σ.modify o (.fini none)
    { σ with
      messages := σ.messages.erase o
      mf := o :: σ.mf
      wrappers := .mrecv (E.peer copy.remote copy.tag) copy.pbReqs :: σ.wrappers }
  | .imrecv o tag =>
    let w := mpiImrecvPB (E.peer (σ.data o).remote tag)
    { σ with
      messages := σ.messages.erase o
      wrappers := .nonblocking w o :: σ.wrappers }

/-- Calls are on requests and messages that the application has, and only persistent requests are
started. -/
def Allowed (σ : Buffers) : BufferOp → Prop
  | .finish w => w ∈ σ.wrappers
  | .start o => o ∈ σ.requests ∧ (σ.data o).persistent = true
  | .complete o | .cancel o | .free o => o ∈ σ.requests
  | .mrecv o | .imrecv o _ => o ∈ σ.messages
  | .setRunning _ | .progress _ | .post _ | .init _ | .mprobe _ _ => True

def machine : Machine Buffers BufferOp where
  step := step E
  guard := Allowed

/-- An operation on the values of `o` has been started and has not completed. -/
def Busy (σ : Buffers) (o : ℕ) : Prop := ∃ q ∈ σ.active, q.2 = o

/-- Requests and messages are freed and received by `MPI_Mrecv` when their piggyback has completed;
where it has not at the end of a nonblocking call the tool is running, and the test of `MPI_Imrecv`
comes out for a specific source and tag. -/
def Settles (σ : Buffers) : BufferOp → Prop
  | .free o | .mrecv o => ¬ σ.Busy o
  | .finish (.nonblocking _ o) => σ.Busy o → σ.running = true
  | .imrecv o tag => σ.Busy o → E.peer (σ.data o).remote tag = .specific
  | _ => True

variable {E} {σ σ' : Buffers} {hand hand' : List ℕ} {o : ℕ}

def out (σ : Buffers) : List ℕ :=
  σ.requests ++ σ.messages ++ σ.wrappers.flatMap Wrapper.owned

/-- A completion callback that waits for the piggyback in any state of the tool. -/
def Waits (c : Option PbCallback) : Prop :=
  c = some (.complete .completePBHB) ∨ c = some (.complete .completePBnoHB)

def HasReq (d : PbData) (r : PbReq) : Prop := d.pbReqs.1 = some r ∨ d.pbReqs.2 = some r

/-- The operations on the values of `o` are on its `pb_reqs`, and what completes a request that is
not persistent will wait for them. -/
structure Fits (σ : Buffers) (o : ℕ) : Prop where
  reqs : ∀ q ∈ σ.active, q.2 = o → HasReq (σ.data o) q.1
  request : o ∈ σ.requests → σ.Busy o →
    (σ.data o).persistent = true ∨ Waits (σ.data o).completionCallback
  wrapper : ∀ w, .nonblocking w o ∈ σ.wrappers → σ.Busy o →
    Waits (setCallbacks w.callback w.cancel (σ.data o)).completionCallback

/-- The buffers are in use, where `hand` are objects that a call has in its hands. -/
structure Inv (σ : Buffers) (hand : List ℕ) : Prop where
  accounts : σ.rf.Accounts (σ.mf ++ (hand ++ σ.out))
  active : ∀ q ∈ σ.active, q.2 ∈ hand ++ σ.out
  fits : ∀ o, σ.Fits o

theorem Fits.of_not_busy (h : ¬ σ.Busy o) : σ.Fits o where
  reqs q hq ho := absurd ⟨q, hq, ho⟩ h
  request _ hb := absurd hb h
  wrapper _ _ hb := absurd hb h

/-- Nothing about `o` has changed but that operations completed and calls let go of it. -/
theorem Fits.mono (h : σ.Fits o) (hdata : σ'.data o = σ.data o)
    (hactive : ∀ q ∈ σ'.active, q.2 = o → q ∈ σ.active)
    (hrequests : o ∈ σ'.requests → o ∈ σ.requests)
    (hwrappers : ∀ w, .nonblocking w o ∈ σ'.wrappers → .nonblocking w o ∈ σ.wrappers) :
    σ'.Fits o := by
  have hbusy : σ'.Busy o → σ.Busy o := fun ⟨q, hq, ho⟩ => ⟨q, hactive q hq ho, ho⟩
  constructor
  · intro q hq ho
    rw [hdata]
    exact h.reqs q (hactive q hq ho) ho
  · intro hr hb
    rw [hdata]
    exact h.request (hrequests hr) (hbusy hb)
  · intro w hw hb
    rw [hdata]
    exact h.wrapper w (hwrappers w hw) (hbusy hb)

theorem Inv.nodup (hi : σ.Inv hand) : (hand ++ σ.out).Nodup :=
  (List.nodup_append.mp hi.accounts.out_nodup).2.1

theorem Inv.mem_of_busy (hi : σ.Inv hand) (hb : σ.Busy o) : o ∈ hand ++ σ.out := by
  obtain ⟨q, hq, rfl⟩ := hb
  exact hi.active q hq

theorem Inv.lt_of_busy (hi : σ.Inv hand) (hb : σ.Busy o) : o < σ.rf.count :=
  hi.accounts.lt_count (List.mem_append_right _ (hi.mem_of_busy hb))

theorem mem_out_of_wrapper {w : Nonblocking} (hw : .nonblocking w o ∈ σ.wrappers) :
    o ∈ σ.wrappers.flatMap Wrapper.owned :=
  List.mem_flatMap.mpr ⟨_, hw, List.mem_singleton.mpr rfl⟩

theorem Inv.not_out_of_hand (hi : σ.Inv (o :: hand)) : o ∉ σ.out := fun hout =>
  (List.nodup_append.mp hi.nodup).2.2 o (List.mem_cons_self ..) o hout rfl

theorem Inv.not_request_of_hand (hi : σ.Inv (o :: hand)) : o ∉ σ.requests := fun hr =>
  hi.not_out_of_hand (List.mem_append_left _ (List.mem_append_left _ hr))

theorem Inv.not_wrapper_of_hand (hi : σ.Inv (o :: hand)) (w : Nonblocking) :
    .nonblocking w o ∉ σ.wrappers := fun hw =>
  hi.not_out_of_hand (List.mem_append_right _ (mem_out_of_wrapper hw))

theorem Inv.not_wrapper_of_request (hi : σ.Inv hand) (hr : o ∈ σ.requests) (w : Nonblocking) :
    .nonblocking w o ∉ σ.wrappers := fun hw =>
  (List.nodup_append.mp (List.nodup_append.mp hi.nodup).2.1).2.2 o (List.mem_append_left _ hr) o
    (mem_out_of_wrapper hw) rfl

/-! ## Steps on one object -/

/-- A step changes nothing but the data of `o` and the operations on it, and may complete others. -/
structure Only (o : ℕ) (σ σ' : Buffers) : Prop where
  rf : σ'.rf = σ.rf
  mf : σ'.mf = σ.mf
  requests : σ'.requests = σ.requests
  messages : σ'.messages = σ.messages
  wrappers : σ'.wrappers = σ.wrappers
  data : ∀ i, i ≠ o → σ'.data i = σ.data i
  active : ∀ q ∈ σ'.active, q.2 ≠ o → q ∈ σ.active

namespace Only

theorem refl (o : ℕ) (σ : Buffers) : Only o σ σ :=
  ⟨rfl, rfl, rfl, rfl, rfl, fun _ _ => rfl, fun _ hq _ => hq⟩

theorem trans {σ₁ : Buffers} (h : Only o σ σ₁) (h' : Only o σ₁ σ') : Only o σ σ' where
  rf := h'.rf.trans h.rf
  mf := h'.mf.trans h.mf
  requests := h'.requests.trans h.requests
  messages := h'.messages.trans h.messages
  wrappers := h'.wrappers.trans h.wrappers
  data i hi := (h'.data i hi).trans (h.data i hi)
  active q hq hne := h.active q (h'.active q hq hne) hne

theorem modify (o : ℕ) (g : PbData → PbData) (σ : Buffers) : Only o σ (σ.modify o g) :=
  ⟨rfl, rfl, rfl, rfl, rfl, fun _ hi => Function.update_of_ne hi .., fun _ hq _ => hq⟩

theorem clearCancelled (o : ℕ) (σ : Buffers) : Only o σ (σ.clearCancelled o) := modify o _ σ

theorem waitFor (o : ℕ) (reqs : Option PbReq × Option PbReq) (σ : Buffers) :
    Only o σ (σ.waitFor reqs) :=
  ⟨rfl, rfl, rfl, rfl, rfl, fun _ _ => rfl, fun _ hq _ => List.mem_of_mem_filter hq⟩

theorem activate (r : Option PbReq) (o : ℕ) (σ : Buffers) : Only o σ (σ.activate r o) := by
  cases r with
  | none => exact .refl o σ
  | some r =>
    refine ⟨rfl, rfl, rfl, rfl, rfl, fun _ _ => rfl, fun q hq hne => ?_⟩
    rcases List.mem_cons.mp hq with rfl | hq
    · exact absurd rfl hne
    · exact hq

theorem makeRequest (persistent : Bool) (o : ℕ) (σ : Buffers) :
    Only o σ (σ.makeRequest persistent o) :=
  ⟨rfl, rfl, rfl, rfl, rfl, fun _ hi => Function.update_of_ne hi .., fun _ hq _ => hq⟩

theorem postOn (o : ℕ) (σ : Buffers) : Only o σ (σ.postOn o) :=
  (makeRequest false o σ).trans (activate _ o _)

theorem waitPb (o : ℕ) (σ : Buffers) : Only o σ (σ.waitPb o) := by
  unfold Buffers.waitPb
  dsimp only
  split <;> exact (waitFor o _ σ).trans (modify o _ _)

theorem startPb (o : ℕ) (σ : Buffers) : Only o σ (σ.startPb o) := by
  unfold Buffers.startPb
  dsimp only
  split
  · exact activate _ o σ
  · exact (activate _ o σ).trans (activate _ o _)

theorem runCompletion (c : CompletionCallback) (o : ℕ) (σ : Buffers) :
    Only o σ (σ.runCompletion c o) := by
  cases c with
  | completePBWC => exact clearCancelled o σ
  | completePBHB => exact (waitPb o σ).trans (clearCancelled o _)
  | completePBnoHB => exact (clearCancelled o σ).trans (waitPb o _)
  | completePersPBHB =>
    unfold Buffers.runCompletion
    dsimp only
    split
    · exact (waitPb o σ).trans (clearCancelled o _)
    · exact .refl o σ
  | completePersPBnoHB =>
    unfold Buffers.runCompletion
    dsimp only
    split
    · exact (clearCancelled o σ).trans (waitPb o _)
    · exact clearCancelled o σ

theorem completeData (o : ℕ) (σ : Buffers) : Only o σ (σ.completeData o) := by
  unfold Buffers.completeData
  split
  · exact runCompletion _ o σ
  · exact .refl o σ

theorem out_eq (h : Only o σ σ') : σ'.out = σ.out := by
  unfold out
  rw [h.requests, h.messages, h.wrappers]

end Only

theorem Inv.only (hi : σ.Inv hand) (h : Only o σ σ') (ho : σ'.Busy o → o ∈ hand ++ σ.out)
    (hfits : σ'.Fits o) : σ'.Inv hand := by
  refine ⟨?_, ?_, ?_⟩
  · rw [h.rf, h.mf, h.out_eq]
    exact hi.accounts
  · intro q hq
    rw [h.out_eq]
    by_cases hqo : q.2 = o
    · rw [hqo]
      exact ho ⟨q, hq, hqo⟩
    · exact hi.active q (h.active q hq hqo)
  · intro i
    by_cases hio : i = o
    · rw [hio]
      exact hfits
    · refine (hi.fits i).mono (h.data i hio) (fun q hq hqi => h.active q hq (hqi ▸ hio)) ?_ ?_
      · exact fun hr => h.requests ▸ hr
      · exact fun w hw => h.wrappers ▸ hw

/-- An object that no operation uses may change in any way. -/
theorem Inv.only_idle (hi : σ.Inv hand) (h : Only o σ σ') (hidle : ¬ σ'.Busy o) : σ'.Inv hand :=
  hi.only h (fun hb => absurd hb hidle) (.of_not_busy hidle)

/-- An object in hand has to keep its requests. -/
theorem Inv.only_hand (hi : σ.Inv (o :: hand)) (h : Only o σ σ')
    (hreqs : ∀ q ∈ σ'.active, q.2 = o → HasReq (σ'.data o) q.1) : σ'.Inv (o :: hand) := by
  refine hi.only h (fun _ => List.mem_append_left _ (List.mem_cons_self ..)) ⟨hreqs, ?_, ?_⟩
  · exact fun hr => absurd (h.requests ▸ hr) hi.not_request_of_hand
  · exact fun w hw => absurd (h.wrappers ▸ hw) (hi.not_wrapper_of_hand w)

@[simp] theorem data_modify_self (o : ℕ) (g : PbData → PbData) (σ : Buffers) :
    (σ.modify o g).data o = g (σ.data o) := Function.update_self ..

theorem Inv.modify_hand (hi : σ.Inv (o :: hand)) (g : PbData → PbData)
    (hg : ∀ d, (g d).pbReqs = d.pbReqs) : (σ.modify o g).Inv (o :: hand) := by
  refine hi.only_hand (.modify o g σ) fun q hq ho => ?_
  rw [data_modify_self, HasReq, hg]
  exact (hi.fits o).reqs q hq ho

theorem Inv.waitFor (hi : σ.Inv hand) (reqs : Option PbReq × Option PbReq) :
    (σ.waitFor reqs).Inv hand where
  accounts := hi.accounts
  active q hq := hi.active q (List.mem_of_mem_filter hq)
  fits o := (hi.fits o).mono rfl (fun _ hq _ => List.mem_of_mem_filter hq) id fun _ => id

theorem reqs_postOn (hidle : ¬ σ.Busy o) :
    ∀ q ∈ (σ.postOn o).active, q.2 = o → HasReq ((σ.postOn o).data o) q.1 := by
  intro q hq ho
  rcases List.mem_cons.mp hq with rfl | hq
  · refine .inl ?_
    simp [Buffers.postOn, Buffers.activate, Buffers.makeRequest]
  · exact absurd ⟨q, hq, ho⟩ hidle

theorem Inv.postOn (hi : σ.Inv (o :: hand)) (hidle : ¬ σ.Busy o) :
    (σ.postOn o).Inv (o :: hand) :=
  hi.only_hand (.postOn o σ) (reqs_postOn hidle)

/-! ## Objects that change hands -/

theorem Inv.pass (hi : σ.Inv hand) (hrf : σ'.rf = σ.rf) (hmf : σ'.mf = σ.mf)
    (hactive : σ'.active = σ.active) (hp : (hand ++ σ.out).Perm (hand' ++ σ'.out))
    (hfits : ∀ i, σ'.Fits i) : σ'.Inv hand' := by
  refine ⟨?_, fun q hq => ?_, hfits⟩
  · rw [hrf, hmf]
    exact hi.accounts.of_perm (hp.append_left σ.mf)
  · exact hp.mem_iff.mp (hi.active q (hactive ▸ hq))

theorem Inv.newData (hi : σ.Inv hand) :
    (σ.newData E).2.Inv ((σ.newData E).1 :: hand) ∧ ¬ σ.Busy (σ.newData E).1 := by
  have hacc : (σ.rf.get E.ndatas).2.Accounts
      ((σ.rf.get E.ndatas).1 :: (σ.mf ++ (hand ++ σ.out))) := hi.accounts.get E.ndatas_pos
  have hidle : ¬ σ.Busy (σ.rf.get E.ndatas).1 := fun hb =>
    (List.nodup_cons.mp hacc.out_nodup).1 (List.mem_append_right _ (hi.mem_of_busy hb))
  refine ⟨⟨hacc.of_perm List.perm_middle.symm, fun q hq => ?_, fun i => ?_⟩, hidle⟩
  · exact List.mem_cons_of_mem _ (hi.active q hq)
  · by_cases hb : σ.Busy i
    · have hold : ((σ.newData E).2).data i = σ.data i :=
        if_neg fun h => Nat.not_lt.mpr h.1 (hi.lt_of_busy hb)
      exact (hi.fits i).mono hold (fun _ hq _ => hq) id fun _ => id
    · exact .of_not_busy (σ := (σ.newData E).2) hb

theorem perm_pass {a b : List ℕ} (h : b.Perm (o :: a)) : (o :: hand ++ a).Perm (hand ++ b) :=
  List.perm_middle.symm.trans (h.append_left hand).symm

theorem Inv.addRequest (hi : σ.Inv (o :: hand))
    (ho : σ.Busy o → (σ.data o).persistent = true ∨ Waits (σ.data o).completionCallback) :
    Inv { σ with requests := o :: σ.requests } hand := by
  refine hi.pass rfl rfl rfl (perm_pass (.refl _)) fun i => ?_
  refine ⟨(hi.fits i).reqs, fun hr hb => ?_, (hi.fits i).wrapper⟩
  rcases List.mem_cons.mp hr with rfl | hr
  · exact ho hb
  · exact (hi.fits i).request hr hb

theorem Inv.addMessage (hi : σ.Inv (o :: hand)) :
    Inv { σ with messages := o :: σ.messages } hand := by
  have hout : (out { σ with messages := o :: σ.messages }).Perm (o :: σ.out) :=
    List.perm_middle.append_right _
  exact hi.pass rfl rfl rfl (perm_pass hout) fun i =>
    (hi.fits i).mono rfl (fun _ hq _ => hq) id fun _ => id

theorem Inv.addWrapper {w : Nonblocking} (hi : σ.Inv (o :: hand))
    (hw : σ.Busy o → Waits (setCallbacks w.callback w.cancel (σ.data o)).completionCallback) :
    Inv { σ with wrappers := .nonblocking w o :: σ.wrappers } hand := by
  have hout : (out { σ with wrappers := .nonblocking w o :: σ.wrappers }).Perm (o :: σ.out) :=
    List.perm_middle
  refine hi.pass rfl rfl rfl (perm_pass hout) fun i => ?_
  refine ⟨(hi.fits i).reqs, (hi.fits i).request, fun w' hw' hb => ?_⟩
  rcases List.mem_cons.mp hw' with heq | hw'
  · cases heq
    exact hw hb
  · exact (hi.fits i).wrapper w' hw' hb

theorem Inv.dropRequest (hi : σ.Inv hand) (hr : o ∈ σ.requests) :
    Inv { σ with requests := σ.requests.erase o } (o :: hand) := by
  have hout : σ.out.Perm (o :: out { σ with requests := σ.requests.erase o }) :=
    ((List.perm_cons_erase hr).append_right _).append_right _
  exact hi.pass rfl rfl rfl (perm_pass hout).symm fun i =>
    (hi.fits i).mono rfl (fun _ hq _ => hq) List.mem_of_mem_erase fun _ => id

theorem Inv.dropMessage (hi : σ.Inv hand) (hm : o ∈ σ.messages) :
    Inv { σ with messages := σ.messages.erase o } (o :: hand) := by
  have hmessages : (σ.requests ++ σ.messages).Perm (o :: (σ.requests ++ σ.messages.erase o)) :=
    ((List.perm_cons_erase hm).append_left _).trans List.perm_middle
  have hout : σ.out.Perm (o :: out { σ with messages := σ.messages.erase o }) :=
    hmessages.append_right _
  exact hi.pass rfl rfl rfl (perm_pass hout).symm fun i =>
    (hi.fits i).mono rfl (fun _ hq _ => hq) id fun _ => id

theorem Inv.dropWrapper {w : Nonblocking} (hi : σ.Inv hand)
    (hw : .nonblocking w o ∈ σ.wrappers) :
    Inv { σ with wrappers := σ.wrappers.erase (.nonblocking w o) } (o :: hand) := by
  have hwrappers : (σ.wrappers.flatMap Wrapper.owned).Perm
      (o :: (σ.wrappers.erase (.nonblocking w o)).flatMap Wrapper.owned) :=
    (List.perm_cons_erase hw).flatMap_right _
  have hout : σ.out.Perm (o :: out { σ with wrappers := σ.wrappers.erase (.nonblocking w o) }) :=
    (hwrappers.append_left _).trans List.perm_middle
  exact hi.pass rfl rfl rfl (perm_pass hout).symm fun i =>
    (hi.fits i).mono rfl (fun _ hq _ => hq) id fun _ => List.mem_of_mem_erase

/-- `mpiRecvPB` has a copy and no object. -/
theorem Inv.addCopy (hi : σ.Inv hand) (source : Peer) (pbReqs : Option PbReq × Option PbReq) :
    Inv { σ with wrappers := .mrecv source pbReqs :: σ.wrappers } hand := by
  refine hi.pass rfl rfl rfl (.refl _) fun i =>
    (hi.fits i).mono rfl (fun _ hq _ => hq) id fun w hw => ?_
  rcases List.mem_cons.mp hw with heq | hw
  · cases heq
  · exact hw

theorem Inv.dropCopy {source : Peer} {pbReqs : Option PbReq × Option PbReq} (hi : σ.Inv hand)
    (hw : .mrecv source pbReqs ∈ σ.wrappers) :
    Inv { σ with wrappers := σ.wrappers.erase (.mrecv source pbReqs) } hand := by
  have hwrappers : (σ.wrappers.flatMap Wrapper.owned).Perm
      ((σ.wrappers.erase (.mrecv source pbReqs)).flatMap Wrapper.owned) :=
    (List.perm_cons_erase hw).flatMap_right _
  exact hi.pass rfl rfl rfl ((hwrappers.append_left _).append_left hand) fun i =>
    (hi.fits i).mono rfl (fun _ hq _ => hq) id fun _ => List.mem_of_mem_erase

theorem Inv.active_of_idle (hi : σ.Inv (o :: hand)) (hidle : ¬ σ.Busy o) :
    ∀ q ∈ σ.active, q.2 ∈ hand ++ σ.out := by
  intro q hq
  rcases List.mem_cons.mp (hi.active q hq) with heq | hq'
  · exact absurd ⟨q, hq, heq⟩ hidle
  · exact hq'

theorem Inv.accounts_hand (hi : σ.Inv (o :: hand)) :
    σ.rf.Accounts (o :: (σ.mf ++ (hand ++ σ.out))) :=
  hi.accounts.of_perm List.perm_middle

theorem Inv.release (hi : σ.Inv (o :: hand)) (hidle : ¬ σ.Busy o) : (σ.release o).Inv hand := by
  have hfini := hi.only_idle (.modify o (.fini none) σ) hidle
  exact ⟨hi.accounts_hand.put, hi.active_of_idle hidle, fun i =>
    (hfini.fits i).mono rfl (fun _ hq _ => hq) id fun _ => id⟩

theorem Inv.releaseMessage (hi : σ.Inv (o :: hand)) (hidle : ¬ σ.Busy o) :
    Inv { σ.modify o (.fini none) with mf := o :: σ.mf } hand := by
  have hfini := hi.only_idle (.modify o (.fini none) σ) hidle
  exact ⟨hi.accounts_hand, hi.active_of_idle hidle, fun i =>
    (hfini.fits i).mono rfl (fun _ hq _ => hq) id fun _ => id⟩

/-! ## Calls -/

/-- A class that posts a piggyback sets a callback that waits for it. -/
theorem waits_of_posts {c : NbCall} (hposts : (c.pb E).posts = true) (d : PbData) :
    Waits (setCallbacks (c.pb E).callback (c.pb E).cancel
      (setCallbacks (c.pb E).early false d)).completionCallback := by
  cases c with
  | isend dest =>
    simp only [NbCall.pb, mpiIsendPB] at hposts ⊢
    split at hposts
    · cases hposts
    · rename_i hdest
      rw [if_neg hdest]
      exact .inr rfl
  | irecv src tag =>
    simp only [NbCall.pb] at hposts ⊢
    cases hpeer : E.peer src tag with
    | procNull => rw [hpeer] at hposts; cases hposts
    | wildcard => rw [hpeer] at hposts; cases hposts
    | specific => exact .inl rfl
  | isendrecv dest src =>
    by_cases hsrc : src = E.procNull
    · exact .inr (by simp [NbCall.pb, mpiIsendrecvPB, setCallbacks, hsrc])
    · exact .inl (by simp [NbCall.pb, mpiIsendrecvPB, setCallbacks, hsrc])
  | ibcast => exact .inl rfl
  | iallreduce => exact .inl rfl
  | ireduce root =>
    cases root with
    | true => exact .inl rfl
    | false => exact .inr rfl

theorem Inv.construct (hi : σ.Inv [o]) (hidle : ¬ σ.Busy o) (c : NbCall) :
    (σ.construct (c.pb E) o).Inv [o] ∧ ((σ.construct (c.pb E) o).Busy o →
      Waits (setCallbacks (c.pb E).callback (c.pb E).cancel
        ((σ.construct (c.pb E) o).data o)).completionCallback) := by
  unfold Buffers.construct
  split
  · split
    · rename_i hposts
      refine ⟨(hi.postOn hidle).modify_hand _ fun _ => rfl, fun _ => ?_⟩
      rw [data_modify_self]
      exact waits_of_posts hposts _
    · exact ⟨hi.modify_hand _ fun _ => rfl, fun hb => absurd hb hidle⟩
  · exact ⟨hi, fun hb => absurd hb hidle⟩

theorem Inv.postCall (hi : σ.Inv []) (c : NbCall) : (σ.postCall E (c.pb E)).Inv [] := by
  obtain ⟨hnew, hidle⟩ := hi.newData (E := E)
  obtain ⟨hcons, hwaits⟩ := hnew.construct (E := E) hidle c
  exact hcons.addWrapper hwaits

/-- While the tool is running the destructor leaves a callback that waits. -/
theorem Inv.finishCall {w : Nonblocking} (hi : σ.Inv [o])
    (hw : σ.Busy o → σ.running = true ∧
      Waits (setCallbacks w.callback w.cancel (σ.data o)).completionCallback) :
    (σ.finishCall w o).Inv [] := by
  have hdes : (σ.destruct w o).Inv [o] ∧ ((σ.destruct w o).Busy o →
      Waits ((σ.destruct w o).data o).completionCallback) := by
    unfold Buffers.destruct
    dsimp only
    split
    · have hset := hi.modify_hand (setCallbacks w.callback w.cancel) fun _ => rfl
      refine ⟨hset.modify_hand (.init none false) fun _ => rfl, fun hb => ?_⟩
      rw [data_modify_self, data_modify_self]
      exact (hw hb).2
    · rename_i hrun
      exact ⟨hi.modify_hand _ fun _ => rfl, fun hb => absurd (hw hb).1 hrun⟩
  exact hdes.1.addRequest fun hb => .inr (hdes.2 hb)

theorem Inv.initCall (hi : σ.Inv []) (w : PersistentInit) : (σ.initCall E w).Inv [] := by
  obtain ⟨hnew, hidle⟩ := hi.newData (E := E)
  unfold Buffers.initCall
  dsimp only
  have hset := hnew.modify_hand (fun d =>
    { setCallbacks w.callback w.cancel d with
      startCallback := (w.start.map .start) <|> d.startCallback }) fun _ => rfl
  split
  · have hmake := hset.only_idle (.makeRequest true (σ.newData E).1 _) hidle
    exact (hmake.modify_hand (.init none true) fun _ => rfl).addRequest fun hb => absurd hb hidle
  · exact (hset.modify_hand (.init none true) fun _ => rfl).addRequest fun hb => absurd hb hidle

theorem Inv.mprobe (hi : σ.Inv []) (src tag : ℤ) : (σ.mprobe E src tag).Inv [] := by
  obtain ⟨hnew, hidle⟩ := hi.newData (E := E)
  have hinit := hnew.modify_hand (fun d =>
    { d.init d.handle false with remote := src, tag := tag }) fun _ => rfl
  unfold Buffers.mprobe
  dsimp only
  split
  · exact (hinit.postOn hidle).addMessage
  · exact hinit.addMessage

/-- The wait ends when the operations on the object have completed. -/
theorem not_busy_waitPb (hreqs : ∀ q ∈ σ.active, q.2 = o → HasReq (σ.data o) q.1) :
    ¬ (σ.waitPb o).Busy o := by
  rintro ⟨q, hq, ho⟩
  unfold Buffers.waitPb at hq
  dsimp only at hq
  split at hq
  · rename_i hnull
    obtain ⟨hq, hwait⟩ := List.mem_filter.mp hq
    rcases hreqs q hq ho with h | h
    · exact (of_decide_eq_true hwait).1 h.symm
    · rw [hnull] at h
      cases h
  · obtain ⟨hq, hwait⟩ := List.mem_filter.mp hq
    rcases hreqs q hq ho with h | h
    · exact (of_decide_eq_true hwait).1 h.symm
    · exact (of_decide_eq_true hwait).2 h.symm

theorem not_busy_waitPb_clearCancelled
    (hreqs : ∀ q ∈ σ.active, q.2 = o → HasReq (σ.data o) q.1) :
    ¬ ((σ.clearCancelled o).waitPb o).Busy o := by
  refine not_busy_waitPb fun q hq ho => ?_
  rw [clearCancelled, data_modify_self]
  exact hreqs q hq ho

theorem runCompletion_cases (hreqs : ∀ q ∈ σ.active, q.2 = o → HasReq (σ.data o) q.1)
    (c : CompletionCallback) : σ.runCompletion c o = σ ∨ σ.runCompletion c o = σ.clearCancelled o ∨
      ¬ (σ.runCompletion c o).Busy o := by
  cases c with
  | completePBWC => exact .inr (.inl rfl)
  | completePBHB => exact .inr (.inr (not_busy_waitPb hreqs))
  | completePBnoHB => exact .inr (.inr (not_busy_waitPb_clearCancelled hreqs))
  | completePersPBHB =>
    unfold Buffers.runCompletion
    dsimp only
    split
    · exact .inr (.inr (not_busy_waitPb hreqs))
    · exact .inl rfl
  | completePersPBnoHB =>
    unfold Buffers.runCompletion
    dsimp only
    split
    · exact .inr (.inr (not_busy_waitPb_clearCancelled hreqs))
    · exact .inr (.inl rfl)

theorem completeData_cases (hreqs : ∀ q ∈ σ.active, q.2 = o → HasReq (σ.data o) q.1) :
    σ.completeData o = σ ∨ σ.completeData o = σ.clearCancelled o ∨
      ¬ (σ.completeData o).Busy o := by
  unfold Buffers.completeData
  split
  · exact runCompletion_cases hreqs _
  · exact .inl rfl

theorem Inv.setCancelled (hi : σ.Inv hand) (o : ℕ) (cancelled : Bool) :
    (σ.modify o fun d => { d with cancelled := cancelled }).Inv hand := by
  refine hi.only (.modify o _ σ) hi.mem_of_busy ⟨?_, ?_, ?_⟩
  · intro q hq ho
    rw [data_modify_self]
    exact (hi.fits o).reqs q hq ho
  · intro hr hb
    rw [data_modify_self]
    exact (hi.fits o).request hr hb
  · intro w hw hb
    rw [data_modify_self]
    exact (hi.fits o).wrapper w hw hb

theorem Inv.completeData (hi : σ.Inv hand) (o : ℕ) : (σ.completeData o).Inv hand := by
  rcases completeData_cases (hi.fits o).reqs with h | h | h
  · rw [h]
    exact hi
  · rw [h]
    exact hi.setCancelled o false
  · exact hi.only_idle (.completeData o σ) h

/-- A request that is not persistent has no operation left when it is completed. -/
theorem Inv.not_busy_completeData (hi : σ.Inv hand) (hr : o ∈ σ.requests)
    (hp : (σ.data o).persistent = false) : ¬ (σ.completeData o).Busy o := by
  intro hb
  have hold : σ.Busy o := by
    rcases completeData_cases (hi.fits o).reqs with h | h | h
    · rwa [h] at hb
    · rwa [h] at hb
    · exact absurd hb h
  rcases (hi.fits o).request hr hold with h | h | h
  · rw [hp] at h
    cases h
  · simp only [Buffers.completeData, h] at hb
    exact not_busy_waitPb (hi.fits o).reqs hb
  · simp only [Buffers.completeData, h] at hb
    exact not_busy_waitPb_clearCancelled (hi.fits o).reqs hb

theorem reqs_activate {r : Option PbReq} (hr : r = (σ.data o).pbReqs.1 ∨ r = (σ.data o).pbReqs.2)
    (hreqs : ∀ q ∈ σ.active, q.2 = o → HasReq (σ.data o) q.1) :
    ∀ q ∈ (σ.activate r o).active, q.2 = o → HasReq (σ.data o) q.1 := by
  intro q hq ho
  cases r with
  | none => exact hreqs q hq ho
  | some r =>
    rcases List.mem_cons.mp hq with rfl | hq
    · exact hr.imp Eq.symm Eq.symm
    · exact hreqs q hq ho

theorem data_activate (r : Option PbReq) (i : ℕ) (σ : Buffers) :
    (σ.activate r i).data = σ.data := by
  cases r <;> rfl

theorem Inv.startPb (hi : σ.Inv hand) (hr : o ∈ σ.requests)
    (hp : (σ.data o).persistent = true) : (σ.startPb o).Inv hand := by
  have hdata : (σ.startPb o).data = σ.data := by
    unfold Buffers.startPb
    dsimp only
    split
    · exact data_activate ..
    · exact (data_activate ..).trans (data_activate ..)
  have hreqs : ∀ q ∈ (σ.startPb o).active, q.2 = o → HasReq (σ.data o) q.1 := by
    have hone := reqs_activate (.inl rfl) (hi.fits o).reqs
    unfold Buffers.startPb
    dsimp only
    split
    · exact hone
    · have htwo := reqs_activate (σ := σ.activate (σ.data o).pbReqs.1 o) (o := o)
        (r := (σ.data o).pbReqs.2)
      rw [data_activate] at htwo
      exact htwo (.inr rfl) hone
  have h := Only.startPb o σ
  refine hi.only h (fun _ => ?_) ⟨?_, ?_, ?_⟩
  · exact List.mem_append_right _ (List.mem_append_left _ (List.mem_append_left _ hr))
  · rw [hdata]
    exact hreqs
  · rw [hdata]
    exact fun _ _ => .inl hp
  · exact fun w hw => absurd (h.wrappers ▸ hw) (hi.not_wrapper_of_request hr w)

theorem Inv.startData (hi : σ.Inv hand) (hr : o ∈ σ.requests)
    (hp : (σ.data o).persistent = true) : (σ.startData o).Inv hand := by
  unfold Buffers.startData
  split
  · split
    · exact hi.startPb hr hp
    · exact hi
  · exact hi

theorem Inv.step {op : BufferOp} (hi : σ.Inv []) (hg : σ.Allowed op) (hs : Settles E σ op) :
    (step E σ op).Inv [] := by
  cases op with
  | setRunning running =>
    exact hi.pass rfl rfl rfl (.refl _) fun i =>
      (hi.fits i).mono rfl (fun _ hq _ => hq) id fun _ => id
  | progress r => exact hi.waitFor _
  | post c => exact hi.postCall c
  | finish w =>
    cases w with
    | nonblocking w o =>
      have hw := (hi.fits o).wrapper w hg
      exact (hi.dropWrapper hg).finishCall fun hb => ⟨hs hb, hw hb⟩
    | mrecv source pbReqs =>
      have hdrop := hi.dropCopy hg
      show Inv (if _ then _ else _) []
      split
      · exact hdrop.waitFor _
      · exact hdrop
  | init c => exact hi.initCall _
  | start o => exact hi.startData hg.1 hg.2
  | complete o =>
    show Inv (if _ then _ else _) []
    split
    · exact hi.completeData o
    · rename_i hp
      have hidle := hi.not_busy_completeData hg (Bool.not_eq_true _ ▸ hp)
      have hreq : (σ.completeData o).requests = σ.requests := (Only.completeData o σ).requests
      have hdrop := (hi.completeData o).dropRequest (o := o) (by rw [hreq]; exact hg)
      rw [hreq] at hdrop
      exact hdrop.release hidle
  | cancel o => exact hi.setCancelled o true
  | free o => exact (hi.dropRequest hg).release hs
  | mprobe src tag => exact hi.mprobe src tag
  | mrecv o => exact ((hi.dropMessage hg).releaseMessage hs).addCopy _ _
  | imrecv o tag =>
    refine (hi.dropMessage hg).addWrapper fun hb => ?_
    rw [hs hb]
    exact .inl rfl

theorem inv_start (memory : ℕ → PbData) : (start memory).Inv [] where
  accounts := Pool.accounts_empty
  active _ hq := absurd hq List.not_mem_nil
  fits _ := .of_not_busy fun ⟨_, hq, _⟩ => List.not_mem_nil hq

instance (σ : Buffers) (o : ℕ) : Decidable (σ.Busy o) :=
  inferInstanceAs (Decidable (∃ q ∈ σ.active, q.2 = o))

instance (σ : Buffers) : ∀ op, Decidable ((machine E).guard σ op)
  | .finish w => inferInstanceAs (Decidable (w ∈ σ.wrappers))
  | .start _ => inferInstanceAs (Decidable (_ ∧ _))
  | .complete o | .cancel o | .free o => inferInstanceAs (Decidable (o ∈ σ.requests))
  | .mrecv o | .imrecv o _ => inferInstanceAs (Decidable (o ∈ σ.messages))
  | .setRunning _ | .progress _ | .post _ | .init _ | .mprobe _ _ =>
    inferInstanceAs (Decidable True)

instance (σ : Buffers) : ∀ op, Decidable (Settles E σ op)
  | .free o | .mrecv o => inferInstanceAs (Decidable (¬ σ.Busy o))
  | .finish (.nonblocking _ o) => inferInstanceAs (Decidable (σ.Busy o → σ.running = true))
  | .imrecv o tag =>
    inferInstanceAs (Decidable (σ.Busy o → E.peer (σ.data o).remote tag = .specific))
  | .finish (.mrecv _ _) | .setRunning _ | .progress _ | .post _ | .init _ | .start _
  | .complete _ | .cancel _ | .mprobe _ _ => inferInstanceAs (Decidable True)

/-- No object in the pools is the buffer of an operation, and `newData` hands out none that is. -/
def NoneRecycled (E : Setting) (σ : Buffers) : Prop :=
  (∀ q ∈ σ.active, q.2 ∉ σ.rf.free ∧ q.2 ∉ σ.mf) ∧ ¬ σ.Busy (σ.newData E).1

instance (σ : Buffers) : Decidable (NoneRecycled E σ) := inferInstanceAs (Decidable (_ ∧ _))

theorem Inv.noneRecycled (hi : σ.Inv []) : NoneRecycled E σ := by
  refine ⟨fun q hq => ⟨?_, fun hmf => ?_⟩, hi.newData.2⟩
  · exact hi.accounts.not_mem_free (List.mem_append_right _ (hi.active q hq))
  · exact (List.nodup_append.mp hi.accounts.out_nodup).2.2 q.2 hmf q.2 (hi.active q hq) rfl

end Buffers

open Buffers in
/-- Buffers in flight stay out of the pools in runs that settle the piggybacks in time. -/
theorem buffers_not_recycled (E : Setting) (memory : ℕ → PbData) (ops : List BufferOp)
    (hv : (machine E).Valid (start memory) ops)
    (hs : (machine E).Along (Settles E) (start memory) ops) :
    NoneRecycled E ((machine E).run (start memory) ops) := by
  have hboth := Machine.along_and.mpr ⟨hv, hs⟩
  have hi : ((machine E).run (start memory) ops).Inv [] :=
    hboth.inv (I := fun σ => σ.Inv []) (fun _ _ hi h => hi.step h.1 h.2) (inv_start memory)
  exact hi.noneRecycled

def twoDatas : Setting where
  ndatas := 2
  ndatas_pos := by decide
  procNull := -1
  anySource := -2
  anyTag := -1

def sendAndImrecv : List BufferOp :=
  [.setRunning true, .post (.isend 0), .finish (.nonblocking (mpiIsendPB twoDatas 0) 1),
    .mprobe 0 5, .imrecv 0 5, .complete 1, .finish (.nonblocking (mpiImrecvPB .specific) 0)]

theorem buffers_not_recycled_sendAndImrecv :
    ((Buffers.machine twoDatas).run (.start fun _ => .new none ()) sendAndImrecv).active =
        [(⟨1, false⟩, 0)] ∧
      Buffers.NoneRecycled twoDatas
        ((Buffers.machine twoDatas).run (.start fun _ => .new none ()) sendAndImrecv) :=
  ⟨by decide +kernel, buffers_not_recycled twoDatas (fun _ => .new none ()) sendAndImrecv
    (by decide +kernel) (by decide +kernel)⟩

def freedSend : List BufferOp :=
  [.setRunning true, .post (.isend 0), .finish (.nonblocking (mpiIsendPB twoDatas 0) 1), .free 1]

/-- `MPI_Request_free` and `MPI_Mrecv` on a piggyback in flight, a stop in the middle of a call and
one before `MPI_Imrecv`. -/
def recyclingRuns : List (List BufferOp) :=
  [freedSend,
    [.setRunning true, .mprobe 0 5, .mrecv 1],
    [.setRunning true, .post (.isend 0), .setRunning false,
      .finish (.nonblocking (mpiIsendPB twoDatas 0) 1), .complete 1],
    [.setRunning true, .mprobe 0 5, .setRunning false, .imrecv 1 5,
      .finish (.nonblocking (mpiImrecvPB .specific) 1), .complete 1]]

theorem recyclingRuns_recycle : ∀ ops ∈ recyclingRuns,
    (Buffers.machine twoDatas).Valid (.start fun _ => .new none ()) ops ∧
      ¬ Buffers.NoneRecycled twoDatas
        ((Buffers.machine twoDatas).run (.start fun _ => .new none ()) ops) := by
  decide +kernel

theorem freedSend_recycled :
    (Buffers.machine twoDatas).Valid (.start fun _ => .new none ()) freedSend ∧
      ¬ Buffers.NoneRecycled twoDatas
        ((Buffers.machine twoDatas).run (.start fun _ => .new none ()) freedSend) :=
  recyclingRuns_recycle freedSend List.mem_cons_self

end CritPath.Tracking
