import CritPath.Clock.Ipc
import CritPath.Lib.Runs
import CritPath.Mpi.Piggyback

/-!
# Exchange of clock values

What the piggybacks carry, for messages and for the three kinds of collectives.
A piggyback operation of the library takes the values of some ranks and leaves
values at some ranks (`Transfer`): that is what MPI says about it. When a rank
loads its clock into the buffer and when it merges the buffer into its clock is
decided by the piggyback classes and the callbacks (`Part`).

A rank is single-threaded and measures from `MPI_Init` to `MPI_Finalize`. It
enters a call, executes the parts of it one by one and leaves it again; the
time it spends between two calls is its useful time.
-/

namespace CritPath

open Lib

/-- The operations of the library that piggybacks use. -/
inductive Transfer (R : Type) where
  | message (source dest : R)
  | allreduce (members : List R)
  | bcast (root : R) (members : List R)
  | reduce (root : R) (members : List R)
  deriving DecidableEq

/-- How a rank takes part in an operation. -/
inductive Role where
  | sender
  | receiver
  | member
  deriving DecidableEq

namespace Transfer

variable {R : Type}

/-- The ranks whose values the result is made of. -/
def sources : Transfer R → List R
  | .message source _ => [source]
  | .allreduce members => members
  | .bcast root _ => [root]
  | .reduce _ members => members

variable [DecidableEq R]

def gives (r : R) : Transfer R → Role → Bool
  | .message _ _, .sender => true
  | .allreduce _, .member => true
  | .bcast root _, .member => r = root
  | .reduce _ _, .member => true
  | _, _ => false

/-- Whether `r` finds the result in its buffer. -/
def takes (r : R) : Transfer R → Role → Bool
  | .message _ _, .receiver => true
  | .allreduce _, .member => true
  | .bcast _ _, .member => true
  | .reduce root _, .member => r = root
  | _, _ => false

def Joins (r : R) : Transfer R → Role → Prop
  | .message source _, .sender => r = source
  | .message _ dest, .receiver => r = dest
  | .allreduce members, .member => r ∈ members
  | .bcast _ members, .member => r ∈ members
  | .reduce _ members, .member => r ∈ members
  | _, _ => False

instance (r : R) : ∀ (x : Transfer R) (role : Role), Decidable (x.Joins r role)
  | .message _ _, .sender | .message _ _, .receiver => inferInstanceAs (Decidable (_ = _))
  | .message _ _, .member | .allreduce _, .sender | .allreduce _, .receiver
  | .bcast _ _, .sender | .bcast _ _, .receiver | .reduce _ _, .sender
  | .reduce _ _, .receiver => inferInstanceAs (Decidable False)
  | .allreduce _, .member | .bcast _ _, .member | .reduce _ _, .member =>
    inferInstanceAs (Decidable (_ ∈ _))

end Transfer

/-- `MPI_MAX` on two buffers. -/
def IpcData.max (a b : IpcData) : IpcData :=
  ⟨Max.max a.useful b.useful, Max.max a.ompi b.ompi, Max.max a.oomp b.oomp⟩

/-- The maximum of the values handed in by `r` and `rs`, once all of them are there. -/
def gather {R : Type} (sent : R → Option IpcData) : R → List R → Option IpcData
  | r, [] => sent r
  | r, q :: rs =>
    match sent r, gather sent q rs with
    | some a, some b => some (a.max b)
    | _, _ => none

/-- The result of an operation: the one value handed in, or the maximum of several. -/
def Transfer.result {R : Type} (sent : R → Option IpcData) (x : Transfer R) : Option IpcData :=
  match x.sources with
  | [] => none
  | r :: rs => gather sent r rs

/-- What a wrapper does with the buffer `h` of a `RequestData`. -/
inductive Part (H O : Type) where
  /-- `MpiHappensBefore`. -/
  | load (h : H)
  /-- Starts operation `o`, after `MpiHappensBefore` if `load`. -/
  | post (role : Role) (load : Bool) (h : H) (o : O)
  /-- Waits for operation `o`, and calls `MpiHappensAfter` if `merge`. -/
  | wait (role : Role) (merge : Bool) (h : H) (o : O)
  /-- `MpiHappensAfter`. -/
  | merge (h : H)
  deriving DecidableEq

namespace Exchange

section
variable {R H O : Type}

/-! ## The piggyback classes -/

variable (x : Transfer R) (root r : R) (h : H) (o : O)

section
variable [DecidableEq R]

def mpiCollBcastPB : List (Part H O) :=
  [.post .member (root = r) h o, .wait .member true h o]

def mpiCollAllreducePB : List (Part H O) :=
  [.post .member true h o, .wait .member true h o]

def mpiCollReducePB : List (Part H O) :=
  [.post .member true h o, .wait .member (root = r) h o]

def mpiIcollBcastPB : List (Part H O) × CompletionCallback :=
  ([.post .member (root = r) h o], .completePBHB)

def mpiIcollAllreducePB : List (Part H O) × CompletionCallback :=
  ([.post .member true h o], .completePBHB)

def mpiIcollReducePB : List (Part H O) × CompletionCallback :=
  ([.post .member true h o], if root = r then .completePBHB else .completePBnoHB)

def mpiCollBcastInitPB : StartCallback × CompletionCallback :=
  (if root = r then .startPersPBHB else .startPersPBnoHB, .completePersPBHB)

def mpiCollAllreduceInitPB : StartCallback × CompletionCallback :=
  (.startPersPBHB, .completePersPBHB)

def mpiCollReduceInitPB : StartCallback × CompletionCallback :=
  (.startPersPBHB, if root = r then .completePersPBHB else .completePersPBnoHB)

def collPB : List (Part H O) :=
  match x with
  | .allreduce _ => mpiCollAllreducePB h o
  | .bcast root _ => mpiCollBcastPB root r h o
  | .reduce root _ => mpiCollReducePB root r h o
  | .message _ _ => []

def icollPB : List (Part H O) × CompletionCallback :=
  match x with
  | .allreduce _ => mpiIcollAllreducePB h o
  | .bcast root _ => mpiIcollBcastPB root r h o
  | .reduce root _ => mpiIcollReducePB root r h o
  | .message _ _ => ([], .completePBnoHB)

def collInitPB : StartCallback × CompletionCallback :=
  match x with
  | .allreduce _ => mpiCollAllreduceInitPB
  | .bcast root _ => mpiCollBcastInitPB root r
  | .reduce root _ => mpiCollReduceInitPB root r
  | .message _ _ => (.startPersPBnoHB, .completePersPBnoHB)

end

/-- `mpiSendPB`; nobody waits for the piggyback. -/
def mpiSendPB : List (Part H O) := [.post .sender true h o]

/-- `mpiRecvPB`; with a wildcard both steps are the `PMPI_Recv` of the destructor. -/
def mpiRecvPB : List (Part H O) :=
  [.post .receiver false h o, .wait .receiver true h o]

def mpiIsendPB : List (Part H O) × CompletionCallback :=
  ([.post .sender true h o], .completePBnoHB)

def mpiIrecvPB (wildcard : Bool) (h : H) (o : O) : List (Part H O) × CompletionCallback :=
  if wildcard then ([], .completePBWC) else ([.post .receiver false h o], .completePBHB)

def mpiSendInitPB : Option StartCallback × CompletionCallback :=
  (some .startPersPBHB, .completePersPBnoHB)

def mpiRecvInitPB (wildcard : Bool) : Option StartCallback × CompletionCallback :=
  if wildcard then (none, .completePBWC) else (some .startPersPBnoHB, .completePersPBHB)

/-- The constructor of `mpiSendrecvPB` and `mpiIsendrecvPB`: one buffer for the send `s` and the
receive `p`, of which an end at `MPI_PROC_NULL` is `none`. -/
def sendrecvReplace (h : H) (s p : Option O) : List (Part H O) :=
  match s, p with
  | none, none => []
  | some s, none => [.post .sender true h s]
  | none, some p => [.load h, .post .receiver false h p]
  | some s, some p => [.post .sender true h s, .post .receiver false h p]

def mpiSendrecvPB (h : H) (s p : Option O) : List (Part H O) :=
  sendrecvReplace h s p ++
    match s, p with
    | _, some p => [.wait .receiver true h p]
    | some s, none => [.wait .sender false h s]
    | none, none => []

/-- `MPI_Finalize` up to the merge of the result. -/
def mpiFinalize (h : H) (fin : O) : List (Part H O) :=
  [.post .member true h fin, .wait .member true h fin]

/-! ## Requests -/

structure Request (R O : Type) where
  role : Role
  /-- What its operations are; a receive with a wildcard has no fixed source. -/
  transfer : Option (Transfer R)
  persistent : Bool := false
  startCallback : Option StartCallback := none
  completionCallback : CompletionCallback
  /-- The operation it stands for, from its start to its completion. -/
  current : Option O := none
  deriving DecidableEq

/-- `RequestData::start`, as operation `o`. -/
def Request.start (d : Request R O) (h : H) (o : O) : List (Part H O) :=
  match d.startCallback with
  | some .startPersPBHB => [.post d.role true h o]
  | some .startPersPBnoHB => [.post d.role false h o]
  | none => []

/-- `RequestData::complete`. On an inactive request the piggyback requests are inactive too, and
the callback merges what the buffer still holds. -/
def Request.complete (d : Request R O) (h : H) : List (Part H O) :=
  match d.completionCallback, d.current with
  | .completePBWC, some o => [.post d.role false h o, .wait d.role true h o]
  | .completePBHB, some o | .completePersPBHB, some o => [.wait d.role true h o]
  | .completePBnoHB, some o | .completePersPBnoHB, some o => [.wait d.role false h o]
  | .completePersPBHB, none | .completePBHB, none => [.merge h]
  | .completePBWC, none | .completePBnoHB, none | .completePersPBnoHB, none => []

end

/-! ## The calls -/

/-- The calls of a rank. A call with a piggyback names its buffer `h`, which stands for its request
too, and its operation `o`. `complete` stands for `MPI_Wait`, `MPI_Test` and their variants. -/
inductive PbCall (R H O : Type) where
  | other
  | coll (h : H) (o : O)
  | icoll (h : H) (o : O)
  | collInit (h : H) (x : Transfer R)
  | send (h : H) (o : O)
  | recv (h : H) (o : O)
  | isend (h : H) (o : O)
  | irecv (wildcard : Bool) (h : H) (o : O)
  | sendInit (h : H) (dest : R)
  | recvInit (h : H) (source : Option R)
  | sendrecv (h : H) (s p : Option O)
  | isendrecv (h : H) (s p : Option O)
  | start (h : H) (o : O)
  | complete (hs : List H)
  | finalize (h : H)
  deriving DecidableEq

section
variable {R H O : Type} [DecidableEq R] (kind : O → Transfer R) (r : R)

/-- What rank `r` does in the call; `request` are its requests before it. -/
def PbCall.parts (request : H → Option (Request R (Option O))) :
    PbCall R H O → List (Part H (Option O))
  | .other | .collInit _ _ | .sendInit _ _ | .recvInit _ _ => []
  | .coll h o => collPB (kind o) r h (some o)
  | .icoll h o => (icollPB (kind o) r h (some o)).1
  | .send h o => mpiSendPB h (some o)
  | .recv h o => mpiRecvPB h (some o)
  | .isend h o => (mpiIsendPB h (some o)).1
  | .irecv wildcard h o => (mpiIrecvPB wildcard h (some o)).1
  | .sendrecv h s p => mpiSendrecvPB h (s.map some) (p.map some)
  | .isendrecv h s p => sendrecvReplace h (s.map some) (p.map some)
  | .start h o => (request h).elim [] fun d => d.start h (some o)
  | .complete hs => hs.flatMap fun h => (request h).elim [] fun d => d.complete h
  | .finalize h => mpiFinalize h none

def PbCall.newRequest : PbCall R H O → Option (H × Request R (Option O))
  | .icoll h o => some (h,
      { role := .member, transfer := some (kind o),
        completionCallback := (icollPB (kind o) r h (some o)).2, current := some (some o) })
  | .collInit h x => some (h,
      { role := .member, transfer := some x, persistent := true,
        startCallback := some (collInitPB x r).1, completionCallback := (collInitPB x r).2 })
  | .isend h o => some (h,
      { role := .sender, transfer := some (kind o),
        completionCallback := (mpiIsendPB h (some o)).2, current := some (some o) })
  | .irecv wildcard h o => some (h,
      { role := .receiver, transfer := some (kind o),
        completionCallback := (mpiIrecvPB wildcard h (some o)).2, current := some (some o) })
  | .sendInit h dest => some (h,
      { role := .sender, transfer := some (.message r dest), persistent := true,
        startCallback := mpiSendInitPB.1, completionCallback := mpiSendInitPB.2 })
  | .recvInit h source => some (h,
      { role := .receiver, transfer := source.map fun s => .message s r, persistent := true,
        startCallback := (mpiRecvInitPB source.isNone).1,
        completionCallback := (mpiRecvInitPB source.isNone).2 })
  | .isendrecv h _ (some p) => some (h,
      { role := .receiver, transfer := some (kind p), completionCallback := .completePBHB,
        current := some (some p) })
  | .isendrecv h (some s) none => some (h,
      { role := .sender, transfer := some (kind s), completionCallback := .completePBnoHB,
        current := some (some s) })
  | _ => none

variable [DecidableEq H]

/-- The requests of rank `r` after the call. A completed one is inactive if it is persistent, else
it is gone. -/
def PbCall.requests (request : H → Option (Request R (Option O))) (c : PbCall R H O) :
    H → Option (Request R (Option O)) :=
  match c with
  | .start h o => Function.update request h
      ((request h).map fun d => { d with current := some (some o) })
  | .complete hs => fun h =>
      if h ∈ hs then
        (request h).bind fun d => if d.persistent then some { d with current := none } else none
      else request h
  | c =>
    match c.newRequest kind r with
    | some (h, d) => Function.update request h (some d)
    | none => request

end

def PbCall.isFinalize {R H O : Type} : PbCall R H O → Bool
  | .finalize _ => true
  | _ => false

/-- A rank enters a call at time `t`, goes on with it, or leaves it. -/
inductive PbLabel (R H O : Type) where
  | enter (r : R) (t : ℚ) (c : PbCall R H O)
  | exec (r : R)
  | exit (r : R) (t : ℚ)
  deriving DecidableEq

/-- The ranks, their buffers and requests, and what they have handed to the library. Operations
are `some o`, and `none` for the `Allreduce` of `MPI_Finalize`. -/
structure Ranks (R H O : Type) where
  clock : R → ThreadClock
  /-- When the rank last entered or left a call. -/
  now : R → ℚ
  inMpi : R → Bool := fun _ => true
  finalized : R → Bool := fun _ => false
  todo : R → List (Part H (Option O)) := fun _ => []
  buf : R → H → IpcData := fun _ _ => {}
  request : R → H → Option (Request R (Option O)) := fun _ _ => none
  sent : Option O → R → Option IpcData := fun _ _ => none

namespace Ranks

variable {R H O : Type}

/-- Every rank in `MPI_Init`, right after `startTool` at its time `t₀ r`. -/
def start (t₀ : R → ℚ) : Ranks R H O where
  clock r :=
    (ThreadClock.new.enterState true (t₀ r) .useful (t₀ r)).enterState true (t₀ r) .mpi (t₀ r)
  now := t₀

variable [DecidableEq R]

def advance (r : R) (rest : List (Part H (Option O))) (w : Ranks R H O) : Ranks R H O :=
  { w with todo := Function.update w.todo r rest }

/-- `MpiHappensAfter` with buffer `h`. -/
def merge (r : R) (h : H) (w : Ranks R H O) : Ranks R H O :=
  { w with clock := Function.update w.clock r ((w.clock r).mpiHappensAfter true (w.buf r h)) }

/-- The destructor of `mpiTimer`. -/
def exit (r : R) (t : ℚ) (w : Ranks R H O) : Ranks R H O :=
  { w with
    clock := Function.update w.clock r ((w.clock r).exitState true t t)
    now := Function.update w.now r t
    inMpi := Function.update w.inMpi r false }

/-- The library reads the buffer of a rank that hands in values. -/
def handIn [DecidableEq O] (x : Transfer R) (role : Role) (r : R) (h : H) (o : Option O)
    (w : Ranks R H O) : Ranks R H O :=
  if x.gives r role then
    { w with sent := Function.update w.sent o (Function.update (w.sent o) r (some (w.buf r h))) }
  else w

variable [DecidableEq H]

def setBuf (r : R) (h : H) (uc : IpcData) (w : Ranks R H O) : Ranks R H O :=
  { w with buf := Function.update w.buf r (Function.update (w.buf r) h uc) }

/-- `MpiHappensBefore` into buffer `h`. -/
def load (r : R) (h : H) (w : Ranks R H O) : Ranks R H O :=
  w.setBuf r h (w.clock r).mpiHappensBefore

/-- The constructor of `mpiTimer`, then the call. -/
def enter (kind : O → Transfer R) (r : R) (t : ℚ) (c : PbCall R H O) (w : Ranks R H O) :
    Ranks R H O :=
  { w with
    clock := Function.update w.clock r ((w.clock r).enterState true t .mpi t)
    now := Function.update w.now r t
    inMpi := Function.update w.inMpi r true
    finalized := Function.update w.finalized r c.isFinalize
    todo := Function.update w.todo r (c.parts kind r (w.request r))
    request := Function.update w.request r (c.requests kind r (w.request r)) }

/-- The library writes the result into the buffer of a rank that takes it, when it is there. -/
def handOut (x : Transfer R) (role : Role) (r : R) (h : H) (o : Option O) (w : Ranks R H O) :
    Option (Ranks R H O) :=
  if x.takes r role then (x.result (w.sent o)).map fun uc => w.setBuf r h uc else some w

variable [DecidableEq O]

/-- The next part of rank `r`; a rank that has to wait stays where it is. -/
def exec (transfer : Option O → Transfer R) (r : R) (w : Ranks R H O) : Ranks R H O :=
  match w.todo r with
  | [] => w
  | .load h :: rest => (w.load r h).advance r rest
  | .post role load h o :: rest =>
    ((if load then w.load r h else w).handIn (transfer o) role r h o).advance r rest
  | .wait role merge h o :: rest =>
    match w.handOut (transfer o) role r h o with
    | some w => (if merge then w.merge r h else w).advance r rest
    | none => w
  | .merge h :: rest => (w.merge r h).advance r rest

end Ranks

/-- What the operations are, with the `Allreduce` over `world` in `MPI_Finalize`. -/
def transferOf {R O : Type} (kind : O → Transfer R) (world : List R) : Option O → Transfer R
  | some o => kind o
  | none => .allreduce world

namespace Ranks

section
variable {R H O : Type} [DecidableEq R] [DecidableEq H] [DecidableEq O]

def step (kind : O → Transfer R) (world : List R) (w : Ranks R H O) : PbLabel R H O → Ranks R H O
  | .enter r t c => w.enter kind r t c
  | .exec r => w.exec (transferOf kind world) r
  | .exit r t => w.exit r t

/-- Rank `r` can go on: it has something to do and needs not wait for it. -/
def Ready (transfer : Option O → Transfer R) (r : R) (w : Ranks R H O) : Bool :=
  match w.todo r with
  | [] => false
  | .wait role _ h o :: _ => (w.handOut (transfer o) role r h o).isSome
  | _ => true

/-- An inactive persistent request that operation `x` can be a start of. -/
def Startable (r : R) (x : Transfer R) : Option (Request R (Option O)) → Prop
  | some d => d.persistent = true ∧ d.current = none ∧ x.Joins r d.role ∧
      (d.transfer = none ∨ d.transfer = some x)
  | none => False

instance (r : R) (x : Transfer R) :
    ∀ d : Option (Request R (Option O)), Decidable (Startable r x d)
  | some _ => inferInstanceAs (Decidable (_ ∧ _ ∧ _ ∧ _))
  | none => inferInstanceAs (Decidable False)

/-- Operations are used by the ranks that take part in them and as what they are. A receive with a
wildcard is completed while it is active: else its callback would take a message of another one. -/
def Fits (kind : O → Transfer R) (r : R) (c : PbCall R H O) (w : Ranks R H O) : Prop :=
  match c with
  | .other | .finalize _ => True
  | .complete hs => ∀ h ∈ hs, ∀ d ∈ w.request r h,
      d.completionCallback = .completePBWC → d.current.isSome = true
  | .coll _ o | .icoll _ o => (kind o).Joins r .member
  | .collInit _ x => x.Joins r .member
  | .send _ o | .isend _ o => (kind o).Joins r .sender
  | .recv _ o | .irecv _ _ o => (kind o).Joins r .receiver
  | .sendInit _ _ | .recvInit _ _ => True
  | .sendrecv _ s p | .isendrecv _ s p =>
    (∀ o ∈ s, (kind o).Joins r .sender) ∧ ∀ o ∈ p, (kind o).Joins r .receiver
  | .start h o => Startable r (kind o) (w.request r h)

/-- Calls follow each other in time; nothing follows `MPI_Finalize`. -/
def Allowed (kind : O → Transfer R) (world : List R) (w : Ranks R H O) : PbLabel R H O → Prop
  | .enter r t c => w.todo r = [] ∧ w.inMpi r = false ∧ w.now r ≤ t ∧ w.Fits kind r c
  | .exec r => w.Ready (transferOf kind world) r
  | .exit r t => w.todo r = [] ∧ w.inMpi r = true ∧ w.finalized r = false ∧ w.now r ≤ t

instance (kind : O → Transfer R) (r : R) (w : Ranks R H O) : ∀ c, Decidable (w.Fits kind r c)
  | .other | .finalize _ | .sendInit _ _ | .recvInit _ _ => inferInstanceAs (Decidable True)
  | .coll _ _ | .icoll _ _ | .collInit _ _ | .send _ _ | .isend _ _ | .recv _ _ | .irecv _ _ _ =>
    inferInstanceAs (Decidable (Transfer.Joins _ _ _))
  | .complete hs => inferInstanceAs (Decidable (∀ h ∈ hs, ∀ d ∈ w.request r h, _ → _))
  | .sendrecv _ s p | .isendrecv _ s p =>
    inferInstanceAs (Decidable ((∀ o ∈ s, _) ∧ ∀ o ∈ p, Transfer.Joins _ _ _))
  | .start h o => inferInstanceAs (Decidable (Startable r (kind o) (w.request r h)))

instance (kind : O → Transfer R) (world : List R) (w : Ranks R H O) :
    ∀ l, Decidable (w.Allowed kind world l)
  | .enter _ _ _ | .exit _ _ => inferInstanceAs (Decidable (_ ∧ _ ∧ _ ∧ _))
  | .exec r => inferInstanceAs (Decidable (w.Ready (transferOf kind world) r = true))

end

end Ranks

/-- Runs of the ranks; `kind` says what the operations are and `world` who the ranks are. -/
def machine {R O : Type} (H : Type) [DecidableEq R] [DecidableEq H] [DecidableEq O]
    (kind : O → Transfer R) (world : List R) : Machine (Ranks R H O) (PbLabel R H O) where
  step := Ranks.step kind world
  guard := Ranks.Allowed kind world

instance {R H O : Type} [DecidableEq R] [DecidableEq H] [DecidableEq O] (kind : O → Transfer R)
    (world : List R) (w : Ranks R H O) (l : PbLabel R H O) :
    Decidable ((machine H kind world).guard w l) :=
  inferInstanceAs (Decidable (w.Allowed kind world l))

end Exchange

end CritPath
