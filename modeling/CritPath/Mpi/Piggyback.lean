import CritPath.Lib.Matching
import CritPath.Lib.Runs

/-!
# Piggyback messages

With every point-to-point operation the wrappers post a piggyback operation on
a duplicate of the communicator. A specific receive posts it before the
application's receive; a receive with `MPI_ANY_SOURCE` or `MPI_ANY_TAG` can only
do so when it completes and its status names the source and the tag.

A call of a rank is the list of what its wrapper does: the constructor of the
piggyback class, the `PMPI` call, the destructor. Ranks execute their lists step
by step, interleaved with each other and with the deliveries of the library on
the two sides. An operation and its piggyback have one name, the rank and a
serial number. The application's payload, the clocks that a piggyback carries
and the completion of sends do not matter here.
-/

namespace CritPath

open Lib

/-- Messages from one rank to another one on a communicator with a tag. -/
structure Channel (R C G : Type) where
  comm : C
  source : R
  dest : R
  tag : G
  deriving DecidableEq

/-- What a posted receive accepts; `none` stands for `MPI_ANY_SOURCE` and `MPI_ANY_TAG`. -/
structure Pattern (R C G : Type) where
  comm : C
  dest : R
  source : Option R
  tag : Option G
  deriving DecidableEq

/-- The name of an operation: its rank and a serial number. -/
abbrev OpName (R : Type) := R × ℕ

section
variable {R C G : Type}

def Channel.pattern (ch : Channel R C G) : Pattern R C G :=
  ⟨ch.comm, ch.dest, some ch.source, some ch.tag⟩

namespace Pattern

def wildcard (p : Pattern R C G) : Bool := p.source.isNone || p.tag.isNone

def channel (p : Pattern R C G) : Option (Channel R C G) :=
  match p.source, p.tag with
  | some s, some t => some ⟨p.comm, s, p.dest, t⟩
  | _, _ => none

def accepts [DecidableEq R] [DecidableEq C] [DecidableEq G] (p : Pattern R C G)
    (ch : Channel R C G) : Bool :=
  p.comm = ch.comm ∧ p.dest = ch.dest ∧ (p.source = none ∨ p.source = some ch.source) ∧
    (p.tag = none ∨ p.tag = some ch.tag)

end Pattern

end

/-- The source argument of a receive. -/
inductive Source (R : Type) where
  | procNull
  | any
  | rank (s : R)
  deriving DecidableEq

/-- What a wrapper does, one access to the library after the other. -/
inductive Act (R C G : Type) where
  /-- Posts a send, a receive or both under name `o`, on the duplicate if `dup`. -/
  | post (dup : Bool) (send : Option (Channel R C G)) (recv : Option (Pattern R C G)) (o : OpName R)
  /-- Waits for the receive `o`. -/
  | await (dup : Bool) (o : OpName R)
  /-- Posts the piggyback receive for the source and the tag in the status of `o`. -/
  | recvStatus (o : OpName R)
  /-- `MpiHappensAfter` with the values of the piggyback receive `o`. -/
  | merge (o : OpName R)
  /-- Reads a status at `MPI_STATUS_IGNORE`. -/
  | fault
  deriving DecidableEq

inductive StartCallback where
  | startPersPBHB
  | startPersPBnoHB
  deriving DecidableEq

inductive CompletionCallback where
  | completePBWC
  | completePBHB
  | completePBnoHB
  | completePersPBHB
  | completePersPBnoHB
  deriving DecidableEq

/-- `RequestData`, with what its application request posts. -/
structure RequestData (R C G : Type) where
  send : Option (Channel R C G) := none
  recv : Option (Pattern R C G) := none
  persistent : Bool := false
  startCallback : Option StartCallback := none
  completionCallback : Option CompletionCallback := none
  current : Option (OpName R) := none
  deriving DecidableEq

section
variable {R C G : Type}

/-- The channel of a send; `MPI_PROC_NULL` has none. -/
def sendTo (r : R) (comm : C) (dest : Option R) (tag : G) : Option (Channel R C G) :=
  dest.map fun d => ⟨comm, r, d, tag⟩

/-- What a receive on rank `r` accepts; from `MPI_PROC_NULL` there is nothing to receive. -/
def recvFrom (r : R) (comm : C) (src : Source R) (tag : Option G) : Option (Pattern R C G) :=
  match src with
  | .procNull => none
  | .any => some ⟨comm, r, none, tag⟩
  | .rank s => some ⟨comm, r, some s, tag⟩

/-! ## Constructors and destructors of the piggyback classes -/

section
variable (o : OpName R) (send : Option (Channel R C G)) (recv : Option (Pattern R C G))

/-- The piggyback of an operation, unless it is one with `MPI_PROC_NULL` only. -/
def postPB : List (Act R C G) :=
  if send.isNone && recv.isNone then [] else [.post true send recv o]

/-- `mpiSendPB`; its destructor does not wait for the piggyback. -/
def mpiSendPB : List (Act R C G) := postPB o send none

def mpiRecvPB : List (Act R C G) :=
  match recv with
  | none => []
  | some p => if p.wildcard then [] else [.post true none (some p) o]

def mpiRecvPBEnd : List (Act R C G) :=
  match recv with
  | none => []
  | some p =>
    if p.wildcard then [.recvStatus o, .await true o, .merge o] else [.await true o, .merge o]

def mpiSendrecvPB : List (Act R C G) :=
  postPB o send recv

def mpiSendrecvPBEnd : List (Act R C G) :=
  if recv.isSome then [.await true o, .merge o] else []

/-- The request of `mpiIsendPB`. -/
def mpiIsendPB : RequestData R C G where
  send := send
  completionCallback := send.map fun _ => .completePBnoHB
  current := some o

/-- The request of `mpiIrecvPB`. -/
def mpiIrecvPB : RequestData R C G where
  recv := recv
  completionCallback := recv.map fun p => if p.wildcard then .completePBWC else .completePBHB
  current := some o

/-- The request of `mpiIsendrecvPB`. -/
def mpiIsendrecvPB : RequestData R C G where
  send := send
  recv := recv
  completionCallback := some (if recv.isSome then .completePBHB else .completePBnoHB)
  current := some o

/-- The request of `mpiSendInitPB`. -/
def mpiSendInitPB : RequestData R C G where
  send := send
  persistent := true
  startCallback := send.map fun _ => .startPersPBHB
  completionCallback := send.map fun _ => .completePersPBnoHB

/-- The request of `mpiRecvInitPB`. -/
def mpiRecvInitPB : RequestData R C G where
  recv := recv
  persistent := true
  startCallback := recv.bind fun p => if p.wildcard then none else some .startPersPBnoHB
  completionCallback := recv.map fun p => if p.wildcard then .completePBWC else .completePersPBHB

end

namespace RequestData

def start (o : OpName R) (d : RequestData R C G) : List (Act R C G) :=
  match d.startCallback with
  | some .startPersPBHB | some .startPersPBnoHB => [.post true d.send d.recv o]
  | none => []

def wait (o : OpName R) (d : RequestData R C G) : List (Act R C G) :=
  if d.recv.isSome then [.await false o] else []

/-- `RequestData::complete` of operation `o`; `ignore` says whether the status is
`MPI_STATUS_IGNORE`. -/
def complete (ignore : Bool) (o : OpName R) (d : RequestData R C G) : List (Act R C G) :=
  match d.completionCallback with
  | some .completePBWC => if ignore then [.fault] else [.recvStatus o, .await true o, .merge o]
  | some .completePBHB | some .completePersPBHB => [.await true o, .merge o]
  | some .completePBnoHB | some .completePersPBnoHB => []
  | none => []

end RequestData

end

/-! ## Ranks and the library -/

/-- The calls of a rank. Requests are named like the calls that create them. `complete` stands for
`MPI_Wait`, `MPI_Test` and their variants: the requests that the library reports complete, in the
order in which the wrapper handles them. Only `MPI_Test` passes `MPI_STATUS_IGNORE` on. -/
inductive MpiCall (R C G : Type) where
  | send (comm : C) (dest : Option R) (tag : G)
  | recv (comm : C) (src : Source R) (tag : Option G)
  | sendrecv (comm : C) (dest : Option R) (sendtag : G) (src : Source R) (recvtag : Option G)
  | isend (comm : C) (dest : Option R) (tag : G)
  | irecv (comm : C) (src : Source R) (tag : Option G)
  | isendrecv (comm : C) (dest : Option R) (sendtag : G) (src : Source R) (recvtag : Option G)
  | sendInit (comm : C) (dest : Option R) (tag : G)
  | recvInit (comm : C) (src : Source R) (tag : Option G)
  | start (h : OpName R)
  | complete (hs : List (OpName R)) (ignore : Bool)

def MpiCall.wildcard {R C G : Type} : MpiCall R C G → Bool
  | .recv _ src tag | .irecv _ src tag | .recvInit _ src tag | .sendrecv _ _ _ src tag
  | .isendrecv _ _ _ src tag => src matches .any || tag.isNone
  | _ => false

def MpiCall.combined {R C G : Type} : MpiCall R C G → Bool
  | .sendrecv _ _ _ _ _ | .isendrecv _ _ _ _ _ => true
  | _ => false

inductive MpiLabel (R C G : Type) where
  | call (r : R) (c : MpiCall R C G)
  | exec (r : R)
  | deliver (dup : Bool) (ch : Channel R C G)

abbrev MpiNet (R C G : Type) := Net (Channel R C G) (Pattern R C G) (OpName R)

/-- The library with the application's messages and the piggybacks, and the ranks. -/
structure World (R C G : Type) where
  app : MpiNet R C G := {}
  dup : MpiNet R C G := {}
  todo : R → List (Act R C G) := fun _ => []
  next : R → ℕ := fun _ => 0
  requests : OpName R → Option (RequestData R C G) := fun _ => none
  /-- The merges made: the receive and the message whose piggyback it got. -/
  merged : List (OpName R × OpName R) := []
  faulted : R → Bool := fun _ => false

section
variable {R C G : Type} [DecidableEq R]

def postOn (send : Option (Channel R C G)) (recv : Option (Pattern R C G)) (o : OpName R)
    (N : MpiNet R C G) : MpiNet R C G :=
  let N := match send with
    | some ch => N.send ch o
    | none => N
  match recv with
  | some p => N.recv p o
  | none => N

def messageOf (N : MpiNet R C G) (o : OpName R) : Option (OpName R) :=
  (N.pairs.find? (·.2 = o)).map (·.1)

/-- The source and the tag of a completed receive, as a channel. -/
def statusOf (N : MpiNet R C G) (o : OpName R) : Option (Channel R C G) :=
  (messageOf N o).bind fun μ => (N.sends.find? (·.2 = μ)).map (·.1)

namespace World

def net (w : World R C G) (dup : Bool) : MpiNet R C G := if dup then w.dup else w.app

def post (dup : Bool) (send : Option (Channel R C G)) (recv : Option (Pattern R C G)) (o : OpName R)
    (w : World R C G) : World R C G :=
  if dup then { w with dup := postOn send recv o w.dup }
  else { w with app := postOn send recv o w.app }

def advance (r : R) (rest : List (Act R C G)) (w : World R C G) : World R C G :=
  { w with todo := Function.update w.todo r rest }

/-- The next access of rank `r`; a rank that has to wait stays where it is. -/
def exec (r : R) (w : World R C G) : World R C G :=
  match w.todo r with
  | [] => w
  | .post dup send recv o :: rest => (w.post dup send recv o).advance r rest
  | .await dup o :: rest => if (w.net dup).filled o then w.advance r rest else w
  | .recvStatus o :: rest =>
    match statusOf w.app o with
    | some ch => (w.post true none (some ch.pattern) o).advance r rest
    | none => w
  | .merge o :: rest =>
    match messageOf w.dup o with
    | some μ => { w with merged := (o, μ) :: w.merged }.advance r rest
    | none => w
  | .fault :: _ => { w with faulted := Function.update w.faulted r true }.advance r []

def issue (r : R) (acts : List (Act R C G)) (w : World R C G) : World R C G :=
  { w with todo := Function.update w.todo r acts, next := Function.update w.next r (w.next r + 1) }

def register (h : OpName R) (d : RequestData R C G) (w : World R C G) : World R C G :=
  { w with requests := Function.update w.requests h (some d) }

/-- The requests `hs` that stand for an operation, with it. The callback of an inactive persistent
request is left out: for a receive from one channel it merges its last values again, but
`completePBWC` receives from `MPI_ANY_SOURCE` on the duplicate (see `Orderly`). -/
def active (w : World R C G) (hs : List (OpName R)) : List (RequestData R C G × OpName R) :=
  hs.filterMap fun h => (w.requests h).bind fun d => d.current.map fun o => (d, o)

/-- After its completion a request is inactive if it is persistent, else it is gone. -/
def release (hs : List (OpName R)) (w : World R C G) : World R C G :=
  { w with requests := fun h =>
      if h ∈ hs then
        (w.requests h).bind fun d => if d.persistent then some { d with current := none } else none
      else w.requests h }

def call (r : R) (c : MpiCall R C G) (w : World R C G) : World R C G :=
  let o := (r, w.next r)
  match c with
  | .send comm dest tag =>
    let s := sendTo r comm dest tag
    w.issue r (mpiSendPB o s ++ [.post false s none o])
  | .recv comm src tag =>
    let p := recvFrom r comm src tag
    w.issue r (mpiRecvPB o p ++ .post false none p o ::
      ((if p.isSome then [.await false o] else []) ++ mpiRecvPBEnd o p))
  | .sendrecv comm dest sendtag src recvtag =>
    let s := sendTo r comm dest sendtag
    let p := recvFrom r comm src recvtag
    w.issue r (mpiSendrecvPB o s p ++ .post false s p o ::
      ((if p.isSome then [.await false o] else []) ++ mpiSendrecvPBEnd o p))
  | .isend comm dest tag =>
    let s := sendTo r comm dest tag
    (w.issue r (postPB o s none ++ [.post false s none o])).register o (mpiIsendPB o s)
  | .irecv comm src tag =>
    let p := recvFrom r comm src tag
    (w.issue r (mpiRecvPB o p ++ [.post false none p o])).register o (mpiIrecvPB o p)
  | .isendrecv comm dest sendtag src recvtag =>
    let s := sendTo r comm dest sendtag
    let p := recvFrom r comm src recvtag
    (w.issue r (postPB o s p ++ [.post false s p o])).register o (mpiIsendrecvPB o s p)
  | .sendInit comm dest tag =>
    (w.issue r []).register o (mpiSendInitPB (sendTo r comm dest tag))
  | .recvInit comm src tag =>
    (w.issue r []).register o (mpiRecvInitPB (recvFrom r comm src tag))
  | .start h =>
    match w.requests h with
    | some d => (w.issue r (d.start o ++ [.post false d.send d.recv o])).register h
        { d with current := some o }
    | none => w
  | .complete hs ignore =>
    let ds := w.active hs
    (w.issue r (ds.flatMap (fun d => d.1.wait d.2) ++
      ds.flatMap fun d => d.1.complete ignore d.2)).release hs

variable [DecidableEq C] [DecidableEq G]

def step (w : World R C G) : MpiLabel R C G → World R C G
  | .call r c => w.call r c
  | .exec r => w.exec r
  | .deliver true ch => { w with dup := w.dup.deliver Pattern.accepts ch }
  | .deliver false ch => { w with app := w.app.deliver Pattern.accepts ch }

/-- One call after the other; a rank starts its inactive persistent requests and completes its
active ones. -/
def Allowed (w : World R C G) : MpiLabel R C G → Prop
  | .call r c => w.todo r = [] ∧ w.faulted r = false ∧
    match c with
    | .start h => h.1 = r ∧ (w.requests h).any (fun d => d.persistent && d.current.isNone) = true
    | .complete hs ignore => hs.Nodup ∧ (∀ h ∈ hs, h.1 = r) ∧ (ignore = true → hs.length ≤ 1)
    | _ => True
  | _ => True

instance (w : World R C G) : ∀ a, Decidable (w.Allowed a)
  | .call _ (.start _) | .call _ (.complete _ _) => inferInstanceAs (Decidable (_ ∧ _ ∧ _))
  | .call _ (.send _ _ _) | .call _ (.recv _ _ _) | .call _ (.sendrecv _ _ _ _ _)
  | .call _ (.isend _ _ _) | .call _ (.irecv _ _ _) | .call _ (.isendrecv _ _ _ _ _)
  | .call _ (.sendInit _ _ _) | .call _ (.recvInit _ _ _) =>
    inferInstanceAs (Decidable (_ ∧ _ ∧ True))
  | .exec _ | .deliver _ _ => inferInstanceAs (Decidable True)

end World

/-- Runs of single-threaded ranks with the tool running. -/
def mpiMachine (R C G : Type) [DecidableEq R] [DecidableEq C] [DecidableEq G] :
    Machine (World R C G) (MpiLabel R C G) where
  step := World.step
  guard := World.Allowed

instance [DecidableEq C] [DecidableEq G] (w : World R C G) (a : MpiLabel R C G) :
    Decidable ((mpiMachine R C G).guard w a) :=
  inferInstanceAs (Decidable (w.Allowed a))

end

end CritPath
