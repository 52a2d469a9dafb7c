import Mathlib.Data.Int.Notation
import Mathlib.Data.Nat.Notation

/-!
# Tracked data

The objects behind application handles. `DataClass` is what the handle factories
use of a data class; `RequestData` is the class of requests and messages, whose
callbacks are given from outside and may do anything to their object but assign
its `handle`.
-/

namespace CritPath.Tracking

inductive Kind where
  | isend
  | irecv
  | imrecv
  | mprobe
  | icoll
  | ireduce
  | iallreduce
  | ibcast
  | psend
  | precv
  | pcoll
  | preduce
  | pallreduce
  | pbcast
  deriving DecidableEq

/-- `RequestData`, for MPI handles `M`, callbacks `C` and piggyback values `V`. -/
structure RequestData (M C V : Type) where
  values : V
  persistent : Bool := false
  startCallback : Option C := none
  cancelCallback : Option C := none
  completionCallback : Option C := none
  freed : Bool := true
  cancelled : Bool := false
  kind : Kind := .isend
  pbReqs : M × M
  remote : ℤ := -42
  tag : ℤ := -42
  root : ℤ := -42
  comm : Option ℕ := none
  handle : M
  deriving DecidableEq

/-- What the callbacks do to their object, with the status that completion callbacks get. -/
structure Callbacks (M C V S : Type) where
  run : C → Option S → RequestData M C V → RequestData M C V
  handle_run : ∀ c s d, (run c s d).handle = d.handle

namespace RequestData

variable {M C V S : Type}

def new (null : M) (values : V) : RequestData M C V :=
  { values := values, pbReqs := (null, null), handle := null }

def init (request : M) (persistent : Bool) (d : RequestData M C V) : RequestData M C V :=
  { d with persistent := persistent, handle := request, freed := false, cancelled := false }

def call (cb : Callbacks M C V S) (c : Option C) (status : Option S) (d : RequestData M C V) :
    RequestData M C V :=
  match c with
  | some c => cb.run c status d
  | none => d

def start (cb : Callbacks M C V S) (d : RequestData M C V) : RequestData M C V :=
  d.call cb d.startCallback none

def cancel (cb : Callbacks M C V S) (d : RequestData M C V) : RequestData M C V :=
  { d with cancelled := true }.call cb d.cancelCallback none

def complete (cb : Callbacks M C V S) (status : S) (d : RequestData M C V) : RequestData M C V :=
  d.call cb d.completionCallback (some status)

def fini (null : M) (d : RequestData M C V) : RequestData M C V :=
  { d with
    handle := null
    pbReqs := (null, null)
    completionCallback := none
    startCallback := none
    cancelCallback := none
    remote := -42
    tag := -42
    root := -42
    kind := .isend
    freed := true
    cancelled := false }

theorem handle_call (cb : Callbacks M C V S) (c : Option C) (s : Option S)
    (d : RequestData M C V) : (d.call cb c s).handle = d.handle := by
  cases c with
  | none => rfl
  | some c => exact cb.handle_run c s d

end RequestData

/-- The methods of a data class `T` that the factories call, with statuses `S` of completion. -/
structure DataClass (T S : Type) where
  fresh : T
  handle : T → ℤ
  setHandle : ℤ → T → T
  isPersistent : T → Bool
  init : ℤ → Bool → T → T
  start : T → T
  cancel : T → T
  complete : S → T → T
  fini : T → T
  handle_init : ∀ m p d, handle (init m p d) = m
  handle_setHandle : ∀ m d, handle (setHandle m d) = m
  handle_start : ∀ d, handle (start d) = handle d
  handle_cancel : ∀ d, handle (cancel d) = handle d
  handle_complete : ∀ s d, handle (complete s d) = handle d

/-- `RequestData` on a library whose handles are integers. -/
def RequestData.dataClass {C V S : Type} (null : ℤ) (values : V) (cb : Callbacks ℤ C V S) :
    DataClass (RequestData ℤ C V) S where
  fresh := .new null values
  handle := RequestData.handle
  setHandle m d := { d with handle := m }
  isPersistent := RequestData.persistent
  init := RequestData.init
  start := RequestData.start cb
  cancel := RequestData.cancel cb
  complete := RequestData.complete cb
  fini := RequestData.fini null
  handle_init _ _ _ := rfl
  handle_setHandle _ _ := rfl
  handle_start d := d.handle_call cb _ _
  handle_cancel d := RequestData.handle_call cb _ _ { d with cancelled := true }
  handle_complete _ d := d.handle_call cb _ _

end CritPath.Tracking
