import Mathlib.Data.Int.Notation
import Mathlib.Data.List.Basic

/-!
# The Fortran wrappers

`fort-wrappers.c` has a Fortran entry for each function that takes a handle away:
it converts the handles with `f2c`, calls the C wrapper and converts what that
left with `c2f` (the MPI-2 safe call). The C function is a parameter; what it
leaves in its arguments is part of the outcome, so that the Fortran arguments can
be compared with it.

Arrays hold `*count` elements. A status argument is missing for
`MPI_F_STATUS_IGNORE` and `MPI_F_STATUSES_IGNORE`. Memory that a wrapper passes on
without setting it is a parameter.
-/

namespace CritPath.Tracking.FortranWrappers

/-- The conversions of a kind of handle, and of statuses; `undefined` is `MPI_UNDEFINED`. -/
structure Conversions (H S F : Type) where
  f2c : ℤ → H
  c2f : H → ℤ
  f2c_c2f : ∀ h, f2c (c2f h) = h
  c2f_f2c : ∀ f, c2f (f2c f) = f
  statusF2c : F → S
  statusC2f : S → F
  undefined : ℤ

structure Left (H S : Type) where
  ret : ℤ
  handles : List H
  flag : ℤ := 0
  index : ℤ := 0
  outcount : ℤ := 0
  indices : List ℤ := []
  statuses : List S := []
  deriving DecidableEq

/-- A C function on handles and, unless they are ignored, statuses. -/
abbrev Callee (H S : Type) := List H → Option (List S) → Left H S

/-- The handles that the C function was called with, what it left, with `ret` in `*ierr`, and the
other Fortran arguments afterwards. -/
structure Outcome (H S F : Type) where
  called : List H
  left : Left H S
  handles : List ℤ
  flag : Option ℤ := none
  index : Option ℤ := none
  outcount : Option ℤ := none
  indices : Option (List ℤ) := none
  statuses : Option (List F) := none
  deriving DecidableEq

section
variable {H S F : Type} (c : Conversions H S F) (callee : Callee H S)

/-- One handle, converted in both directions. -/
def handleWrapper (handle : ℤ) : Outcome H S F :=
  let temp := [c.f2c handle]
  let left := callee temp none
  { called := temp, left, handles := left.handles.map c.c2f }

def start (request : ℤ) : Outcome H S F := handleWrapper c callee request

def requestFree (request : ℤ) : Outcome H S F := handleWrapper c callee request

def commFree (comm : ℤ) : Outcome H S F := handleWrapper c callee comm

/-- There is no `temp_comm = MPI_Comm_f2c(*comm)`: the C function gets what is on the stack. -/
def commDisconnect (stack : H) (_comm : ℤ) : Outcome H S F :=
  let left := callee [stack] none
  { called := [stack], left, handles := left.handles.map c.c2f }

def startall (requests : List ℤ) : Outcome H S F :=
  let temp := requests.map c.f2c
  let left := callee temp none
  { called := temp, left, handles := left.handles.map c.c2f }

/-- One request with a status; `Test` has a flag. -/
def statusWrapper (hasFlag : Bool) (request : ℤ) (status : Option F) : Outcome H S F :=
  let temp := [c.f2c request]
  let left := callee temp (status.map fun s => [c.statusF2c s])
  { called := temp
    left
    handles := left.handles.map c.c2f
    flag := if hasFlag then some left.flag else none
    statuses := status.map fun _ => left.statuses.map c.statusC2f }

def wait (request : ℤ) (status : Option F) : Outcome H S F :=
  statusWrapper c callee false request status

def test (request : ℤ) (status : Option F) : Outcome H S F :=
  statusWrapper c callee true request status

/-- `Waitall` and `Testall`: the requests are not converted back. -/
def allWrapper (hasFlag : Bool) (memory : List S) (requests : List ℤ) (statuses : Option (List F)) :
    Outcome H S F :=
  let temp := requests.map c.f2c
  let left := callee temp (statuses.map fun _ => memory)
  { called := temp
    left
    handles := requests
    flag := if hasFlag then some left.flag else none
    statuses := statuses.map fun _ => left.statuses.map c.statusC2f }

def waitall (memory : List S) (requests : List ℤ) (statuses : Option (List F)) : Outcome H S F :=
  allWrapper c callee false memory requests statuses

def testall (memory : List S) (requests : List ℤ) (statuses : Option (List F)) : Outcome H S F :=
  allWrapper c callee true memory requests statuses

/-- `if (*indx != MPI_UNDEFINED) ++(*indx);` -/
def shiftIndex (i : ℤ) : ℤ := if i ≠ c.undefined then i + 1 else i

/-- `Waitany` and `Testany`: the requests are not converted back. -/
def anyWrapper (hasFlag : Bool) (requests : List ℤ) (status : Option F) : Outcome H S F :=
  let temp := requests.map c.f2c
  let left := callee temp (status.map fun s => [c.statusF2c s])
  { called := temp
    left
    handles := requests
    flag := if hasFlag then some left.flag else none
    index := some (shiftIndex c left.index)
    statuses :=
      if left.index ≠ c.undefined then status.map fun _ => left.statuses.map c.statusC2f
      else status.map fun s => [s] }

def waitany (requests : List ℤ) (status : Option F) : Outcome H S F :=
  anyWrapper c callee false requests status

def testany (requests : List ℤ) (status : Option F) : Outcome H S F :=
  anyWrapper c callee true requests status

/-- `if (*outcount != MPI_UNDEFINED) for (i = 0; i < *outcount; ++i) ++array_of_indices[i];` -/
def shiftIndices (outcount : ℤ) (indices : List ℤ) : List ℤ :=
  if outcount ≠ c.undefined then indices.mapIdx fun i x => if (i : ℤ) < outcount then x + 1 else x
  else indices

/-- `Waitsome` and `Testsome`: the requests are not converted back. -/
def someWrapper (memory : List S) (requests : List ℤ) (statuses : Option (List F)) :
    Outcome H S F :=
  let temp := requests.map c.f2c
  let left := callee temp (statuses.map fun _ => memory)
  { called := temp
    left
    handles := requests
    outcount := some left.outcount
    indices := some (shiftIndices c left.outcount left.indices)
    statuses :=
      if left.outcount ≠ c.undefined then statuses.map fun _ => left.statuses.map c.statusC2f
      else statuses }

def waitsome (memory : List S) (requests : List ℤ) (statuses : Option (List F)) : Outcome H S F :=
  someWrapper c callee memory requests statuses

def testsome (memory : List S) (requests : List ℤ) (statuses : Option (List F)) : Outcome H S F :=
  someWrapper c callee memory requests statuses

end

/-! ## Calls -/

/-- A call from Fortran, with what is in the memory that the wrapper does not set. -/
inductive Call (H S F : Type)
  | start (request : ℤ)
  | startall (requests : List ℤ)
  | requestFree (request : ℤ)
  | wait (request : ℤ) (status : Option F)
  | waitall (memory : List S) (requests : List ℤ) (statuses : Option (List F))
  | waitany (requests : List ℤ) (status : Option F)
  | waitsome (memory : List S) (requests : List ℤ) (statuses : Option (List F))
  | test (request : ℤ) (status : Option F)
  | testall (memory : List S) (requests : List ℤ) (statuses : Option (List F))
  | testany (requests : List ℤ) (status : Option F)
  | testsome (memory : List S) (requests : List ℤ) (statuses : Option (List F))
  | commFree (comm : ℤ)
  | commDisconnect (stack : H) (comm : ℤ)

namespace Call

variable {H S F : Type}

def handles : Call H S F → List ℤ
  | .start h | .requestFree h | .wait h _ | .test h _ | .commFree h | .commDisconnect _ h => [h]
  | .startall hs | .waitall _ hs _ | .waitany hs _ | .waitsome _ hs _ | .testall _ hs _
  | .testany hs _ | .testsome _ hs _ => hs

def run (c : Conversions H S F) (callee : Callee H S) : Call H S F → Outcome H S F
  | .start request => FortranWrappers.start c callee request
  | .startall requests => FortranWrappers.startall c callee requests
  | .requestFree request => FortranWrappers.requestFree c callee request
  | .wait request status => FortranWrappers.wait c callee request status
  | .waitall memory requests statuses =>
    FortranWrappers.waitall c callee memory requests statuses
  | .waitany requests status => FortranWrappers.waitany c callee requests status
  | .waitsome memory requests statuses =>
    FortranWrappers.waitsome c callee memory requests statuses
  | .test request status => FortranWrappers.test c callee request status
  | .testall memory requests statuses =>
    FortranWrappers.testall c callee memory requests statuses
  | .testany requests status => FortranWrappers.testany c callee requests status
  | .testsome memory requests statuses =>
    FortranWrappers.testsome c callee memory requests statuses
  | .commFree comm => FortranWrappers.commFree c callee comm
  | .commDisconnect stack comm => FortranWrappers.commDisconnect c callee stack comm

/-- The C function got the images of the Fortran handles, the Fortran handles are the images of what
it left, and the indices that it left are shifted by one unless they are undefined. -/
structure Commutes (c : Conversions H S F) (callee : Callee H S) (call : Call H S F) : Prop where
  called : (call.run c callee).called = call.handles.map c.f2c
  handles : (call.run c callee).handles = (call.run c callee).left.handles.map c.c2f
  index : ∀ i, (call.run c callee).index = some i →
    i = (call.run c callee).left.index + if (call.run c callee).left.index = c.undefined then 0 else 1
  indices : ∀ is, (call.run c callee).indices = some is →
    is = if (call.run c callee).left.outcount = c.undefined then (call.run c callee).left.indices
      else ((call.run c callee).left.indices.take (call.run c callee).left.outcount.toNat).map (· + 1) ++
        (call.run c callee).left.indices.drop (call.run c callee).left.outcount.toNat

/-- The wrappers that do not convert the requests back need a C function that leaves all requests as
they are; `Comm_disconnect` needs the communicator on its stack. -/
def Spared (c : Conversions H S F) (callee : Callee H S) : Call H S F → Prop
  | .waitall memory requests statuses | .testall memory requests statuses
  | .waitsome memory requests statuses | .testsome memory requests statuses =>
    (callee (requests.map c.f2c) (statuses.map fun _ => memory)).handles = requests.map c.f2c
  | .waitany requests status | .testany requests status =>
    (callee (requests.map c.f2c) (status.map fun s => [c.statusF2c s])).handles = requests.map c.f2c
  | .commDisconnect stack comm => stack = c.f2c comm
  | .start _ | .startall _ | .requestFree _ | .wait _ _ | .test _ _ | .commFree _ => True

end Call

/-! ## Which wrappers convert -/

section
variable {H S F : Type} (c : Conversions H S F)

/-- Handles that are not converted back are right exactly if nothing was to be converted. -/
theorem eq_map_c2f_iff (handles : List ℤ) (left : List H) :
    handles = left.map c.c2f ↔ left = handles.map c.f2c := by
  constructor
  · rintro rfl
    simp [Function.comp_def, c.f2c_c2f]
  · rintro rfl
    simp [Function.comp_def, c.c2f_f2c]

theorem shiftIndex_eq (i : ℤ) : shiftIndex c i = i + if i = c.undefined then 0 else 1 := by
  unfold shiftIndex
  split <;> simp_all

theorem mapIdx_lt (f : ℤ → ℤ) (l : List ℤ) (n : ℕ) :
    (l.mapIdx fun i x => if i < n then f x else x) = (l.take n).map f ++ l.drop n := by
  induction l generalizing n with
  | nil => simp
  | cons a l ih =>
    cases n with
    | zero => simpa [List.mapIdx_cons] using ih 0
    | succ n => simpa [List.mapIdx_cons] using ih n

theorem shiftIndices_eq (outcount : ℤ) (indices : List ℤ) :
    shiftIndices c outcount indices =
      if outcount = c.undefined then indices
      else (indices.take outcount.toNat).map (· + 1) ++ indices.drop outcount.toNat := by
  unfold shiftIndices
  by_cases hu : outcount = c.undefined
  · rw [if_neg (not_not.mpr hu), if_pos hu]
  · rw [if_pos hu, if_neg hu, ← mapIdx_lt]
    simp only [Int.lt_toNat]

/-- A Fortran call commutes with the C function exactly if it is spared the missing conversions:
`Start`, `Startall`, `Request_free`, `Wait`, `Test` and `Comm_free` always do. -/
theorem fortran_commutes_iff (callee : Callee H S) (call : Call H S F) :
    call.Commutes c callee ↔ call.Spared c callee := by
  cases call with
  | start _ | requestFree _ | commFree _ | startall _ | wait _ _ | test _ _ =>
    exact iff_of_true ⟨rfl, rfl, (fun _ h => nomatch h), (fun _ h => nomatch h)⟩ trivial
  | commDisconnect stack comm =>
    constructor
    · intro h
      exact List.singleton_inj.mp h.called
    · rintro rfl
      exact ⟨rfl, rfl, (fun _ h => nomatch h), (fun _ h => nomatch h)⟩
  | waitall memory requests statuses | testall memory requests statuses =>
    constructor
    · intro h
      exact (eq_map_c2f_iff c _ _).mp h.handles
    · intro h
      exact ⟨rfl, (eq_map_c2f_iff c _ _).mpr h, (fun _ h => nomatch h), (fun _ h => nomatch h)⟩
  | waitany requests status | testany requests status =>
    constructor
    · intro h
      exact (eq_map_c2f_iff c _ _).mp h.handles
    · intro h
      refine ⟨rfl, (eq_map_c2f_iff c _ _).mpr h, fun i hi => ?_, fun _ h => nomatch h⟩
      rw [← Option.some.inj hi]
      exact shiftIndex_eq c _
  | waitsome memory requests statuses | testsome memory requests statuses =>
    constructor
    · intro h
      exact (eq_map_c2f_iff c _ _).mp h.handles
    · intro h
      refine ⟨rfl, (eq_map_c2f_iff c _ _).mpr h, (fun _ h => nomatch h), fun is his => ?_⟩
      rw [← Option.some.inj his]
      exact shiftIndices_eq c _ _

end

/-- Handles are the same integers in C and in Fortran. -/
def plainConversions : Conversions ℤ Unit Unit where
  f2c f := f
  c2f h := h
  f2c_c2f _ := rfl
  c2f_f2c _ := rfl
  statusF2c := id
  statusC2f := id
  undefined := -32766

def completeAll : Callee ℤ Unit := fun requests _ =>
  { ret := 0, handles := requests.map fun _ => 0 }

/-- `MPI_Waitall` leaves a request that is completed in the Fortran array, and
`MPI_Comm_disconnect` is called with what is on the stack. -/
theorem waitall_keeps_completed_request :
    ((Call.waitall [] [5] none).run plainConversions completeAll).left.handles = [0] ∧
      ((Call.waitall [] [5] none).run plainConversions completeAll).handles = [5] ∧
      ¬ (Call.waitall [] [5] none).Commutes plainConversions completeAll ∧
      ((Call.commDisconnect 77 5).run plainConversions completeAll).called = [77] ∧
      ¬ (Call.commDisconnect 77 5).Commutes plainConversions completeAll := by
  have hleft : ((Call.waitall [] [5] none).run plainConversions completeAll).left.handles = [0] :=
    rfl
  have hkept : ((Call.waitall [] [5] none).run plainConversions completeAll).handles = [5] := rfl
  have hcalled : ((Call.commDisconnect 77 5).run plainConversions completeAll).called = [77] := rfl
  refine ⟨hleft, hkept, fun h => ?_, hcalled, fun h => ?_⟩
  · have hh := h.handles
    rw [hleft, hkept] at hh
    revert hh
    decide
  · have hh := h.called
    rw [hcalled] at hh
    revert hh
    decide

end CritPath.Tracking.FortranWrappers
