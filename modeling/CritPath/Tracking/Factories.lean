import CritPath.Tracking.HandleTable

/-!
# The two request factories

`RequestFactoryInst<MI *>` uses the address of a `RequestData` as the request of
the application, `RequestFactoryInst<int>` an index of its table. Both stand
behind `AbstractRequestFactory`, and an application that keeps requests in
variables runs on either. `none` is `MPI_REQUEST_NULL`; on a library with pointer
handles it is an address too, and `atNull` is the memory there, read as a
`RequestData`.
-/

namespace CritPath.Tracking

open Lib

structure Ran (M C V S : Type) where
  callback : C
  obj : ℕ
  arg : RequestData M C V
  status : Option S

/-- The pool of `RequestData` objects, their memory and the callbacks that have run. -/
structure Store (M C V S : Type) where
  pool : Pool := {}
  data : ℕ → RequestData M C V
  log : List (Ran M C V S) := []

/-- What both factories are built with. -/
structure Library (M C V S : Type) where
  null : M
  values : V
  callbacks : Callbacks M C V S
  ndatas : ℕ
  ndatas_pos : 0 < ndatas

namespace Store

variable {M C V S : Type} (B : Library M C V S)

def getData (s : Store M C V S) : ℕ × Store M C V S :=
  let r := s.pool.get B.ndatas
  (r.1,
    { s with
      pool := r.2
      data := fun i =>
        if s.pool.count ≤ i ∧ i < r.2.count then .new B.null B.values else s.data i })

def returnData (o : ℕ) (s : Store M C V S) : Store M C V S := { s with pool := s.pool.put o }

def modify (o : ℕ) (g : RequestData M C V → RequestData M C V) (s : Store M C V S) :
    Store M C V S :=
  { s with data := Function.update s.data o (g (s.data o)) }

/-- A method that may run callback `c` on object `o` with argument `arg`. -/
def note (c : Option C) (o : ℕ) (arg : RequestData M C V) (status : Option S)
    (s : Store M C V S) : Store M C V S :=
  { s with log := s.log ++ (c.map fun c => ⟨c, o, arg, status⟩).toList }

def start (o : ℕ) (s : Store M C V S) : Store M C V S :=
  (s.note (s.data o).startCallback o (s.data o) none).modify o (.start B.callbacks)

def cancel (o : ℕ) (s : Store M C V S) : Store M C V S :=
  (s.note (s.data o).cancelCallback o { s.data o with cancelled := true } none).modify o
    (.cancel B.callbacks)

def complete (o : ℕ) (status : S) (s : Store M C V S) : Store M C V S :=
  (s.note (s.data o).completionCallback o (s.data o) (some status)).modify o
    (.complete B.callbacks status)

def fini (o : ℕ) (s : Store M C V S) : Store M C V S :=
  s.modify o (.fini B.null)

/-- The data objects that are out of the pool. -/
def outstanding (s : Store M C V S) : ℕ := s.pool.count - s.pool.free.length

end Store

/-- `AbstractRequestFactory`, on factories `F` with application requests in `Option ℕ`. -/
structure AbstractRequestFactory (F M C V S : Type) where
  store : F → Store M C V S
  /-- The caller writes to a data object in its hands. -/
  setData : ℕ → (RequestData M C V → RequestData M C V) → F → F
  newData : F → ℕ × F
  newRequest : M → Bool → F → Option ℕ × F
  newRequestWith : M → ℕ → Bool → F → Option ℕ × F
  completeRequest : Option ℕ → S → F → Option ℕ × F
  completeRequestWith : Option ℕ → M → S → F → Option ℕ × F
  startRequest : Option ℕ → F → M × F
  cancelRequest : Option ℕ → F → Option ℕ × F
  getHandle : Option ℕ → F → M
  freeHandle : Option ℕ → F → Option ℕ × F
  object : Option ℕ → F → Option ℕ

/-! ## Pointer handles -/

structure PointerFactory (M C V S : Type) where
  store : Store M C V S
  atNull : RequestData M C V

namespace PointerFactory

variable {M C V S : Type} (B : Library M C V S)

def newData (f : PointerFactory M C V S) : ℕ × PointerFactory M C V S :=
  ((f.store.getData B).1, { f with store := (f.store.getData B).2 })

def newRequest [DecidableEq M] (req : M) (persistent : Bool)
    (f : PointerFactory M C V S) : Option ℕ × PointerFactory M C V S :=
  if req = B.null then (none, f)
  else
    let r := f.newData B
    (some r.1, { r.2 with store := r.2.store.modify r.1 (.init req persistent) })

/-- `newRequest` with the caller's data does not look at `req`. -/
def newRequestWith (req : M) (o : ℕ) (persistent : Bool) (f : PointerFactory M C V S) :
    Option ℕ × PointerFactory M C V S :=
  (some o, { f with store := f.store.modify o (.init req persistent) })

def completeRequest (req : Option ℕ) (status : S)
    (f : PointerFactory M C V S) : Option ℕ × PointerFactory M C V S :=
  match req with
  | none => (none, f)
  | some o =>
    if (f.store.data o).persistent then (some o, { f with store := f.store.complete B o status })
    else (none, { f with store := ((f.store.complete B o status).fini B o).returnData o })

/-- `((RequestData *)req)->handle = mpi_req`. -/
def setHandle (req : Option ℕ) (m : M) (f : PointerFactory M C V S) : PointerFactory M C V S :=
  match req with
  | none => { f with atNull := { f.atNull with handle := m } }
  | some o => { f with store := f.store.modify o fun d => { d with handle := m } }

/-- `completeRequest` with `mpi_req` assigns the handle before it looks at `req`. -/
def completeRequestWith (req : Option ℕ) (m : M) (status : S)
    (f : PointerFactory M C V S) : Option ℕ × PointerFactory M C V S :=
  (f.setHandle req m).completeRequest B req status

def startRequest (req : Option ℕ) (f : PointerFactory M C V S) : M × PointerFactory M C V S :=
  match req with
  | none => (B.null, f)
  | some o => (((f.store.start B o).data o).handle, { f with store := f.store.start B o })

def cancelRequest (req : Option ℕ) (f : PointerFactory M C V S) :
    Option ℕ × PointerFactory M C V S :=
  match req with
  | none => (none, f)
  | some o => (some o, { f with store := f.store.cancel B o })

def getHandle (req : Option ℕ) (f : PointerFactory M C V S) : M :=
  match req with
  | none => B.null
  | some o => (f.store.data o).handle

def freeHandle (req : Option ℕ) (f : PointerFactory M C V S) : Option ℕ × PointerFactory M C V S :=
  match req with
  | none => (none, f)
  | some o => (none, { f with store := (f.store.fini B o).returnData o })

end PointerFactory

/-- `RequestFactoryInst<MI *>`. -/
def pointerFactory {M C V S : Type} [DecidableEq M] (B : Library M C V S) :
    AbstractRequestFactory (PointerFactory M C V S) M C V S where
  store := PointerFactory.store
  setData o g f := { f with store := f.store.modify o g }
  newData := PointerFactory.newData B
  newRequest := PointerFactory.newRequest B
  newRequestWith := PointerFactory.newRequestWith
  completeRequest := PointerFactory.completeRequest B
  completeRequestWith := PointerFactory.completeRequestWith B
  startRequest := PointerFactory.startRequest B
  cancelRequest := PointerFactory.cancelRequest B
  getHandle := PointerFactory.getHandle B
  freeHandle := PointerFactory.freeHandle B
  object req _ := req

/-! ## Integer handles -/

structure IntFactory (M C V S : Type) where
  store : Store M C V S
  table : HandleTable := {}

namespace IntFactory

variable {M C V S : Type} (B : Library M C V S)

def newData (f : IntFactory M C V S) : ℕ × IntFactory M C V S :=
  ((f.store.getData B).1, { f with store := (f.store.getData B).2 })

def enter (o : ℕ) (f : IntFactory M C V S) : ℕ × IntFactory M C V S :=
  ((f.table.enter o).1, { f with table := (f.table.enter o).2 })

def newRequest [DecidableEq M] (req : M) (persistent : Bool)
    (f : IntFactory M C V S) : Option ℕ × IntFactory M C V S :=
  if req = B.null then (none, f)
  else
    let r := f.newData B
    let e := r.2.enter r.1
    (some e.1, { e.2 with store := e.2.store.modify r.1 (.init req persistent) })

def newRequestWith [DecidableEq M] (req : M) (o : ℕ) (persistent : Bool)
    (f : IntFactory M C V S) : Option ℕ × IntFactory M C V S :=
  if req = B.null then (none, f)
  else
    let e := enter o { f with store := f.store.modify o (.init req persistent) }
    (some e.1, e.2)

/-- A call on request `req`, with `g` for the data object that the table has for it. -/
def onObject {A : Type} (req : Option ℕ) (null : A) (f : IntFactory M C V S)
    (g : ℕ → ℕ → A × IntFactory M C V S) : A × IntFactory M C V S :=
  match req with
  | none => (null, f)
  | some h =>
    match f.table.dataTable h with
    | some o => g h o
    | none => (null, f)

@[simp] theorem onObject_none {A : Type} {a : A} {f : IntFactory M C V S}
    {g : ℕ → ℕ → A × IntFactory M C V S} : f.onObject none a g = (a, f) := rfl

theorem onObject_some {A : Type} {a : A} {f : IntFactory M C V S}
    {g : ℕ → ℕ → A × IntFactory M C V S} {h o : ℕ} (ho : f.table.dataTable h = some o) :
    f.onObject (some h) a g = g h o := by
  unfold onObject
  simp only [ho]

/-- The end of `completeRequest`, which has read `persistent`. -/
def finish (h o : ℕ) (persistent : Bool) (status : S)
    (f : IntFactory M C V S) : Option ℕ × IntFactory M C V S :=
  if persistent then (some h, { f with store := f.store.complete B o status })
  else (none, { f with store := ((f.store.complete B o status).fini B o).returnData o })

/-- The section on the table, which keeps the handle of a persistent request. -/
def putBack (h : ℕ) (persistent : Bool) (f : IntFactory M C V S) : IntFactory M C V S :=
  if persistent then f else { f with table := f.table.putBack h }

theorem putBack_eq (h : ℕ) (persistent : Bool) (f : IntFactory M C V S) :
    f.putBack h persistent = { f.putBack h persistent with store := f.store } := by
  unfold putBack
  split <;> rfl

def completeRequest (req : Option ℕ) (status : S) (f : IntFactory M C V S) :
    Option ℕ × IntFactory M C V S :=
  f.onObject req none fun h o =>
    let persistent := (f.store.data o).persistent
    (f.putBack h persistent).finish B h o persistent status

def completeRequestWith (req : Option ℕ) (m : M) (status : S)
    (f : IntFactory M C V S) : Option ℕ × IntFactory M C V S :=
  f.onObject req none fun h o =>
    let persistent := (f.store.data o).persistent
    let f := f.putBack h persistent
    let f := { f with store := f.store.modify o fun d => { d with handle := m } }
    f.finish B h o persistent status

def startRequest (req : Option ℕ) (f : IntFactory M C V S) : M × IntFactory M C V S :=
  f.onObject req B.null fun _ o =>
    (((f.store.start B o).data o).handle, { f with store := f.store.start B o })

def cancelRequest (req : Option ℕ) (f : IntFactory M C V S) : Option ℕ × IntFactory M C V S :=
  f.onObject req none fun h o => (some h, { f with store := f.store.cancel B o })

def getHandle (req : Option ℕ) (f : IntFactory M C V S) : M :=
  (f.onObject req B.null fun _ o => ((f.store.data o).handle, f)).1

def freeHandle (req : Option ℕ) (f : IntFactory M C V S) : Option ℕ × IntFactory M C V S :=
  f.onObject req none fun h o =>
    let f := f.putBack h false
    (none, { f with store := (f.store.fini B o).returnData o })

end IntFactory

/-- `RequestFactoryInst<int>`. -/
def intFactory {M C V S : Type} [DecidableEq M] (B : Library M C V S) :
    AbstractRequestFactory (IntFactory M C V S) M C V S where
  store := IntFactory.store
  setData o g f := { f with store := f.store.modify o g }
  newData := IntFactory.newData B
  newRequest := IntFactory.newRequest B
  newRequestWith := IntFactory.newRequestWith B
  completeRequest := IntFactory.completeRequest B
  completeRequestWith := IntFactory.completeRequestWith B
  startRequest := IntFactory.startRequest B
  cancelRequest := IntFactory.cancelRequest B
  getHandle := IntFactory.getHandle B
  freeHandle := IntFactory.freeHandle B
  object req f := req.bind f.table.dataTable

/-! ## An application on a factory -/

/-- What the application sees of a call: if it returned `MPI_REQUEST_NULL`, or an MPI handle. -/
inductive Seen (M : Type) where
  | request (null : Bool)
  | handle (m : M)
  deriving DecidableEq

/-- Calls on the requests in variables `X` and the data objects in variables `Y`. -/
inductive ReqOp (X Y M C V S : Type) where
  | newData (y : Y)
  | setData (y : Y) (g : RequestData M C V → RequestData M C V)
  | newRequest (x : X) (req : M) (persistent : Bool)
  | newRequestWith (x : X) (req : M) (y : Y) (persistent : Bool)
  | completeRequest (x : X) (status : S)
  | completeRequestWith (x : X) (m : M) (status : S)
  | startRequest (x : X)
  | cancelRequest (x : X)
  | getHandle (x : X)
  | freeHandle (x : X)

structure App (F X Y M : Type) where
  factory : F
  request : X → Option ℕ := fun _ => none
  held : Y → Option ℕ := fun _ => none
  seen : List (Seen M) := []

namespace App

variable {F X Y M C V S : Type} [DecidableEq X]

def assign (x : X) (r : Option ℕ × F) (a : App F X Y M) : App F X Y M :=
  { a with
    factory := r.2
    request := Function.update a.request x r.1
    seen := a.seen ++ [.request r.1.isNone] }

def step [DecidableEq Y] (I : AbstractRequestFactory F M C V S) (a : App F X Y M) :
    ReqOp X Y M C V S → App F X Y M
  | .newData y =>
    let r := I.newData a.factory
    { a with factory := r.2, held := Function.update a.held y (some r.1) }
  | .setData y g =>
    match a.held y with
    | some o => { a with factory := I.setData o g a.factory }
    | none => a
  | .newRequest x req p => a.assign x (I.newRequest req p a.factory)
  | .newRequestWith x req y p =>
    match a.held y with
    | some o =>
      let r := I.newRequestWith req o p a.factory
      -- The request has the data object now, unless there is none.
      { a.assign x r with held := if r.1.isSome then Function.update a.held y none else a.held }
    | none => a
  | .completeRequest x status => a.assign x (I.completeRequest (a.request x) status a.factory)
  | .completeRequestWith x m status =>
    a.assign x (I.completeRequestWith (a.request x) m status a.factory)
  | .startRequest x =>
    let r := I.startRequest (a.request x) a.factory
    { a with factory := r.2, seen := a.seen ++ [.handle r.1] }
  | .cancelRequest x =>
    let r := I.cancelRequest (a.request x) a.factory
    { a with factory := r.2, seen := a.seen ++ [.request r.1.isNone] }
  | .getHandle x => { a with seen := a.seen ++ [.handle (I.getHandle (a.request x) a.factory)] }
  | .freeHandle x => a.assign x (I.freeHandle (a.request x) a.factory)

section
variable [DecidableEq Y] {I : AbstractRequestFactory F M C V S} {a : App F X Y M} {x : X} {y : Y}
  {o : ℕ}

theorem step_setData_none {g : RequestData M C V → RequestData M C V} (hy : a.held y = none) :
    a.step I (.setData y g) = a := by
  simp only [step, hy]

theorem step_setData_some {g : RequestData M C V → RequestData M C V} (hy : a.held y = some o) :
    a.step I (.setData y g) = { a with factory := I.setData o g a.factory } := by
  simp only [step, hy]

theorem step_newRequestWith_none {req : M} {p : Bool} (hy : a.held y = none) :
    a.step I (.newRequestWith x req y p) = a := by
  simp only [step, hy]

theorem step_newRequestWith_some {req : M} {p : Bool} (hy : a.held y = some o) :
    a.step I (.newRequestWith x req y p) =
      { a.assign x (I.newRequestWith req o p a.factory) with
        held := if (I.newRequestWith req o p a.factory).1.isSome then Function.update a.held y none
          else a.held } := by
  simp only [step, hy]

end

def machine (X Y : Type) [DecidableEq X] [DecidableEq Y] (I : AbstractRequestFactory F M C V S) :
    Machine (App F X Y M) (ReqOp X Y M C V S) where
  step := step I

/-- The two overloads with a data object and with an MPI handle are not used on
`MPI_REQUEST_NULL`. -/
def NotNull (B : Library M C V S) (a : App F X Y M) : ReqOp X Y M C V S → Prop
  | .newRequestWith _ req _ _ => req ≠ B.null
  | .completeRequestWith x _ _ => a.request x ≠ none
  | _ => True

/-- The data object that a call is about. -/
def addressed [DecidableEq M] (B : Library M C V S) (I : AbstractRequestFactory F M C V S)
    (a : App F X Y M) : ReqOp X Y M C V S → Option ℕ
  | .newRequest _ req _ => if req = B.null then none else some (I.newData a.factory).1
  | .newRequestWith _ req y _ => if req = B.null then none else a.held y
  | .setData y _ => a.held y
  | .completeRequest x _ | .completeRequestWith x _ _ | .startRequest x | .cancelRequest x
  | .freeHandle x => I.object (a.request x) a.factory
  | .newData _ | .getHandle _ => none

/-! ## The factories side by side -/

/-- The requests in the variables of both applications stand for the same data objects, whose
stores are the same; the memory at `MPI_REQUEST_NULL` is untouched. -/
structure Alike (atNull : RequestData M C V) (p : App (PointerFactory M C V S) X Y M)
    (i : App (IntFactory M C V S) X Y M) : Prop where
  store : p.factory.store = i.factory.store
  held : p.held = i.held
  seen : p.seen = i.seen
  atNull : p.factory.atNull = atNull
  free : i.factory.table.available.Accounts []
  null : ∀ x, i.request x = none → p.request x = none
  live : ∀ x h, i.request x = some h → i.factory.table.available.Accounts [h] ∧
    ∃ o, i.factory.table.dataTable h = some o ∧ p.request x = some o
  inj : ∀ x y h, i.request x = some h → i.request y = some h → x = y

section
variable {atNull : RequestData M C V} {p : App (PointerFactory M C V S) X Y M}
  {i : App (IntFactory M C V S) X Y M} (fp : PointerFactory M C V S) (fi : IntFactory M C V S)
  {x : X} {h o : ℕ} (ha : Alike atNull p i)

include ha

omit [DecidableEq X] in
theorem Alike.request_cases (x : X) :
    (i.request x = none ∧ p.request x = none) ∨
    ∃ h o, i.request x = some h ∧ i.factory.table.dataTable h = some o ∧ p.request x = some o := by
  cases hx : i.request x with
  | none => exact .inl ⟨rfl, ha.null x hx⟩
  | some h =>
    obtain ⟨-, o, ho, hp⟩ := ha.live x h hx
    exact .inr ⟨h, o, rfl, ho, hp⟩

omit [DecidableEq X] in
theorem Alike.of_store {p' : App (PointerFactory M C V S) X Y M}
    {i' : App (IntFactory M C V S) X Y M}
    (hrequest : p'.request = p.request ∧ i'.request = i.request)
    (hstore : p'.factory.store = i'.factory.store)
    (hatNull : p'.factory.atNull = p.factory.atNull)
    (htable : i'.factory.table = i.factory.table) (hheld : p'.held = i'.held)
    (hseen : p'.seen = i'.seen) : Alike atNull p' i' where
  store := hstore
  held := hheld
  seen := hseen
  atNull := hatNull.trans ha.atNull
  free := htable ▸ ha.free
  null := by
    rw [hrequest.1, hrequest.2]
    exact ha.null
  live := by
    rw [hrequest.1, hrequest.2, htable]
    exact ha.live
  inj := by
    rw [hrequest.2]
    exact ha.inj

theorem Alike.assign_same (hstore : fp.store = fi.store)
    (hatNull : fp.atNull = p.factory.atNull) (htable : fi.table = i.factory.table) :
    Alike atNull (p.assign x (p.request x, fp)) (i.assign x (i.request x, fi)) := by
  have hnull : (p.request x).isNone = (i.request x).isNone := by
    rcases ha.request_cases x with ⟨hi, hp⟩ | ⟨h, o, hi, -, hp⟩
    · rw [hi, hp]
    · rw [hi, hp]
      rfl
  refine ha.of_store ⟨Function.update_eq_self .., Function.update_eq_self ..⟩ hstore hatNull
    htable ha.held ?_
  show p.seen ++ [.request (p.request x).isNone] = i.seen ++ [.request (i.request x).isNone]
  rw [hnull, ha.seen]

theorem Alike.assign_forget (hstore : fp.store = fi.store)
    (hatNull : fp.atNull = p.factory.atNull) (htable : fi.table = i.factory.table) :
    Alike atNull (p.assign x (none, fp)) (i.assign x (none, fi)) := by
  have hother : ∀ y k, Function.update i.request x none y = some k →
      y ≠ x ∧ i.request y = some k := by
    intro y k hy
    have hyx : y ≠ x := by
      rintro rfl
      simp at hy
    exact ⟨hyx, by rwa [Function.update_of_ne hyx] at hy⟩
  refine ⟨hstore, ha.held, congrArg (· ++ _) ha.seen, hatNull.trans ha.atNull, ?_, ?_, ?_, ?_⟩
  · show fi.table.available.Accounts []
    rw [htable]
    exact ha.free
  · intro y hy
    by_cases hyx : y = x
    · subst hyx
      exact Function.update_self ..
    · have hy : i.request y = none := by
        rw [← hy]
        exact (Function.update_of_ne hyx ..).symm
      exact (Function.update_of_ne hyx ..).trans (ha.null y hy)
  · intro y k hy
    obtain ⟨hyx, hy'⟩ := hother y k hy
    show fi.table.available.Accounts [k] ∧ ∃ o, fi.table.dataTable k = some o ∧
      Function.update p.request x none y = some o
    rw [htable, Function.update_of_ne hyx]
    exact ha.live y k hy'
  · intro y z k hy hz
    exact ha.inj y z k (hother y k hy).2 (hother z k hz).2

omit [DecidableEq X] in
theorem Alike.putBack (hh : i.factory.table.available.Accounts [h])
    (hno : ∀ x, i.request x ≠ some h) :
    Alike atNull p { i with factory := { i.factory with table := i.factory.table.putBack h } } where
  store := ha.store
  held := ha.held
  seen := ha.seen
  atNull := ha.atNull
  free := hh.put
  null := ha.null
  live y k hy := by
    obtain ⟨hk, hrest⟩ := ha.live y k hy
    have hne : h ≠ k := fun heq => hno y (heq ▸ hy)
    have hpair : i.factory.table.available.Accounts [h, k] := hk.cons hh (by simpa using hne)
    exact ⟨hpair.put, hrest⟩
  inj := ha.inj

theorem Alike.assign_none (hx : i.request x = some h)
    (hstore : fp.store = fi.store) (hatNull : fp.atNull = p.factory.atNull)
    (htable : fi.table = i.factory.table.putBack h) :
    Alike atNull (p.assign x (none, fp)) (i.assign x (none, fi)) := by
  have hforget := ha.assign_forget (x := x) fp { fi with table := i.factory.table } hstore hatNull
    rfl
  have hput := hforget.putBack (ha.live x h hx).1 (by
    intro y hy
    have hyx : y ≠ x := by
      rintro rfl
      simp [assign] at hy
    exact hyx (ha.inj y x h (by simpa [assign, hyx] using hy) hx))
  have hfi : { fi with table := i.factory.table.putBack h } = fi := by rw [← htable]
  unfold assign at hput ⊢
  rwa [hfi] at hput

theorem Alike.assign_enter (hstore : fp.store = fi.store)
    (hatNull : fp.atNull = p.factory.atNull) (htable : fi.table = (i.factory.table.enter o).2) :
    Alike atNull (p.assign x (some o, fp))
      (i.assign x (some (i.factory.table.enter o).1, fi)) := by
  have hget := ha.free.get (n := 64) (by decide)
  -- Live handles stay apart from the new one.
  have hlive : ∀ y k, i.request y = some k → k ≠ (i.factory.table.enter o).1 ∧
      fi.table.available.Accounts [k] ∧ fi.table.dataTable k = i.factory.table.dataTable k := by
    intro y k hy
    have hk := (ha.live y k hy).1
    have hpair := hk.get (n := 64) (by decide)
    have hne : k ≠ (i.factory.table.enter o).1 := by
      rw [HandleTable.enter_fst]
      intro heq
      have hnodup := hpair.out_nodup
      rw [heq] at hnodup
      simp at hnodup
    have hlt : k < i.factory.table.size := hk.lt_count (List.mem_singleton.mpr rfl)
    rw [htable, HandleTable.dataTable_enter_of_ne hne hlt, HandleTable.enter_available]
    exact ⟨hne, hpair.of_sublist (List.sublist_cons_self _ _), rfl⟩
  refine ⟨hstore, ha.held, congrArg (· ++ _) ha.seen, hatNull.trans ha.atNull, ?_, ?_, ?_, ?_⟩
  · show fi.table.available.Accounts []
    rw [htable, HandleTable.enter_available]
    exact hget.of_sublist (List.nil_sublist _)
  · intro y hy
    have hyx : y ≠ x := by
      rintro rfl
      simp [assign] at hy
    have hy : i.request y = none := by
      rw [← hy]
      exact (Function.update_of_ne hyx ..).symm
    exact (Function.update_of_ne hyx ..).trans (ha.null y hy)
  · intro y k hy
    show fi.table.available.Accounts [k] ∧ ∃ o', fi.table.dataTable k = some o' ∧
      Function.update p.request x (some o) y = some o'
    by_cases hyx : y = x
    · subst hyx
      obtain rfl : (i.factory.table.enter o).1 = k := by simpa [assign] using hy
      rw [htable, HandleTable.enter_available, Function.update_self]
      refine ⟨?_, o, HandleTable.dataTable_enter_self o _, rfl⟩
      rw [HandleTable.enter_fst]
      exact hget
    · have hy : i.request y = some k := by
        rw [← hy]
        exact (Function.update_of_ne hyx ..).symm
      obtain ⟨-, hacc, htab⟩ := hlive y k hy
      rw [Function.update_of_ne hyx, htab]
      exact ⟨hacc, (ha.live y k hy).2⟩
  · intro y z k hy hz
    refine update_inj_of_fresh ha.inj (fun w hw => ?_) x y z k hy hz
    exact (hlive w _ hw).1 rfl

end

section
variable {B : Library M C V S} {atNull : RequestData M C V}
  {p : App (PointerFactory M C V S) X Y M} {i : App (IntFactory M C V S) X Y M} {x : X} {h o : ℕ}
  (ha : Alike atNull p i)

include ha

theorem Alike.assign_null (hi : i.request x = none)
    (hp : p.request x = none) :
    Alike atNull (p.assign x (none, p.factory)) (i.assign x (none, i.factory)) := by
  have hsame := ha.assign_same (x := x) p.factory i.factory ha.store rfl rfl
  rwa [hi, hp] at hsame

theorem Alike.finish (hi : i.request x = some h)
    (hp : p.request x = some o) (s : Store M C V S) (status : S) :
    Alike atNull
      (p.assign x (PointerFactory.completeRequest B (some o) status { p.factory with store := s }))
      (i.assign x (IntFactory.finish B h o (s.data o).persistent status
        { i.factory.putBack h (s.data o).persistent with store := s })) := by
  unfold PointerFactory.completeRequest IntFactory.finish IntFactory.putBack
  cases hper : (s.data o).persistent with
  | true =>
    have hsame := ha.assign_same (x := x) { p.factory with store := s.complete B o status }
      { i.factory with store := s.complete B o status } rfl rfl rfl
    rw [hi, hp] at hsame
    simpa [hper] using hsame
  | false =>
    have hnone := ha.assign_none
      { p.factory with store := ((s.complete B o status).fini B o).returnData o }
      { store := ((s.complete B o status).fini B o).returnData o
        table := i.factory.table.putBack h } hi rfl rfl rfl
    simpa [hper] using hnone

theorem Alike.completeRequest (x : X) (status : S) :
    Alike atNull (p.assign x (p.factory.completeRequest B (p.request x) status))
      (i.assign x (i.factory.completeRequest B (i.request x) status)) := by
  rcases ha.request_cases x with ⟨hi, hp⟩ | ⟨h, o, hi, ho, hp⟩
  · rw [hi, hp]
    exact ha.assign_null hi hp
  · unfold IntFactory.completeRequest
    rw [hi, hp, IntFactory.onObject_some ho]
    have hfinish := ha.finish (B := B) hi hp i.factory.store status
    rw [← IntFactory.putBack_eq] at hfinish
    rwa [← ha.store] at hfinish ⊢

theorem Alike.completeRequestWith (hx : i.request x ≠ none) (m : M)
    (status : S) :
    Alike atNull (p.assign x (p.factory.completeRequestWith B (p.request x) m status))
      (i.assign x (i.factory.completeRequestWith B (i.request x) m status)) := by
  rcases ha.request_cases x with ⟨hi, -⟩ | ⟨h, o, hi, ho, hp⟩
  · exact absurd hi hx
  · unfold IntFactory.completeRequestWith PointerFactory.completeRequestWith
    rw [hi, hp, IntFactory.onObject_some ho]
    -- The assignment of the handle does not change if the request is persistent.
    have hper : ((i.factory.store.modify o fun d => { d with handle := m }).data o).persistent =
        (i.factory.store.data o).persistent := by simp [Store.modify]
    have hfinish := ha.finish (B := B) hi hp
      (i.factory.store.modify o fun d => { d with handle := m }) status
    rw [hper] at hfinish
    have hstore : ∀ b, (i.factory.putBack h b).store = i.factory.store := fun b => by
      rw [IntFactory.putBack_eq]
    simp only [hstore]
    rw [← ha.store] at hfinish ⊢
    exact hfinish

theorem Alike.freeHandle (x : X) :
    Alike atNull (p.assign x (p.factory.freeHandle B (p.request x)))
      (i.assign x (i.factory.freeHandle B (i.request x))) := by
  rcases ha.request_cases x with ⟨hi, hp⟩ | ⟨h, o, hi, ho, hp⟩
  · rw [hi, hp]
    exact ha.assign_null hi hp
  · unfold IntFactory.freeHandle
    rw [hi, hp, IntFactory.onObject_some ho]
    refine ha.assign_none _ _ hi ?_ rfl rfl
    show (p.factory.store.fini B o).returnData o = (i.factory.store.fini B o).returnData o
    rw [ha.store]

omit [DecidableEq X] in
theorem Alike.getHandle (x : X) :
    p.factory.getHandle B (p.request x) = i.factory.getHandle B (i.request x) := by
  unfold IntFactory.getHandle
  rcases ha.request_cases x with ⟨hi, hp⟩ | ⟨h, o, hi, ho, hp⟩
  · rw [hi, hp]
    rfl
  · rw [hi, hp, IntFactory.onObject_some ho]
    show (p.factory.store.data o).handle = (i.factory.store.data o).handle
    rw [ha.store]

variable [DecidableEq M]

theorem Alike.newRequest (x : X) (req : M) (persistent : Bool) :
    Alike atNull (p.assign x (p.factory.newRequest B req persistent))
      (i.assign x (i.factory.newRequest B req persistent)) := by
  unfold PointerFactory.newRequest IntFactory.newRequest
  by_cases hreq : req = B.null
  · rw [if_pos hreq, if_pos hreq]
    exact ha.assign_forget _ _ ha.store rfl rfl
  · rw [if_neg hreq, if_neg hreq]
    have ho : (p.factory.newData B).1 = (i.factory.newData B).1 := by
      show (p.factory.store.getData B).1 = (i.factory.store.getData B).1
      rw [ha.store]
    simp only [ho]
    refine ha.assign_enter _ _ ?_ rfl rfl
    show (p.factory.store.getData B).2.modify _ _ = (i.factory.store.getData B).2.modify _ _
    rw [ha.store]

theorem Alike.newRequestWith (x : X) {req : M} (hreq : req ≠ B.null)
    (o : ℕ) (persistent : Bool) :
    Alike atNull (p.assign x (p.factory.newRequestWith req o persistent))
      (i.assign x (i.factory.newRequestWith B req o persistent)) := by
  unfold PointerFactory.newRequestWith IntFactory.newRequestWith
  rw [if_neg hreq]
  refine ha.assign_enter _ _ ?_ rfl rfl
  show p.factory.store.modify o _ = i.factory.store.modify o _
  rw [ha.store]

variable [DecidableEq Y]

theorem Alike.step {op : ReqOp X Y M C V S} (hop : i.NotNull B op) :
    Alike atNull (p.step (pointerFactory B) op) (i.step (intFactory B) op) := by
  cases op with
  | newData y =>
    refine ha.of_store ⟨rfl, rfl⟩ ?_ rfl rfl ?_ ha.seen
    · show (p.factory.store.getData B).2 = (i.factory.store.getData B).2
      rw [ha.store]
    · show Function.update p.held y (some (p.factory.store.getData B).1) =
        Function.update i.held y (some (i.factory.store.getData B).1)
      rw [ha.store, ha.held]
  | setData y g =>
    cases hy : i.held y with
    | none =>
      rw [step_setData_none (ha.held ▸ hy), step_setData_none hy]
      exact ha
    | some o =>
      rw [step_setData_some (ha.held ▸ hy), step_setData_some hy]
      refine ha.of_store ⟨rfl, rfl⟩ ?_ rfl rfl ha.held ha.seen
      show p.factory.store.modify o g = i.factory.store.modify o g
      rw [ha.store]
  | newRequest x req persistent => exact ha.newRequest x req persistent
  | newRequestWith x req y persistent =>
    cases hy : i.held y with
    | none =>
      rw [step_newRequestWith_none (ha.held ▸ hy), step_newRequestWith_none hy]
      exact ha
    | some o =>
      rw [step_newRequestWith_some (ha.held ▸ hy), step_newRequestWith_some hy]
      have hnew := ha.newRequestWith (B := B) x hop o persistent
      have hint : ((intFactory B).newRequestWith req o persistent i.factory).1.isSome := by
        simp [intFactory, IntFactory.newRequestWith, if_neg hop]
      refine hnew.of_store ⟨rfl, rfl⟩ hnew.store rfl rfl ?_ hnew.seen
      rw [if_pos hint]
      show Function.update p.held y none = Function.update i.held y none
      rw [ha.held]
  | completeRequest x status => exact ha.completeRequest x status
  | completeRequestWith x m status => exact ha.completeRequestWith hop m status
  | startRequest x =>
    rcases ha.request_cases x with ⟨hi, hp⟩ | ⟨h, o, hi, ho, hp⟩
    · refine ha.of_store ⟨rfl, rfl⟩ ?_ ?_ ?_ ha.held ?_ <;>
        simp [App.step, pointerFactory, intFactory, PointerFactory.startRequest,
          IntFactory.startRequest, hi, hp, ha.store, ha.seen]
    · refine ha.of_store ⟨rfl, rfl⟩ ?_ ?_ ?_ ha.held ?_ <;>
        simp [App.step, pointerFactory, intFactory, PointerFactory.startRequest,
          IntFactory.startRequest, hi, hp, IntFactory.onObject_some ho, ha.store, ha.seen]
  | cancelRequest x =>
    rcases ha.request_cases x with ⟨hi, hp⟩ | ⟨h, o, hi, ho, hp⟩
    · refine ha.of_store ⟨rfl, rfl⟩ ?_ ?_ ?_ ha.held ?_ <;>
        simp [App.step, pointerFactory, intFactory, PointerFactory.cancelRequest,
          IntFactory.cancelRequest, hi, hp, ha.store, ha.seen]
    · refine ha.of_store ⟨rfl, rfl⟩ ?_ ?_ ?_ ha.held ?_ <;>
        simp [App.step, pointerFactory, intFactory, PointerFactory.cancelRequest,
          IntFactory.cancelRequest, hi, hp, IntFactory.onObject_some ho, ha.store, ha.seen]
  | getHandle x =>
    refine ha.of_store ⟨rfl, rfl⟩ ha.store rfl rfl ha.held ?_
    rw [App.step, App.step, ha.seen]
    exact congrArg (fun m => i.seen ++ [Seen.handle m]) (ha.getHandle x)
  | freeHandle x => exact ha.freeHandle x

end

/-! ## What a call leaves alone -/

section
variable {B : Library M C V S} {s : Store M C V S} {o o' : ℕ}

omit [DecidableEq X]

theorem data_modify {g : RequestData M C V → RequestData M C V} (h : o ≠ o') :
    (s.modify o' g).data o = s.data o := Function.update_of_ne h ..

theorem data_getData (ho : o < s.pool.count) : (s.getData B).2.data o = s.data o :=
  if_neg (by omega)

theorem data_complete {status : S} (h : o ≠ o') : (s.complete B o' status).data o = s.data o :=
  data_modify h

theorem data_finish {f : IntFactory M C V S} {h : ℕ} {persistent : Bool} {status : S}
    (hne : o ≠ o') :
    (f.finish B h o' persistent status).2.store.data o = f.store.data o := by
  unfold IntFactory.finish
  split
  · exact data_complete hne
  · exact (data_modify hne).trans (data_complete hne)

theorem store_putBack {f : IntFactory M C V S} {h : ℕ} {persistent : Bool} :
    (f.putBack h persistent).store = f.store := by
  rw [IntFactory.putBack_eq]

theorem data_onObject {A : Type} {req : Option ℕ} {a : A} {f : IntFactory M C V S}
    {g : ℕ → ℕ → A × IntFactory M C V S} (hne : req.bind f.table.dataTable ≠ some o)
    (hg : ∀ h o', o ≠ o' → (g h o').2.store.data o = f.store.data o) :
    (f.onObject req a g).2.store.data o = f.store.data o := by
  cases req with
  | none => rfl
  | some h =>
    cases ho : f.table.dataTable h with
    | none =>
      unfold IntFactory.onObject
      simp only [ho]
    | some o' =>
      rw [IntFactory.onObject_some ho]
      exact hg h o' fun heq => hne (heq ▸ ho)

end

section
variable [DecidableEq Y] [DecidableEq M] {B : Library M C V S} {atNull : RequestData M C V}
  {p : App (PointerFactory M C V S) X Y M} {i : App (IntFactory M C V S) X Y M} {o : ℕ}
  {op : ReqOp X Y M C V S}

theorem data_step (ho : o < i.factory.store.pool.count)
    (hne : addressed B (intFactory B) i op ≠ some o) :
    (i.step (intFactory B) op).factory.store.data o = i.factory.store.data o := by
  cases op with
  | newData y => exact data_getData ho
  | setData y g =>
    cases hy : i.held y with
    | none => rw [step_setData_none hy]
    | some o' =>
      rw [step_setData_some hy]
      exact data_modify fun heq => hne (heq ▸ hy)
  | newRequest x req persistent =>
    show (i.factory.newRequest B req persistent).2.store.data o = _
    unfold IntFactory.newRequest
    by_cases hreq : req = B.null
    · rw [if_pos hreq]
    · rw [if_neg hreq]
      refine (data_modify fun heq => hne ?_).trans (data_getData ho)
      simp only [addressed, if_neg hreq]
      rw [heq]
      rfl
  | newRequestWith x req y persistent =>
    cases hy : i.held y with
    | none => rw [step_newRequestWith_none hy]
    | some o' =>
      rw [step_newRequestWith_some hy]
      show (i.factory.newRequestWith B req o' persistent).2.store.data o = _
      unfold IntFactory.newRequestWith
      by_cases hreq : req = B.null
      · rw [if_pos hreq]
      · rw [if_neg hreq]
        refine data_modify fun heq => hne ?_
        simp only [addressed, if_neg hreq]
        rw [heq, hy]
  | completeRequest x status =>
    refine data_onObject hne fun h o' hne' => (data_finish hne').trans ?_
    rw [store_putBack]
  | completeRequestWith x m status =>
    refine data_onObject hne fun h o' hne' => (data_finish hne').trans ?_
    dsimp only
    rw [store_putBack, data_modify hne']
  | startRequest x => exact data_onObject hne fun _ _ hne' => data_modify hne'
  | cancelRequest x => exact data_onObject hne fun _ _ hne' => data_modify hne'
  | getHandle x => rfl
  | freeHandle x =>
    refine data_onObject hne fun h o' hne' => (data_modify hne').trans ?_
    rw [store_putBack]

omit [DecidableEq X] [DecidableEq Y] in
theorem Alike.object (ha : Alike atNull p i) (x : X) :
    (pointerFactory B).object (p.request x) p.factory =
      (intFactory B).object (i.request x) i.factory := by
  rcases ha.request_cases x with ⟨hi, hp⟩ | ⟨h, o, hi, ho, hp⟩
  · rw [hi, hp]
    rfl
  · rw [hi, hp]
    exact ho.symm

omit [DecidableEq X] [DecidableEq Y] in
theorem Alike.addressed_eq (ha : Alike atNull p i) (op : ReqOp X Y M C V S) :
    addressed B (pointerFactory B) p op = addressed B (intFactory B) i op := by
  cases op with
  | newRequest x req persistent =>
    show (if req = B.null then none else some (p.factory.store.getData B).1) =
      if req = B.null then none else some (i.factory.store.getData B).1
    rw [ha.store]
  | newRequestWith x req y persistent =>
    show (if req = B.null then none else p.held y) = if req = B.null then none else i.held y
    rw [ha.held]
  | setData y g => exact congrFun ha.held y
  | completeRequest x _ | completeRequestWith x _ _ | startRequest x | cancelRequest x
  | freeHandle x => exact ha.object x
  | newData y | getHandle x => rfl

end

def pointerStart (memory : ℕ → RequestData M C V) (atNull : RequestData M C V) :
    App (PointerFactory M C V S) X Y M :=
  { factory := { store := { data := memory }, atNull := atNull } }

def intStart (memory : ℕ → RequestData M C V) : App (IntFactory M C V S) X Y M :=
  { factory := { store := { data := memory } } }

omit [DecidableEq X] in
theorem alike_start (memory : ℕ → RequestData M C V) (atNull : RequestData M C V) :
    Alike (S := S) (X := X) (Y := Y) atNull (pointerStart memory atNull) (intStart memory) :=
  ⟨rfl, rfl, rfl, rfl, Pool.accounts_empty, fun _ _ => rfl,
    fun _ _ hx => absurd hx (by simp [intStart]), fun _ _ _ hx => absurd hx (by simp [intStart])⟩

end App

/-- As long as the two overloads are not used on `MPI_REQUEST_NULL`, an application cannot tell the
two factories apart: the same calls return `MPI_REQUEST_NULL` and the same MPI handles, the same
callbacks run on the same data, as many data objects are out, and each call leaves alone all but the
data object it is about, and the memory at `MPI_REQUEST_NULL`. -/
theorem factories_alike {X Y M C V S : Type} [DecidableEq X] [DecidableEq Y] [DecidableEq M]
    (B : Library M C V S) (memory : ℕ → RequestData M C V) (atNull : RequestData M C V)
    (ops : List (ReqOp X Y M C V S))
    (hops : (App.machine X Y (intFactory B)).Along (App.NotNull B) (App.intStart memory) ops) :
    let p := (App.machine X Y (pointerFactory B)).run (App.pointerStart memory atNull)
    let i := (App.machine X Y (intFactory B)).run (App.intStart memory)
    (p ops).seen = (i ops).seen ∧
    (p ops).factory.store.log = (i ops).factory.store.log ∧
    (p ops).factory.store.outstanding = (i ops).factory.store.outstanding ∧
    (∀ x, (pointerFactory B).getHandle ((p ops).request x) (p ops).factory =
      (intFactory B).getHandle ((i ops).request x) (i ops).factory) ∧
    (∀ x, (pointerFactory B).object ((p ops).request x) (p ops).factory =
      (intFactory B).object ((i ops).request x) (i ops).factory) ∧
    (p ops).factory.store.data = (i ops).factory.store.data ∧
    (p ops).factory.atNull = atNull ∧
    ∀ pre op post, ops = pre ++ op :: post →
      App.addressed B (pointerFactory B) (p pre) op = App.addressed B (intFactory B) (i pre) op ∧
      ∀ o < (i pre).factory.store.pool.count, App.addressed B (intFactory B) (i pre) op ≠ some o →
        (p (pre ++ [op])).factory.store.data o = (p pre).factory.store.data o ∧
        (i (pre ++ [op])).factory.store.data o = (i pre).factory.store.data o := by
  intro p i
  have halike : ∀ ls, (App.machine X Y (intFactory B)).Along (App.NotNull B)
      (App.intStart memory) ls → App.Alike atNull (p ls) (i ls) := by
    intro ls hls
    exact hls.sim (R := fun i p => App.Alike atNull p i) (fun _ _ _ ha hop => ha.step hop)
      (App.alike_start memory atNull)
  have ha := halike ops hops
  refine ⟨ha.seen, congrArg Store.log ha.store, congrArg Store.outstanding ha.store,
    ha.getHandle, ha.object, congrArg Store.data ha.store, ha.atNull, ?_⟩
  intro pre op post hsplit
  rw [hsplit] at hops
  obtain ⟨hpre, hop, -⟩ := (Machine.along_append pre (op :: post)).mp hops
  have hbefore := halike pre hpre
  refine ⟨hbefore.addressed_eq op, fun o ho hne => ?_⟩
  have hint : (i (pre ++ [op])).factory.store.data o = (i pre).factory.store.data o := by
    show ((App.machine X Y (intFactory B)).run _ (pre ++ [op])).factory.store.data o = _
    rw [Machine.run_concat]
    exact App.data_step ho hne
  have hafter := halike (pre ++ [op])
    ((Machine.along_append pre [op]).mpr ⟨hpre, hop, trivial⟩)
  refine ⟨?_, hint⟩
  rw [hafter.store, hbefore.store]
  exact hint

def plainLibrary : Library ℤ Unit Unit Unit where
  null := 0
  values := ()
  callbacks := plainCallbacks
  ndatas := plainRequests.ndatas
  ndatas_pos := plainRequests.ndatas_pos

def persistentOnce : List (ReqOp Unit Unit ℤ Unit Unit Unit) :=
  [.newData (),
    .setData () fun d => { d with startCallback := some (), completionCallback := some () },
    .newRequestWith () 5 () true, .startRequest (), .completeRequestWith () 6 (), .getHandle (),
    .freeHandle (), .completeRequest () ()]

instance {F X Y M C V S : Type} [DecidableEq M] (B : Library M C V S) (a : App F X Y M) :
    ∀ op : ReqOp X Y M C V S, Decidable (a.NotNull B op)
  | .newRequestWith _ req _ _ => inferInstanceAs (Decidable (req ≠ B.null))
  | .completeRequestWith x _ _ => inferInstanceAs (Decidable (a.request x ≠ none))
  | .newData _ | .setData _ _ | .newRequest _ _ _ | .completeRequest _ _ | .startRequest _
  | .cancelRequest _ | .getHandle _ | .freeHandle _ => inferInstanceAs (Decidable True)

theorem factories_alike_persistentOnce :
    let p := (App.machine Unit Unit (pointerFactory plainLibrary)).run
      (App.pointerStart (fun _ => .new 0 ()) (.new 0 ())) persistentOnce
    let i := (App.machine Unit Unit (intFactory plainLibrary)).run
      (App.intStart fun _ => .new 0 ()) persistentOnce
    p.seen = i.seen ∧ p.factory.store.log = i.factory.store.log ∧ i.factory.store.log.length = 2 := by
  have h := factories_alike plainLibrary (fun _ => .new 0 ()) (.new 0 ()) persistentOnce
    (by decide +kernel)
  exact ⟨h.1, h.2.1, by decide +kernel⟩

/-- With pointer handles, `completeRequest` with an MPI handle writes to the memory at
`MPI_REQUEST_NULL`, and `newRequest` with the caller's data makes a request of
`MPI_REQUEST_NULL`. -/
theorem factories_differ_on_null :
    ((App.machine Unit Unit (pointerFactory plainLibrary)).run
      (App.pointerStart (fun _ => .new 0 ()) (.new 0 ()))
      [.completeRequestWith () 9 ()]).factory.atNull ≠ .new 0 () ∧
    ((App.machine Unit Unit (pointerFactory plainLibrary)).run
      (App.pointerStart (fun _ => .new 0 ()) (.new 0 ()))
      [.newData (), .newRequestWith () 0 () false]).seen ≠
    ((App.machine Unit Unit (intFactory plainLibrary)).run (App.intStart fun _ => .new 0 ())
      [.newData (), .newRequestWith () 0 () false]).seen := by
  decide +kernel

end CritPath.Tracking
