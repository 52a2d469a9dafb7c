import CritPath.Lib.Pool
import CritPath.Lib.Runs
import CritPath.Tracking.RequestData

/-!
# The table of integer handles

`HandleFactory<M, T, int, E>` and `RequestFactoryInst<int>` hand out indices of
`dataTable` as application handles. Free indices are in `availableHandles`, free
data objects in the pool, each behind a lock of its own, and a call is a few
critical sections with the calls of other threads in between. `Tracked` has the
calls in flight, each at its next section, the objects in the callers' hands and
the live handles with what they were created for.
-/

namespace CritPath.Tracking

open Lib

/-- `availableHandles` and `dataTable`, whose size is the number of handles made. -/
structure HandleTable where
  available : Pool := {}
  dataTable : ℕ → Option ℕ := fun _ => none

namespace HandleTable

def size (t : HandleTable) : ℕ := t.available.count

def newAH (t : HandleTable) : HandleTable where
  available := t.available.grow 64
  dataTable i := if t.size ≤ i ∧ i < t.size + 64 then none else t.dataTable i

/-- The section that takes a handle and enters data object `o` for it. -/
def enter (o : ℕ) (t : HandleTable) : ℕ × HandleTable :=
  let t := if t.available.free = [] then t.newAH else t
  let ret := t.available.free.headD 0
  (ret,
    { available := { t.available with free := t.available.free.tail }
      dataTable := Function.update t.dataTable ret (some o) })

def putBack (handle : ℕ) (t : HandleTable) : HandleTable :=
  { t with available := t.available.put handle }

theorem available_enter (o : ℕ) (t : HandleTable) :
    ((t.enter o).1, (t.enter o).2.available) = t.available.get 64 := by
  unfold enter Pool.get Pool.refill
  split <;> rfl

theorem enter_fst (o : ℕ) (t : HandleTable) : (t.enter o).1 = (t.available.get 64).1 :=
  (Prod.mk.inj (available_enter o t)).1

theorem enter_available (o : ℕ) (t : HandleTable) :
    (t.enter o).2.available = (t.available.get 64).2 :=
  (Prod.mk.inj (available_enter o t)).2

theorem dataTable_enter_self (o : ℕ) (t : HandleTable) :
    (t.enter o).2.dataTable (t.enter o).1 = some o := by
  simp [enter]

theorem dataTable_enter_of_ne {o h : ℕ} {t : HandleTable} (hne : h ≠ (t.enter o).1)
    (hlt : h < t.size) : (t.enter o).2.dataTable h = t.dataTable h := by
  have hold : (if t.available.free = [] then t.newAH else t).dataTable h = t.dataTable h := by
    split
    · exact if_neg (by omega)
    · rfl
  exact (Function.update_of_ne hne ..).trans hold

end HandleTable

/-- A factory: the table, the pool of data objects and their memory. -/
structure Factory (T : Type) where
  table : HandleTable := {}
  pool : Pool := {}
  data : ℕ → T

/-- A call between its critical sections; `h` is the application handle, `o` the data object. -/
inductive Call (S : Type) where
  /-- `newHandle` and `newRequest` before the section on the table. -/
  | enter (o : ℕ) (m : ℤ) (persistent : Bool)
  /-- The same before `init`, after which they return `h`. -/
  | init (h o : ℕ) (m : ℤ) (persistent : Bool)
  /-- `newRequest` with the caller's data, which calls `init` first. -/
  | initFirst (o : ℕ) (m : ℤ) (persistent : Bool)
  | enterLast (o : ℕ) (m : ℤ)
  | complete (h o : ℕ) (persistent : Bool) (mpiReq : Option ℤ) (status : S)
  /-- `freeHandle` before `fini()`. -/
  | fini (o : ℕ)
  | returnData (o : ℕ)
  | start (h o : ℕ)
  | cancel (h o : ℕ)
  deriving DecidableEq

def Call.owned {S : Type} : Call S → List ℕ
  | .enter o _ _ | .initFirst o _ _ | .enterLast o _ | .complete _ o false _ _ | .fini o
  | .returnData o => [o]
  | _ => []

def Call.on {S : Type} : Call S → Option ℕ
  | .init h _ _ _ | .complete h _ true _ _ | .start h _ | .cancel h _ => some h
  | _ => none

/-- A live application handle: the data object and the MPI handle it stands for, and if the call
that creates it has returned. -/
structure Live where
  handle : ℕ
  obj : ℕ
  mpi : ℤ
  returned : Bool
  deriving DecidableEq

structure Tracked (T S : Type) extends Factory T where
  held : List ℕ := []
  calls : List (Call S) := []
  live : List Live := []

inductive TrackOp (T S : Type) where
  | newData
  /-- A data object of another factory comes into a caller's hands. -/
  | borrow (d : T)
  | giveBack (o : ℕ)
  /-- `newHandle(handle)` and `newRequest(req, persistent)`. -/
  | newHandle (m : ℤ) (persistent : Bool)
  /-- `newHandle(handle, data)`. -/
  | newHandleWith (m : ℤ) (o : ℕ)
  /-- `newRequest(req, data, persistent)`. -/
  | newRequestWith (m : ℤ) (o : ℕ) (persistent : Bool)
  | freeHandle (h : ℕ)
  | detachHandle (h : ℕ)
  | completeRequest (h : ℕ) (mpiReq : Option ℤ) (status : S)
  | startRequest (h : ℕ)
  | cancelRequest (h : ℕ)
  | resume (c : Call S)

/-- A data class with the objects that fill a block of the pool and the predefined handles. -/
structure Setup (T S : Type) extends DataClass T S where
  ndatas : ℕ
  ndatas_pos : 0 < ndatas
  predefined : List ℤ

variable {T S : Type}

def Setup.isPredefined (F : Setup T S) (handle : ℤ) : Bool := F.predefined.contains handle

namespace Factory

def getData (F : Setup T S) (f : Factory T) : ℕ × Factory T :=
  let r := f.pool.get F.ndatas
  (r.1,
    { f with
      pool := r.2
      data := fun i => if f.pool.count ≤ i ∧ i < r.2.count then F.fresh else f.data i })

def returnData (o : ℕ) (f : Factory T) : Factory T := { f with pool := f.pool.put o }

def modify (o : ℕ) (g : T → T) (f : Factory T) : Factory T :=
  { f with data := Function.update f.data o (g (f.data o)) }

def enter (o : ℕ) (f : Factory T) : ℕ × Factory T :=
  ((f.table.enter o).1, { f with table := (f.table.enter o).2 })

def putBack (h : ℕ) (f : Factory T) : Factory T := { f with table := f.table.putBack h }

/-- `findData` of a handle that is not predefined. -/
def findData (h : ℕ) (f : Factory T) : Option T := (f.table.dataTable h).map f.data

def getHandle (F : Setup T S) (h : ℕ) (f : Factory T) : Option ℤ :=
  if F.isPredefined h then some h else (f.findData h).map F.handle

end Factory

namespace Tracked

def start (memory : ℕ → T) : Tracked T S := { data := memory }

def release (h : ℕ) (σ : Tracked T S) : Tracked T S :=
  { σ with
    toFactory := σ.toFactory.putBack h
    live := σ.live.filter (·.handle ≠ h) }

/-- Data object `o` enters the table for MPI handle `m`. -/
def enterLive (o : ℕ) (m : ℤ) (returned : Bool) (σ : Tracked T S) : Tracked T S :=
  let r := σ.toFactory.enter o
  { σ with toFactory := r.2, live := ⟨r.1, o, m, returned⟩ :: σ.live }

def addCall (c : Call S) (σ : Tracked T S) : Tracked T S := { σ with calls := c :: σ.calls }

def modifyData (o : ℕ) (g : T → T) (σ : Tracked T S) : Tracked T S :=
  { σ with toFactory := σ.toFactory.modify o g }

def modifyLive (h : ℕ) (g : Live → Live) (σ : Tracked T S) : Tracked T S :=
  { σ with live := σ.live.map fun e => if e.handle = h then g e else e }

def assignHandle (F : Setup T S) (h o : ℕ) (persistent : Bool) (mpiReq : Option ℤ)
    (σ : Tracked T S) : Tracked T S :=
  match mpiReq with
  | some m => (σ.modifyData o (F.setHandle m)).modifyLive h fun e =>
      if persistent then { e with mpi := m } else e
  | none => σ

section
variable [DecidableEq S]

/-- The next section of call `c`, which is not in `calls` any more. -/
def proceed (F : Setup T S) (σ : Tracked T S) : Call S → Tracked T S
  | .enter o m p =>
    (σ.enterLive o m false).addCall (.init (σ.toFactory.enter o).1 o m p)
  | .init h o m p => (σ.modifyData o (F.init m p)).modifyLive h fun e => { e with returned := true }
  | .initFirst o m p => (σ.modifyData o (F.init m p)).addCall (.enterLast o m)
  | .enterLast o m => σ.enterLive o m true
  | .complete h o persistent mpiReq status =>
    let σ := σ.assignHandle F h o persistent mpiReq
    if persistent then σ.modifyData o (F.complete status)
    else (σ.modifyData o (F.fini ∘ F.complete status)).addCall (.returnData o)
  | .fini o => (σ.modifyData o F.fini).addCall (.returnData o)
  | .returnData o => { σ with toFactory := σ.toFactory.returnData o }
  | .start _ o => σ.modifyData o F.start
  | .cancel _ o => σ.modifyData o F.cancel

def step (F : Setup T S) (σ : Tracked T S) : TrackOp T S → Tracked T S
  | .newData =>
    let r := σ.toFactory.getData F
    { σ with toFactory := r.2, held := r.1 :: σ.held }
  | .borrow d =>
    { σ with
      pool := { σ.pool with count := σ.pool.count + 1 }
      data := Function.update σ.data σ.pool.count d
      held := σ.pool.count :: σ.held }
  | .giveBack o => { σ with toFactory := σ.toFactory.returnData o, held := σ.held.erase o }
  | .newHandle m p =>
    if F.isPredefined m then σ
    else
      let r := σ.toFactory.getData F
      addCall (.enter r.1 m p) { σ with toFactory := r.2 }
  | .newHandleWith m o => addCall (.enter o m false) { σ with held := σ.held.erase o }
  | .newRequestWith m o p =>
    if F.isPredefined m then σ else addCall (.initFirst o m p) { σ with held := σ.held.erase o }
  | .freeHandle h =>
    if F.isPredefined h then σ
    else match σ.table.dataTable h with
      | some o => (σ.release h).addCall (.fini o)
      | none => σ
  | .detachHandle h =>
    match σ.table.dataTable h with
    | some o => { σ.release h with held := o :: σ.held }
    | none => σ
  | .completeRequest h mpiReq status =>
    if F.isPredefined h then σ
    else match σ.table.dataTable h with
      | some o =>
        let persistent := F.isPersistent (σ.data o)
        (if persistent then σ else σ.release h).addCall (.complete h o persistent mpiReq status)
      | none => σ
  | .startRequest h =>
    if F.isPredefined h then σ
    else match σ.table.dataTable h with
      | some o => σ.addCall (.start h o)
      | none => σ
  | .cancelRequest h =>
    if F.isPredefined h then σ
    else match σ.table.dataTable h with
      | some o => σ.addCall (.cancel h o)
      | none => σ
  | .resume c => proceed F { σ with calls := σ.calls.erase c } c

/-- `h` is an application handle from its entry into the table until it is put back. -/
def IsLive (σ : Tracked T S) (h : ℕ) : Prop := ∃ e ∈ σ.live, e.handle = h

/-- Calls are on live or predefined handles, and with data objects in the caller's hands; the table
stays below the predefined handles. -/
def Allowed (F : Setup T S) (σ : Tracked T S) (op : TrackOp T S) : Prop :=
  (match op with
  | .newData | .borrow _ | .newHandle _ _ => True
  | .giveBack o | .newHandleWith _ o | .newRequestWith _ o _ => o ∈ σ.held
  | .detachHandle h => σ.IsLive h
  | .freeHandle h | .completeRequest h _ _ | .startRequest h | .cancelRequest h =>
    F.isPredefined h = true ∨ σ.IsLive h
  | .resume c => c ∈ σ.calls) ∧
  ∀ v ∈ F.predefined, ((σ.step F op).table.size : ℤ) ≤ v

def machine (F : Setup T S) : Machine (Tracked T S) (TrackOp T S) where
  step := step F
  guard := Allowed F

/-- A handle is used after the call that creates it has returned, and put back when no other call
on it is in flight. -/
def Quiet (F : Setup T S) (σ : Tracked T S) : TrackOp T S → Prop
  | .freeHandle h | .detachHandle h => (∀ e ∈ σ.live, e.handle = h → e.returned = true) ∧
      ∀ c ∈ σ.calls, c.on ≠ some h
  | .completeRequest h _ _ => (∀ e ∈ σ.live, e.handle = h → e.returned = true ∧
      (F.isPersistent (σ.data e.obj) = true ∨ ∀ c ∈ σ.calls, c.on ≠ some h))
  | .startRequest h | .cancelRequest h => ∀ e ∈ σ.live, e.handle = h → e.returned = true
  | _ => True

instance (σ : Tracked T S) (h : ℕ) : Decidable (σ.IsLive h) :=
  inferInstanceAs (Decidable (∃ e ∈ σ.live, e.handle = h))

instance (F : Setup T S) (σ : Tracked T S) : ∀ op, Decidable ((machine F).guard σ op)
  | .newData | .borrow _ | .newHandle _ _ => inferInstanceAs (Decidable (True ∧ _))
  | .giveBack o | .newHandleWith _ o | .newRequestWith _ o _ =>
    inferInstanceAs (Decidable (o ∈ σ.held ∧ _))
  | .detachHandle h => inferInstanceAs (Decidable (σ.IsLive h ∧ _))
  | .freeHandle h | .completeRequest h _ _ | .startRequest h | .cancelRequest h =>
    inferInstanceAs (Decidable ((F.isPredefined h = true ∨ σ.IsLive h) ∧ _))
  | .resume c => inferInstanceAs (Decidable (c ∈ σ.calls ∧ _))

instance (F : Setup T S) (σ : Tracked T S) : ∀ op, Decidable (Quiet F σ op)
  | .freeHandle _ | .detachHandle _ => inferInstanceAs (Decidable (_ ∧ _))
  | .completeRequest _ _ _ | .startRequest _ | .cancelRequest _ =>
    inferInstanceAs (Decidable (∀ e ∈ σ.live, _))
  | .newData | .borrow _ | .giveBack _ | .newHandle _ _ | .newHandleWith _ _
  | .newRequestWith _ _ _ | .resume _ => inferInstanceAs (Decidable True)

end

/-! ## What every section keeps -/

/-- The data objects in use: in a caller's hands, in a call, or behind a live handle. -/
def out (σ : Tracked T S) : List ℕ :=
  σ.held ++ σ.calls.flatMap Call.owned ++ σ.live.map Live.obj

structure Inv (σ : Tracked T S) (hand : List ℕ) : Prop where
  ids : σ.table.available.Accounts (σ.live.map Live.handle)
  objs : σ.pool.Accounts (hand ++ σ.out)
  entry : ∀ e ∈ σ.live, σ.table.dataTable e.handle = some e.obj

theorem inv_start (memory : ℕ → T) : (start memory : Tracked T S).Inv [] :=
  ⟨Pool.accounts_empty, Pool.accounts_empty, fun _ he => absurd he List.not_mem_nil⟩

section
variable {σ σ' : Tracked T S} {hand hand' : List ℕ} {o h : ℕ} {c : Call S} {e : Live}

theorem Inv.move (hi : σ.Inv hand) (htable : σ'.table = σ.table) (hpool : σ'.pool = σ.pool)
    (hlive : σ'.live = σ.live) (hout : (hand ++ σ.out).Perm (hand' ++ σ'.out)) :
    σ'.Inv hand' := by
  refine ⟨?_, ?_, ?_⟩
  · rw [htable, hlive]
    exact hi.ids
  · rw [hpool]
    exact hi.objs.of_perm hout
  · rw [htable, hlive]
    exact hi.entry

theorem Inv.addCall (hi : σ.Inv (c.owned ++ hand)) : (σ.addCall c).Inv hand := by
  refine hi.move rfl rfl rfl ?_
  unfold out Tracked.addCall
  simp only [List.flatMap_cons, List.append_assoc]
  refine List.perm_append_comm_assoc _ _ _ |>.trans (.append_left hand ?_)
  exact List.perm_append_comm_assoc _ _ _

theorem Inv.hold (hi : σ.Inv (o :: hand)) : Inv { σ with held := o :: σ.held } hand := by
  refine hi.move rfl rfl rfl ?_
  exact List.perm_middle.symm

theorem Inv.unhold (hi : σ.Inv hand) (ho : o ∈ σ.held) :
    Inv { σ with held := σ.held.erase o } (o :: hand) := by
  refine hi.move rfl rfl rfl ?_
  have hperm : σ.out.Perm (o :: Tracked.out { σ with held := σ.held.erase o }) := by
    unfold out
    rw [List.append_assoc, List.append_assoc]
    exact (List.perm_cons_erase ho).append_right _
  exact (hperm.append_left hand).trans List.perm_middle

theorem Inv.eraseCall [DecidableEq S] (hi : σ.Inv hand) (hc : c ∈ σ.calls) :
    Inv { σ with calls := σ.calls.erase c } (c.owned ++ hand) := by
  refine hi.move rfl rfl rfl ?_
  have hcalls : (σ.calls.flatMap Call.owned).Perm
      (c.owned ++ (σ.calls.erase c).flatMap Call.owned) :=
    (List.perm_cons_erase hc).flatMap_right _
  unfold out
  rw [List.append_assoc, List.append_assoc, List.append_assoc]
  refine (List.Perm.append_left hand ?_).trans (List.perm_append_comm_assoc _ _ _)
  refine (List.Perm.append_left σ.held (hcalls.append_right _)).trans ?_
  rw [List.append_assoc]
  exact List.perm_append_comm_assoc _ _ _

theorem Inv.modifyData (hi : σ.Inv hand) (o : ℕ) (g : T → T) : (σ.modifyData o g).Inv hand :=
  ⟨hi.ids, hi.objs, hi.entry⟩

theorem Inv.modifyLive (hi : σ.Inv hand) {g : Live → Live}
    (hg : ∀ e, (g e).handle = e.handle ∧ (g e).obj = e.obj) : (σ.modifyLive h g).Inv hand := by
  have hkeep : ∀ e : Live, (if e.handle = h then g e else e).handle = e.handle ∧
      (if e.handle = h then g e else e).obj = e.obj := by
    intro e
    split
    · exact hg e
    · exact ⟨rfl, rfl⟩
  have hhandles : (σ.modifyLive h g).live.map Live.handle = σ.live.map Live.handle := by
    simp [Tracked.modifyLive, hkeep]
  have hobjs : (σ.modifyLive h g).live.map Live.obj = σ.live.map Live.obj := by
    simp [Tracked.modifyLive, hkeep]
  refine ⟨?_, ?_, ?_⟩
  · rw [hhandles]
    exact hi.ids
  · unfold out
    rw [hobjs]
    exact hi.objs
  · intro e he
    obtain ⟨e', he', rfl⟩ := List.mem_map.mp he
    rw [(hkeep e').1, (hkeep e').2]
    exact hi.entry e' he'

theorem Inv.getData (hi : σ.Inv hand) (F : Setup T S) :
    Inv { σ with toFactory := (σ.toFactory.getData F).2 } ((σ.toFactory.getData F).1 :: hand) :=
  ⟨hi.ids, hi.objs.get F.ndatas_pos, hi.entry⟩

theorem Inv.returnData (hi : σ.Inv (o :: hand)) :
    Inv { σ with toFactory := σ.toFactory.returnData o } hand :=
  ⟨hi.ids, hi.objs.put, hi.entry⟩

theorem Inv.enterLive (hi : σ.Inv (o :: hand)) (m : ℤ) (returned : Bool) :
    (σ.enterLive o m returned).Inv hand := by
  have hget := hi.ids.get (n := 64) (by decide)
  refine ⟨?_, ?_, ?_⟩
  · show (σ.table.enter o).2.available.Accounts ((σ.table.enter o).1 :: σ.live.map Live.handle)
    rw [HandleTable.enter_available, HandleTable.enter_fst]
    exact hget
  · refine hi.objs.of_perm ?_
    unfold out Tracked.enterLive
    simp only [List.map_cons]
    rw [List.cons_append]
    refine List.perm_middle.symm.trans ?_
    exact List.Perm.append_left hand List.perm_middle.symm
  · intro e he
    rcases List.mem_cons.mp he with rfl | hold
    · exact HandleTable.dataTable_enter_self o σ.table
    · have hmem : e.handle ∈ σ.live.map Live.handle := List.mem_map_of_mem hold
      have hne : e.handle ≠ (σ.table.enter o).1 := by
        rw [HandleTable.enter_fst]
        intro heq
        exact (List.nodup_cons.mp hget.out_nodup).1 (heq ▸ hmem)
      exact (HandleTable.dataTable_enter_of_ne hne (hi.ids.lt_count hmem)).trans
        (hi.entry e hold)

/-- Handles are different, so only `e` goes. -/
theorem perm_filter_handle {l : List Live} (hl : (l.map Live.handle).Nodup) (he : e ∈ l) :
    l.Perm (e :: l.filter (·.handle ≠ e.handle)) := by
  induction l with
  | nil => exact absurd he List.not_mem_nil
  | cons a l ih =>
    rw [List.map_cons, List.nodup_cons] at hl
    rcases List.mem_cons.mp he with rfl | hrest
    · have hall : l.filter (·.handle ≠ e.handle) = l := by
        refine List.filter_eq_self.mpr fun b hb => ?_
        have hne : b.handle ≠ e.handle := fun heq => hl.1 (heq ▸ List.mem_map_of_mem hb)
        simpa using hne
      rw [List.filter_cons_of_neg (by simp), hall]
    · have hne : a.handle ≠ e.handle := fun heq => hl.1 (heq ▸ List.mem_map_of_mem hrest)
      rw [List.filter_cons_of_pos (by simpa using hne)]
      exact ((ih hl.2 hrest).cons a).trans (.swap _ _ _)

theorem Inv.release (hi : σ.Inv hand) (he : e ∈ σ.live) :
    (σ.release e.handle).Inv (e.obj :: hand) := by
  have hperm := perm_filter_handle hi.ids.out_nodup he
  refine ⟨?_, ?_, ?_⟩
  · exact (hi.ids.of_perm (hperm.map Live.handle)).put
  · refine hi.objs.of_perm ?_
    have hout : σ.out.Perm (e.obj :: (σ.release e.handle).out) := by
      unfold out Tracked.release
      refine (List.Perm.append_left _ (hperm.map Live.obj)).trans ?_
      exact List.perm_middle
    exact (hout.append_left hand).trans List.perm_middle
  · intro e' he'
    exact hi.entry e' (List.mem_filter.mp he').1

end

section
variable {σ : Tracked T S} {F : Setup T S} {h : ℕ} {op : TrackOp T S}

theorem Inv.assignHandle {hand : List ℕ} (hi : σ.Inv hand) (F : Setup T S) (h o : ℕ)
    (persistent : Bool) (mpiReq : Option ℤ) :
    (σ.assignHandle F h o persistent mpiReq).Inv hand := by
  cases mpiReq with
  | none => exact hi
  | some m =>
    refine (hi.modifyData o _).modifyLive fun e => ?_
    split <;> exact ⟨rfl, rfl⟩

theorem Inv.proceed {c : Call S} (hi : σ.Inv c.owned) : (σ.proceed F c).Inv [] := by
  cases c with
  | enter o m p =>
    have hi : σ.Inv (o :: []) := hi
    exact (hi.enterLive m false).addCall
  | init h o m p => exact (hi.modifyData o _).modifyLive fun _ => ⟨rfl, rfl⟩
  | initFirst o m p => exact Inv.addCall (c := .enterLast o m) (hi.modifyData o _)
  | enterLast o m =>
    have hi : σ.Inv (o :: []) := hi
    exact hi.enterLive m true
  | complete h o persistent mpiReq status =>
    have hset := hi.assignHandle F h o persistent mpiReq
    cases persistent with
    | true => exact hset.modifyData o _
    | false => exact Inv.addCall (c := .returnData o) (hset.modifyData o _)
  | fini o => exact Inv.addCall (c := .returnData o) (hi.modifyData o _)
  | returnData o =>
    have hi : σ.Inv (o :: []) := hi
    exact hi.returnData
  | start h o => exact hi.modifyData o _
  | cancel h o => exact hi.modifyData o _

/-- What a section finds in the table for the handle it is given. -/
theorem Inv.lookup (hi : σ.Inv []) (hlive : F.isPredefined h = true ∨ σ.IsLive h)
    (hnot : ¬ F.isPredefined h = true) :
    ∃ e ∈ σ.live, e.handle = h ∧ σ.table.dataTable h = some e.obj := by
  obtain ⟨e, he, rfl⟩ := hlive.resolve_left hnot
  exact ⟨e, he, rfl, hi.entry e he⟩

variable [DecidableEq S]

/-- What a section does, once the handle is found in the table. -/
inductive Section (F : Setup T S) (σ : Tracked T S) : TrackOp T S → Tracked T S → Prop where
  | skip {op : TrackOp T S} : Section F σ op σ
  | newData : Section F σ .newData
      { σ with
        toFactory := (σ.toFactory.getData F).2, held := (σ.toFactory.getData F).1 :: σ.held }
  | borrow (d : T) : Section F σ (.borrow d) (σ.step F (.borrow d))
  | giveBack {o : ℕ} (ho : o ∈ σ.held) : Section F σ (.giveBack o)
      { σ with toFactory := σ.toFactory.returnData o, held := σ.held.erase o }
  | newHandle (m : ℤ) (p : Bool) : Section F σ (.newHandle m p)
      (addCall (.enter (σ.toFactory.getData F).1 m p)
        { σ with toFactory := (σ.toFactory.getData F).2 })
  | newHandleWith {o : ℕ} (m : ℤ) (ho : o ∈ σ.held) : Section F σ (.newHandleWith m o)
      (addCall (.enter o m false) { σ with held := σ.held.erase o })
  | newRequestWith {o : ℕ} (m : ℤ) (p : Bool) (ho : o ∈ σ.held) :
      Section F σ (.newRequestWith m o p)
        (addCall (.initFirst o m p) { σ with held := σ.held.erase o })
  | freeHandle {e : Live} (he : e ∈ σ.live) : Section F σ (.freeHandle e.handle)
      ((σ.release e.handle).addCall (.fini e.obj))
  | detachHandle {e : Live} (he : e ∈ σ.live) : Section F σ (.detachHandle e.handle)
      { σ.release e.handle with held := e.obj :: σ.held }
  | completePersistent {e : Live} (mpiReq : Option ℤ) (status : S) (he : e ∈ σ.live)
      (hp : F.isPersistent (σ.data e.obj) = true) :
      Section F σ (.completeRequest e.handle mpiReq status)
        (σ.addCall (.complete e.handle e.obj true mpiReq status))
  | complete {e : Live} (mpiReq : Option ℤ) (status : S) (he : e ∈ σ.live)
      (hp : F.isPersistent (σ.data e.obj) = false) :
      Section F σ (.completeRequest e.handle mpiReq status)
        ((σ.release e.handle).addCall (.complete e.handle e.obj false mpiReq status))
  | start {e : Live} (he : e ∈ σ.live) : Section F σ (.startRequest e.handle)
      (σ.addCall (.start e.handle e.obj))
  | cancel {e : Live} (he : e ∈ σ.live) : Section F σ (.cancelRequest e.handle)
      (σ.addCall (.cancel e.handle e.obj))
  | resume {c : Call S} (hc : c ∈ σ.calls) : Section F σ (.resume c)
      (proceed F { σ with calls := σ.calls.erase c } c)

theorem Inv.section_step (hi : σ.Inv []) (hop : σ.Allowed F op) :
    Section F σ op (σ.step F op) := by
  replace hop := hop.1
  cases op with
  | newData => exact .newData
  | borrow d => exact .borrow d
  | giveBack o => exact .giveBack hop
  | newHandle m p =>
    by_cases hm : F.isPredefined m = true
    · simpa [Tracked.step, hm] using Section.skip
    · simpa [Tracked.step, hm] using Section.newHandle m p
  | newHandleWith m o => exact .newHandleWith m hop
  | newRequestWith m o p =>
    by_cases hm : F.isPredefined m = true
    · simpa [Tracked.step, hm] using Section.skip
    · simpa [Tracked.step, hm] using Section.newRequestWith m p hop
  | freeHandle h =>
    by_cases hh : F.isPredefined h = true
    · simpa [Tracked.step, hh] using Section.skip
    · obtain ⟨e, he, rfl, hentry⟩ := hi.lookup hop hh
      simpa [Tracked.step, hh, hentry] using Section.freeHandle he
  | detachHandle h =>
    obtain ⟨e, he, rfl⟩ := hop
    simpa [Tracked.step, hi.entry e he] using Section.detachHandle he
  | completeRequest h mpiReq status =>
    by_cases hh : F.isPredefined h = true
    · simpa [Tracked.step, hh] using Section.skip
    · obtain ⟨e, he, rfl, hentry⟩ := hi.lookup hop hh
      cases hp : F.isPersistent (σ.data e.obj) with
      | true => simpa [Tracked.step, hh, hentry, hp] using
          Section.completePersistent mpiReq status he hp
      | false => simpa [Tracked.step, hh, hentry, hp] using Section.complete mpiReq status he hp
  | startRequest h =>
    by_cases hh : F.isPredefined h = true
    · simpa [Tracked.step, hh] using Section.skip
    · obtain ⟨e, he, rfl, hentry⟩ := hi.lookup hop hh
      simpa [Tracked.step, hh, hentry] using Section.start he
  | cancelRequest h =>
    by_cases hh : F.isPredefined h = true
    · simpa [Tracked.step, hh] using Section.skip
    · obtain ⟨e, he, rfl, hentry⟩ := hi.lookup hop hh
      simpa [Tracked.step, hh, hentry] using Section.cancel he
  | resume c => exact .resume hop

theorem Inv.step (hi : σ.Inv []) (hop : σ.Allowed F op) : (σ.step F op).Inv [] := by
  have hstep := hi.section_step hop
  generalize σ.step F op = σ' at hstep
  cases hstep with
  | skip => exact hi
  | newData => exact (hi.getData F).hold
  | borrow d => exact ⟨hi.ids, hi.objs.mint, hi.entry⟩
  | giveBack ho => exact (hi.unhold ho).returnData
  | newHandle m p => exact Inv.addCall (c := .enter _ m p) (hi.getData F)
  | newHandleWith m ho => exact Inv.addCall (c := .enter _ m false) (hi.unhold ho)
  | newRequestWith m p ho => exact Inv.addCall (c := .initFirst _ m p) (hi.unhold ho)
  | freeHandle he => exact Inv.addCall (c := .fini _) (hi.release he)
  | detachHandle he => exact (hi.release he).hold
  | completePersistent mpiReq status he hp =>
    exact Inv.addCall (c := .complete _ _ true mpiReq status) hi
  | complete mpiReq status he hp =>
    exact Inv.addCall (c := .complete _ _ false mpiReq status) (hi.release he)
  | start he => exact Inv.addCall (c := .start _ _) hi
  | cancel he => exact Inv.addCall (c := .cancel _ _) hi
  | resume hc =>
    have hcall := hi.eraseCall hc
    rw [List.append_nil] at hcall
    exact hcall.proceed

end

/-! ## The MPI handles behind live handles -/

/-- What a call in flight may rely on. -/
def Fine (F : Setup T S) (σ : Tracked T S) : Call S → Prop
  | .init h o m _ => ⟨h, o, m, false⟩ ∈ σ.live
  | .complete h o true _ _ => ∃ e ∈ σ.live, e.handle = h ∧ e.obj = o ∧ e.returned = true
  | .enterLast o m => F.handle (σ.data o) = m
  | _ => True

def creates : Call S → Option ℕ
  | .init h _ _ _ => some h
  | _ => none

/-- The data object of a handle whose creation has returned has its MPI handle. -/
structure Settled (F : Setup T S) (σ : Tracked T S) : Prop where
  calls : ∀ c ∈ σ.calls, Fine F σ c
  inits : (σ.calls.filterMap creates).Nodup
  returned : ∀ e ∈ σ.live, e.returned = true → F.handle (σ.data e.obj) = e.mpi

theorem settled_start (F : Setup T S) (memory : ℕ → T) : Settled F (start memory) :=
  ⟨fun _ h => absurd h List.not_mem_nil, List.nodup_nil, fun _ h => absurd h List.not_mem_nil⟩

section
variable {σ σ' : Tracked T S} {F : Setup T S} {hand : List ℕ} {o : ℕ} {c : Call S} {e e' : Live}

theorem Inv.live_inj (hi : σ.Inv hand) (he : e ∈ σ.live) (he' : e' ∈ σ.live)
    (h : e.handle = e'.handle ∨ e.obj = e'.obj) : e = e' := by
  have hobjs : (σ.live.map Live.obj).Nodup :=
    (List.nodup_append.mp (List.nodup_append.mp hi.objs.out_nodup).2.1).2.1
  rcases h with h | h
  · exact List.inj_on_of_nodup_map hi.ids.out_nodup he he' h
  · exact List.inj_on_of_nodup_map hobjs he he' h

theorem Inv.mem_out (hi : σ.Inv hand) (ho : o ∈ σ.out) : o ∉ hand ∧ o < σ.pool.count :=
  ⟨fun hmem => (List.nodup_append.mp hi.objs.out_nodup).2.2 o hmem o ho rfl,
    hi.objs.lt_count (List.mem_append_right _ ho)⟩

theorem obj_mem_out (he : e ∈ σ.live) : e.obj ∈ σ.out :=
  List.mem_append_right _ (List.mem_map_of_mem he)

theorem owned_mem_out (hc : c ∈ σ.calls) (ho : o ∈ c.owned) : o ∈ σ.out :=
  List.mem_append_left _ (List.mem_append_right _ (List.mem_flatMap.mpr ⟨c, hc, ho⟩))

theorem Inv.obj_ne_owned (hi : σ.Inv hand) (he : e ∈ σ.live) (hc : c ∈ σ.calls)
    (ho : o ∈ c.owned) : e.obj ≠ o := by
  intro heq
  have hout := (List.nodup_append.mp hi.objs.out_nodup).2.1
  exact (List.nodup_append.mp hout).2.2 o
    (List.mem_append_right _ (List.mem_flatMap.mpr ⟨c, hc, ho⟩)) _ (List.mem_map_of_mem he) heq.symm

theorem Settled.of_data (hs : Settled F σ) (hcalls : σ'.calls = σ.calls) (hlive : σ'.live = σ.live)
    (hdata : ∀ o ∈ σ.out, F.handle (σ'.data o) = F.handle (σ.data o)) : Settled F σ' := by
  refine ⟨?_, ?_, ?_⟩
  · intro c hc
    rw [hcalls] at hc
    have hfine := hs.calls c hc
    unfold Fine at *
    rw [hlive]
    split at hfine
    · exact hfine
    · exact hfine
    · rename_i o m
      exact (hdata o (owned_mem_out hc (List.mem_singleton.mpr rfl))).trans hfine
    · trivial
  · rw [hcalls]
    exact hs.inits
  · intro e he hret
    rw [hlive] at he
    exact (hdata _ (obj_mem_out he)).trans (hs.returned e he hret)

theorem Settled.modify_hand (hs : Settled F σ) (hi : σ.Inv hand) (ho : o ∈ hand) (g : T → T) :
    Settled F (σ.modifyData o g) := by
  refine hs.of_data rfl rfl fun o' ho' => ?_
  have hne : o' ≠ o := fun heq => (hi.mem_out ho').1 (heq ▸ ho)
  exact congrArg F.handle (Function.update_of_ne hne ..)

theorem Settled.modify_keep (hs : Settled F σ) (o : ℕ) {g : T → T}
    (hg : ∀ d, F.handle (g d) = F.handle d) : Settled F (σ.modifyData o g) := by
  refine hs.of_data rfl rfl fun o' _ => ?_
  show F.handle (Function.update σ.data o (g (σ.data o)) o') = _
  by_cases heq : o' = o
  · subst heq
    rw [Function.update_self, hg]
  · rw [Function.update_of_ne heq]

theorem Settled.getData (hs : Settled F σ) (hi : σ.Inv hand) :
    Settled F { σ with toFactory := (σ.toFactory.getData F).2 } := by
  refine hs.of_data rfl rfl fun o ho => congrArg F.handle (if_neg ?_)
  have hlt := (hi.mem_out ho).2
  omega

theorem Settled.borrow (hs : Settled F σ) (hi : σ.Inv hand) [DecidableEq S] (d : T) :
    Settled F (σ.step F (.borrow d)) := by
  refine hs.of_data rfl rfl fun o ho => congrArg F.handle (Function.update_of_ne ?_ ..)
  exact Nat.ne_of_lt (hi.mem_out ho).2

theorem Settled.addCall (hs : Settled F σ) (hc : Fine F σ c)
    (hnew : ∀ h, creates c = some h → ∀ c' ∈ σ.calls, creates c' ≠ some h) :
    Settled F (σ.addCall c) := by
  refine ⟨?_, ?_, hs.returned⟩
  · intro c' hc'
    rcases List.mem_cons.mp hc' with rfl | hold
    · exact hc
    · exact hs.calls c' hold
  · show ((c :: σ.calls).filterMap creates).Nodup
    cases hcr : creates c with
    | none =>
      rw [List.filterMap_cons_none hcr]
      exact hs.inits
    | some h =>
      rw [List.filterMap_cons_some hcr, List.nodup_cons]
      refine ⟨fun hmem => ?_, hs.inits⟩
      obtain ⟨c', hc', heq⟩ := List.mem_filterMap.mp hmem
      exact hnew h hcr c' hc' heq

theorem Settled.eraseCall [DecidableEq S] (hs : Settled F σ) :
    Settled F { σ with calls := σ.calls.erase c } :=
  ⟨fun c' hc' => hs.calls c' (List.mem_of_mem_erase hc'),
    hs.inits.sublist (List.erase_sublist.filterMap _), hs.returned⟩

theorem Settled.release (hs : Settled F σ) {h : ℕ} (hquiet : ∀ c ∈ σ.calls, c.on ≠ some h) :
    Settled F (σ.release h) := by
  refine ⟨?_, hs.inits, fun e he => hs.returned e (List.mem_filter.mp he).1⟩
  intro c hc
  have hfine := hs.calls c hc
  have hon := hquiet c hc
  cases c with
  | init h' o m p =>
    have hne : h' ≠ h := fun heq => hon (congrArg some heq)
    exact List.mem_filter.mpr ⟨hfine, by simpa using hne⟩
  | complete h' o persistent mpiReq status =>
    cases persistent with
    | false => trivial
    | true =>
      obtain ⟨e, he, rfl, hobj, hret⟩ := hfine
      have hne : e.handle ≠ h := fun heq => hon (congrArg some heq)
      exact ⟨e, List.mem_filter.mpr ⟨he, by simpa using hne⟩, rfl, hobj, hret⟩
  | enterLast o m => exact hfine
  | enter _ _ _ | initFirst _ _ _ | fini _ | returnData _ | start _ _ | cancel _ _ => trivial

theorem Settled.enterLive (hs : Settled F σ) {m : ℤ} {returned : Bool}
    (hm : returned = true → F.handle (σ.data o) = m) : Settled F (σ.enterLive o m returned) := by
  refine ⟨?_, hs.inits, ?_⟩
  · intro c hc
    have hfine := hs.calls c hc
    cases c with
    | init h' o m p => exact List.mem_cons_of_mem _ hfine
    | complete h' o persistent mpiReq status =>
      cases persistent with
      | false => trivial
      | true =>
        obtain ⟨e, he, hrest⟩ := hfine
        exact ⟨e, List.mem_cons_of_mem _ he, hrest⟩
    | enterLast o m => exact hfine
    | enter _ _ _ | initFirst _ _ _ | fini _ | returnData _ | start _ _ | cancel _ _ => trivial
  · intro e he hret
    rcases List.mem_cons.mp he with rfl | hold
    · exact hm hret
    · exact hs.returned e hold hret

theorem Settled.assign (hs : Settled F σ) (e' : Live) (hi : σ.Inv hand) (he : e ∈ σ.live)
    (hcalls : σ'.calls = σ.calls) (hkeep : e'.handle = e.handle ∧ e'.obj = e.obj ∧
      e'.returned = true) (hmpi : F.handle (σ'.data e.obj) = e'.mpi)
    (hlive : σ'.live = σ.live.map fun x => if x.handle = e.handle then e' else x)
    (hdata : ∀ o, o ≠ e.obj → σ'.data o = σ.data o)
    (hnone : ∀ c ∈ σ.calls, creates c ≠ some e.handle) : Settled F σ' := by
  have hmem : ∀ x ∈ σ.live, x.handle ≠ e.handle → x ∈ σ'.live := by
    intro x hx hne
    rw [hlive]
    exact List.mem_map.mpr ⟨x, hx, if_neg hne⟩
  have hself : e' ∈ σ'.live := by
    rw [hlive]
    exact List.mem_map.mpr ⟨e, he, if_pos rfl⟩
  refine ⟨?_, hcalls ▸ hs.inits, ?_⟩
  · intro c hc
    rw [hcalls] at hc
    have hfine := hs.calls c hc
    cases c with
    | init h' o m p =>
      exact hmem _ hfine fun heq => hnone _ hc (congrArg some heq)
    | complete h' o persistent mpiReq status =>
      cases persistent with
      | false => trivial
      | true =>
        obtain ⟨x, hx, hxh, hxo, hret⟩ := hfine
        by_cases hxe : x.handle = e.handle
        · obtain rfl := hi.live_inj hx he (.inl hxe)
          exact ⟨e', hself, hkeep.1.trans hxh, hkeep.2.1.trans hxo, hkeep.2.2⟩
        · exact ⟨x, hmem x hx hxe, hxh, hxo, hret⟩
    | enterLast o m =>
      have hne : o ≠ e.obj := (hi.obj_ne_owned he hc (List.mem_singleton.mpr rfl)).symm
      exact (congrArg F.handle (hdata o hne)).trans hfine
    | enter _ _ _ | initFirst _ _ _ | fini _ | returnData _ | start _ _ | cancel _ _ => trivial
  · intro x hx hret
    rw [hlive] at hx
    obtain ⟨y, hy, rfl⟩ := List.mem_map.mp hx
    by_cases hye : y.handle = e.handle
    · rw [if_pos hye, hkeep.2.1]
      exact hmpi
    · rw [if_neg hye] at hret ⊢
      have hne : y.obj ≠ e.obj := fun heq => hye (congrArg Live.handle (hi.live_inj hy he (.inr heq)))
      exact (congrArg F.handle (hdata _ hne)).trans (hs.returned y hy hret)

theorem modifyLive_eq (hi : σ.Inv hand) (he : e ∈ σ.live) (g : Live → Live) :
    (σ.modifyLive e.handle g).live =
      σ.live.map fun x => if x.handle = e.handle then g e else x := by
  refine List.map_congr_left fun x hx => ?_
  by_cases hxe : x.handle = e.handle
  · rw [if_pos hxe, if_pos hxe, hi.live_inj hx he (.inl hxe)]
  · rw [if_neg hxe, if_neg hxe]

theorem Settled.fresh (hs : Settled F σ) (hi : σ.Inv hand) (o : ℕ) :
    ∀ c ∈ σ.calls, creates c ≠ some (σ.toFactory.enter o).1 := by
  intro c hc heq
  cases c with
  | init h o' m p =>
    have hlive : (⟨h, o', m, false⟩ : Live) ∈ σ.live := hs.calls _ hc
    have hget := hi.ids.get (n := 64) (by decide)
    have hh : h = (σ.table.enter o).1 := Option.some.inj heq
    rw [HandleTable.enter_fst] at hh
    exact (List.nodup_cons.mp hget.out_nodup).1 (hh ▸ List.mem_map_of_mem (f := Live.handle) hlive)
  | enter _ _ _ | initFirst _ _ _ | enterLast _ _ | complete _ _ _ _ _ | fini _ | returnData _
  | start _ _ | cancel _ _ => cases heq

theorem Settled.assignHandle_persistent (hs : Settled F σ) (hi : σ.Inv hand) (he : e ∈ σ.live)
    (hret : e.returned = true) (mpiReq : Option ℤ) :
    Settled F (σ.assignHandle F e.handle e.obj true mpiReq) := by
  cases mpiReq with
  | none => exact hs
  | some m =>
    refine hs.assign { e with mpi := m } hi he rfl ⟨rfl, rfl, hret⟩ ?_ ?_ ?_ ?_
    · exact (congrArg F.handle (Function.update_self ..)).trans (F.handle_setHandle ..)
    · exact modifyLive_eq (hi.modifyData e.obj (F.setHandle m)) he _
    · intro o' ho'
      exact Function.update_of_ne ho' ..
    · intro c hc heq
      -- A handle that is still being created has not returned.
      cases c with
      | init h o m p =>
        have hlive : (⟨h, o, m, false⟩ : Live) ∈ σ.live := hs.calls _ hc
        have hsame := hi.live_inj hlive he (.inl (Option.some.inj heq))
        rw [← hsame] at hret
        cases hret
      | enter _ _ _ | initFirst _ _ _ | enterLast _ _ | complete _ _ _ _ _ | fini _
      | returnData _ | start _ _ | cancel _ _ => cases heq

theorem Settled.assignHandle_hand (hs : Settled F σ) (hi : σ.Inv hand) (ho : o ∈ hand) (h : ℕ)
    (mpiReq : Option ℤ) : Settled F (σ.assignHandle F h o false mpiReq) := by
  cases mpiReq with
  | none => exact hs
  | some m =>
    refine (hs.modify_hand hi ho (F.setHandle m)).of_data rfl ?_ fun _ _ => rfl
    simp [assignHandle, Tracked.modifyLive]

theorem Settled.addOther (hs : Settled F σ) (hc : Fine F σ c) (hcr : creates c = none) :
    Settled F (σ.addCall c) :=
  hs.addCall hc fun h heq => absurd (hcr.symm.trans heq) (by simp)

theorem Settled.proceed (hs : Settled F σ) (hi : σ.Inv c.owned) (hc : Fine F σ c)
    (hnone : ∀ h, creates c = some h → ∀ c' ∈ σ.calls, creates c' ≠ some h) :
    Settled F (σ.proceed F c) := by
  cases c with
  | enter o m p =>
    refine (hs.enterLive (m := m) fun h => absurd h (by decide)).addCall ?_ ?_
    · exact List.mem_cons_self
    · intro h heq
      rw [← heq]
      exact hs.fresh hi o
  | init h o m p =>
    have he : (⟨h, o, m, false⟩ : Live) ∈ σ.live := hc
    refine hs.assign ⟨h, o, m, true⟩ hi he rfl ⟨rfl, rfl, rfl⟩ ?_ ?_ ?_ (hnone h rfl)
    · exact (congrArg F.handle (Function.update_self ..)).trans (F.handle_init ..)
    · exact modifyLive_eq (hi.modifyData o (F.init m p)) he _
    · intro o' ho'
      exact Function.update_of_ne ho' ..
  | initFirst o m p =>
    refine (hs.modify_hand hi (List.mem_singleton.mpr rfl) _).addOther ?_ rfl
    exact (congrArg F.handle (Function.update_self ..)).trans (F.handle_init ..)
  | enterLast o m => exact hs.enterLive fun _ => hc
  | complete h o persistent mpiReq status =>
    cases persistent with
    | true =>
      obtain ⟨e, he, rfl, rfl, hret⟩ := hc
      exact (hs.assignHandle_persistent hi he hret mpiReq).modify_keep _ (F.handle_complete status)
    | false =>
      have ho : o ∈ (Call.complete h o false mpiReq status).owned := List.mem_singleton.mpr rfl
      have hset := hs.assignHandle_hand hi ho h mpiReq
      exact (hset.modify_hand (hi.assignHandle F h o false mpiReq) ho _).addOther trivial rfl
  | fini o => exact (hs.modify_hand hi (List.mem_singleton.mpr rfl) _).addOther trivial rfl
  | returnData o => exact hs.of_data rfl rfl fun _ _ => rfl
  | start h o => exact hs.modify_keep o F.handle_start
  | cancel h o => exact hs.modify_keep o F.handle_cancel

variable [DecidableEq S] {op : TrackOp T S}

theorem Settled.step (hs : Settled F σ) (hi : σ.Inv []) (hop : σ.Allowed F op)
    (hquiet : Quiet F σ op) : Settled F (σ.step F op) := by
  have hstep := hi.section_step hop
  generalize σ.step F op = σ' at hstep
  cases hstep with
  | skip => exact hs
  | newData => exact (hs.getData hi).of_data rfl rfl fun _ _ => rfl
  | borrow d => exact hs.borrow hi d
  | giveBack ho => exact hs.of_data rfl rfl fun _ _ => rfl
  | newHandle m p => exact (hs.getData hi).addOther trivial rfl
  | newHandleWith m ho | newRequestWith m p ho =>
    refine Settled.addOther ?_ trivial rfl
    exact hs.of_data rfl rfl fun _ _ => rfl
  | freeHandle he => exact (hs.release hquiet.2).addOther trivial rfl
  | detachHandle he =>
    exact (hs.release hquiet.2).of_data rfl rfl fun _ _ => rfl
  | @completePersistent e mpiReq status he hp =>
    exact hs.addOther ⟨e, he, rfl, rfl, (hquiet e he rfl).1⟩ rfl
  | @complete e mpiReq status he hp =>
    have hidle := (hquiet e he rfl).2.resolve_left (by simp [hp])
    exact (hs.release hidle).addOther trivial rfl
  | start he | cancel he => exact hs.addOther trivial rfl
  | @resume c hc =>
    have hcall := hi.eraseCall hc
    rw [List.append_nil] at hcall
    refine (hs.eraseCall (c := c)).proceed hcall (hs.calls c hc) fun h heq c' hc' heq' => ?_
    -- The handle is created by one call only.
    have hperm := (List.perm_cons_erase hc).filterMap creates
    have hnodup := hperm.nodup hs.inits
    rw [List.filterMap_cons_some heq, List.nodup_cons] at hnodup
    exact hnodup.1 (List.mem_filterMap.mpr ⟨c', hc', heq'⟩)

end

end Tracked

/-- In every reachable state, free handles are different from each other and from the live ones,
live handles have their data object in the table and share none, and neither is free or predefined.
If handles are used after their creation has returned, and put back when no other call on them is
in flight, `getHandle` gives the MPI handle of a live handle: the one it was created for, or that
`completeRequest` has assigned since. -/
theorem handles_tracked [DecidableEq S] (F : Setup T S) (memory : ℕ → T)
    (ops : List (TrackOp T S)) (hvalid : (Tracked.machine F).Valid (.start memory) ops) :
    let σ := (Tracked.machine F).run (.start memory) ops
    σ.table.available.free.Nodup ∧
    (∀ e ∈ σ.live, e.handle ∉ σ.table.available.free ∧
      σ.table.dataTable e.handle = some e.obj ∧ e.obj ∉ σ.pool.free ∧
      F.isPredefined e.handle = false) ∧
    (∀ e ∈ σ.live, ∀ e' ∈ σ.live, e.handle = e'.handle ∨ e.obj = e'.obj → e = e') ∧
    ((Tracked.machine F).Along (Tracked.Quiet F) (.start memory) ops →
      ∀ e ∈ σ.live, e.returned = true → σ.toFactory.getHandle F e.handle = some e.mpi) := by
  intro σ
  have hinv : σ.Inv [] ∧ (σ.live = [] ∨ ∀ v ∈ F.predefined, (σ.table.size : ℤ) ≤ v) :=
    hvalid.inv (I := fun σ => σ.Inv [] ∧
      (σ.live = [] ∨ ∀ v ∈ F.predefined, (σ.table.size : ℤ) ≤ v))
      (fun _ _ h hop => ⟨h.1.step hop, .inr hop.2⟩) ⟨Tracked.inv_start memory, .inl rfl⟩
  obtain ⟨hi, hfits⟩ := hinv
  have hpredefined : ∀ e ∈ σ.live, F.isPredefined e.handle = false := by
    intro e he
    have hsize : e.handle < σ.table.size := hi.ids.lt_count (List.mem_map_of_mem he)
    refine Bool.eq_false_iff.mpr fun hmem => ?_
    have hle := hfits.resolve_left (List.ne_nil_of_mem he) e.handle (by
      simpa [Setup.isPredefined] using hmem)
    omega
  refine ⟨hi.ids.free_nodup, ?_, fun e he e' he' h => hi.live_inj he he' h, ?_⟩
  · intro e he
    exact ⟨hi.ids.not_mem_free (List.mem_map_of_mem he), hi.entry e he,
      hi.objs.not_mem_free (Tracked.obj_mem_out he), hpredefined e he⟩
  · intro hquiet e he hret
    have hs : Tracked.Settled F σ :=
      ((Machine.along_and.mpr ⟨hvalid, hquiet⟩).inv
        (I := fun σ => σ.Inv [] ∧ Tracked.Settled F σ)
        (fun _ _ h hop => ⟨h.1.step hop.1, h.2.step h.1 hop.1 hop.2⟩)
        ⟨Tracked.inv_start memory, Tracked.settled_start F memory⟩).2
    unfold Factory.getHandle Factory.findData
    rw [hpredefined e he, hi.entry e he]
    simp [hs.returned e he hret]

def plainCallbacks : Callbacks ℤ Unit Unit Unit := ⟨fun _ _ d => d, fun _ _ _ => rfl⟩

def plainRequests : Setup (RequestData ℤ Unit Unit) Unit where
  toDataClass := RequestData.dataClass 0x2c000000 () plainCallbacks
  ndatas := 16
  ndatas_pos := by decide
  predefined := [0x2c000000]

def freeOneOfTwo : List (TrackOp (RequestData ℤ Unit Unit) Unit) :=
  [.newHandle 5 false, .newData, .newRequestWith 6 14 true, .resume (.enter 15 5 false),
    .resume (.initFirst 14 6 true), .resume (.init 63 15 5 false), .resume (.enterLast 14 6),
    .startRequest 62, .resume (.start 62 14), .completeRequest 62 (some 9) (), .freeHandle 63,
    .resume (.fini 15), .resume (.complete 62 14 true (some 9) ()), .resume (.returnData 15)]

theorem handles_tracked_freeOneOfTwo :
    ((Tracked.machine plainRequests).run (.start fun _ => .new 0 ()) freeOneOfTwo).toFactory.getHandle
      plainRequests 62 = some 9 :=
  (handles_tracked plainRequests (fun _ => .new 0 ()) freeOneOfTwo (by decide +kernel)).2.2.2
    (by decide +kernel) ⟨62, 14, 9, true⟩ (by decide +kernel) rfl

end CritPath.Tracking
