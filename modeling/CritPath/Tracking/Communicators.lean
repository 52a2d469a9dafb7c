import CritPath.Lib.Pool
import CritPath.Lib.Runs

/-!
# Communicators behind the tool

The wrappers hand the application the address of a `CommData` in the place of a
communicator that the MPI library has made, and put the library's handle back
before they call the library (`preComm`, `postComm`). Each `CommData` keeps a
duplicate of its communicator for the piggybacks, made by `init` and freed by
`fini`. A program runs next to the same program without the tool; `calls` is what
the library gets from the application in either case.

Programs only make calls with communicators that are wrapped: `MPI_Comm_idup`,
`MPI_Comm_idup_with_info`, `MPI_Psend_init` and `MPI_Precv_init` are not. They
may copy handles, and use a copy until its communicator is freed.
-/

namespace CritPath.Tracking.Communicators

open Lib

inductive Comm where
  | null
  | world
  | self
  | other (n : ℕ)
  deriving DecidableEq

def Comm.isPredefined : Comm → Bool
  | .null | .world | .self => true
  | .other _ => false

/-- What an application variable holds: a predefined handle or the address of a `CommData`. -/
inductive AppComm where
  | predefined (c : Comm)
  | data (o : ℕ)
  deriving DecidableEq

def AppComm.isData : AppComm → Bool
  | .predefined _ => false
  | .data _ => true

structure CommData where
  handle : Comm := .null
  dupComm : Comm := .null
  deriving DecidableEq

def CommData.comms (d : CommData) : List Comm :=
  [d.handle, d.dupComm].filter fun c => !c.isPredefined

/-- A call of the application as it reaches the library. -/
inductive LibCall where
  | create (parent new : Comm)
  | use (c : Comm)
  | free (c : Comm)
  deriving DecidableEq

/-- `live` are the communicators that the library has made and not freed. For the proofs only,
`objects` are the `CommData` in use, and `stale` are the variables whose communicator was freed
through another one. -/
structure Tool (V : Type) where
  env : V → AppComm
  pool : Pool := {}
  data : ℕ → CommData := fun _ => {}
  live : List Comm := []
  calls : List LibCall := []
  objects : List ℕ := []
  stale : V → Bool := fun _ => false

/-- The same program without the tool. -/
structure Plain (V : Type) where
  env : V → Comm
  calls : List LibCall := []

inductive Op (V : Type) where
  /-- A wrapper that makes a communicator from `parent`: the library returns `new`, or
  `MPI_COMM_NULL`, and `dup` for the duplicate. -/
  | create (v parent : V) (new dup : Comm)
  /-- Any other wrapper with a communicator. -/
  | use (v : V)
  /-- `MPI_Comm_free` and `MPI_Comm_disconnect`. -/
  | free (v : V)
  /-- An assignment of the application. -/
  | copy (v src : V)

def getHandle (data : ℕ → CommData) : AppComm → Comm
  | .predefined c => c
  | .data o => (data o).handle

variable {V : Type} [DecidableEq V]

namespace Tool

omit [DecidableEq V] in
/-- `newData()->init(...)`, with what the library has made for the object. -/
def init (d : CommData) (σ : Tool V) : Tool V :=
  -- a block of the pool has `4096 / sizeof(CommData)` objects
  let r := σ.pool.get 64
  { σ with
    pool := r.2
    data := Function.update σ.data r.1 d
    live := d.comms ++ σ.live
    objects := r.1 :: σ.objects }

/-- `cf.newHandle`, into variable `v`. -/
def newHandle (v : V) (new dup : Comm) (σ : Tool V) : Tool V :=
  if new.isPredefined then { σ with env := Function.update σ.env v (.predefined new) }
  else { σ.init ⟨new, dup⟩ with env := Function.update σ.env v (.data (σ.pool.get 64).1) }

/-- `cf.freeHandle` with `CommData::fini`. -/
def freeHandle (v : V) (σ : Tool V) : Tool V :=
  let env := Function.update σ.env v (.predefined .null)
  match σ.env v with
  | .predefined _ => { σ with env := env }
  | .data o =>
    { σ with
      env := env
      pool := σ.pool.put o
      data := Function.update σ.data o { σ.data o with dupComm := .null }
      live := σ.live.erase (σ.data o).dupComm
      objects := σ.objects.erase o }

def step (σ : Tool V) : Op V → Tool V
  | .create v parent new dup =>
    let call := LibCall.create (getHandle σ.data (σ.env parent)) new
    newHandle v new dup
      { σ with calls := σ.calls ++ [call], stale := Function.update σ.stale v false }
  | .use v => { σ with calls := σ.calls ++ [.use (getHandle σ.data (σ.env v))] }
  | .free v =>
    let c := getHandle σ.data (σ.env v)
    { σ.freeHandle v with
      calls := σ.calls ++ [.free c]
      live := (σ.freeHandle v).live.erase c
      stale := fun v' => decide (v' ≠ v) && (σ.stale v' || σ.env v' == σ.env v) }
  | .copy v src =>
    { σ with
      env := Function.update σ.env v (σ.env src)
      stale := Function.update σ.stale v (σ.stale src) }

omit [DecidableEq V] in
/-- The library returns `MPI_COMM_NULL` or handles that are not in use, what is freed is not
predefined, and nothing is used that was freed. -/
def Allowed (σ : Tool V) : Op V → Prop
  | .create _ parent new dup => σ.stale parent = false ∧ (new = .null ∨
      new.isPredefined = false ∧ dup.isPredefined = false ∧ new ∉ σ.live ∧ dup ∉ new :: σ.live)
  | .use v => σ.stale v = false
  | .free v => σ.stale v = false ∧ (σ.env v).isData = true
  | .copy _ _ => True

end Tool

def Plain.step (p : Plain V) : Op V → Plain V
  | .create v parent new _ =>
    { env := Function.update p.env v new, calls := p.calls ++ [.create (p.env parent) new] }
  | .use v => { p with calls := p.calls ++ [.use (p.env v)] }
  | .free v => { env := Function.update p.env v .null, calls := p.calls ++ [.free (p.env v)] }
  | .copy v src => { p with env := Function.update p.env v (p.env src) }

def machine (V : Type) [DecidableEq V] : Machine (Tool V) (Op V) where
  step := Tool.step
  guard := Tool.Allowed

instance (σ : Tool V) : ∀ op, Decidable ((machine V).guard σ op)
  | .create _ _ _ _ => inferInstanceAs (Decidable (_ ∧ _))
  | .use v => inferInstanceAs (Decidable (σ.stale v = false))
  | .free _ => inferInstanceAs (Decidable (_ ∧ _))
  | .copy _ _ => inferInstanceAs (Decidable True)

def plain (V : Type) [DecidableEq V] : Machine (Plain V) (Op V) where
  step := Plain.step

/-- The `CommData` of the predefined handles, with the duplicates that the library has made. -/
def predefined (dupWorld dupSelf : ℕ) : List CommData :=
  [⟨.null, .null⟩, ⟨.world, .other dupWorld⟩, ⟨.self, .other dupSelf⟩]

/-- `cf.initPredefined()` in `MPI_Init`; the variables hold predefined handles. -/
def start (e : V → Comm) (dupWorld dupSelf : ℕ) : Tool V :=
  (predefined dupWorld dupSelf).foldl (fun σ d => σ.init d) { env := fun v => .predefined (e v) }

/-! ## The objects in use -/

/-- The library has what the objects in use name. -/
structure Store (pool : Pool) (data : ℕ → CommData) (live : List Comm) (objects : List ℕ) :
    Prop where
  pool : pool.Accounts objects
  nodup : live.Nodup
  live : live.Perm (objects.flatMap fun o => (data o).comms)

namespace Store

variable {pool : Pool} {data : ℕ → CommData} {live : List Comm} {objects : List ℕ} {o : ℕ}

theorem flatMap_update (d : CommData) (ho : o ∉ objects) :
    (objects.flatMap fun o' => (Function.update data o d o').comms) =
      objects.flatMap fun o' => (data o').comms := by
  refine List.flatMap_congr fun o' ho' => ?_
  have hne : o' ≠ o := fun he => ho (he ▸ ho')
  rw [Function.update_of_ne hne]

theorem not_mem (h : Store pool data live objects) : (pool.get 64).1 ∉ objects :=
  (List.nodup_cons.mp (h.pool.get (n := 64) (by decide)).out_nodup).1

theorem init (h : Store pool data live objects) {d : CommData}
    (hd : (d.comms ++ live).Nodup) :
    Store (pool.get 64).2 (Function.update data (pool.get 64).1 d) (d.comms ++ live)
      ((pool.get 64).1 :: objects) where
  pool := h.pool.get (by decide)
  nodup := hd
  live := by
    rw [List.flatMap_cons, flatMap_update d h.not_mem, Function.update_self]
    exact h.live.append_left _

theorem free (h : Store pool data live objects) (ho : o ∈ objects) {handle dup : Comm}
    (hd : (data o).comms = [handle, dup]) (d : CommData) :
    Store (pool.put o) (Function.update data o d) ((live.erase dup).erase handle)
      (objects.erase o) := by
  have hperm := List.perm_cons_erase ho
  have hpool := h.pool.of_perm hperm
  have hlive := h.live.trans (hperm.flatMap_right _)
  rw [List.flatMap_cons, hd] at hlive
  have hne : handle ≠ dup := by
    rintro rfl
    have hnd := hlive.nodup h.nodup
    simp at hnd
  refine ⟨hpool.put, (h.nodup.erase _).erase _, ?_⟩
  rw [flatMap_update d (List.nodup_cons.mp hpool.out_nodup).1]
  have herase := (hlive.erase dup).erase handle
  simpa [List.erase_cons_tail, hne] using herase

end Store

/-! ## The variables -/

/-- What the application has made: neither the communicator nor its duplicate is predefined. -/
def CommData.Made (d : CommData) : Prop :=
  d.handle.isPredefined = false ∧ d.dupComm.isPredefined = false

theorem CommData.Made.comms {d : CommData} (h : d.Made) : d.comms = [d.handle, d.dupComm] := by
  simp [CommData.comms, h.1, h.2]

/-- Variable `v` holds the handle of the program without the tool, by way of an object in use. -/
structure Holds (data : ℕ → CommData) (objects : List ℕ) (a : AppComm) (c : Comm) : Prop where
  handle : getHandle data a = c
  used : ∀ o, a = .data o → o ∈ objects ∧ (data o).Made

structure Inv (kept : List CommData) (σ : Tool V) (p : Plain V) : Prop where
  calls : σ.calls = p.calls
  store : Store σ.pool σ.data σ.live σ.objects
  vars : ∀ v, σ.stale v = false → Holds σ.data σ.objects (σ.env v) (p.env v)
  kept : ∀ d ∈ kept, ∃ o ∈ σ.objects, σ.data o = d

theorem Holds.mono {data data' : ℕ → CommData} {objects objects' : List ℕ} {a : AppComm} {c : Comm}
    (h : Holds data objects a c)
    (hkeep : ∀ o, a = .data o → data' o = data o ∧ (o ∈ objects → o ∈ objects')) :
    Holds data' objects' a c := by
  obtain ⟨hh, hu⟩ := h
  cases a with
  | predefined c' => exact ⟨hh, fun _ ho => by cases ho⟩
  | data o =>
    obtain ⟨hdata, hobj⟩ := hkeep o rfl
    refine ⟨by rw [← hh]; exact congrArg CommData.handle hdata, ?_⟩
    rintro o' ⟨⟩
    rw [hdata]
    exact ⟨hobj (hu o rfl).1, (hu o rfl).2⟩

namespace Inv

variable {kept : List CommData} {σ : Tool V} {p : Plain V} {v : V}

theorem create_null (h : Inv kept σ p) {parent : V} (hpar : σ.stale parent = false) (dup : Comm) :
    Inv kept (σ.step (.create v parent .null dup)) (p.step (.create v parent .null dup)) where
  calls := by
    show σ.calls ++ [.create _ _] = _
    rw [h.calls, (h.vars parent hpar).handle]
    rfl
  store := h.store
  vars v' hs := by
    show Holds _ _ (Function.update σ.env v (.predefined .null) v') (Function.update p.env v .null v')
    by_cases hv : v' = v
    · subst hv
      simpa using ⟨rfl, fun _ ho => by cases ho⟩
    · simp only [Function.update_of_ne hv]
      exact h.vars v' (by simpa [Tool.step, Tool.newHandle, Comm.isPredefined, hv] using hs)
  kept := h.kept

theorem create (h : Inv kept σ p) {parent : V} (hpar : σ.stale parent = false) {new dup : Comm}
    (hp : new.isPredefined = false) (hdp : dup.isPredefined = false) (hnew : new ∉ σ.live)
    (hdup : dup ∉ new :: σ.live) :
    Inv kept (σ.step (.create v parent new dup)) (p.step (.create v parent new dup)) := by
  have hfresh := h.store.not_mem
  have hne : ∀ o ∈ σ.objects, o ≠ (σ.pool.get 64).1 := fun o ho he => hfresh (he ▸ ho)
  have hmade : CommData.Made ⟨new, dup⟩ := ⟨hp, hdp⟩
  simp only [Tool.step, Tool.newHandle, Tool.init, hp, Bool.false_eq_true, if_false]
  refine ⟨?_, h.store.init ?_, fun v' hs => ?_, fun d hd => ?_⟩
  · show σ.calls ++ [.create _ _] = _
    rw [h.calls, (h.vars parent hpar).handle]
    rfl
  · rw [hmade.comms]
    have hnd : (dup :: new :: σ.live).Nodup :=
      List.nodup_cons.mpr ⟨hdup, List.nodup_cons.mpr ⟨hnew, h.store.nodup⟩⟩
    exact (List.Perm.swap new dup σ.live).nodup hnd
  · show Holds _ _ (Function.update σ.env v _ v') (Function.update p.env v new v')
    by_cases hv : v' = v
    · subst hv
      simp only [Function.update_self]
      refine ⟨by simp [getHandle], ?_⟩
      rintro o ⟨⟩
      rw [Function.update_self]
      exact ⟨List.mem_cons_self, hmade⟩
    · simp only [Function.update_of_ne hv] at hs ⊢
      have hvar := h.vars v' hs
      refine hvar.mono fun o ho => ⟨?_, List.mem_cons_of_mem _⟩
      exact Function.update_of_ne (hne o (hvar.used o ho).1) _ _
  · obtain ⟨o, ho, hdata⟩ := h.kept d hd
    exact ⟨o, List.mem_cons_of_mem _ ho, (Function.update_of_ne (hne o ho) _ _).trans hdata⟩

theorem free (h : Inv kept σ p) (hkept : ∀ d ∈ kept, d.handle.isPredefined = true)
    (hs : σ.stale v = false) {o : ℕ} (ho : σ.env v = .data o) :
    Inv kept (σ.step (.free v)) (p.step (.free v)) := by
  obtain ⟨hmem, hmade⟩ := (h.vars v hs).used o ho
  have hothers : ∀ o' ∈ σ.objects, o' ≠ o → o' ∈ σ.objects.erase o :=
    fun o' ho' hne => (List.mem_erase_of_ne hne).mpr ho'
  simp only [Tool.step, Tool.freeHandle, ho]
  refine ⟨?_, h.store.free hmem hmade.comms _, fun v' hs' => ?_, fun d hd => ?_⟩
  · show σ.calls ++ [.free _] = _
    rw [h.calls, ← ho, (h.vars v hs).handle]
    rfl
  · show Holds _ _ (Function.update σ.env v _ v') (Function.update p.env v .null v')
    by_cases hv : v' = v
    · subst hv
      simpa using ⟨rfl, fun _ ho => by cases ho⟩
    · obtain ⟨hstale, hne⟩ : σ.stale v' = false ∧ σ.env v' ≠ .data o := by simpa [hv] using hs'
      simp only [Function.update_of_ne hv]
      refine (h.vars v' hstale).mono fun o' ho' => ?_
      have hne' : o' ≠ o := fun he => hne (he ▸ ho')
      exact ⟨Function.update_of_ne hne' _ _, fun hmem' => hothers o' hmem' hne'⟩
  · obtain ⟨o', ho', hdata⟩ := h.kept d hd
    have hne : o' ≠ o := by
      rintro rfl
      have := hkept d hd
      rw [← hdata, hmade.1] at this
      cases this
    exact ⟨o', hothers o' ho' hne, (Function.update_of_ne hne _ _).trans hdata⟩

theorem step (h : Inv kept σ p) (hkept : ∀ d ∈ kept, d.handle.isPredefined = true) {op : Op V}
    (hop : σ.Allowed op) : Inv kept (σ.step op) (p.step op) := by
  cases op with
  | create v parent new dup =>
    obtain ⟨hpar, rfl | ⟨hp, hdp, hnew, hdup⟩⟩ := hop
    · exact h.create_null hpar dup
    · exact h.create hpar hp hdp hnew hdup
  | use v =>
    refine ⟨?_, h.store, h.vars, h.kept⟩
    show σ.calls ++ [.use _] = _
    rw [h.calls, (h.vars v hop).handle]
    rfl
  | free v =>
    obtain ⟨hs, hdata⟩ := hop
    cases ho : σ.env v with
    | predefined c => simp [ho, AppComm.isData] at hdata
    | data o => exact h.free hkept hs ho
  | copy v src =>
    refine ⟨h.calls, h.store, fun v' hs => ?_, h.kept⟩
    show Holds σ.data σ.objects (Function.update σ.env v (σ.env src) v')
      (Function.update p.env v (p.env src) v')
    by_cases hv : v' = v
    · subst hv
      simpa using h.vars src (by simpa [Tool.step] using hs)
    · simp only [Function.update_of_ne hv]
      exact h.vars v' (by simpa [Tool.step, hv] using hs)

omit [DecidableEq V] in
/-- One of the objects that `initPredefined` makes. -/
theorem init (h : Inv kept σ p) {d : CommData} (hd : (d.comms ++ σ.live).Nodup) :
    Inv (d :: kept) (σ.init d) p := by
  have hne : ∀ o ∈ σ.objects, o ≠ (σ.pool.get 64).1 := fun o ho he => h.store.not_mem (he ▸ ho)
  refine ⟨h.calls, h.store.init hd, fun v hs => ?_, fun d' hd' => ?_⟩
  · have hvar := h.vars v hs
    refine hvar.mono fun o ho => ⟨?_, List.mem_cons_of_mem _⟩
    exact Function.update_of_ne (hne o (hvar.used o ho).1) _ _
  · rcases List.mem_cons.mp hd' with rfl | hd'
    · exact ⟨_, List.mem_cons_self, Function.update_self ..⟩
    · obtain ⟨o, ho, hdata⟩ := h.kept d' hd'
      exact ⟨o, List.mem_cons_of_mem _ ho, (Function.update_of_ne (hne o ho) _ _).trans hdata⟩

omit [DecidableEq V] in
theorem start (e : V → Comm) {w s : ℕ} (hws : w ≠ s) :
    Inv (predefined w s).reverse (start e w s) { env := e } := by
  have hempty : Inv [] ({ env := fun v => .predefined (e v) } : Tool V) { env := e } := by
    refine ⟨rfl, ⟨Pool.accounts_empty, List.nodup_nil, .nil⟩, fun v _ => ⟨rfl, ?_⟩, by simp⟩
    rintro o ⟨⟩
  refine ((hempty.init ?_).init ?_).init ?_
  all_goals simp [Tool.init, CommData.comms, Comm.isPredefined, hws.symm]

end Inv

theorem inv_run (e : V → Comm) {w s : ℕ} (hws : w ≠ s) {ops : List (Op V)}
    (hv : (machine V).Valid (start e w s) ops) :
    Inv (predefined w s).reverse ((machine V).run (start e w s) ops)
      ((plain V).run { env := e } ops) :=
  Machine.Along.sim (fun _ _ _ h hop => h.step (by simp [predefined, Comm.isPredefined]) hop) hv
    (.start e hws)

/-- Under the tool the library gets the calls of the program without it, with the same
communicators. -/
theorem calls_eq_plain {V : Type} [DecidableEq V] (e : V → Comm) {w s : ℕ} (hws : w ≠ s)
    {ops : List (Op V)} (hv : (machine V).Valid (start e w s) ops) :
    ((machine V).run (start e w s) ops).calls = ((plain V).run { env := e } ops).calls :=
  (inv_run e hws hv).calls

/-- A communicator is made and its handle copied; it is used and freed through the copy, after a
second one was made from it. -/
def splitCopyFree : List (Op (Fin 3)) :=
  [.create 0 1 (.other 2) (.other 3), .copy 2 0, .use 2, .create 1 2 (.other 4) (.other 5),
   .free 2, .use 1]

theorem calls_eq_plain_splitCopyFree :
    ((machine (Fin 3)).run (start (fun _ => .world) 0 1) splitCopyFree).calls =
      [.create .world (.other 2), .use (.other 2), .create (.other 2) (.other 4),
       .free (.other 2), .use (.other 4)] :=
  calls_eq_plain _ (by decide) (by decide +kernel)

end CritPath.Tracking.Communicators
