import CritPath.Tracking.HandleTable

/-!
# Fortran handles of pointer-type handles

Where the C handles of the MPI library are pointers, an application handle is the
address of the data object, and `HandleFactory<M, T, MI *, E>` gives it a Fortran
integer: an index of `dataTable`, taken from `availableHandles`. The predefined
handles keep the Fortran integers that the MPI library gives them. `f2c` looks an
integer up among those first, so an index that is also the integer of a
predefined handle does not lead back to its handle.

`init` sets the fields of a data object that the conversions read before anyone
reads them, so the memory of the pool may hold anything before.
-/

namespace CritPath.Tracking.Fortran

open Lib

/-- The predefined handles of one kind (`isPredefined`, `initPredefined`), the Fortran integers that
the MPI library gives them, and the number of data objects in a block of the pool. -/
structure Library (P : Type) where
  handles : List P
  complete : ∀ p, p ∈ handles
  fHandle : P → ℕ
  distinct : Function.Injective fHandle
  ndatas : ℕ
  ndatas_pos : 0 < ndatas

/-- Values of the handle type: a predefined handle, another handle of the MPI library, or the
address of a data object. -/
inductive Handle (P : Type)
  | predefined (p : P)
  | mpi (m : ℤ)
  | object (o : ℕ)
  deriving DecidableEq

structure Data (P : Type) where
  handle : Handle P
  fHandle : ℕ
  deriving DecidableEq

/-- `live` are the objects of the handles that the application has, `reserved` those of the
predefined handles. -/
structure Factory (P : Type) where
  table : HandleTable := {}
  pool : Pool := {}
  data : ℕ → Data P
  predefHandles : P → Option ℕ := fun _ => none
  predefFHandles : ℕ → Option ℕ := fun _ => none
  live : List ℕ := []
  reserved : List ℕ := []

inductive Op (P : Type)
  | newHandle (handle : Handle P)
  | freeHandle (handle : Handle P)
  deriving DecidableEq

namespace Factory

variable {P : Type} [DecidableEq P] (L : Library P)

def getData (σ : Factory P) : ℕ × Factory P :=
  let r := σ.pool.get L.ndatas
  (r.1, { σ with pool := r.2 })

/-- `init(handle, fHandle)` on object `o`. -/
def init (o : ℕ) (handle : Handle P) (fHandle : ℕ) (σ : Factory P) : Factory P :=
  { σ with data := Function.update σ.data o ⟨handle, fHandle⟩ }

/-- One handle of `initPredefined`. -/
def register (σ : Factory P) (p : P) : Factory P :=
  let r := σ.getData L
  let σ := r.2.init r.1 (.predefined p) (L.fHandle p)
  { σ with
    predefHandles := Function.update σ.predefHandles p (some r.1)
    predefFHandles := Function.update σ.predefFHandles (σ.data r.1).fHandle (some r.1)
    reserved := r.1 :: σ.reserved }

def newHandleWith (handle : Handle P) (ret : ℕ) (σ : Factory P) : Factory P :=
  let r := σ.table.enter ret
  let σ := init ret handle r.1 { σ with table := r.2 }
  { σ with live := ret :: σ.live }

def newHandle (handle : Handle P) (σ : Factory P) : Handle P × Factory P :=
  match handle with
  | .predefined _ => (handle, σ)
  | .mpi _ | .object _ =>
    let r := σ.getData L
    (.object r.1, r.2.newHandleWith handle r.1)

/-- `fini()` changes nothing that the conversions read. -/
def freeHandle (σ : Factory P) : Handle P → Factory P
  | .object o =>
    { σ with
      table := σ.table.putBack (σ.data o).fHandle
      pool := σ.pool.put o
      live := σ.live.erase o }
  | .predefined _ | .mpi _ => σ

/-- Nothing: the entry of the table is null. -/
def f2c (σ : Factory P) (fhandle : ℕ) : Option (Handle P) :=
  match σ.predefFHandles fhandle with
  | some o => some (σ.data o).handle
  | none => (σ.table.dataTable fhandle).map .object

/-- Nothing: not an application handle. -/
def c2f (σ : Factory P) : Handle P → Option ℕ
  | .predefined p => (σ.predefHandles p).map fun o => (σ.data o).fHandle
  | .object o => some (σ.data o).fHandle
  | .mpi _ => none

def step (σ : Factory P) : Op P → Factory P
  | .newHandle handle => (σ.newHandle L handle).2
  | .freeHandle handle => σ.freeHandle handle

/-- Only handles that the application has are freed. -/
def Allowed (σ : Factory P) : Op P → Prop
  | .newHandle _ | .freeHandle (.predefined _) => True
  | .freeHandle (.object o) => o ∈ σ.live
  | .freeHandle (.mpi _) => False

instance (σ : Factory P) : ∀ op, Decidable (σ.Allowed op)
  | .newHandle _ | .freeHandle (.predefined _) => .isTrue trivial
  | .freeHandle (.object o) => inferInstanceAs (Decidable (o ∈ σ.live))
  | .freeHandle (.mpi _) => .isFalse id

def Known (σ : Factory P) : Handle P → Prop
  | .predefined _ => True
  | .object o => o ∈ σ.live
  | .mpi _ => False

/-- Every handle comes back from its Fortran integer, and no two share one. -/
structure RoundTrips (σ : Factory P) : Prop where
  back : ∀ h, σ.Known h → (σ.c2f h).bind σ.f2c = some h
  injective : ∀ h h', σ.Known h → σ.Known h' → σ.c2f h = σ.c2f h' → h = h'

end Factory

variable {P : Type} [DecidableEq P]

/-- `initPredefined` of a new factory, whatever is in the memory of its pool. -/
def initPredefined (L : Library P) (memory : ℕ → Data P) : Factory P :=
  L.handles.foldl (Factory.register L) { data := memory }

def machine (L : Library P) : Machine (Factory P) (Op P) where
  step := Factory.step L
  guard := Factory.Allowed

instance (L : Library P) (σ : Factory P) (op : Op P) : Decidable ((machine L).guard σ op) :=
  inferInstanceAs (Decidable (σ.Allowed op))

/-! ## What the tables say -/

/-- The handles of `done` are registered; the objects and the indices in use are accounted for. -/
structure Factory.Inv (L : Library P) (done : P → Prop) (σ : Factory P) : Prop where
  predefined : ∀ p, done p → ∃ o ∈ σ.reserved, σ.predefHandles p = some o ∧
    σ.predefFHandles (L.fHandle p) = some o ∧ σ.data o = ⟨.predefined p, L.fHandle p⟩
  only : ∀ f o, σ.predefFHandles f = some o → ∃ p, L.fHandle p = f
  objects : σ.pool.Accounts (σ.live ++ σ.reserved)
  entered : ∀ o ∈ σ.live, σ.table.dataTable (σ.data o).fHandle = some o
  indices : σ.table.available.Accounts (σ.live.map fun o => (σ.data o).fHandle)
  counts : Pool.Counts 64 σ.table.available σ.live.length

namespace Factory

variable {L : Library P} {σ : Factory P} {done : P → Prop}

omit [DecidableEq P] in
theorem Inv.getData_fresh (h : σ.Inv L done) :
    (σ.pool.get L.ndatas).2.Accounts ((σ.pool.get L.ndatas).1 :: (σ.live ++ σ.reserved)) :=
  h.objects.get L.ndatas_pos

theorem Inv.register (h : σ.Inv L done) (hlive : σ.live = []) (p : P) :
    (σ.register L p).Inv L (fun q => q = p ∨ done q) ∧ (σ.register L p).live = [] := by
  have hget := h.getData_fresh
  have hnew : (σ.pool.get L.ndatas).1 ∉ σ.reserved := fun hmem =>
    (List.nodup_cons.mp hget.out_nodup).1 (List.mem_append_right _ hmem)
  refine ⟨⟨fun q hq => ?_, fun f o hf => ?_, ?_, ?_, ?_, ?_⟩, hlive⟩
  · by_cases hqp : q = p
    · subst hqp
      exact ⟨_, List.mem_cons_self, by simp [Factory.register, getData, init]⟩
    · obtain ⟨o, ho, hpre, hpreF, hdata⟩ := h.predefined q (hq.resolve_left hqp)
      have hne : o ≠ (σ.pool.get L.ndatas).1 := fun heq => hnew (heq ▸ ho)
      have hf : L.fHandle q ≠ L.fHandle p := fun heq => hqp (L.distinct heq)
      exact ⟨o, List.mem_cons_of_mem _ ho, by simp [Factory.register, getData, init, hqp, hne, hf,
        hpre, hpreF, hdata]⟩
  · by_cases hfp : f = L.fHandle p
    · exact ⟨p, hfp.symm⟩
    · refine h.only f o ?_
      simpa [Factory.register, getData, init, hfp] using hf
  · simpa [Factory.register, getData, init, hlive] using hget
  · simp [Factory.register, getData, init, hlive]
  · have hind := h.indices
    simpa [Factory.register, getData, init, hlive] using hind
  · exact h.counts

theorem inv_initPredefined (L : Library P) (memory : ℕ → Data P) :
    (initPredefined L memory).Inv L (fun _ => True) ∧ (initPredefined L memory).table = {} := by
  have hfold : ∀ (ps : List P) (done : P → Prop) (σ : Factory P), σ.Inv L done → σ.live = [] →
      (ps.foldl (Factory.register L) σ).Inv L (fun q => q ∈ ps ∨ done q) ∧
        (ps.foldl (Factory.register L) σ).table = σ.table := by
    intro ps
    induction ps with
    | nil => intro done σ h hlive; exact ⟨by simpa using h, rfl⟩
    | cons p ps ih =>
      intro done σ h hlive
      obtain ⟨h', hlive'⟩ := h.register hlive p
      obtain ⟨h'', htable⟩ := ih _ _ h' hlive'
      refine ⟨?_, htable⟩
      have hset : (fun q => q ∈ p :: ps ∨ done q) = fun q => q ∈ ps ∨ q = p ∨ done q := by
        funext q
        rw [List.mem_cons, or_assoc, or_left_comm]
      rw [hset]
      exact h''
  have h0 : ({ data := memory } : Factory P).Inv L (fun _ => False) :=
    ⟨fun _ hp => hp.elim, by simp, Pool.accounts_empty, by simp, Pool.accounts_empty,
      Pool.counts_empty 64⟩
  obtain ⟨h, htable⟩ := hfold L.handles _ _ h0 rfl
  simp only [L.complete, true_or] at h
  exact ⟨h, htable⟩

omit [DecidableEq P] in
theorem Inv.newHandleWith (h : σ.Inv L done) {pool : Pool} {o : ℕ}
    (hacc : pool.Accounts (o :: (σ.live ++ σ.reserved))) (handle : Handle P) :
    (Factory.newHandleWith handle o { σ with pool := pool }).Inv L done := by
  set f := (σ.table.enter o).1
  have hnew := (List.nodup_cons.mp hacc.out_nodup).1
  rw [List.mem_append, not_or] at hnew
  have hdata : ∀ o', o' ≠ o → Function.update σ.data o ⟨handle, f⟩ o' = σ.data o' :=
    fun o' hne => Function.update_of_ne hne _ _
  have hold : ∀ o' ∈ σ.live, o' ≠ o := fun o' ho' heq => hnew.1 (heq ▸ ho')
  have hmap : (o :: σ.live).map (fun o' => (Function.update σ.data o ⟨handle, f⟩ o').fHandle) =
      f :: σ.live.map fun o' => (σ.data o').fHandle := by
    rw [List.map_cons, Function.update_self]
    exact congrArg _ (List.map_congr_left fun o' ho' => by rw [hdata o' (hold o' ho')])
  have hind := h.indices.get (n := 64) (by decide)
  rw [← HandleTable.enter_fst o, ← HandleTable.enter_available o, ← hmap] at hind
  refine ⟨fun p hp => ?_, h.only, hacc, fun o' ho' => ?_, hind, ?_⟩
  · obtain ⟨o', ho', hpre, hpreF, hd⟩ := h.predefined p hp
    exact ⟨o', ho', hpre, hpreF, (hdata o' fun heq => hnew.2 (heq ▸ ho')).trans hd⟩
  · show (σ.table.enter o).2.dataTable (Function.update σ.data o ⟨handle, f⟩ o').fHandle = _
    rcases List.mem_cons.mp ho' with rfl | hmem'
    · rw [Function.update_self]
      exact HandleTable.dataTable_enter_self _ _
    · have hmem : (σ.data o').fHandle ∈ σ.live.map fun o' => (σ.data o').fHandle :=
        List.mem_map_of_mem hmem'
      have hne : (σ.data o').fHandle ≠ f := by
        intro heq
        rw [hmap] at hind
        exact (List.nodup_cons.mp hind.out_nodup).1 (heq ▸ hmem)
      rw [hdata o' (hold o' hmem'), HandleTable.dataTable_enter_of_ne hne (h.indices.lt_count hmem)]
      exact h.entered o' hmem'
  · have hcounts := h.counts.get (by decide)
    rw [← HandleTable.enter_available o] at hcounts
    exact hcounts

omit [DecidableEq P] in
theorem Inv.freeHandle (h : σ.Inv L done) {o : ℕ} (ho : o ∈ σ.live) :
    (σ.freeHandle (.object o)).Inv L done := by
  have hperm : σ.live.Perm (o :: σ.live.erase o) := List.perm_cons_erase ho
  have hobj := (h.objects.of_perm (hperm.append_right σ.reserved)).put
  have hind := (h.indices.of_perm (hperm.map fun o' => (σ.data o').fHandle)).put
  have hlen : σ.live.length = (σ.live.erase o).length + 1 := hperm.length_eq
  have hcounts := h.counts
  rw [hlen] at hcounts
  exact ⟨h.predefined, h.only, hobj, fun o' ho' => h.entered o' (List.mem_of_mem_erase ho'), hind,
    hcounts.put _⟩

/-! ## Round trips -/

omit [DecidableEq P] in
theorem Inv.c2f_predefined (h : σ.Inv L (fun _ => True)) (p : P) :
    σ.c2f (.predefined p) = some (L.fHandle p) ∧ σ.f2c (L.fHandle p) = some (.predefined p) := by
  obtain ⟨o, -, hpre, hpreF, hd⟩ := h.predefined p trivial
  constructor
  · simp [c2f, hpre, hd]
  · simp [f2c, hpreF, hd]

omit [DecidableEq P] in
/-- An index that is not the integer of a predefined handle leads back to the object. -/
theorem Inv.f2c_object (h : σ.Inv L done) {o : ℕ} (ho : o ∈ σ.live)
    (hne : ∀ p, L.fHandle p ≠ (σ.data o).fHandle) :
    σ.f2c (σ.data o).fHandle = some (.object o) := by
  have hnone : σ.predefFHandles (σ.data o).fHandle = none := by
    by_contra hsome
    obtain ⟨o', ho'⟩ := Option.ne_none_iff_exists'.mp hsome
    obtain ⟨p, hp⟩ := h.only _ _ ho'
    exact hne p hp
  simp [f2c, hnone, h.entered o ho]

omit [DecidableEq P] in
theorem Inv.roundTrips_iff (h : σ.Inv L (fun _ => True)) :
    σ.RoundTrips ↔ ∀ p, L.fHandle p ∉ σ.live.map fun o => (σ.data o).fHandle := by
  constructor
  · intro hr p hmem
    obtain ⟨o, ho, heq⟩ := List.mem_map.mp hmem
    have hback := hr.back (.object o) ho
    rw [c2f, Option.bind_some, heq, (h.c2f_predefined p).2] at hback
    cases hback
  · intro hfree
    have hne : ∀ o ∈ σ.live, ∀ p, L.fHandle p ≠ (σ.data o).fHandle :=
      fun o ho p heq => hfree p (List.mem_map.mpr ⟨o, ho, heq.symm⟩)
    refine ⟨fun hdl hk => ?_, fun hdl hdl' hk hk' heq => ?_⟩
    · cases hdl with
      | predefined p =>
        rw [(h.c2f_predefined p).1]
        exact (h.c2f_predefined p).2
      | object o => exact h.f2c_object hk (hne o hk)
      | mpi m => exact hk.elim
    · cases hdl with
      | mpi m => exact hk.elim
      | predefined p =>
        rw [(h.c2f_predefined p).1] at heq
        cases hdl' with
        | mpi m => exact hk'.elim
        | predefined q =>
          rw [(h.c2f_predefined q).1] at heq
          rw [L.distinct (Option.some.inj heq)]
        | object o => exact absurd (Option.some.inj heq) (hne o hk' p)
      | object o =>
        cases hdl' with
        | mpi m => exact hk'.elim
        | predefined q =>
          rw [(h.c2f_predefined q).1] at heq
          exact absurd (Option.some.inj heq).symm (hne o hk q)
        | object o' =>
          have hentry := h.entered o hk
          rw [show (σ.data o).fHandle = (σ.data o').fHandle from Option.some.inj heq,
            h.entered o' hk'] at hentry
          rw [Option.some.inj hentry]

/-! ## Every run -/

/-- The integers of the predefined handles have not been handed out. -/
structure Clear (L : Library P) (σ : Factory P) : Prop extends Inv L (fun _ => True) σ where
  untouched : ∀ p, Pool.Untouched 64 (L.fHandle p) σ.table.available

/-- Fewer handles are live than it takes for the integer of a predefined handle to be handed out. -/
def Below (L : Library P) (σ : Factory P) : Prop :=
  ∀ p, σ.live.length < Pool.limit 64 (L.fHandle p)

omit [DecidableEq P] in
theorem Clear.below (h : σ.Clear L) : σ.Below L :=
  fun p => (h.untouched p).lt_limit (by decide) h.counts

omit [DecidableEq P] in
theorem Clear.roundTrips (h : σ.Clear L) : σ.RoundTrips :=
  h.toInv.roundTrips_iff.mpr fun p => (h.untouched p).not_mem h.indices

theorem clear_initPredefined (L : Library P) (memory : ℕ → Data P) :
    (initPredefined L memory).Clear L := by
  obtain ⟨hinv, htable⟩ := inv_initPredefined L memory
  refine ⟨hinv, fun p => ?_⟩
  rw [htable]
  exact .inl (Nat.zero_le _)

omit [DecidableEq P] in
theorem Clear.newHandle (h : σ.Clear L) {pool : Pool} {o : ℕ}
    (hacc : pool.Accounts (o :: (σ.live ++ σ.reserved))) (handle : Handle P) :
    let σ' := Factory.newHandleWith handle o { σ with pool := pool }
    (σ'.RoundTrips ↔ σ'.Below L) ∧ (σ'.Below L → σ'.Clear L) := by
  intro σ'
  have hinv : σ'.Inv L (fun _ => True) := h.toInv.newHandleWith hacc handle
  have hlen : σ'.live.length = σ.live.length + 1 := rfl
  have havail : σ'.table.available = (σ.table.available.get 64).2 := HandleTable.enter_available o _
  have hindex : (σ'.data o).fHandle = (σ.table.available.get 64).1 := by
    rw [← HandleTable.enter_fst o]
    exact congrArg Data.fHandle (Function.update_self o _ σ.data)
  have hnext := fun p => (h.untouched p).get (by decide) h.counts
  have hclear : σ'.Below L → σ'.Clear L := by
    intro hbelow
    refine ⟨hinv, fun p => ?_⟩
    have hlt := hbelow p
    rw [hlen] at hlt
    rcases hnext p with ⟨heq, -⟩ | ⟨-, huntouched⟩
    · omega
    · rw [havail]
      exact huntouched
  refine ⟨⟨fun hr p => ?_, fun hbelow => (hclear hbelow).roundTrips⟩, hclear⟩
  rcases hnext p with ⟨-, heq⟩ | ⟨hlt, -⟩
  · -- the new handle has the integer of `p`
    refine absurd (List.mem_map.mpr ⟨o, List.mem_cons_self, ?_⟩) (hinv.roundTrips_iff.mp hr p)
    rw [hindex, heq]
  · rw [hlen]
    exact hlt

omit [DecidableEq P] in
theorem Clear.freeHandle (h : σ.Clear L) {o : ℕ} (ho : o ∈ σ.live) :
    (σ.freeHandle (.object o)).Clear L :=
  ⟨h.toInv.freeHandle ho, fun p => (h.untouched p).put _⟩

omit [DecidableEq P] in
theorem Clear.step (h : σ.Clear L) {op : Op P} (hal : σ.Allowed op) :
    ((σ.step L op).RoundTrips ↔ (σ.step L op).Below L) ∧
      ((σ.step L op).Below L → (σ.step L op).Clear L) := by
  have hkept : ∀ {σ' : Factory P}, σ'.Clear L →
      (σ'.RoundTrips ↔ σ'.Below L) ∧ (σ'.Below L → σ'.Clear L) :=
    fun h' => ⟨iff_of_true h'.roundTrips h'.below, fun _ => h'⟩
  cases op with
  | newHandle handle =>
    cases handle with
    | predefined p => exact hkept h
    | mpi _ | object _ => exact h.newHandle h.getData_fresh _
  | freeHandle handle =>
    cases handle with
    | predefined p => exact hkept h
    | mpi _ => exact hal.elim
    | object o => exact hkept (h.freeHandle hal)

end Factory

/-- In every run the conversions work in every state exactly if in every state, for every predefined
handle, fewer handles are live than it takes for the index with its integer to be handed out: the
indices of a block of 64 are handed out from the top. -/
theorem roundTrips_iff_live_lt (L : Library P) (memory : ℕ → Data P) (ops : List (Op P))
    (hv : (machine L).Valid (initPredefined L memory) ops) :
    (∀ pre, pre <+: ops → ((machine L).run (initPredefined L memory) pre).RoundTrips) ↔
      ∀ pre, pre <+: ops → ∀ p,
        ((machine L).run (initPredefined L memory) pre).live.length <
          64 * (L.fHandle p / 64) + 64 - L.fHandle p % 64 := by
  have hclear := Factory.clear_initPredefined L memory
  have halong := hv.congr (I := Factory.Clear L) (fun σ op h hal => h.step hal) hclear
  rw [Machine.forall_prefix_iff]
  change _ ↔ ∀ pre, pre <+: ops → ((machine L).run (initPredefined L memory) pre).Below L
  rw [Machine.forall_prefix_iff]
  exact and_congr (iff_of_true hclear.roundTrips hclear.below) halong

inductive CommHandle
  | null
  | world
  | self
  deriving DecidableEq

/-- `MPI_COMM_WORLD`, `MPI_COMM_SELF` and `MPI_COMM_NULL` are 0, 1 and 2 in Fortran. -/
def commLibrary : Library CommHandle where
  handles := [.null, .world, .self]
  complete p := by cases p <;> decide
  fHandle
    | .null => 2
    | .world => 0
    | .self => 1
  distinct p q h := by cases p <;> cases q <;> first | rfl | cases h
  ndatas := 64
  ndatas_pos := by decide

/-- Of three communicators the first one is freed. -/
theorem roundTrips_two_comms :
    let σ := (machine commLibrary).run (initPredefined commLibrary fun _ => ⟨.mpi 0, 0⟩)
      [.newHandle (.mpi 5), .newHandle (.mpi 6), .freeHandle (.object 60), .newHandle (.mpi 7)]
    σ.live.length = 2 ∧ σ.RoundTrips := by
  refine ⟨by decide +kernel, (roundTrips_iff_live_lt commLibrary (fun _ => ⟨.mpi 0, 0⟩) _
    (by decide +kernel)).mpr ?_ _ (List.prefix_refl _)⟩
  simp only [Machine.forall_prefix_cons, List.prefix_nil, forall_eq]
  refine ⟨?_, ?_, ?_, ?_, ?_⟩ <;> intro p <;> cases p <;> decide +kernel

def manyComms : Factory CommHandle :=
  (machine commLibrary).run (initPredefined commLibrary fun _ => ⟨.mpi 0, 0⟩)
    ((List.range 62).map fun m => .newHandle (.mpi m))

/-- The last of them has the Fortran integer of `MPI_COMM_NULL` and comes back as that. -/
theorem fortran_comm_is_null :
    127 ∈ manyComms.live ∧ manyComms.c2f (.object 127) = some 2 ∧
      manyComms.f2c 2 = some (.predefined .null) ∧ ¬ manyComms.RoundTrips := by
  have hlive : 127 ∈ manyComms.live := by decide +kernel
  have hc2f : manyComms.c2f (.object 127) = some 2 := by decide +kernel
  have hf2c : manyComms.f2c 2 = some (.predefined .null) := by decide +kernel
  refine ⟨hlive, hc2f, hf2c, fun h => ?_⟩
  have hback := h.back (.object 127) hlive
  rw [hc2f, Option.bind_some, hf2c] at hback
  cases hback

end CritPath.Tracking.Fortran
