import CritPath.Containers.CompactHashMap
import CritPath.Lib.Runs

/-!
# The table of lock records

`Locks` maps the wait id of a lock to its record, a mutex and a sync clock that
are made when the lock is acquired for the first time. `mutex_acquired` looks the
record up and copies the pointer to it while it holds `LocksMutex`.
`mutex_released` keeps a reference into the storage of the map instead, and reads
the pointer through it twice after it has left the locked section: for the signal
and for the unlock. An insertion into a full table moves the entries to a new
array and frees the old one. A read through a reference into an array that has
been freed yields nothing.
-/

namespace CritPath.LockTable

open Lib Containers CompactHashMap

abbrev WaitId := BitVec 64

/-- A reference to the value at a position of the array that the map had at that time. -/
structure Ref where
  storage : ℕ
  pos : ℕ
  deriving DecidableEq

inductive Place
  | user
  /-- In `mutex_acquired`, with a copy of the pointer, before `first.lock()`. -/
  | locking (waitId : WaitId) (record : Option ℕ)
  /-- In `mutex_released`, before `OmpHappensBefore(&Lock->second)`. -/
  | signalling (waitId : WaitId) (lock : Ref)
  /-- In `mutex_released`, before `Lock->first.unlock()`. -/
  | unlocking (waitId : WaitId) (lock : Ref)
  deriving DecidableEq

structure Use where
  waitId : WaitId
  record : Option ℕ
  deriving DecidableEq

/-- `storage` numbers the arrays of the map, `created` lists the wait ids in the order in which
their records were made, and `owner` says which thread was told last that it has the lock. -/
structure State (T : Type) where
  locks : CompactHashMap WaitId (Option ℕ) := {}
  storage : ℕ := 0
  created : List WaitId := []
  locked : ℕ → Bool := fun _ => false
  owner : WaitId → Option T := fun _ => none
  place : T → Place := fun _ => .user
  uses : List Use := []

/-- What a thread does without being interrupted by a section of another. -/
inductive Act (T : Type)
  /-- The locked section of `mutex_acquired`. -/
  | acquire (thread : T) (waitId : WaitId)
  | lock (thread : T)
  /-- The locked section of `mutex_released`. -/
  | release (thread : T) (waitId : WaitId)
  | signal (thread : T)
  | unlock (thread : T)
  deriving DecidableEq

def Act.thread {T : Type} : Act T → T
  | .acquire thread _ | .lock thread | .release thread _ | .signal thread | .unlock thread => thread

namespace State

variable {T : Type} [DecidableEq T]

def read (σ : State T) (lock : Ref) : Option ℕ :=
  if lock.storage = σ.storage then σ.locks.items[lock.pos]?.bind (·.second) else none

/-- The number of the array after room for one more entry. -/
def storageAfter (σ : State T) : ℕ :=
  if (σ.locks.reHash hash64 (σ.locks.size + 1)).1 then σ.storage + 1 else σ.storage

/-- `Locks.insert({wait_id, nullptr})`, and a new record if that was the first time. -/
def mutexAcquired (σ : State T) (thread : T) (waitId : WaitId) : State T :=
  match σ.locks.insert hash64 waitId none with
  | none => σ
  | some ((pos, false), locks) =>
    { σ with
      locks := locks
      place := Function.update σ.place thread
        (.locking waitId (locks.items[pos]?.bind (·.second))) }
  | some ((pos, true), locks) =>
    let locks := locks.assign pos (some σ.created.length)
    { σ with
      locks := locks
      storage := σ.storageAfter
      created := σ.created ++ [waitId]
      place := Function.update σ.place thread
        (.locking waitId (locks.items[pos]?.bind (·.second))) }

/-- `auto &Lock = Locks[wait_id]`. -/
def mutexReleased (σ : State T) (thread : T) (waitId : WaitId) : State T :=
  match σ.locks.index hash64 waitId with
  | none => σ
  | some (pos, locks) =>
    let storage := if locks.size = σ.locks.size then σ.storage else σ.storageAfter
    { σ with
      locks := locks
      storage := storage
      owner := Function.update σ.owner waitId none
      place := Function.update σ.place thread (.signalling waitId ⟨storage, pos⟩) }

def step (σ : State T) : Act T → State T
  | .acquire thread waitId => σ.mutexAcquired thread waitId
  | .lock thread =>
    match σ.place thread with
    | .locking waitId (some record) =>
      { σ with
        locked := Function.update σ.locked record true
        owner := Function.update σ.owner waitId (some thread)
        place := Function.update σ.place thread .user }
    | _ => σ
  | .release thread waitId => σ.mutexReleased thread waitId
  | .signal thread =>
    match σ.place thread with
    | .signalling waitId lock =>
      { σ with
        uses := σ.uses ++ [⟨waitId, σ.read lock⟩]
        place := Function.update σ.place thread (.unlocking waitId lock) }
    | _ => σ
  | .unlock thread =>
    match σ.place thread with
    | .unlocking waitId lock =>
      { σ with
        uses := σ.uses ++ [⟨waitId, σ.read lock⟩]
        locked := match σ.read lock with
          | some record => Function.update σ.locked record false
          | none => σ.locked
        place := Function.update σ.place thread .user }
    | _ => σ

/-- A mutex is locked while it is free, and a lock is released by the thread that was told to have
it. -/
def Allowed (σ : State T) : Act T → Prop
  | .acquire thread _ => σ.place thread = .user
  | .lock thread => ∃ waitId record, σ.place thread = .locking waitId (some record) ∧
      σ.locked record = false
  | .release thread waitId => σ.place thread = .user ∧ σ.owner waitId = some thread
  | .signal thread => ∃ waitId lock, σ.place thread = .signalling waitId lock
  | .unlock thread => ∃ waitId lock, σ.place thread = .unlocking waitId lock

/-- `Allowed` without what the runtime and the mutex ensure. -/
def Ready (σ : State T) : Act T → Prop
  | .acquire thread _ => σ.place thread = .user
  | .lock thread => ∃ waitId record, σ.place thread = .locking waitId (some record)
  | .release thread waitId => σ.place thread = .user ∧ waitId ∈ σ.created
  | .signal thread => ∃ waitId lock, σ.place thread = .signalling waitId lock
  | .unlock thread => ∃ waitId lock, σ.place thread = .unlocking waitId lock

instance Allowed.decidable (σ : State T) : ∀ act, Decidable (σ.Allowed act)
  | .acquire thread _ => inferInstanceAs (Decidable (σ.place thread = .user))
  | .release thread waitId =>
    inferInstanceAs (Decidable (σ.place thread = .user ∧ σ.owner waitId = some thread))
  | .lock thread =>
    match hp : σ.place thread with
    | .locking _ (some record) =>
      if hr : σ.locked record = false then .isTrue ⟨_, _, hp, hr⟩
      else .isFalse fun ⟨_, _, hp', hr'⟩ => by rw [hp] at hp'; cases hp'; exact hr hr'
    | .locking _ none | .user | .signalling _ _ | .unlocking _ _ =>
      .isFalse fun ⟨_, _, hp', _⟩ => by rw [hp] at hp'; cases hp'
  | .signal thread =>
    match hp : σ.place thread with
    | .signalling _ _ => .isTrue ⟨_, _, hp⟩
    | .user | .locking _ _ | .unlocking _ _ =>
      .isFalse fun ⟨_, _, hp'⟩ => by rw [hp] at hp'; cases hp'
  | .unlock thread =>
    match hp : σ.place thread with
    | .unlocking _ _ => .isTrue ⟨_, _, hp⟩
    | .user | .locking _ _ | .signalling _ _ =>
      .isFalse fun ⟨_, _, hp'⟩ => by rw [hp] at hp'; cases hp'

end State

def machine (T : Type) [DecidableEq T] : Machine (State T) (Act T) where
  step := State.step
  guard := State.Allowed

instance (T : Type) [DecidableEq T] (σ : State T) (act : Act T) :
    Decidable ((machine T).guard σ act) :=
  inferInstanceAs (Decidable (σ.Allowed act))

/-! ## The property -/

def State.CreatedFor {T : Type} (σ : State T) (record : Option ℕ) (waitId : WaitId) : Prop :=
  ∃ r, record = some r ∧ σ.created[r]? = some waitId

/-- Every use was a use of the one record that was made for the lock. -/
structure State.UsesRight {T : Type} (σ : State T) : Prop where
  once : σ.created.Nodup
  right : ∀ u ∈ σ.uses, σ.CreatedFor u.record u.waitId

def Place.ref : Place → Option (WaitId × Ref)
  | .signalling waitId lock | .unlocking waitId lock => some (waitId, lock)
  | _ => none

def State.Quiet {T : Type} (σ : State T) : Prop := ∀ thread, (σ.place thread).ref = none

/-- A lock that is new to a full table comes while no release is under way. -/
def State.GrowsQuietly {T : Type} (σ : State T) : Act T → Prop
  | .acquire _ waitId => waitId ∉ σ.created → σ.locks.size = σ.locks.capacity → σ.Quiet
  | _ => True

instance {T : Type} [Fintype T] (σ : State T) (act : Act T) : Decidable (σ.GrowsQuietly act) := by
  unfold State.GrowsQuietly State.Quiet
  split <;> infer_instance

/-! ## The table and the list of its wait ids -/

def records (created : List WaitId) : Contents WaitId (Option ℕ) :=
  created.mapIdx fun i waitId => (waitId, some i)

section
variable {created : List WaitId} {waitId : WaitId} {locks : CompactHashMap WaitId (Option ℕ)}

theorem records_concat (created : List WaitId) (waitId : WaitId) :
    records (created ++ [waitId]) = records created ++ [(waitId, some created.length)] := by
  simp [records, List.mapIdx_concat]

@[simp] theorem length_records : (records created).length = created.length := by simp [records]

theorem keys_records : (records created).map Prod.fst = created := by
  refine List.ext_getElem? fun i => ?_
  simp [records, Function.comp_def]

theorem position_lt (h : waitId ∈ created) :
    (records created).position waitId < (records created).length := by
  rw [Contents.position_lt_iff, keys_records]
  exact h

theorem getElem?_records (created : List WaitId) (i : ℕ) :
    (records created)[i]? = created[i]?.map fun waitId => (waitId, some i) := by
  simp [records]

theorem created_at (h : waitId ∈ created) :
    created[(records created).position waitId]? = some waitId := by
  obtain ⟨v, hv⟩ := Contents.key_at_position (position_lt h)
  rw [getElem?_records] at hv
  obtain ⟨w, hw, heq⟩ := Option.map_eq_some_iff.mp hv
  rw [hw, (Prod.mk.inj heq).1]

theorem second_eq (h : Represents hash64 locks (records created)) {i : ℕ}
    (hi : created[i]? = some waitId) : locks.items[i]?.bind (·.second) = some i := by
  have hl := h.getElem? i
  rw [getElem?_records, hi, Option.map_some] at hl
  obtain ⟨it, hit, heq⟩ := Option.map_eq_some_iff.mp hl.symm
  rw [hit]
  exact congrArg Prod.snd heq

theorem represents_emplace (h : Represents hash64 locks (records created))
    (hnew : waitId ∉ created) :
    locks.insert hash64 waitId none =
        some ((created.length, true), locks.emplace hash64 waitId none) ∧
      Represents hash64
        ((locks.emplace hash64 waitId none).assign created.length (some created.length))
        (records (created ++ [waitId])) := by
  have hpos : ¬ (records created).position waitId < (records created).length := by
    rw [Contents.position_lt_iff, keys_records]
    exact hnew
  have hins := h.insert_absent hpos none
  have hrep := h.emplace_assign hpos none (some created.length)
  rw [length_records] at hins hrep
  exact ⟨hins, by rwa [records_concat]⟩

end

namespace State

variable {T : Type} [DecidableEq T] {σ : State T}

/-! ## What the locked sections do -/

omit [DecidableEq T] in
theorem storageAfter_eq (h : Represents hash64 σ.locks (records σ.created)) :
    σ.storageAfter =
      if σ.locks.size = σ.locks.capacity then σ.storage + 1 else σ.storage := by
  unfold storageAfter
  simp only [reHash_succ_fst h.chained.size_le]

theorem mutexAcquired_known (h : Represents hash64 σ.locks (records σ.created)) (thread : T)
    {waitId : WaitId} (hmem : waitId ∈ σ.created) :
    ∃ r, σ.created[r]? = some waitId ∧
      σ.mutexAcquired thread waitId =
        { σ with place := Function.update σ.place thread (.locking waitId (some r)) } := by
  refine ⟨_, created_at hmem, ?_⟩
  have hins := h.insert_present (position_lt hmem) none
  simp only [mutexAcquired, hins, second_eq h (created_at hmem)]

/-- A new lock: a record is made and the table may grow. -/
theorem mutexAcquired_new (h : Represents hash64 σ.locks (records σ.created)) (thread : T)
    {waitId : WaitId} (hnew : waitId ∉ σ.created) :
    ∃ locks, Represents hash64 locks (records (σ.created ++ [waitId])) ∧
      σ.mutexAcquired thread waitId =
        { σ with
          locks := locks
          storage := σ.storageAfter
          created := σ.created ++ [waitId]
          place := Function.update σ.place thread (.locking waitId (some σ.created.length)) } := by
  obtain ⟨hins, hrep⟩ := represents_emplace h hnew
  refine ⟨_, hrep, ?_⟩
  have hlast : (σ.created ++ [waitId])[σ.created.length]? = some waitId := by simp
  simp only [mutexAcquired, hins, second_eq hrep hlast]

theorem mutexReleased_known (h : Represents hash64 σ.locks (records σ.created)) (thread : T)
    {waitId : WaitId} (hmem : waitId ∈ σ.created) :
    ∃ pos, σ.created[pos]? = some waitId ∧
      σ.mutexReleased thread waitId =
        { σ with
          owner := Function.update σ.owner waitId none
          place := Function.update σ.place thread (.signalling waitId ⟨σ.storage, pos⟩) } := by
  refine ⟨_, created_at hmem, ?_⟩
  have hidx := h.index_present (position_lt hmem)
  simp only [mutexReleased, hidx, if_true]

/-! ## Every run -/

/-- The record that a thread has copied, or the reference that it holds, belongs to its lock. -/
def Belongs (created : List WaitId) (storage : ℕ) : Place → Prop
  | .user => True
  | .locking waitId record => ∃ r, record = some r ∧ created[r]? = some waitId
  | .signalling waitId lock | .unlocking waitId lock =>
    created[lock.pos]? = some waitId ∧ lock.storage ≤ storage

/-- A reference into an array that has been replaced. -/
def Stale (storage : ℕ) (place : Place) : Prop :=
  ∃ waitId lock, place.ref = some (waitId, lock) ∧ lock.storage < storage

/-- The table holds the record of every lock that was acquired. -/
structure Inv (σ : State T) : Prop where
  table : Represents hash64 σ.locks (records σ.created)
  places : ∀ thread, Belongs σ.created σ.storage (σ.place thread)
  owned : ∀ waitId thread, σ.owner waitId = some thread → waitId ∈ σ.created

omit [DecidableEq T] in
theorem inv_init : Inv ({} : State T) where
  table := represents_empty hash64
  places := fun _ => trivial
  owned := by simp

omit [DecidableEq T] in
theorem storage_le (σ : State T) : σ.storage ≤ σ.storageAfter := by
  unfold storageAfter
  split <;> omega

theorem Belongs.mono {created : List WaitId} {storage storage' : ℕ} {place : Place}
    (new : List WaitId) (hle : storage ≤ storage') (h : Belongs created storage place) :
    Belongs (created ++ new) storage' place := by
  have hget : ∀ {i : ℕ} {w : WaitId}, created[i]? = some w → (created ++ new)[i]? = some w :=
    fun hi => by rw [List.getElem?_append_left (List.getElem?_eq_some_iff.mp hi).1, hi]
  cases place with
  | user => trivial
  | locking waitId record =>
    obtain ⟨r, hr, hw⟩ := h
    exact ⟨r, hr, hget hw⟩
  | signalling waitId lock => exact ⟨hget h.1, h.2.trans hle⟩
  | unlocking waitId lock => exact ⟨hget h.1, h.2.trans hle⟩

theorem Belongs.of_ref {created : List WaitId} {storage : ℕ} {place : Place} {waitId : WaitId}
    {lock : Ref} (h : Belongs created storage place) (href : place.ref = some (waitId, lock)) :
    created[lock.pos]? = some waitId ∧ lock.storage ≤ storage := by
  cases place with
  | user | locking _ _ => cases href
  | signalling _ _ | unlocking _ _ =>
    cases href
    exact h

theorem places_update {created : List WaitId} {storage : ℕ} {place : T → Place} {thread : T}
    {new : Place} (h : ∀ thread, Belongs created storage (place thread))
    (hnew : Belongs created storage new) :
    ∀ thread', Belongs created storage (Function.update place thread new thread') :=
  (Function.forall_update_iff place (p := fun _ => Belongs created storage)).mpr
    ⟨hnew, fun thread' _ => h thread'⟩

omit [DecidableEq T] in
theorem Inv.ready {act : Act T} (h : σ.Inv) (hal : σ.Allowed act) : σ.Ready act := by
  cases act with
  | lock thread =>
    obtain ⟨waitId, record, hplace, -⟩ := hal
    exact ⟨waitId, record, hplace⟩
  | release thread waitId => exact ⟨hal.1, h.owned _ _ hal.2⟩
  | acquire _ _ | signal _ | unlock _ => exact hal

theorem Inv.step {act : Act T} (h : σ.Inv) (hal : σ.Ready act) : (σ.step act).Inv := by
  cases act with
  | acquire thread waitId =>
    show (σ.mutexAcquired thread waitId).Inv
    by_cases hmem : waitId ∈ σ.created
    · obtain ⟨r, hr, heq⟩ := mutexAcquired_known h.table thread hmem
      rw [heq]
      exact ⟨h.table, places_update h.places ⟨r, rfl, hr⟩, h.owned⟩
    · obtain ⟨locks, hrep, heq⟩ := mutexAcquired_new h.table thread hmem
      have hold := fun thread' => (h.places thread').mono [waitId] σ.storage_le
      rw [heq]
      refine ⟨hrep, places_update hold ⟨_, rfl, by simp⟩, fun w t hw => ?_⟩
      exact List.mem_append_left _ (h.owned w t hw)
  | lock thread =>
    obtain ⟨waitId, record, hplace⟩ := hal
    have hbelongs := h.places thread
    rw [hplace] at hbelongs
    obtain ⟨r, hr, hw⟩ := hbelongs
    simp only [State.step, hplace]
    refine ⟨h.table, places_update h.places trivial, ?_⟩
    refine (Function.forall_update_iff σ.owner
      (p := fun w o => ∀ t, o = some t → w ∈ σ.created)).mpr ⟨fun t _ => ?_, fun w _ => h.owned w⟩
    exact List.mem_of_getElem? hw
  | release thread waitId =>
    obtain ⟨pos, hpos, heq⟩ := mutexReleased_known h.table thread hal.2
    show (σ.mutexReleased thread waitId).Inv
    rw [heq]
    refine ⟨h.table, places_update h.places ⟨hpos, Nat.le_refl _⟩, ?_⟩
    exact (Function.forall_update_iff σ.owner
      (p := fun w o => ∀ t, o = some t → w ∈ σ.created)).mpr ⟨by simp, fun w _ => h.owned w⟩
  | signal thread =>
    obtain ⟨waitId, lock, hplace⟩ := hal
    have hbelongs := h.places thread
    rw [hplace] at hbelongs
    simp only [State.step, hplace]
    exact ⟨h.table, places_update h.places hbelongs, h.owned⟩
  | unlock thread =>
    obtain ⟨waitId, lock, hplace⟩ := hal
    simp only [State.step, hplace]
    exact ⟨h.table, places_update h.places trivial, h.owned⟩

structure Frame (thread : T) (σ σ' : State T) : Prop where
  storage : σ.storage ≤ σ'.storage
  uses : σ.uses ⊆ σ'.uses
  created : σ.created ⊆ σ'.created
  place : ∀ t, t ≠ thread → σ'.place t = σ.place t

theorem step_frame {act : Act T} (h : σ.Inv) (hal : σ.Ready act) :
    Frame act.thread σ (σ.step act) := by
  cases act with
  | acquire thread waitId =>
    show Frame thread σ (σ.mutexAcquired thread waitId)
    by_cases hmem : waitId ∈ σ.created
    · obtain ⟨r, -, heq⟩ := mutexAcquired_known h.table thread hmem
      rw [heq]
      exact ⟨Nat.le_refl _, fun _ hu => hu, fun _ hw => hw,
        fun t ht => Function.update_of_ne ht _ _⟩
    · obtain ⟨locks, -, heq⟩ := mutexAcquired_new h.table thread hmem
      rw [heq]
      exact ⟨σ.storage_le, fun _ hu => hu, fun _ hw => List.mem_append_left _ hw,
        fun t ht => Function.update_of_ne ht _ _⟩
  | lock thread =>
    obtain ⟨waitId, record, hplace⟩ := hal
    simp only [State.step, hplace]
    exact ⟨Nat.le_refl _, fun _ hu => hu, fun _ hw => hw,
      fun t ht => Function.update_of_ne ht _ _⟩
  | release thread waitId =>
    obtain ⟨pos, -, heq⟩ := mutexReleased_known h.table thread hal.2
    show Frame thread σ (σ.mutexReleased thread waitId)
    rw [heq]
    exact ⟨Nat.le_refl _, fun _ hu => hu, fun _ hw => hw,
      fun t ht => Function.update_of_ne ht _ _⟩
  | signal thread | unlock thread =>
    obtain ⟨waitId, lock, hplace⟩ := hal
    simp only [State.step, hplace]
    exact ⟨Nat.le_refl _, fun _ hu => List.mem_append_left _ hu, fun _ hw => hw,
      fun t ht => Function.update_of_ne ht _ _⟩

theorem place_acquire (h : σ.Inv) (thread : T) (waitId : WaitId) :
    ∃ r, (σ.step (.acquire thread waitId)).place thread = .locking waitId (some r) := by
  by_cases hmem : waitId ∈ σ.created
  · obtain ⟨r, -, heq⟩ := mutexAcquired_known h.table thread hmem
    exact ⟨r, by simp [State.step, heq]⟩
  · obtain ⟨locks, -, heq⟩ := mutexAcquired_new h.table thread hmem
    exact ⟨σ.created.length, by simp [State.step, heq]⟩

theorem place_release (h : σ.Inv) (thread : T) {waitId : WaitId} (hmem : waitId ∈ σ.created) :
    ∃ lock, (σ.step (.release thread waitId)).place thread = .signalling waitId lock := by
  obtain ⟨pos, -, heq⟩ := mutexReleased_known h.table thread hmem
  exact ⟨⟨σ.storage, pos⟩, by simp [State.step, heq]⟩

/-- Every reference points into the present array, and every use was right. -/
structure Good (σ : State T) : Prop extends Inv σ where
  fresh : ∀ thread, ¬ Stale σ.storage (σ.place thread)
  right : ∀ u ∈ σ.uses, σ.CreatedFor u.record u.waitId

/-- A read through a stale reference has happened or is about to happen. -/
structure Lost (σ : State T) : Prop extends Inv σ where
  lost : (∃ u ∈ σ.uses, u.record = none) ∨ ∃ thread, Stale σ.storage (σ.place thread)

omit [DecidableEq T] in
theorem read_eq (h : Represents hash64 σ.locks (records σ.created)) {waitId : WaitId} {lock : Ref}
    (hpos : σ.created[lock.pos]? = some waitId) (hs : lock.storage = σ.storage) :
    σ.read lock = some lock.pos := by
  rw [read, if_pos hs, second_eq h hpos]

omit [DecidableEq T] in
theorem read_stale {lock : Ref} (hs : lock.storage < σ.storage) : σ.read lock = none :=
  if_neg (Nat.ne_of_lt hs)

theorem not_stale_of_ref {storage : ℕ} {place : Place} (h : place.ref = none) :
    ¬ Stale storage place := by
  rintro ⟨waitId, lock, href, -⟩
  rw [h] at href
  cases href

theorem fresh_update {storage : ℕ} {place : T → Place} {thread : T} {new : Place}
    (h : ∀ thread, ¬ Stale storage (place thread)) (hnew : ¬ Stale storage new) :
    ∀ thread', ¬ Stale storage (Function.update place thread new thread') :=
  (Function.forall_update_iff place (p := fun _ q => ¬ Stale storage q)).mpr
    ⟨hnew, fun thread' _ => h thread'⟩

omit [DecidableEq T] in
/-- A use through a reference into the present array is a use of the record of the lock. -/
theorem Good.use (h : σ.Good) {waitId : WaitId} {lock : Ref} {thread : T}
    (href : (σ.place thread).ref = some (waitId, lock)) :
    ∀ u ∈ σ.uses ++ [⟨waitId, σ.read lock⟩], σ.CreatedFor u.record u.waitId := by
  have hb := (h.places thread).of_ref href
  have hs : lock.storage = σ.storage := by
    refine Nat.le_antisymm hb.2 (Nat.not_lt.mp fun hlt => ?_)
    exact h.fresh thread ⟨waitId, lock, href, hlt⟩
  rw [List.forall_mem_append, List.forall_mem_singleton, read_eq h.table hb.1 hs]
  exact ⟨h.right, lock.pos, rfl, hb.1⟩

/-- The step lemma: as long as the table grows quietly, every use is right. -/
theorem Good.step {act : Act T} (h : σ.Good) (hal : σ.Ready act) (hq : σ.GrowsQuietly act) :
    (σ.step act).Good := by
  have hinv := h.toInv.step hal
  cases act with
  | acquire thread waitId =>
    change (σ.mutexAcquired thread waitId).Inv at hinv
    show (σ.mutexAcquired thread waitId).Good
    by_cases hmem : waitId ∈ σ.created
    · obtain ⟨r, -, heq⟩ := mutexAcquired_known h.table thread hmem
      rw [heq] at hinv ⊢
      exact ⟨hinv, fresh_update h.fresh (not_stale_of_ref rfl), h.right⟩
    · obtain ⟨locks, -, heq⟩ := mutexAcquired_new h.table thread hmem
      have hfresh : ∀ thread, ¬ Stale σ.storageAfter (σ.place thread) := by
        rw [storageAfter_eq h.table]
        split
        · exact fun thread => not_stale_of_ref (hq hmem ‹_› thread)
        · exact h.fresh
      rw [heq] at hinv ⊢
      refine ⟨hinv, fresh_update hfresh (not_stale_of_ref rfl), fun u hu => ?_⟩
      obtain ⟨r, hr, hw⟩ := h.right u hu
      refine ⟨r, hr, ?_⟩
      rw [List.getElem?_append_left (List.getElem?_eq_some_iff.mp hw).1, hw]
  | lock thread =>
    obtain ⟨waitId, record, hplace⟩ := hal
    simp only [State.step, hplace] at hinv ⊢
    exact ⟨hinv, fresh_update h.fresh (not_stale_of_ref rfl), h.right⟩
  | release thread waitId =>
    obtain ⟨pos, -, heq⟩ := mutexReleased_known h.table thread hal.2
    change (σ.mutexReleased thread waitId).Inv at hinv
    show (σ.mutexReleased thread waitId).Good
    rw [heq] at hinv ⊢
    refine ⟨hinv, fresh_update h.fresh ?_, h.right⟩
    rintro ⟨w, lock, href, hlt⟩
    cases href
    exact Nat.lt_irrefl _ hlt
  | signal thread =>
    obtain ⟨waitId, lock, hplace⟩ := hal
    have huse := h.use (congrArg Place.ref hplace)
    have hstale := h.fresh thread
    rw [hplace] at hstale
    simp only [State.step, hplace] at hinv ⊢
    exact ⟨hinv, fresh_update h.fresh hstale, huse⟩
  | unlock thread =>
    obtain ⟨waitId, lock, hplace⟩ := hal
    have huse := h.use (congrArg Place.ref hplace)
    simp only [State.step, hplace] at hinv ⊢
    exact ⟨hinv, fresh_update h.fresh (not_stale_of_ref rfl), huse⟩

/-- Growth while a release is under way leaves a stale reference behind. -/
theorem Good.lost {act : Act T} (h : σ.Good) (hal : σ.Allowed act) (hq : ¬ σ.GrowsQuietly act) :
    (σ.step act).Lost := by
  refine ⟨h.toInv.step (h.ready hal), .inr ?_⟩
  have hframe := (step_frame h.toInv (h.ready hal)).place
  cases act with
  | acquire thread waitId =>
    simp only [GrowsQuietly, Quiet, Classical.not_imp, not_forall] at hq
    obtain ⟨hnew, hfull, thread', href⟩ := hq
    obtain ⟨⟨w, lock⟩, href⟩ := Option.ne_none_iff_exists'.mp href
    have hne : thread' ≠ thread := by
      rintro rfl
      rw [show σ.place thread' = .user from hal] at href
      cases href
    have hle := ((h.places thread').of_ref href).2
    refine ⟨thread', w, lock, by rw [hframe thread' hne, href], ?_⟩
    obtain ⟨locks, -, heq⟩ := mutexAcquired_new h.table thread hnew
    show _ < (σ.mutexAcquired thread waitId).storage
    rw [heq]
    show _ < σ.storageAfter
    rw [storageAfter_eq h.table, if_pos hfull]
    omega
  | lock _ | release _ _ | signal _ | unlock _ => exact absurd trivial hq

theorem stale_use {act : Act T} (hal : σ.Allowed act) {waitId : WaitId} {lock : Ref}
    (href : (σ.place act.thread).ref = some (waitId, lock)) (hlt : lock.storage < σ.storage) :
    ⟨waitId, none⟩ ∈ (σ.step act).uses := by
  cases act with
  | acquire thread _ =>
    rw [Act.thread, show σ.place thread = .user from hal] at href
    cases href
  | lock thread =>
    obtain ⟨_, _, hp, -⟩ := hal
    rw [Act.thread, hp] at href
    cases href
  | release thread _ =>
    rw [Act.thread, hal.1] at href
    cases href
  | signal thread | unlock thread =>
    obtain ⟨_, _, hp⟩ := hal
    rw [Act.thread, hp] at href
    cases href
    simp [State.step, hp, read_stale hlt]

/-- Nothing brings the replaced array back. -/
theorem Lost.step {act : Act T} (h : σ.Lost) (hal : σ.Allowed act) : (σ.step act).Lost := by
  obtain ⟨hle, huses, -, hplace⟩ := step_frame h.toInv (h.ready hal)
  refine ⟨h.toInv.step (h.ready hal), ?_⟩
  rcases h.lost with ⟨u, hu, hnone⟩ | ⟨thread, waitId, lock, href, hlt⟩
  · exact .inl ⟨u, huses hu, hnone⟩
  · by_cases hthread : thread = act.thread
    · -- the thread with the stale reference acts, so it reads through it
      rw [hthread] at href
      exact .inl ⟨_, stale_use hal href hlt, rfl⟩
    · exact .inr ⟨thread, waitId, lock, by rw [hplace thread hthread, href], hlt.trans_le hle⟩

end State

theorem good_init {T : Type} : State.Good ({} : State T) :=
  ⟨State.inv_init, fun _ => State.not_stale_of_ref rfl, by simp⟩

/-- In every run of threads that acquire and release locks: if the table grows only while no
`mutex_released` is between its locked section and its last read, every use is a use of the one
record made for the lock. A run that ends with no release under way and in which all uses were
right is such a run. -/
theorem release_uses_own_record {T : Type} [DecidableEq T] (acts : List (Act T))
    (hv : (machine T).Valid {} acts) :
    ((machine T).Along State.GrowsQuietly {} acts → ((machine T).run {} acts).UsesRight) ∧
      (((machine T).run {} acts).Quiet →
        ((machine T).run {} acts).UsesRight → (machine T).Along State.GrowsQuietly {} acts) := by
  constructor
  · intro hq
    have hgood := (Machine.along_and.mpr ⟨hv, hq⟩).inv (I := State.Good)
      (fun σ act h hp => h.step (h.ready hp.1) hp.2) good_init
    exact ⟨by simpa [keys_records] using hgood.table.nodup, hgood.right⟩
  · intro hquiet hright
    refine hv.of_not_bad (I := State.Good) (B := State.Lost)
      (fun σ act h hal hq => h.step (h.ready hal) hq) (fun σ act h hal hq => h.lost hal hq)
      (fun σ act h hal => h.step hal) good_init fun hlost => ?_
    rcases hlost.lost with ⟨u, hu, hnone⟩ | ⟨thread, hstale⟩
    · obtain ⟨r, hr, -⟩ := hright.right u hu
      rw [hnone] at hr
      cases hr
    · exact State.not_stale_of_ref (hquiet thread) hstale

/-- A thread takes `n` locks, from the one with wait id `i` on. -/
def hold (thread : Bool) (i n : ℕ) : List (Act Bool) :=
  (List.range' i n).flatMap fun i => [.acquire thread (BitVec.ofNat 64 i), .lock thread]

/-- A lock is released before and another one after the table has grown for the seventeenth. -/
theorem release_uses_own_record_regrown :
    let acts := hold false 0 16 ++ [.release false 0, .signal false, .unlock false] ++
      hold true 16 1 ++ [.release false 5, .signal false, .unlock false]
    ((machine Bool).run {} acts).storage = 2 ∧ ((machine Bool).run {} acts).UsesRight := by
  intro acts
  exact ⟨by decide +kernel,
    (release_uses_own_record acts (by decide +kernel)).1 (by decide +kernel)⟩

/-- A thread holds sixteen locks and releases the first; before it signals, another thread acquires
a seventeenth. -/
def overtaken : List (Act Bool) :=
  hold false 0 16 ++ [.release false 0, .acquire true 16, .signal false, .unlock false]

/-- The signal and the unlock read the array that the table had before it grew. -/
theorem overtaken_uses_replaced_storage :
    (machine Bool).Valid {} overtaken ∧
    ((machine Bool).run {} overtaken).uses = [⟨0, none⟩, ⟨0, none⟩] ∧
      ¬ ((machine Bool).run {} overtaken).UsesRight := by
  have huses : ((machine Bool).run {} overtaken).uses = [⟨0, none⟩, ⟨0, none⟩] := by decide +kernel
  refine ⟨by decide +kernel, huses, fun h => ?_⟩
  obtain ⟨r, hr, -⟩ := h.right ⟨0, none⟩ (by rw [huses]; exact List.mem_cons_self)
  cases hr

end CritPath.LockTable
