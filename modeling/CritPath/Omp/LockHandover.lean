import CritPath.Clock.SyncClock
import CritPath.Omp.LockTable

/-!
# Locks handed from thread to thread

The runtime reports the release of a lock after it has released it, so the next
owner may be told that it has the lock before `mutex_released` of the last one has
signalled. The mutex in the record of a lock makes up for that:
`mutex_acquired` locks it and `mutex_released` unlocks it after its signal.

Steps of the callbacks interleave in any way that the mutexes permit. The record
that `mutex_released` signals and unlocks is the one that its reference into the
table reads (`CritPath.Omp.LockTable`), so the results ask that the table does not
grow while such a reference is held.

`takes` and `signals` record what happens to a lock; nothing of the tool reads them.
-/

namespace CritPath.LockHandover

open Lib
open LockTable (WaitId)

/-- A lock of the runtime with its record. -/
structure LockRecord (T : Type) where
  owner : Option T := none
  /-- The thread that has locked the mutex of the record. -/
  inner : Option T := none
  sync : SyncClock := .fresh
  takes : ℕ := 0
  signals : List ThreadClock := []

inductive Place where
  | user
  /-- Behind `mutex_acquire`. -/
  | asked (w : WaitId)
  /-- In `mutex_acquired`, before `LocksMutex.lock()`. -/
  | entering (w : WaitId)
  /-- In `mutex_acquired`, before `first.lock()` has returned. -/
  | locking (w : WaitId)
  /-- In `mutex_acquired`, before `OmpHappensAfter`. -/
  | merging (w : WaitId)
  /-- In `mutex_released`, before `LocksMutex.lock()`. -/
  | leaving (w : WaitId)
  /-- In `mutex_released`, before `OmpHappensBefore` has returned. -/
  | signalling (w : WaitId)
  /-- In `mutex_released`, before `first.unlock()`. -/
  | unlocking (w : WaitId)
  deriving DecidableEq

structure State (T : Type) where
  clock : T → ThreadClock := fun _ => .new
  lock : WaitId → LockRecord T := fun _ => {}
  place : T → Place := fun _ => .user
  table : LockTable.State T := {}

inductive Label (T : Type) where
  | other (t : T) (c : ThreadClock)
  /-- `mutex_acquire`. -/
  | acquire (t : T) (w : WaitId) (time : ℚ)
  /-- The runtime gives the lock to the thread and calls `mutex_acquired`. -/
  | take (t : T) (w : WaitId)
  /-- The runtime releases the lock and calls `mutex_released`. -/
  | drop (t : T) (w : WaitId) (time : ℚ)
  | step (t : T) (time : ℚ)

inductive Stage where
  | away
  | entering
  | merging
  | leaving
  | signalled
  deriving DecidableEq

@[simp] def Place.stage (w : WaitId) : Place → Stage
  | .entering w' | .locking w' => if w = w' then .entering else .away
  | .merging w' => if w = w' then .merging else .away
  | .leaving w' | .signalling w' => if w = w' then .leaving else .away
  | .unlocking w' => if w = w' then .signalled else .away
  | .user | .asked _ => .away

section
variable {T : Type} [DecidableEq T]

namespace State

def setPlace (σ : State T) (t : T) (p : Place) : State T :=
  { σ with place := Function.update σ.place t p }

def setClock (σ : State T) (t : T) (c : ThreadClock) : State T :=
  { σ with clock := Function.update σ.clock t c }

def setLock (σ : State T) (w : WaitId) (r : LockRecord T) : State T :=
  { σ with lock := Function.update σ.lock w r }

def setTable (σ : State T) (act : LockTable.Act T) : State T :=
  { σ with table := σ.table.step act }

/-- The lock whose record the reference of the thread reads. -/
def reached (σ : State T) (t : T) : Option WaitId := do
  let (_, ref) ← (σ.table.place t).ref
  σ.table.created[← σ.table.read ref]?

/-- Works on the record that `mutex_released` reaches: freed storage leads to none. -/
def setReached (σ : State T) (t : T) (f : LockRecord T → LockRecord T) : State T :=
  match σ.reached t with
  | some w => σ.setLock w (f (σ.lock w))
  | none => σ

/-- The next step of a callback. -/
def advance (σ : State T) (t : T) (time : ℚ) : State T :=
  match σ.place t with
  | .user | .asked _ => σ
  | .entering w => (σ.setTable (.acquire t w)).setPlace t (.locking w)
  | .locking w =>
    ((σ.setLock w { σ.lock w with inner := some t }).setTable (.lock t)).setPlace t (.merging w)
  | .merging w =>
    let r := (σ.lock w).sync.ompHAfter true (σ.clock t)
    ((σ.setLock w { σ.lock w with sync := r.1 }).setClock t (r.2.exitState true time time)).setPlace
      t .user
  | .leaving w => (σ.setTable (.release t w)).setPlace t (.signalling w)
  | .signalling w =>
    ((σ.setReached t fun r =>
      { r with
        sync := r.sync.ompHBefore true (σ.clock t)
        signals := σ.clock t :: r.signals }).setTable (.signal t)).setPlace t (.unlocking w)
  | .unlocking _ =>
    (((σ.setReached t fun r => { r with inner := none }).setTable (.unlock t)).setClock t
      ((σ.clock t).exitState true time time)).setPlace t .user

def next (σ : State T) : Label T → State T
  | .other t c => σ.setClock t c
  | .acquire t w time =>
    (σ.setClock t ((σ.clock t).enterState true time .omp time)).setPlace t (.asked w)
  | .take t w =>
    (σ.setLock w { σ.lock w with owner := some t, takes := (σ.lock w).takes + 1 }).setPlace t
      (.entering w)
  | .drop t w time =>
    ((σ.setLock w { σ.lock w with owner := none }).setClock t
      ((σ.clock t).enterState true time .omp time)).setPlace t (.leaving w)
  | .step t time => σ.advance t time

/-- Whether the thread's next step in a callback need not wait. -/
def Runs (σ : State T) (t : T) : Prop :=
  match σ.place t with
  | .user | .asked _ => False
  | .locking w => (σ.lock w).inner = none
  | _ => True

instance (σ : State T) (t : T) : Decidable (σ.Runs t) := by
  unfold Runs
  split <;> infer_instance

def Allowed (σ : State T) : Label T → Prop
  | .other t _ | .acquire t _ _ => σ.place t = .user
  | .take t w => σ.place t = .asked w ∧ (σ.lock w).owner = none
  | .drop t w _ => σ.place t = .user ∧ (σ.lock w).owner = some t
  | .step t _ => σ.Runs t

instance (σ : State T) (l : Label T) : Decidable (σ.Allowed l) := by
  unfold Allowed
  split <;> infer_instance

/-- The table grows while no `mutex_released` is between its look-up and its unlock. -/
def GrowsQuietly (σ : State T) : Label T → Prop
  | .step t _ =>
    match σ.place t with
    | .entering w => σ.table.GrowsQuietly (.acquire t w)
    | _ => True
  | _ => True

instance [Fintype T] (σ : State T) (l : Label T) : Decidable (σ.GrowsQuietly l) := by
  unfold GrowsQuietly
  split
  · split <;> infer_instance
  · infer_instance

end State

def machine (T : Type) [DecidableEq T] : Machine (State T) (Label T) where
  step := State.next
  guard := State.Allowed

instance (σ : State T) (l : Label T) : Decidable ((machine T).guard σ l) :=
  inferInstanceAs (Decidable (σ.Allowed l))

end

/-! ## One lock -/

section
variable {T : Type}

/-- The values of `c` for clock `i` and component `x`, over all `c` in the list. -/
def valuesOf (signals : List ThreadClock) (i : ClockType) (x : Comp) : Set ℚ :=
  {v | ∃ c ∈ signals, v = (c.clocks i).get x}

/-- Whether a thread at a stage has the lock and the mutex of its record. -/
def Fits (r : LockRecord T) (t : T) : Stage → Prop
  | .away => r.owner = some t ↔ r.inner = some t
  | .entering => r.owner = some t ∧ r.inner ≠ some t
  | .merging => r.owner = some t ∧ r.inner = some t
  | .leaving | .signalled => r.owner ≠ some t ∧ r.inner = some t

/-- The owner of the lock and the holder of the mutex, and what the sync clock has gathered. A
fresh sync clock counts as one that holds `0`. -/
structure LockInv (r : LockRecord T) (stage : T → Stage) : Prop where
  fits : ∀ t, Fits r t (stage t)
  used : ∀ t, r.inner = some t → stage t ≠ .merging → r.sync.syncState ≠ .init
  gathered : ∀ i, i ≠ .ogpu → ∀ x, x ≠ .thread →
    IsGreatest (insert 0 (valuesOf r.signals i x)) ((r.sync.clocks i).get x)
  count : r.takes = r.signals.length + (if r.owner.isSome then 1 else 0) +
    (if r.inner.any (stage · = .leaving) then 1 else 0)

namespace LockInv

variable {r r' : LockRecord T} {stage : T → Stage} {s : Stage} {t : T}

theorem start : LockInv ({} : LockRecord T) fun _ => .away where
  fits _ := Iff.rfl
  used _ h := by cases h
  gathered i _ x _ := by
    have hval : ((SyncClock.fresh.clocks i).get x : ℚ) = 0 := by cases x <;> rfl
    simp [valuesOf, hval, isGreatest_singleton]
  count := rfl

theorem any_update [DecidableEq T] {o : Option T} (ht : o ≠ some t) :
    o.any (Function.update stage t s · = .leaving) = o.any (stage · = .leaving) := by
  cases o with
  | none => rfl
  | some t' =>
    have hne : t' ≠ t := fun h => ht (congrArg some h)
    simp [hne]

variable (h : LockInv r stage)
include h

theorem fits_at (hs : stage t = s) : Fits r t s := hs ▸ h.fits t

variable [DecidableEq T]

/-- A step of `t` changes what the others have in neither the lock nor the mutex. -/
theorem fits_update
    (howner : ∀ t', t' ≠ t → (r'.owner = some t' ↔ r.owner = some t'))
    (hinner : ∀ t', t' ≠ t → (r'.inner = some t' ↔ r.inner = some t')) (ht : Fits r' t s) (t' : T) :
    Fits r' t' (Function.update stage t s t') := by
  by_cases hne : t' = t
  · subst hne
    simpa using ht
  · rw [Function.update_of_ne hne]
    have hf := h.fits t'
    generalize stage t' = s' at hf ⊢
    cases s' <;> simpa only [Fits, ne_eq, howner t' hne, hinner t' hne] using hf

/-- The last owner may still be on its way out. -/
theorem take (ho : r.owner = none) (hs : stage t = .away) :
    LockInv { r with owner := some t, takes := r.takes + 1 }
      (Function.update stage t .entering) := by
  have hin : r.inner ≠ some t := fun hi => by
    have := (h.fits_at hs).mpr hi
    simp [ho] at this
  refine ⟨h.fits_update (fun t' ht' => ?_) (fun _ _ => .rfl) ⟨rfl, hin⟩, fun t' hi hm => ?_,
    h.gathered, ?_⟩
  · simp [ho, ht'.symm]
  · have hne : t' ≠ t := fun heq => hin (heq ▸ hi)
    exact h.used t' hi (by rwa [Function.update_of_ne hne] at hm)
  · have hcount := h.count
    simp only [ho] at hcount
    simp only [any_update hin]
    simp [hcount]
    omega

theorem lock (hi : r.inner = none) (hs : stage t = .entering) :
    LockInv { r with inner := some t } (Function.update stage t .merging) := by
  have howner := (h.fits_at hs).1
  refine ⟨h.fits_update (fun _ _ => .rfl) (fun t' ht' => ?_) ⟨howner, rfl⟩, fun t' ht' hm => ?_,
    h.gathered, ?_⟩
  · simp [hi, ht'.symm]
  · cases ht'
    simp at hm
  · simpa [hi] using h.count

theorem merge (hs : stage t = .merging) {c : SyncClock}
    (hstate : c.syncState ≠ .init) (hclocks : c.clocks = r.sync.clocks) :
    LockInv { r with sync := c } (Function.update stage t .away) := by
  obtain ⟨ho, hi⟩ := h.fits_at hs
  refine ⟨h.fits_update (fun _ _ => .rfl) (fun _ _ => .rfl) (iff_of_true ho hi), fun _ _ _ => hstate,
    fun i hi x hx => ?_, ?_⟩
  · simpa only [hclocks] using h.gathered i hi x hx
  · simpa [hi, hs] using h.count

theorem drop (ho : r.owner = some t) (hs : stage t = .away) :
    LockInv { r with owner := none } (Function.update stage t .leaving) := by
  have hi := (h.fits_at hs).mp ho
  have hused := h.used t hi (by simp [hs])
  refine ⟨h.fits_update (fun t' ht' => ?_) (fun _ _ => .rfl) ⟨by simp, hi⟩, fun _ _ _ => hused,
    h.gathered, ?_⟩
  · simp [ho, ht'.symm]
  · simpa [hi, hs, ho] using h.count

/-- The sync clock is in use, so it takes the maximum. -/
theorem signal (hs : stage t = .leaving) (c : ThreadClock) :
    LockInv { r with sync := r.sync.ompHBefore true c, signals := c :: r.signals }
      (Function.update stage t .signalled) := by
  obtain ⟨ho, hi⟩ := h.fits_at hs
  have hused : r.sync.syncState ≠ .init := h.used t hi (by simp [hs])
  refine ⟨h.fits_update (fun _ _ => .rfl) (fun _ _ => .rfl) ⟨ho, hi⟩, fun _ _ _ => ?_,
    fun i hi x hx => ?_, ?_⟩
  · rwa [SyncClock.syncState_ompHBefore, if_neg hused]
  · have hset : insert 0 (valuesOf (c :: r.signals) i x) =
        insert ((c.clocks i).get x) (insert 0 (valuesOf r.signals i x)) := by
      ext v
      simp only [valuesOf, List.mem_cons, exists_eq_or_imp, Set.mem_insert_iff, Set.mem_ofPred_eq]
      tauto
    rw [hset, SyncClock.get_ompHBefore_later hused hi hx]
    exact isGreatest_insert_max (h.gathered i hi x hx) _
  · have hcount := h.count
    simp only [hi, Option.any_some, hs, decide_true, if_true] at hcount
    simp [hi, hcount]
    omega

theorem unlock (hs : stage t = .signalled) :
    LockInv { r with inner := none } (Function.update stage t .away) := by
  obtain ⟨ho, hi⟩ := h.fits_at hs
  refine ⟨h.fits_update (fun _ _ => .rfl) (fun t' ht' => ?_) (by simpa [Fits] using ho),
    fun _ hn _ => (nomatch hn), h.gathered, ?_⟩
  · simp [hi, ht'.symm]
  · simpa [hi, hs] using h.count

end LockInv

end

/-! ## All locks -/

section
variable {T : Type} [DecidableEq T] {σ : State T} {t : T} {p : Place} {w : WaitId}

/-- Where the table has a thread that stands at a place. -/
def Linked : Place → LockTable.Place → Prop
  | .locking w, q => ∃ record, q = .locking w (some record)
  | .signalling w, q => ∃ ref, q = .signalling w ref
  | .unlocking w, q => ∃ ref, q = .unlocking w ref
  | _, q => q = .user

structure Inv (σ : State T) : Prop where
  lock : ∀ w, LockInv (σ.lock w) fun t => (σ.place t).stage w
  omp : ∀ t, σ.place t ≠ .user → (σ.clock t).getState = .omp
  table : σ.table.Good
  linked : ∀ t, Linked (σ.place t) (σ.table.place t)
  known : ∀ w, (σ.lock w).inner ≠ none → w ∈ σ.table.created

theorem Inv.lock_update (h : Inv σ) {r : LockRecord T}
    (hw : LockInv r (Function.update (fun t => (σ.place t).stage w) t (p.stage w)))
    (hframe : ∀ w', w' ≠ w → p.stage w' = (σ.place t).stage w') (w' : WaitId) :
    LockInv (Function.update σ.lock w r w') fun t' => (Function.update σ.place t p t').stage w' := by
  have hstage : (fun t' => (Function.update σ.place t p t').stage w') =
      Function.update (fun t => (σ.place t).stage w') t (p.stage w') := by
    funext t'
    by_cases ht : t' = t
    · subst ht; simp
    · simp [ht]
  rw [hstage]
  by_cases hww : w' = w
  · subst hww; simpa using hw
  · rw [hframe w' hww]
    simpa [hww] using h.lock w'

theorem Inv.lock_same (h : Inv σ) (hframe : ∀ w, p.stage w = (σ.place t).stage w) (w : WaitId) :
    LockInv (σ.lock w) fun t' => (Function.update σ.place t p t').stage w := by
  have hw : LockInv (σ.lock w) (Function.update (fun t => (σ.place t).stage w) t (p.stage w)) := by
    rw [hframe w]
    simpa using h.lock w
  simpa using h.lock_update hw (fun w' _ => hframe w') w

theorem Inv.omp_update (h : Inv σ) {c : ThreadClock} (hc : p ≠ .user → c.getState = .omp) (t' : T)
    (hp : Function.update σ.place t p t' ≠ .user) :
    (Function.update σ.clock t c t').getState = .omp := by
  by_cases ht : t' = t
  · subst ht
    simp only [Function.update_self] at hp ⊢
    exact hc hp
  · simp only [ne_eq, ht, not_false_eq_true, Function.update_of_ne] at hp ⊢
    exact h.omp t' hp

theorem Inv.omp_place (h : Inv σ) (hp : σ.place t ≠ .user) (p : Place) (t' : T)
    (hp' : Function.update σ.place t p t' ≠ .user) : (σ.clock t').getState = .omp := by
  simpa using h.omp_update (fun _ => h.omp t hp) t' hp'

theorem Inv.linked_same (h : Inv σ) (ht : Linked p (σ.table.place t)) (t' : T) :
    Linked (Function.update σ.place t p t') (σ.table.place t') := by
  by_cases hne : t' = t
  · subst hne
    simpa using ht
  · rw [Function.update_of_ne hne]
    exact h.linked t'

omit [DecidableEq T] in
theorem Inv.known_update (h : Inv σ) {r : LockRecord T} (hr : r.inner ≠ none → w ∈ σ.table.created) :
    ∀ w', (Function.update σ.lock w r w').inner ≠ none → w' ∈ σ.table.created :=
  (Function.forall_update_iff σ.lock
    (p := fun w' r => r.inner ≠ none → w' ∈ σ.table.created)).mpr ⟨hr, fun w' _ => h.known w'⟩

/-- A step of the table, with what it leads the thread to. -/
theorem Inv.setTable (h : Inv σ) {a : LockTable.Act T} (hready : σ.table.Ready a)
    (hquiet : σ.table.GrowsQuietly a) (hp : Linked p ((σ.table.step a).place a.thread)) :
    (σ.table.step a).Good ∧ (∀ t', Linked (Function.update σ.place a.thread p t')
        ((σ.table.step a).place t')) ∧
      ∀ w ∈ σ.table.created, w ∈ (σ.table.step a).created := by
  have hframe := LockTable.State.step_frame h.table.toInv hready
  refine ⟨h.table.step hready hquiet, fun t' => ?_, fun w hw => hframe.created hw⟩
  by_cases hne : t' = a.thread
  · rw [hne, Function.update_self]
    exact hp
  · rw [Function.update_of_ne hne, hframe.place t' hne]
    exact h.linked t'

omit [DecidableEq T] in
/-- The reference reads the record of the lock that is released. -/
theorem Inv.reached_eq (h : Inv σ) (hp : σ.place t = .signalling w ∨ σ.place t = .unlocking w) :
    σ.reached t = some w := by
  have href : ∃ ref, (σ.table.place t).ref = some (w, ref) := by
    have hl := h.linked t
    rcases hp with hp | hp <;> rw [hp] at hl <;> obtain ⟨ref, hl⟩ := hl <;>
      exact ⟨ref, by rw [hl]; rfl⟩
  obtain ⟨ref, href⟩ := href
  obtain ⟨record, hread, hw⟩ := h.table.use href ⟨w, σ.table.read ref⟩ (by simp)
  have hread : σ.table.read ref = some record := hread
  simp [State.reached, href, hread, hw]

theorem Inv.advance (h : Inv σ) (hr : σ.Runs t) {time : ℚ}
    (hq : σ.GrowsQuietly (.step t time)) : Inv (σ.advance t time) := by
  have hl := h.linked t
  unfold State.Runs at hr
  unfold State.GrowsQuietly at hq
  unfold State.advance
  cases hp : σ.place t with
  | user | asked w => simp [hp] at hr
  | entering w =>
    simp only [hp] at hq
    rw [hp] at hl
    obtain ⟨htable, hlinked, hmono⟩ := h.setTable (p := .locking w)
      (a := .acquire t w) hl hq (LockTable.State.place_acquire h.table.toInv t w)
    exact ⟨h.lock_same fun w' => by simp [hp], h.omp_place (by simp [hp]) _, htable, hlinked,
      fun w' hw' => hmono w' (h.known w' hw')⟩
  | locking w =>
    rw [hp] at hr hl
    obtain ⟨record, hl⟩ := hl
    have hmem : w ∈ σ.table.created := by
      have hb := h.table.places t
      rw [hl] at hb
      obtain ⟨_, -, hw⟩ := hb
      exact List.mem_of_getElem? hw
    have hw := (h.lock w).lock hr (show (σ.place t).stage w = .entering by simp [hp])
    obtain ⟨htable, hlinked, hmono⟩ := h.setTable (p := .merging w) (a := .lock t)
      ⟨w, record, hl⟩ trivial (by simp [Linked, LockTable.State.step, hl, LockTable.Act.thread])
    exact ⟨h.lock_update (by simpa using hw) fun w' hw' => by simp [hp, hw'],
      h.omp_place (by simp [hp]) _, htable, hlinked,
      fun w' hw' => hmono w' (h.known_update (fun _ => hmem) w' hw')⟩
  | merging w =>
    rw [hp] at hl
    have hst : ((σ.lock w).sync.ompHAfter true (σ.clock t)).1.syncState ≠ .init := by
      rw [SyncClock.syncState_ompHAfter]
      split
      · rw [h.omp t (by simp [hp])]; decide
      · assumption
    have hw := (h.lock w).merge (show (σ.place t).stage w = .merging by simp [hp])
      hst SyncClock.clocks_ompHAfter_fst
    exact ⟨h.lock_update hw fun w' hw' => by simp [hp, hw'],
      h.omp_update fun hu => absurd rfl hu, h.table, h.linked_same hl, h.known_update (h.known w)⟩
  | leaving w =>
    rw [hp] at hl
    have hin := ((h.lock w).fits_at (show (σ.place t).stage w = .leaving by simp [hp])).2
    have hmem := h.known w (by simp [hin])
    obtain ⟨htable, hlinked, hmono⟩ := h.setTable (p := .signalling w) (a := .release t w)
      ⟨hl, hmem⟩ trivial (LockTable.State.place_release h.table.toInv t hmem)
    exact ⟨h.lock_same fun w' => by simp [hp], h.omp_place (by simp [hp]) _, htable, hlinked,
      fun w' hw' => hmono w' (h.known w' hw')⟩
  | signalling w =>
    have hreached := h.reached_eq (.inl hp)
    rw [hp] at hl
    obtain ⟨ref, hl⟩ := hl
    have hw := (h.lock w).signal (show (σ.place t).stage w = .leaving by simp [hp]) (σ.clock t)
    obtain ⟨htable, hlinked, hmono⟩ := h.setTable (p := .unlocking w) (a := .signal t)
      ⟨w, ref, hl⟩ trivial (by simp [Linked, LockTable.State.step, hl, LockTable.Act.thread])
    simp only [State.setReached, hreached]
    exact ⟨h.lock_update (by simpa using hw) fun w' hw' => by simp [hp, hw'],
      h.omp_place (by simp [hp]) _, htable, hlinked,
      fun w' hw' => hmono w' (h.known_update (by exact h.known w) w' hw')⟩
  | unlocking w =>
    have hreached := h.reached_eq (.inr hp)
    rw [hp] at hl
    obtain ⟨ref, hl⟩ := hl
    have hw := (h.lock w).unlock (show (σ.place t).stage w = .signalled by simp [hp])
    obtain ⟨htable, hlinked, hmono⟩ := h.setTable (p := .user) (a := .unlock t)
      ⟨w, ref, hl⟩ trivial (by simp [Linked, LockTable.State.step, hl, LockTable.Act.thread])
    simp only [State.setReached, hreached]
    exact ⟨h.lock_update hw fun w' hw' => by simp [hp, hw'],
      h.omp_update fun hu => absurd rfl hu, htable, hlinked,
      fun w' hw' => hmono w' (h.known_update (fun hn => absurd rfl hn) w' hw')⟩

theorem Inv.step (h : Inv σ) {l : Label T} (hal : σ.Allowed l) (hq : σ.GrowsQuietly l) :
    Inv (σ.next l) := by
  cases l with
  | other t c =>
    refine ⟨h.lock, fun t' ht' => ?_, h.table, h.linked, h.known⟩
    have hne : t' ≠ t := by
      rintro rfl
      exact ht' hal
    simpa [State.next, State.setClock, hne] using h.omp t' ht'
  | acquire t w time =>
    have hp : σ.place t = .user := hal
    have hl := h.linked t
    rw [hp] at hl
    exact ⟨h.lock_same fun w' => by rw [hp]; rfl,
      h.omp_update fun _ => ThreadClock.getState_enterState .., h.table, h.linked_same hl, h.known⟩
  | take t w =>
    obtain ⟨hp, ho⟩ := hal
    have hl := h.linked t
    rw [hp] at hl
    have hw := (h.lock w).take ho (show (σ.place t).stage w = .away by rw [hp]; rfl)
    exact ⟨h.lock_update (by simpa using hw) fun w' hw' => by simp [hp, hw'],
      h.omp_place (by simp [hp]) _, h.table, h.linked_same hl, h.known_update (h.known w)⟩
  | drop t w time =>
    obtain ⟨hp, ho⟩ := hal
    have hl := h.linked t
    rw [hp] at hl
    have hw := (h.lock w).drop ho (show (σ.place t).stage w = .away by rw [hp]; rfl)
    exact ⟨h.lock_update (by simpa using hw) fun w' hw' => by simp [hp, hw'],
      h.omp_update fun _ => ThreadClock.getState_enterState .., h.table, h.linked_same hl,
      h.known_update (h.known w)⟩
  | step t time => exact h.advance hal hq

theorem inv_run {ls : List (Label T)} (hv : (machine T).Valid {} ls)
    (hq : (machine T).Along State.GrowsQuietly {} ls) : Inv ((machine T).run {} ls) :=
  (Machine.along_and.mpr ⟨hv, hq⟩).inv (fun _ _ h hl => h.step hl.1 hl.2)
    ⟨fun _ => .start, fun _ h => absurd rfl h, LockTable.good_init, fun _ => rfl,
      fun _ h => absurd rfl h⟩

end

/-- When the new owner of a lock is about to merge, every earlier owner has signalled, and the
merge gives it the largest of its own values, those of the earlier owners, and the `0` of a fresh
sync clock. -/
theorem merge_isGreatest {T : Type} [DecidableEq T] {ls : List (Label T)}
    (hv : (machine T).Valid {} ls) (hq : (machine T).Along State.GrowsQuietly {} ls) {t : T}
    {w : WaitId} (hp : ((machine T).run {} ls).place t = .merging w) :
    let σ := (machine T).run {} ls
    (σ.lock w).takes = (σ.lock w).signals.length + 1 ∧
      ∀ i, i ≠ .ogpu → ∀ x, x ≠ .thread →
        IsGreatest (insert (((σ.clock t).clocks i).get x)
            (insert 0 (valuesOf (σ.lock w).signals i x)))
          ((((σ.lock w).sync.ompHAfter true (σ.clock t)).2.clocks i).get x) := by
  intro σ
  have h := (inv_run hv hq).lock w
  have hstage : (σ.place t).stage w = .merging := by simp [σ, hp]
  obtain ⟨ho, hi⟩ := h.fits_at hstage
  refine ⟨?_, fun i hi' x hx => ?_⟩
  · have hcount := h.count
    simp only [ho, hi, Option.any_some, Option.isSome_some, if_true] at hcount
    simpa [σ, hp] using hcount
  · rw [SyncClock.get_ompHAfter hi' hx, max_comm]
    exact isGreatest_insert_max (h.gathered i hi' x hx) _

/-- Thread `true` gets the lock before thread `false` has signalled. -/
def overtaking : List (Label Bool) :=
  [.acquire false 7 1, .take false 7, .step false 2, .step false 2, .step false 2, .drop false 7 3,
   .acquire true 7 3, .take true 7, .step true 3]

theorem merge_isGreatest_overtaking :
    let ls := overtaking ++ [.step false 4, .step false 4, .step false 4, .step true 5]
    ((machine Bool).run {} ls).place true = .merging 7 ∧
      (((machine Bool).run {} ls).lock 7).takes = 2 := by
  intro ls
  have hp : ((machine Bool).run {} ls).place true = .merging 7 := by decide +kernel
  have h := (merge_isGreatest (by decide +kernel) (by decide +kernel) hp).1
  exact ⟨hp, h.trans (by decide +kernel)⟩

/-- A thread waits in a callback only while another one, in its `mutex_released`, can go on. -/
theorem exists_runs {T : Type} [DecidableEq T] {ls : List (Label T)}
    (hv : (machine T).Valid {} ls) (hq : (machine T).Along State.GrowsQuietly {} ls) {t : T}
    {w : WaitId} (hp : ((machine T).run {} ls).place t = .locking w)
    (hw : ¬ ((machine T).run {} ls).Runs t) :
    let σ := (machine T).run {} ls
    ∃ t', σ.Runs t' ∧
      (σ.place t' = .leaving w ∨ σ.place t' = .signalling w ∨ σ.place t' = .unlocking w) := by
  intro σ
  have h : LockInv (σ.lock w) fun t => (σ.place t).stage w := (inv_run hv hq).lock w
  change σ.place t = _ at hp
  change ¬ σ.Runs t at hw
  clear_value σ
  have hstage : (σ.place t).stage w = .entering := by simp [hp]
  simp only [State.Runs, hp] at hw
  obtain ⟨t', ht'⟩ := Option.ne_none_iff_exists'.mp hw
  have howner := (h.fits_at hstage).1
  have hne : (σ.lock w).owner ≠ some t' := by
    rw [howner]
    rintro ⟨⟩
    exact (h.fits_at hstage).2 ht'
  -- the holder of the mutex is not the owner, so it is on its way out
  have hplace : σ.place t' = .leaving w ∨ σ.place t' = .signalling w ∨ σ.place t' = .unlocking w := by
    have hf := h.fits t'
    revert hf
    cases σ.place t' <;> grind [Place.stage, Fits]
  refine ⟨t', ?_, hplace⟩
  unfold State.Runs
  rcases hplace with hp' | hp' | hp' <;> rw [hp'] <;> trivial

theorem exists_runs_overtaking :
    ¬ ((machine Bool).run {} overtaking).Runs true ∧
      ∃ t, ((machine Bool).run {} overtaking).Runs t := by
  have hw : ¬ ((machine Bool).run {} overtaking).Runs true := by decide +kernel
  obtain ⟨t, ht, -⟩ := exists_runs (by decide +kernel) (by decide +kernel)
    (show ((machine Bool).run {} overtaking).place true = .locking 7 by decide +kernel) hw
  exact ⟨hw, t, ht⟩

end CritPath.LockHandover
