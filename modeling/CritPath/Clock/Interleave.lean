import CritPath.Clock.SyncClock
import CritPath.Lib.Runs
import Mathlib.Data.Finset.Max
import Mathlib.Data.Fintype.Basic

/-!
# Interleaved arrivals at a sync clock

`UniqLock<TimeMetric>` takes no lock, so the accesses of concurrent
`OmpHBefore` calls interleave. A call (`Call`) is taken apart into its reads
and writes of `sync_state` and its loads, stores and compare-exchanges of the
clock components; a schedule picks the thread of each step and, at a
`compare_exchange_weak`, whether it fails spuriously. Run alone, the steps of a
call compute `SyncClock.ompHBefore` (`alone_ompHBefore`).

A copying call stores without looking, so it can overwrite what a later
arrival already put there. `isGreatest_iff_goodStores` says exactly when the
component still ends up at the maximum of all callers.
-/

namespace CritPath

open Lib

abbrev Loc := ClockType × Comp

def SyncClock.load (s : SyncClock) (l : Loc) : ℚ := (s.clocks l.1).get l.2

def SyncClock.store (s : SyncClock) (l : Loc) (v : ℚ) : SyncClock :=
  { s with clocks := Function.update s.clocks l.1 ((s.clocks l.1).set v l.2) }

def ThreadClock.load (c : ThreadClock) (l : Loc) : ℚ := (c.clocks l.1).get l.2

theorem SyncClock.load_store (s : SyncClock) (l m : Loc) (v : ℚ) :
    (s.store l v).load m = if m = l then v else s.load m := by
  obtain ⟨i, x⟩ := l
  obtain ⟨j, y⟩ := m
  unfold load store
  by_cases h : j = i
  · subst h; simp [CpClocks.get_set]
  · simp [h]

@[simp] theorem SyncClock.load_store_self (s : SyncClock) (l : Loc) (v : ℚ) :
    (s.store l v).load l = v := by simp [load_store]

theorem SyncClock.load_store_ne (s : SyncClock) {l m : Loc} (h : m ≠ l) (v : ℚ) :
    (s.store l v).load m = s.load m := by simp [load_store, h]

/-- The order in which `operator=` copies the components of the three clocks. -/
def copyOrder : List Loc :=
  [(.useful, .thread), (.useful, .proc), (.useful, .critical),
   (.oomp, .thread), (.oomp, .proc), (.oomp, .critical),
   (.ompi, .thread), (.ompi, .proc), (.ompi, .critical)]

/-- The order in which `cpClocks::OmpHBefore` updates the components of the three clocks. -/
def maxOrder : List Loc :=
  [(.useful, .proc), (.useful, .critical), (.oomp, .proc), (.oomp, .critical),
   (.ompi, .proc), (.ompi, .critical)]

/-- Where a thread is inside its `OmpHBefore` call. -/
inductive Call where
  /-- `CheckArc`: `if (sync_state == STATE_INIT)`. -/
  | readState
  /-- `CheckArc`: `sync_state = tc_arg->GetState()`. -/
  | writeState
  /-- `CheckArc`: the debug check reads `sync_state` again. -/
  | dcheck
  /-- `operator=`: `other.value.load()` for the head of the list. -/
  | copyLoad (todo : List Loc)
  /-- `operator=`: `value.store(v)`. -/
  | copyStore (l : Loc) (v : ℚ) (rest : List Loc)
  /-- `maxUpdate`: `other.value.load()` for the head of the list. -/
  | maxLoadArg (todo : List Loc)
  /-- `update_maximum`: `prev_value = maximum_value`. -/
  | maxLoad (l : Loc) (v : ℚ) (rest : List Loc)
  /-- `update_maximum`: the loop condition with its `compare_exchange_weak`. -/
  | maxLoop (l : Loc) (prev v : ℚ) (rest : List Loc)

namespace Call

/-- One atomic step of a call of thread `tc`; `spurious` makes a compare-exchange fail. -/
def step (tc : ThreadClock) (spurious : Bool) : Call → SyncClock → Call × SyncClock
  | readState, s => (if s.syncState = .init then writeState else dcheck, s)
  | writeState, s => (copyLoad copyOrder, { s with syncState := tc.getState })
  | dcheck, s => (maxLoadArg maxOrder, s)
  | copyLoad [], s => (copyLoad [], s)
  | copyLoad (l :: ls), s => (copyStore l (tc.load l) ls, s)
  | copyStore l v rest, s => (copyLoad rest, s.store l v)
  | maxLoadArg [], s => (maxLoadArg [], s)
  | maxLoadArg (l :: ls), s => (maxLoad l (tc.load l) ls, s)
  | maxLoad l v rest, s => (maxLoop l (s.load l) v rest, s)
  | maxLoop l prev v rest, s =>
    if prev < v then
      if s.load l = prev ∧ spurious = false then (maxLoadArg rest, s.store l v)
      else (maxLoop l (s.load l) v rest, s)
    else (maxLoadArg rest, s)

def returned : Call → Prop
  | copyLoad todo => todo = []
  | maxLoadArg todo => todo = []
  | _ => False

instance : DecidablePred returned
  | copyLoad todo | maxLoadArg todo => inferInstanceAs (Decidable (todo = []))
  | readState | writeState | dcheck | copyStore .. | maxLoad .. | maxLoop .. => .isFalse id

/-- The call has not settled component `l` yet. -/
def pending (l : Loc) : Call → Prop
  | readState | writeState | dcheck => True
  | copyLoad todo | maxLoadArg todo => l ∈ todo
  | copyStore l' _ rest | maxLoad l' _ rest => l = l' ∨ l ∈ rest
  | maxLoop l' prev v rest => (l = l' ∧ prev < v) ∨ l ∈ rest

/-- The call is on the copying branch and has not stored component `l` yet. -/
def copying (l : Loc) : Call → Prop
  | writeState => True
  | copyLoad todo => l ∈ todo
  | copyStore l' _ rest => l = l' ∨ l ∈ rest
  | _ => False

/-- What a call of thread `tc` holds locally is `tc`'s own value, and no component comes twice. -/
def WF (tc : ThreadClock) : Call → Prop
  | readState | writeState | dcheck => True
  | copyLoad todo | maxLoadArg todo => todo.Nodup
  | copyStore l v rest | maxLoad l v rest | maxLoop l _ v rest => v = tc.load l ∧ (l :: rest).Nodup

theorem WF.step {tc : ThreadClock} {c : Call} (h : c.WF tc) (b : Bool) (s : SyncClock) :
    (c.step tc b s).1.WF tc := by
  cases c with
  | readState => simp only [Call.step]; split <;> trivial
  | writeState => exact (by decide : copyOrder.Nodup)
  | dcheck => exact (by decide : maxOrder.Nodup)
  | copyLoad todo =>
    cases todo with
    | nil => exact h
    | cons l ls => exact ⟨rfl, h⟩
  | copyStore l v rest => exact (List.nodup_cons.mp h.2).2
  | maxLoadArg todo =>
    cases todo with
    | nil => exact h
    | cons l ls => exact ⟨rfl, h⟩
  | maxLoad l v rest => exact h
  | maxLoop l prev v rest =>
    simp only [Call.step]
    split
    · split
      · exact (List.nodup_cons.mp h.2).2
      · exact h
    · exact (List.nodup_cons.mp h.2).2

theorem step_cases {tc : ThreadClock} {c : Call} (hwf : c.WF tc) (b : Bool) (s : SyncClock)
    {l : Loc} (hl : l ∈ maxOrder) :
    ((c.step tc b s).2.load l = s.load l ∧ (pending l (c.step tc b s).1 ↔ pending l c) ∧
      (copying l c → copying l (c.step tc b s).1)) ∨
    ((∃ rest, c = copyStore l (tc.load l) rest) ∧ (c.step tc b s).2.load l = tc.load l ∧
      ¬ pending l (c.step tc b s).1) ∨
    (pending l c ∧ ¬ copying l c ∧ s.load l < tc.load l ∧
      (c.step tc b s).2.load l = tc.load l ∧ ¬ pending l (c.step tc b s).1) ∨
    (pending l c ∧ ¬ copying l c ∧ tc.load l ≤ s.load l ∧
      (c.step tc b s).2.load l = s.load l ∧ ¬ pending l (c.step tc b s).1) := by
  have hcopy : l ∈ copyOrder := by revert l; decide
  cases c with
  | readState =>
    refine .inl ⟨rfl, ?_, fun h => h.elim⟩
    simp only [step]; split <;> simp [pending]
  | writeState => exact .inl ⟨rfl, by simp [step, pending, hcopy], fun _ => hcopy⟩
  | dcheck => exact .inl ⟨rfl, by simp [step, pending, hl], fun h => h.elim⟩
  | copyLoad todo =>
    cases todo with
    | nil => exact .inl ⟨rfl, .rfl, id⟩
    | cons m ls => exact .inl ⟨rfl, by simp [step, pending], by simp [step, copying]⟩
  | copyStore m v rest =>
    obtain ⟨rfl, hnd⟩ := hwf
    by_cases hm : l = m
    · subst hm
      exact .inr (.inl ⟨⟨rest, rfl⟩, by simp [step], (List.nodup_cons.mp hnd).1⟩)
    · refine .inl ⟨SyncClock.load_store_ne _ hm _, ?_, ?_⟩
      · simp [step, pending, hm]
      · simp [step, copying, hm]
  | maxLoadArg todo =>
    cases todo with
    | nil => exact .inl ⟨rfl, .rfl, id⟩
    | cons m ls => exact .inl ⟨rfl, by simp [step, pending], fun h => h.elim⟩
  | maxLoad m v rest =>
    obtain ⟨rfl, hnd⟩ := hwf
    by_cases hm : l = m
    · subst hm
      by_cases hlt : s.load l < tc.load l
      · exact .inl ⟨rfl, by simp [step, pending, hlt], fun h => h.elim⟩
      · refine .inr (.inr (.inr ⟨.inl rfl, fun h => h, not_lt.mp hlt, rfl, ?_⟩))
        simp [step, pending, hlt, (List.nodup_cons.mp hnd).1]
    · exact .inl ⟨rfl, by simp [step, pending, hm], fun h => h.elim⟩
  | maxLoop m prev v rest =>
    obtain ⟨rfl, hnd⟩ := hwf
    have hrest := (List.nodup_cons.mp hnd).1
    by_cases hm : l = m
    · subst hm
      by_cases hlt : prev < tc.load l
      · by_cases hcas : s.load l = prev ∧ b = false
        · refine .inr (.inr (.inl ⟨.inl ⟨rfl, hlt⟩, fun h => h, hcas.1 ▸ hlt, ?_⟩))
          simp [step, hlt, hcas, pending, hrest]
        · by_cases hlt' : s.load l < tc.load l
          · exact .inl ⟨by simp [step, hlt, hcas], by simp [step, hlt, hcas, pending, hlt'],
              fun h => h.elim⟩
          · refine .inr (.inr (.inr ⟨.inl ⟨rfl, hlt⟩, fun h => h, not_lt.mp hlt', ?_⟩))
            simp [step, hlt, hcas, pending, hlt', hrest]
      · exact .inl ⟨by simp [step, hlt], by simp [step, hlt, pending], fun h => h.elim⟩
    · refine .inl ⟨?_, ?_, fun h => h.elim⟩
      · simp only [step]
        repeat' split
        · exact SyncClock.load_store_ne _ hm _
        · rfl
        · rfl
      · simp only [step]
        repeat' split
        all_goals simp [pending, hm]

theorem not_pending_of_returned {c : Call} (h : c.returned) (l : Loc) : ¬ pending l c := by
  cases c <;> simp_all [returned, pending]

theorem not_copying_of_returned {c : Call} (h : c.returned) (l : Loc) : ¬ copying l c := by
  cases c <;> simp_all [returned, copying]

theorem copying_readState {tc : ThreadClock} {s : SyncClock} (h : s.syncState = .init) (b : Bool)
    (l : Loc) : copying l (readState.step tc b s).1 := by
  simp [step, h, copying]

end Call

/-! ## A call without interference -/

inductive Alone (tc : ThreadClock) : Call → SyncClock → Call → SyncClock → Prop where
  | refl (c : Call) (s : SyncClock) : Alone tc c s c s
  | step {c c' : Call} {s s' : SyncClock} :
      Alone tc (c.step tc false s).1 (c.step tc false s).2 c' s' → Alone tc c s c' s'

theorem SyncClock.store_load (s : SyncClock) (l : Loc) : s.store l (s.load l) = s := by
  obtain ⟨i, x⟩ := l
  have : (s.clocks i).set ((s.clocks i).get x) x = s.clocks i := by cases x <;> rfl
  simp only [store, load, this, Function.update_eq_self]

theorem alone_copyLoad (tc : ThreadClock) (todo : List Loc) (s : SyncClock) :
    Alone tc (.copyLoad todo) s (.copyLoad [])
      (todo.foldl (fun s l => s.store l (tc.load l)) s) := by
  induction todo generalizing s with
  | nil => exact .refl _ _
  | cons l ls ih => exact .step (.step (ih _))

theorem alone_maxLoadArg (tc : ThreadClock) (todo : List Loc) (s : SyncClock) :
    Alone tc (.maxLoadArg todo) s (.maxLoadArg [])
      (todo.foldl (fun s l => s.store l (max (s.load l) (tc.load l))) s) := by
  induction todo generalizing s with
  | nil => exact .refl _ _
  | cons l ls ih =>
    refine .step (.step (.step ?_))
    simp only [Call.step, List.foldl_cons]
    split
    · rename_i h; rw [max_eq_right h.le]; exact ih _
    · rename_i h; rw [max_eq_left (not_lt.mp h), SyncClock.store_load]; exact ih _

theorem ompHBefore_eq_copy {s : SyncClock} (tc : ThreadClock) (h : s.syncState = .init) :
    s.ompHBefore true tc = copyOrder.foldl (fun s l => s.store l (tc.load l))
      { s with syncState := tc.getState } := by
  simp only [SyncClock.ompHBefore, SyncClock.checkArc, h, ↓reduceIte, copyOrder, List.foldl,
    SyncClock.store, SyncClock.mk.injEq, Bool.not_true, Bool.false_eq_true]
  refine ⟨?_, trivial⟩
  funext i
  cases i <;> simp [Function.update, ThreadClock.load, CpClocks.set, CpClocks.get]

theorem ompHBefore_eq_max {s : SyncClock} (tc : ThreadClock) (h : s.syncState ≠ .init) :
    s.ompHBefore true tc =
      maxOrder.foldl (fun s l => s.store l (max (s.load l) (tc.load l))) s := by
  simp only [SyncClock.ompHBefore, SyncClock.checkArc, h, ↓reduceIte, maxOrder, List.foldl,
    SyncClock.store, SyncClock.load, SyncClock.mk.injEq, Bool.not_true, Bool.false_eq_true]
  refine ⟨?_, trivial⟩
  funext i
  cases i <;> simp [Function.update, ThreadClock.load, CpClocks.set, CpClocks.get,
    CpClocks.ompHBefore]

/-- Run alone, the steps of a call compute `OmpHBefore`. -/
theorem alone_ompHBefore (tc : ThreadClock) (s : SyncClock) :
    ∃ c, c.returned ∧ Alone tc .readState s c (s.ompHBefore true tc) := by
  by_cases h : s.syncState = .init
  · refine ⟨.copyLoad [], rfl, .step ?_⟩
    rw [ompHBefore_eq_copy tc h]
    simp only [Call.step, h, ↓reduceIte]
    exact .step (alone_copyLoad tc copyOrder { s with syncState := tc.getState })
  · refine ⟨.maxLoadArg [], rfl, .step ?_⟩
    rw [ompHBefore_eq_max tc h]
    simp only [Call.step, h, ↓reduceIte]
    exact .step (alone_maxLoadArg tc maxOrder s)

/-! ## Interleavings -/

structure Calls (n : Nat) where
  sync : SyncClock
  call : Fin (n + 1) → Call

def Calls.start (n : Nat) (s : SyncClock) : Calls n := ⟨s, fun _ => .readState⟩

/-- Steps of the calls of threads `tc`; a label is the thread that moves and whether a
compare-exchange it makes fails spuriously. -/
def interleave {n : Nat} (tc : Fin (n + 1) → ThreadClock) :
    Machine (Calls n) (Fin (n + 1) × Bool) where
  step c l :=
    { sync := ((c.call l.1).step (tc l.1) l.2 c.sync).2
      call := Function.update c.call l.1 ((c.call l.1).step (tc l.1) l.2 c.sync).1 }

/-- A plain store into `l` is good when some thread with the largest value of `l` has not
settled `l` yet. -/
def GoodStore {n : Nat} (tc : Fin (n + 1) → ThreadClock) (l : Loc) (c : Calls n)
    (a : Fin (n + 1) × Bool) : Prop :=
  ∀ v rest, c.call a.1 = .copyStore l v rest →
    ∃ j, (∀ k, (tc k).load l ≤ (tc j).load l) ∧ (c.call j).pending l

section
variable {n : Nat} {tc : Fin (n + 1) → ThreadClock} {l : Loc} {m : ℚ}

def CallsWF (tc : Fin (n + 1) → ThreadClock) (c : Calls n) : Prop := ∀ i, (c.call i).WF (tc i)

theorem CallsWF.step {c : Calls n} (h : CallsWF tc c) (a : Fin (n + 1) × Bool) :
    CallsWF tc ((interleave tc).step c a) := by
  intro i
  simp only [interleave]
  by_cases hi : i = a.1
  · subst hi; rw [Function.update_self]; exact (h _).step _ _
  · rw [Function.update_of_ne hi]; exact h i

/-- While only good stores happen: the maximum is still to come, or there, or will be
overwritten; and the component exceeds it only before the first store. -/
structure OnTrack (tc : Fin (n + 1) → ThreadClock) (l : Loc) (m : ℚ) (c : Calls n) : Prop where
  wf : CallsWF tc c
  reach : (∃ i, (tc i).load l = m ∧ (c.call i).pending l) ∨ c.sync.load l = m ∨
    ∃ i, (c.call i).copying l
  bound : c.sync.load l ≤ m ∨ (∃ i, (c.call i).copying l) ∨
    (c.sync.syncState = .init ∧ ∀ i, c.call i = .readState)

theorem OnTrack.start (hm : IsGreatest (Set.range fun i => (tc i).load l) m) {s : SyncClock}
    (hs : s.syncState = .init) : OnTrack tc l m (Calls.start n s) := by
  obtain ⟨i, hi⟩ := hm.1
  exact ⟨fun _ => trivial, .inl ⟨i, hi, trivial⟩, .inr (.inr ⟨hs, fun _ => rfl⟩)⟩

theorem call_step_ne {c : Calls n} {a : Fin (n + 1) × Bool} {j : Fin (n + 1)} (h : j ≠ a.1) :
    ((interleave tc).step c a).call j = c.call j :=
  Function.update_of_ne h _ _

theorem call_step_self {c : Calls n} {a : Fin (n + 1) × Bool} :
    ((interleave tc).step c a).call a.1 = ((c.call a.1).step (tc a.1) a.2 c.sync).1 :=
  Function.update_self _ _ _

theorem OnTrack.step (hl : l ∈ maxOrder) (hm : IsGreatest (Set.range fun i => (tc i).load l) m)
    {c : Calls n} {a : Fin (n + 1) × Bool} (h : OnTrack tc l m c) (hg : GoodStore tc l c a) :
    OnTrack tc l m ((interleave tc).step c a) := by
  obtain ⟨hwf, hreach, hbound⟩ := h
  have hle : ∀ i, (tc i).load l ≤ m := fun i => hm.2 ⟨i, rfl⟩
  -- a pending or copying thread that is not the one moving stays so
  have keepP : ∀ j, j ≠ a.1 → (c.call j).pending l →
      (((interleave tc).step c a).call j).pending l := fun j hj hp => by rwa [call_step_ne hj]
  have keepC : ∀ j, j ≠ a.1 → (c.call j).copying l →
      (((interleave tc).step c a).call j).copying l := fun j hj hp => by rwa [call_step_ne hj]
  have hsync : ((interleave tc).step c a).sync = ((c.call a.1).step (tc a.1) a.2 c.sync).2 := rfl
  suffices h : _ ∧ _ from ⟨hwf.step a, h.1, h.2⟩
  rcases Call.step_cases (hwf a.1) a.2 c.sync hl with ⟨hv, hp, hc⟩ | ⟨⟨rest, hcall⟩, hv, -⟩ |
      ⟨-, hnc, hlt, hv, -⟩ | ⟨-, hnc, hge, hv, -⟩
  · -- the component and its pending threads are untouched
    have keepP' : ∀ j, (c.call j).pending l → (((interleave tc).step c a).call j).pending l := by
      intro j hj
      by_cases hja : j = a.1
      · subst hja; rw [call_step_self]; exact hp.mpr hj
      · exact keepP j hja hj
    have keepC' : ∀ j, (c.call j).copying l → (((interleave tc).step c a).call j).copying l := by
      intro j hj
      by_cases hja : j = a.1
      · subst hja; rw [call_step_self]; exact hc hj
      · exact keepC j hja hj
    rw [hsync, hv]
    constructor
    · rcases hreach with ⟨i, hi, hpi⟩ | hv' | ⟨i, hci⟩
      · exact .inl ⟨i, hi, keepP' i hpi⟩
      · exact .inr (.inl hv')
      · exact .inr (.inr ⟨i, keepC' i hci⟩)
    · rcases hbound with hb | ⟨i, hci⟩ | ⟨hs, hall⟩
      · exact .inl hb
      · exact .inr (.inl ⟨i, keepC' i hci⟩)
      · refine .inr (.inl ⟨a.1, ?_⟩)
        rw [call_step_self, hall]; exact Call.copying_readState hs _ _
  · -- a plain store: the condition names a thread that still carries the maximum
    obtain ⟨j, hmax, hpj⟩ := hg _ _ hcall
    have hj : (tc j).load l = m := by
      obtain ⟨i, hi⟩ := hm.1
      exact le_antisymm (hle j) (hi ▸ hmax i)
    rw [hsync, hv]
    refine ⟨?_, .inl (hle a.1)⟩
    by_cases hja : j = a.1
    · exact .inr (.inl (hja ▸ hj))
    · exact .inl ⟨j, hj, keepP j hja hpj⟩
  · -- a successful compare-exchange
    rw [hsync, hv]
    refine ⟨?_, .inl (hle a.1)⟩
    rcases hreach with ⟨i, hi, hpi⟩ | hv' | ⟨i, hci⟩
    · by_cases hia : i = a.1
      · exact .inr (.inl (hia ▸ hi))
      · exact .inl ⟨i, hi, keepP i hia hpi⟩
    · exact absurd (hle a.1) (by rw [← hv']; exact not_le.mpr hlt)
    · exact .inr (.inr ⟨i, keepC i (fun e => hnc (e ▸ hci)) hci⟩)
  · -- the component was large enough
    rw [hsync, hv]
    have hbound' : c.sync.load l ≤ m ∨ ∃ i, (((interleave tc).step c a).call i).copying l := by
      rcases hbound with hb | ⟨i, hci⟩ | ⟨hs, hall⟩
      · exact .inl hb
      · exact .inr ⟨i, keepC i (fun e => hnc (e ▸ hci)) hci⟩
      · refine .inr ⟨a.1, ?_⟩
        rw [call_step_self, hall]; exact Call.copying_readState hs _ _
    refine ⟨?_, hbound'.imp_right .inl⟩
    rcases hbound' with hb | hcop
    · rcases hreach with ⟨i, hi, hpi⟩ | hv' | ⟨i, hci⟩
      · by_cases hia : i = a.1
        · exact .inr (.inl (le_antisymm hb (by rw [← hi, hia]; exact hge)))
        · exact .inl ⟨i, hi, keepP i hia hpi⟩
      · exact .inr (.inl hv')
      · exact .inr (.inr ⟨i, keepC i (fun e => hnc (e ▸ hci)) hci⟩)
    · exact .inr (.inr hcop)

/-- After a bad store: nobody who can still write `l` has the maximum. -/
structure OffTrack (tc : Fin (n + 1) → ThreadClock) (l : Loc) (m : ℚ) (c : Calls n) : Prop where
  wf : CallsWF tc c
  pend : ∀ i, (c.call i).pending l → (tc i).load l < m
  below : c.sync.load l < m

theorem OffTrack.step (hl : l ∈ maxOrder) {c : Calls n} (a : Fin (n + 1) × Bool)
    (h : OffTrack tc l m c) : OffTrack tc l m ((interleave tc).step c a) := by
  obtain ⟨hwf, hpend, hbelow⟩ := h
  have hsync : ((interleave tc).step c a).sync = ((c.call a.1).step (tc a.1) a.2 c.sync).2 := rfl
  -- pending never comes back
  have hpend' : (Call.pending l ((c.call a.1).step (tc a.1) a.2 c.sync).1 →
        Call.pending l (c.call a.1)) →
      ∀ i, (((interleave tc).step c a).call i).pending l → (tc i).load l < m := by
    intro hself i hi
    by_cases hia : i = a.1
    · subst hia; rw [call_step_self] at hi; exact hpend _ (hself hi)
    · rw [call_step_ne hia] at hi; exact hpend i hi
  rcases Call.step_cases (hwf a.1) a.2 c.sync hl with ⟨hv, hp, -⟩ | ⟨⟨rest, hcall⟩, hv, hnp⟩ |
      ⟨hp, -, -, hv, hnp⟩ | ⟨hp, -, -, hv, hnp⟩
  · exact ⟨hwf.step a, hpend' hp.mp, by rw [hsync, hv]; exact hbelow⟩
  · refine ⟨hwf.step a, hpend' fun h => absurd h hnp, ?_⟩
    rw [hsync, hv]
    exact hpend _ (by rw [hcall]; exact .inl rfl)
  · exact ⟨hwf.step a, hpend' fun h => absurd h hnp, by rw [hsync, hv]; exact hpend _ hp⟩
  · exact ⟨hwf.step a, hpend' fun h => absurd h hnp, by rw [hsync, hv]; exact hbelow⟩

theorem OffTrack.of_bad (hm : IsGreatest (Set.range fun i => (tc i).load l) m)
    {c : Calls n} {a : Fin (n + 1) × Bool} (hwf : CallsWF tc c) (hg : ¬ GoodStore tc l c a) :
    OffTrack tc l m ((interleave tc).step c a) := by
  unfold GoodStore at hg
  push Not at hg
  obtain ⟨v, rest, hcall, hno⟩ := hg
  have hle : ∀ i, (tc i).load l ≤ m := fun i => hm.2 ⟨i, rfl⟩
  have hlt : ∀ i, (c.call i).pending l → (tc i).load l < m := by
    intro i hi
    refine lt_of_le_of_ne (hle i) fun he => hno i (fun k => ?_) hi
    rw [he]; exact hle k
  have hself : (tc a.1).load l < m := hlt _ (by rw [hcall]; exact .inl rfl)
  have hwfa := hwf a.1
  rw [hcall] at hwfa
  obtain ⟨rfl, hnd⟩ := hwfa
  refine ⟨hwf.step a, fun i hi => ?_, ?_⟩
  · by_cases hia : i = a.1
    · subst hia; exact hself
    · rw [call_step_ne hia] at hi; exact hlt i hi
  · simp only [interleave, hcall, Call.step, SyncClock.load_store_self]
    exact hself

theorem below_of_not_good (hl : l ∈ maxOrder)
    (hm : IsGreatest (Set.range fun i => (tc i).load l) m) {sched : List (Fin (n + 1) × Bool)}
    {c : Calls n} (hwf : CallsWF tc c) (h : ¬ (interleave tc).Along (GoodStore tc l) c sched) :
    ((interleave tc).run c sched).sync.load l < m := by
  induction sched generalizing c with
  | nil => exact absurd trivial h
  | cons a as ih =>
    by_cases hg : GoodStore tc l c a
    · exact ih (hwf.step a) fun h' => h ⟨hg, h'⟩
    · exact (Machine.run_inv (I := OffTrack tc l m) (fun _ a h => h.step hl a)
        (OffTrack.of_bad hm hwf hg) as).below

/-- Once all calls have returned, a component is the maximum of all callers exactly when every
plain store into it was good. -/
theorem isGreatest_iff_goodStores (hl : l ∈ maxOrder) {s : SyncClock} (hs : s.syncState = .init)
    {sched : List (Fin (n + 1) × Bool)}
    (hret : ∀ i, (((interleave tc).run (Calls.start n s) sched).call i).returned) :
    IsGreatest (Set.range fun i => (tc i).load l)
        (((interleave tc).run (Calls.start n s) sched).sync.load l) ↔
      (interleave tc).Along (GoodStore tc l) (Calls.start n s) sched := by
  obtain ⟨k, -, hk⟩ := Finset.exists_max_image Finset.univ (fun i => (tc i).load l)
    ⟨0, Finset.mem_univ _⟩
  have hm : IsGreatest (Set.range fun i => (tc i).load l) ((tc k).load l) :=
    ⟨⟨k, rfl⟩, by rintro _ ⟨i, rfl⟩; exact hk i (Finset.mem_univ _)⟩
  constructor
  · intro hgr
    by_contra hbad
    have hlt := below_of_not_good (c := Calls.start n s) hl hm (fun _ => trivial) hbad
    exact absurd (hgr.unique hm) (ne_of_lt hlt)
  · intro hgood
    have htrack := hgood.inv (I := OnTrack tc l ((tc k).load l)) (fun _ _ h hg => h.step hl hm hg)
      (.start hm hs)
    rcases htrack.reach with ⟨i, -, hp⟩ | hv | ⟨i, hc⟩
    · exact absurd hp (Call.not_pending_of_returned (hret i) l)
    · rw [hv]; exact hm
    · exact absurd hc (Call.not_copying_of_returned (hret i) l)

/-- The condition of `isGreatest_iff_goodStores` for the two components that arcs carry of
`CLOCK_USEFUL`. -/
def GoodUsefulStores (tc : Fin (n + 1) → ThreadClock) (c : Calls n) (a : Fin (n + 1) × Bool) :
    Prop :=
  GoodStore tc (.useful, .proc) c a ∧ GoodStore tc (.useful, .critical) c a

/-- No update of `CLOCK_USEFUL` is lost at a fresh sync clock exactly when, at every plain store
of a copying call, some caller with the largest value has not settled the component yet. -/
theorem ompHBefore_lossless_iff (n : Nat) (tc : Fin (n + 1) → ThreadClock)
    (sched : List (Fin (n + 1) × Bool))
    (hret : ∀ i, (((interleave tc).run (Calls.start n .fresh) sched).call i).returned) :
    (IsGreatest (Set.range fun i => ((tc i).clocks .useful).proc)
        (((interleave tc).run (Calls.start n .fresh) sched).sync.clocks .useful).proc ∧
      IsGreatest (Set.range fun i => ((tc i).clocks .useful).critical)
        (((interleave tc).run (Calls.start n .fresh) sched).sync.clocks .useful).critical) ↔
      (interleave tc).Along (GoodUsefulStores tc) (Calls.start n .fresh) sched := by
  have hproc := isGreatest_iff_goodStores (n := n) (l := (.useful, .proc)) (by decide)
    (s := .fresh) rfl hret
  have hcrit := isGreatest_iff_goodStores (n := n) (l := (.useful, .critical)) (by decide)
    (s := .fresh) rfl hret
  exact (and_congr hproc hcrit).trans Machine.along_and.symm

end

/-- A thread that worked from time `a` to time `b` and is in `STATE_OMP` since. -/
def worked (a b : ℚ) : ThreadClock :=
  (ThreadClock.new.enterState true a .useful a).enterState true b .omp b

/-- Two arrivals, after 2 and after 4 units of work. -/
def arrivals (i : Fin 2) : ThreadClock := if i = 0 then worked 1 3 else worked 1 5

/-- The first arrival takes the copying branch, the second one updates everything before the
first one stores. -/
def overtaking : List (Fin 2 × Bool) :=
  List.replicate 2 (0, false) ++ List.replicate 24 (1, false) ++ List.replicate 18 (0, false)

theorem ompHBefore_lossless_overtaking :
    (∀ i, (((interleave arrivals).run (Calls.start 1 .fresh) overtaking).call i).returned) ∧
    ((IsGreatest (Set.range fun i => ((arrivals i).clocks .useful).proc)
        (((interleave arrivals).run (Calls.start 1 .fresh) overtaking).sync.clocks .useful).proc ∧
      IsGreatest (Set.range fun i => ((arrivals i).clocks .useful).critical)
        (((interleave arrivals).run (Calls.start 1 .fresh) overtaking).sync.clocks
          .useful).critical) ↔
      (interleave arrivals).Along (GoodUsefulStores arrivals) (Calls.start 1 .fresh) overtaking) :=
  ⟨by decide +kernel, ompHBefore_lossless_iff 1 arrivals overtaking (by decide +kernel)⟩

/-- Both threads are in `STATE_OMP`, both calls return, and the sync clock keeps the smaller
value: the update of the second arrival is lost. -/
theorem ompHBefore_loses_update :
    (∀ i, (arrivals i).getState = .omp) ∧
    (∀ i, (((interleave arrivals).run (Calls.start 1 .fresh) overtaking).call i).returned) ∧
    ¬ (IsGreatest (Set.range fun i => ((arrivals i).clocks .useful).proc)
        (((interleave arrivals).run (Calls.start 1 .fresh) overtaking).sync.clocks .useful).proc ∧
      IsGreatest (Set.range fun i => ((arrivals i).clocks .useful).critical)
        (((interleave arrivals).run (Calls.start 1 .fresh) overtaking).sync.clocks
          .useful).critical) := by
  refine ⟨by decide +kernel, by decide +kernel, fun h => ?_⟩
  have hle := h.1.2 ⟨1, rfl⟩
  have hlt : (((interleave arrivals).run (Calls.start 1 .fresh) overtaking).sync.clocks
      .useful).proc < ((arrivals 1).clocks .useful).proc := by decide +kernel
  exact absurd hle (not_le.mpr hlt)

end CritPath
