import CritPath.Clock.SyncClock
import CritPath.Lib.Runs

/-!
# Threads and sync clocks together

A system has the clocks of all threads and all sync clocks. An event is one
call on them at a time: a state change of a thread, an arc between a thread and
a sync clock, or a reset. The time is the one the call gets or, where the call
leaves it out, what `getTime()` returns in it. `after es k` is the system after
the first `k` events of a run and `timeAt es k` the time of the last of them.
-/

namespace CritPath

open Lib

structure Sys (T S : Type) where
  thread : T → ThreadClock
  sync : S → SyncClock

inductive Op (T S : Type) where
  | enterState (th : T) (cs : ClockState)
  | exitState (th : T)
  | setState (th : T) (cs : ClockState)
  | ompHBefore (s : S) (th : T)
  | ompHAfter (s : S) (th : T)
  | ompCReset (s : S)
  deriving DecidableEq

structure Event (T S : Type) where
  time : ℚ
  op : Op T S

namespace Sys

variable {T S : Type}

def start (T S : Type) : Sys T S := ⟨fun _ => .new, fun _ => .fresh⟩

def setThread [DecidableEq T] (σ : Sys T S) (th : T) (c : ThreadClock) : Sys T S :=
  { σ with thread := Function.update σ.thread th c }

def setSync [DecidableEq S] (σ : Sys T S) (s : S) (c : SyncClock) : Sys T S :=
  { σ with sync := Function.update σ.sync s c }

@[simp] theorem thread_setThread [DecidableEq T] (σ : Sys T S) (th : T) (c : ThreadClock) :
    (σ.setThread th c).thread = Function.update σ.thread th c := rfl

@[simp] theorem sync_setThread [DecidableEq T] (σ : Sys T S) (th : T) (c : ThreadClock) :
    (σ.setThread th c).sync = σ.sync := rfl

@[simp] theorem sync_setSync [DecidableEq S] (σ : Sys T S) (s : S) (c : SyncClock) :
    (σ.setSync s c).sync = Function.update σ.sync s c := rfl

@[simp] theorem thread_setSync [DecidableEq S] (σ : Sys T S) (s : S) (c : SyncClock) :
    (σ.setSync s c).thread = σ.thread := rfl

variable [DecidableEq T] [DecidableEq S]

def step (running : Bool) (σ : Sys T S) (e : Event T S) : Sys T S :=
  match e.op with
  | .enterState th cs => σ.setThread th ((σ.thread th).enterState running e.time cs e.time)
  | .exitState th => σ.setThread th ((σ.thread th).exitState running e.time e.time)
  | .setState th cs => σ.setThread th ((σ.thread th).setState running e.time cs e.time)
  | .ompHBefore s th => σ.setSync s ((σ.sync s).ompHBefore running (σ.thread th))
  | .ompHAfter s th =>
    (σ.setSync s ((σ.sync s).ompHAfter running (σ.thread th)).1).setThread th
      ((σ.sync s).ompHAfter running (σ.thread th)).2
  | .ompCReset s => σ.setSync s ((σ.sync s).ompCReset running)

def machine (T S : Type) [DecidableEq T] [DecidableEq S] : Machine (Sys T S) (Event T S) where
  step := step true

section
variable {σ : Sys T S} {e : Event T S} {th : T} {s : S} {i : ClockType}

theorem elapsed_step {x : Comp} (h : ∀ s, e.op ≠ .ompHAfter s th) :
    ((σ.step true e).thread th).elapsed i x e.time = (σ.thread th).elapsed i x e.time := by
  obtain ⟨t, op⟩ := e
  cases op with
  | enterState a cs =>
    by_cases ha : th = a
    · subst ha; simp [step, ThreadClock.elapsed_enterState]
    · simp [step, ha]
  | exitState a =>
    by_cases ha : th = a
    · subst ha; simp [step, ThreadClock.elapsed_exitState]
    · simp [step, ha]
  | setState a cs =>
    by_cases ha : th = a
    · subst ha; simp [step, ThreadClock.elapsed_setState]
    · simp [step, ha]
  | ompHBefore s a => rfl
  | ompHAfter s a =>
    have ha : th ≠ a := by
      rintro rfl
      exact h s rfl
    simp [step, ha]
  | ompCReset s => rfl

theorem elapsed_step_ompHAfter (hi : i ≠ .ogpu) {x : Comp} (hx : x ≠ .thread)
    (h : e.op = .ompHAfter s th) (t : ℚ) :
    ((σ.step true e).thread th).elapsed i x t = max ((σ.thread th).elapsed i x t)
      (((σ.sync s).clocks i).get x + runTerm (σ.thread th).getState i t) := by
  simp only [step, h, thread_setThread, Function.update_self]
  exact SyncClock.elapsed_ompHAfter hi hx t

theorem elapsed_thread_step :
    ((σ.step true e).thread th).elapsed i .thread e.time =
      (σ.thread th).elapsed i .thread e.time := by
  by_cases h : ∃ s, e.op = .ompHAfter s th
  · obtain ⟨s, hop⟩ := h
    simp only [step, hop, thread_setThread, Function.update_self, ThreadClock.elapsed,
      SyncClock.getState_ompHAfter]
    exact congrArg (· + _) (SyncClock.thread_ompHAfter true)
  · exact elapsed_step fun s hop => h ⟨s, hop⟩

/-- While the tool is not running only `setState` reaches a thread clock. -/
theorem thread_step_false (h : ∀ th cs, e.op ≠ .setState th cs) :
    (σ.step false e).thread = σ.thread := by
  obtain ⟨t, op⟩ := e
  cases op with
  | enterState a cs => exact Function.update_eq_self _ _
  | exitState a => exact Function.update_eq_self _ _
  | setState a cs => exact absurd rfl (h a cs)
  | ompHBefore s a => rfl
  | ompHAfter s a => exact Function.update_eq_self _ _
  | ompCReset s => rfl

theorem sync_step (h₁ : ∀ a, e.op ≠ .ompHBefore s a) (h₂ : ∀ a, e.op ≠ .ompHAfter s a)
    (h₃ : e.op ≠ .ompCReset s) : (σ.step true e).sync s = σ.sync s := by
  obtain ⟨t, op⟩ := e
  cases op with
  | enterState a cs => rfl
  | exitState a => rfl
  | setState a cs => rfl
  | ompHBefore s' a =>
    have : s ≠ s' := by
      rintro rfl
      exact h₁ a rfl
    simp [step, this]
  | ompHAfter s' a =>
    have : s ≠ s' := by
      rintro rfl
      exact h₂ a rfl
    simp [step, this]
  | ompCReset s' =>
    have : s ≠ s' := by
      rintro rfl
      exact h₃ rfl
    simp [step, this]

end

end Sys

/-! ## Positions in a run -/

section
variable {T S : Type} {es : List (Event T S)} {k : ℕ} {e : Event T S}

def timeAt (es : List (Event T S)) (k : ℕ) : ℚ := ((es.take k).getLast?.map (·.time)).getD 0

theorem take_succ_of_some (h : es[k]? = some e) : es.take (k + 1) = es.take k ++ [e] := by
  rw [List.take_add_one, h]; rfl

theorem take_succ_of_none (h : es[k]? = none) : es.take (k + 1) = es.take k := by
  rw [List.take_add_one, h]; exact List.append_nil _

theorem timeAt_succ (h : es[k]? = some e) : timeAt es (k + 1) = e.time := by
  simp [timeAt, take_succ_of_some h]

theorem timeAt_succ_of_none (h : es[k]? = none) : timeAt es (k + 1) = timeAt es k := by
  unfold timeAt; rw [take_succ_of_none h]

theorem timeAt_le_succ (hs : es.Pairwise (·.time ≤ ·.time)) (hk : k ≠ 0) :
    timeAt es k ≤ timeAt es (k + 1) := by
  obtain ⟨j, rfl⟩ := Nat.exists_eq_succ_of_ne_zero hk
  cases h : es[j + 1]? with
  | none => exact (timeAt_succ_of_none h).ge
  | some e =>
    obtain ⟨hlt, he⟩ := List.getElem?_eq_some_iff.mp h
    have hj : es[j]? = some es[j] := List.getElem?_eq_getElem (by omega)
    rw [timeAt_succ hj, timeAt_succ h, ← he]
    exact List.pairwise_iff_getElem.mp hs j (j + 1) (by omega) hlt (by omega)

variable [DecidableEq T] [DecidableEq S]

def after (es : List (Event T S)) (k : ℕ) : Sys T S :=
  (Sys.machine T S).run (.start T S) (es.take k)

def stateAt (es : List (Event T S)) (k : ℕ) (th : T) : ClockState :=
  ((after es k).thread th).getState

theorem after_succ (h : es[k]? = some e) : after es (k + 1) = (after es k).step true e :=
  Machine.after_succ h

theorem after_succ_of_none (h : es[k]? = none) : after es (k + 1) = after es k :=
  Machine.after_succ_of_none h

end

end CritPath
