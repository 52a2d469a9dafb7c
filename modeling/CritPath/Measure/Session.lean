import CritPath.Clock.Ipc
import CritPath.Clock.System

/-!
# Measurements

A session is a system of clocks with the measurement around it: the flag
`running`, the end time that `stopMeasurement` records, the registered thread
clocks and the buffers that MPI fills. A label is an action with its time.
While the tool runs the calls change the clocks; after the stop they change
nothing, and `finishMeasurement` closes the finishing thread's clock and all
registered ones at the recorded end time (`closing_finishMeasurement`).
-/

namespace CritPath

open Lib

/-- The clocks of a process and the globals of the measurement. `B` names MPI buffers. -/
structure Session (T S B : Type) where
  sys : Sys T S
  ipc : B → IpcData
  running : Bool
  endProgrammTime : ℚ
  finished : Bool
  threadClocks : List T

inductive Action (T S B : Type) where
  | op (o : Op T S)
  | mpiHappensBefore (th : T) (b : B)
  | mpiHappensAfter (th : T) (b : B)
  /-- The MPI library writes a buffer. -/
  | receive (b : B) (uc : IpcData)
  | stopMeasurement
  | finishMeasurement (th : T)

/-- The calls of the application: everything but the end of the measurement, and no state is
replaced from outside. -/
def Action.IsCall {T S B : Type} : Action T S B → Prop
  | .op (.setState _ _) | .stopMeasurement | .finishMeasurement _ => False
  | _ => True

theorem Action.IsCall.ne_setState {T S B : Type} {o : Op T S}
    (h : (Action.op o : Action T S B).IsCall) (p : T) (cs : ClockState) : o ≠ .setState p cs := by
  rintro rfl
  exact h

namespace Session

variable {T S B : Type}

def start (S B : Type) (threadClocks : List T) : Session T S B :=
  ⟨.start T S, fun _ => {}, true, 0, false, threadClocks⟩

/-- `stopMeasurement(time)`: the first one counts. -/
def stopMeasurement (time : ℚ) (σ : Session T S B) : Session T S B :=
  if σ.running then { σ with endProgrammTime := time, running := false } else σ

variable [DecidableEq T]

/-- `thread_clock->setState(endProgrammTime, STATE_INIT)` on one thread. -/
def close (now : ℚ) (σ : Session T S B) (th : T) : Session T S B :=
  let c := (σ.sys.thread th).setState σ.running σ.endProgrammTime .init now
  { σ with sys := σ.sys.setThread th c }

/-- The body of the loop over `thread_clocks`. -/
def closeOpen (now : ℚ) (σ : Session T S B) (th : T) : Session T S B :=
  if (σ.sys.thread th).getState ≠ .init then σ.close now th else σ

/-- What `finishMeasurement` does to the clocks. -/
def finishMeasurement (now : ℚ) (me : T) (σ : Session T S B) : Session T S B :=
  if σ.finished then σ
  else
    let σ := { σ with finished := true }
    let σ := σ.stopMeasurement now
    let σ := σ.close now me
    σ.threadClocks.foldl (closeOpen now) σ

variable [DecidableEq S] [DecidableEq B]

def step (σ : Session T S B) (a : ℚ × Action T S B) : Session T S B :=
  match a.2 with
  | .op o => { σ with sys := σ.sys.step σ.running ⟨a.1, o⟩ }
  | .mpiHappensBefore th b =>
    { σ with ipc := Function.update σ.ipc b (σ.sys.thread th).mpiHappensBefore }
  | .mpiHappensAfter th b =>
    let c := (σ.sys.thread th).mpiHappensAfter σ.running (σ.ipc b)
    { σ with sys := σ.sys.setThread th c }
  | .receive b uc => { σ with ipc := Function.update σ.ipc b uc }
  | .stopMeasurement => σ.stopMeasurement a.1
  | .finishMeasurement th => σ.finishMeasurement a.1 th

def machine (T S B : Type) [DecidableEq T] [DecidableEq S] [DecidableEq B] :
    Machine (Session T S B) (ℚ × Action T S B) where
  step := step

def topState (σ : Session T S B) (th : T) : ClockState := (σ.sys.thread th).getState

end Session

/-! ## The bottom of the stacks -/

/-- The stack is not empty and its bottom entry is `STATE_INIT`. -/
def ThreadClock.Based (c : ThreadClock) : Prop := c.stack.getLast? = some .init

theorem ThreadClock.Based.ne_nil {c : ThreadClock} (h : c.Based) : c.stack ≠ [] := by
  rintro he
  simp [Based, he] at h

theorem ThreadClock.Based.enterState {c : ThreadClock} (h : c.Based) (r : Bool) (t now : ℚ)
    (cs : ClockState) : (c.enterState r t cs now).Based := by
  cases r with
  | false => exact h
  | true =>
    unfold Based at *
    rw [stack_enterState, List.getLast?_cons, h]
    rfl

theorem ThreadClock.Based.exitState {c : ThreadClock} (h : c.Based) (r : Bool) (t now : ℚ) :
    (c.exitState r t now).Based := by
  cases r with
  | false => exact h
  | true =>
    unfold Based at *
    rw [stack_exitState]
    split
    · exact h
    · -- the top is not the bottom
      rename_i hne
      obtain ⟨cl, _ | ⟨cs, _ | ⟨cs', st⟩⟩⟩ := c
      · cases h
      · simp_all [getState]
      · simpa using h

theorem ThreadClock.Based.close {c : ThreadClock} (h : c.Based) (r : Bool) (t now : ℚ) :
    (c.setState r t .init now).Based := by
  have hst : (c.setState r t .init now).stack = .init :: c.stack.tail := by
    cases r <;> simp [setState]
  unfold Based at *
  obtain ⟨cl, _ | ⟨cs, _ | ⟨cs', st⟩⟩⟩ := c
  · cases h
  · simp [hst]
  · simpa [hst] using h

theorem Sys.based_step {T S : Type} [DecidableEq T] [DecidableEq S] {σ : Sys T S} {e : Event T S}
    (r : Bool) (hop : ∀ th cs, e.op ≠ .setState th cs) (h : ∀ p, (σ.thread p).Based) (p : T) :
    ((σ.step r e).thread p).Based := by
  have hset : ∀ {q c}, c.Based → ((σ.setThread q c).thread p).Based := fun hc =>
    (Function.forall_update_iff σ.thread fun _ c => c.Based).mpr ⟨hc, fun p _ => h p⟩ p
  obtain ⟨t, op⟩ := e
  cases op with
  | enterState q cs => exact hset ((h q).enterState ..)
  | exitState q => exact hset ((h q).exitState ..)
  | setState q cs => exact absurd rfl (hop q cs)
  | ompHBefore s q => exact h p
  | ompHAfter s q =>
    have hc : ((σ.sync s).ompHAfter r (σ.thread q)).2.Based := by
      unfold ThreadClock.Based; rw [SyncClock.stack_ompHAfter]; exact h q
    exact hset hc
  | ompCReset s => exact h p

namespace Session

section
variable {T S B : Type} (σ : Session T S B) (t : ℚ)

@[simp] theorem running_stopMeasurement : (σ.stopMeasurement t).running = false := by
  unfold stopMeasurement
  split
  · rfl
  · rename_i h
    simpa using h

@[simp] theorem finished_stopMeasurement : (σ.stopMeasurement t).finished = σ.finished := by
  unfold stopMeasurement
  split <;> rfl

@[simp] theorem sys_stopMeasurement : (σ.stopMeasurement t).sys = σ.sys := by
  unfold stopMeasurement
  split <;> rfl

@[simp] theorem threadClocks_stopMeasurement :
    (σ.stopMeasurement t).threadClocks = σ.threadClocks := by
  unfold stopMeasurement
  split <;> rfl

@[simp] theorem endProgrammTime_stopMeasurement : (σ.stopMeasurement t).endProgrammTime =
    if σ.running then t else σ.endProgrammTime := by
  unfold stopMeasurement
  split <;> rfl

end

section
variable {T S B : Type} [DecidableEq T] {p : Session T S B → Prop} {now : ℚ}
  {σ : Session T S B}

/-- What closing a clock keeps, the loop over `thread_clocks` keeps. -/
theorem foldl_closeOpen_inv (hclose : ∀ σ th, p σ → p (σ.close now th)) (L : List T) (h : p σ) :
    p (L.foldl (closeOpen now) σ) := by
  induction L generalizing σ with
  | nil => exact h
  | cons th L ih =>
    rw [List.foldl_cons]
    apply ih
    unfold closeOpen
    split
    · exact hclose σ th h
    · exact h

/-- What holds after the stop and is kept by closing a clock holds after `finishMeasurement`. -/
theorem finishMeasurement_inv (now : ℚ) (hclose : ∀ σ th, p σ → p (σ.close now th)) (me : T)
    (hdone : σ.finished = true → p σ)
    (hstop : σ.finished = false → p (stopMeasurement now { σ with finished := true })) :
    p (σ.finishMeasurement now me) := by
  unfold finishMeasurement
  split
  · rename_i hf
    exact hdone hf
  · rename_i hf
    have h := hstop (by simpa using hf)
    exact foldl_closeOpen_inv hclose _ (hclose _ me h)

end

section
variable {T S B : Type} [DecidableEq T] [DecidableEq S] [DecidableEq B]
  {σ : Session T S B} {a : ℚ × Action T S B} {th : T} {i : ClockType}

theorem globals_step (h : a.2.IsCall) : (σ.step a).running = σ.running ∧
    (σ.step a).endProgrammTime = σ.endProgrammTime ∧ (σ.step a).finished = σ.finished ∧
    (σ.step a).threadClocks = σ.threadClocks := by
  obtain ⟨t, act⟩ := a
  cases act with
  | op o => exact ⟨rfl, rfl, rfl, rfl⟩
  | mpiHappensBefore p b => exact ⟨rfl, rfl, rfl, rfl⟩
  | mpiHappensAfter p b => exact ⟨rfl, rfl, rfl, rfl⟩
  | receive b uc => exact ⟨rfl, rfl, rfl, rfl⟩
  | stopMeasurement => exact h.elim
  | finishMeasurement p => exact h.elim

theorem globals_run {calls : List (ℚ × Action T S B)} (h : ∀ a ∈ calls, a.2.IsCall) :
    ((machine T S B).run σ calls).running = σ.running ∧
    ((machine T S B).run σ calls).endProgrammTime = σ.endProgrammTime ∧
    ((machine T S B).run σ calls).finished = σ.finished ∧
    ((machine T S B).run σ calls).threadClocks = σ.threadClocks := by
  induction calls generalizing σ with
  | nil => exact ⟨rfl, rfl, rfl, rfl⟩
  | cons a as ih =>
    obtain ⟨h₁, h₂, h₃, h₄⟩ := globals_step (σ := σ) (h a (List.mem_cons_self ..))
    rw [← h₁, ← h₂, ← h₃, ← h₄]
    exact ih fun b hb => h b (List.mem_cons_of_mem _ hb)

theorem thread_step_mpiHappensAfter (σ : Session T S B) (th : T) (i : ClockType) (t : ℚ) (p : T)
    (b : B) : (((σ.step (t, .mpiHappensAfter p b)).sys.thread th).clocks i).thread =
      ((σ.sys.thread th).clocks i).thread := by
  by_cases hp : th = p
  · subst hp; simp [step, ThreadClock.thread_mpiHappensAfter]
  · simp [step, hp]

theorem thread_step_ompHAfter (σ : Session T S B) (th : T) (i : ClockType) (t : ℚ) (s : S)
    (p : T) : (((σ.step (t, .op (.ompHAfter s p))).sys.thread th).clocks i).thread =
      ((σ.sys.thread th).clocks i).thread := by
  by_cases hp : th = p
  · subst hp; simp [step, Sys.step, SyncClock.thread_ompHAfter]
  · simp [step, Sys.step, hp]

theorem topState_step_mpiHappensAfter (σ : Session T S B) (th : T) (t : ℚ) (p : T) (b : B) :
    (σ.step (t, .mpiHappensAfter p b)).topState th = σ.topState th := by
  by_cases hp : th = p
  · subst hp; simp [step, topState]
  · simp [step, topState, hp]

/-- While the tool is running a call at time `t` leaves the thread value of that time alone. -/
theorem elapsed_thread_step (hr : σ.running = true) (h : a.2.IsCall) :
    ((σ.step a).sys.thread th).elapsed i .thread a.1 =
      (σ.sys.thread th).elapsed i .thread a.1 := by
  obtain ⟨t, act⟩ := a
  cases act with
  | op o => simp only [step, hr]; exact Sys.elapsed_thread_step
  | mpiHappensBefore p b => rfl
  | mpiHappensAfter p b =>
    have hth := thread_step_mpiHappensAfter σ th i t p b
    have hst := topState_step_mpiHappensAfter σ th t p b
    unfold topState at hst
    simp only [ThreadClock.elapsed, CpClocks.get, hth, hst]
  | receive b uc => rfl
  | stopMeasurement => exact h.elim
  | finishMeasurement p => exact h.elim

theorem thread_step_stopped (hr : σ.running = false) (h : a.2.IsCall) :
    (σ.step a).sys.thread = σ.sys.thread := by
  obtain ⟨t, act⟩ := a
  cases act with
  | op o =>
    simp only [step, hr]
    exact Sys.thread_step_false h.ne_setState
  | mpiHappensBefore p b => rfl
  | mpiHappensAfter p b => simp [step, hr, ThreadClock.mpiHappensAfter]
  | receive b uc => rfl
  | stopMeasurement => exact h.elim
  | finishMeasurement p => exact h.elim

theorem thread_run_stopped {calls : List (ℚ × Action T S B)} (hr : σ.running = false)
    (h : ∀ a ∈ calls, a.2.IsCall) :
    ((machine T S B).run σ calls).sys.thread = σ.sys.thread := by
  induction calls generalizing σ with
  | nil => rfl
  | cons a as ih =>
    have ha := h a (List.mem_cons_self ..)
    exact (ih ((globals_step ha).1.trans hr) fun b hb => h b (List.mem_cons_of_mem _ hb)).trans
      (thread_step_stopped hr ha)

end

/-! ## Closing the clocks -/

section
variable {T S B : Type} {σ : Session T S B}

/-- From `σ` to `σ'` some clocks are closed at the end time: no value of that time changes. -/
structure Closing (σ σ' : Session T S B) : Prop where
  endTime : σ'.endProgrammTime = σ.endProgrammTime
  elapsed : ∀ th i x, (σ'.sys.thread th).elapsed i x σ.endProgrammTime =
    (σ.sys.thread th).elapsed i x σ.endProgrammTime
  init : ∀ th, σ.topState th = .init → σ'.topState th = .init

theorem Closing.refl (σ : Session T S B) : Closing σ σ := ⟨rfl, fun _ _ _ => rfl, fun _ h => h⟩

theorem Closing.trans {σ₁ σ₂ σ₃ : Session T S B} (h : Closing σ₁ σ₂) (h' : Closing σ₂ σ₃) :
    Closing σ₁ σ₃ where
  endTime := h'.endTime.trans h.endTime
  elapsed th i x := by
    have := h'.elapsed th i x
    rw [h.endTime] at this
    exact this.trans (h.elapsed th i x)
  init th hth := h'.init th (h.init th hth)

variable [DecidableEq T]

theorem thread_close (now : ℚ) (p : T) (hE : σ.endProgrammTime ≠ 0) :
    (σ.close now p).sys.thread = Function.update σ.sys.thread p
      ((σ.sys.thread p).setState true σ.endProgrammTime .init σ.endProgrammTime) := by
  simp only [close, Sys.thread_setThread, ThreadClock.setState_init _ _ hE now]

theorem closing_close (now : ℚ) (p : T) (hE : σ.endProgrammTime ≠ 0) :
    Closing σ (σ.close now p) ∧ (σ.close now p).topState p = .init := by
  have hp : (σ.close now p).topState p = .init := by
    simp [topState, thread_close now p hE]
  refine ⟨⟨rfl, fun th i x => ?_, fun th h => ?_⟩, hp⟩
  · rw [thread_close now p hE]
    by_cases hth : th = p
    · subst hth; simp [ThreadClock.elapsed_setState]
    · simp [hth]
  · by_cases hth : th = p
    · rw [hth]; exact hp
    · simpa [topState, thread_close now p hE, hth] using h

theorem closing_closeOpen (now : ℚ) (p : T) (hE : σ.endProgrammTime ≠ 0) :
    Closing σ (σ.closeOpen now p) ∧ (σ.closeOpen now p).topState p = .init := by
  unfold closeOpen
  split
  · exact closing_close now p hE
  · rename_i h
    exact ⟨.refl σ, not_ne_iff.mp h⟩

theorem closing_foldl (now : ℚ) (L : List T) (hE : σ.endProgrammTime ≠ 0) :
    Closing σ (L.foldl (closeOpen now) σ) ∧
      ∀ p ∈ L, (L.foldl (closeOpen now) σ).topState p = .init := by
  induction L generalizing σ with
  | nil => exact ⟨.refl σ, by simp⟩
  | cons q L ih =>
    obtain ⟨hq, hinit⟩ := closing_closeOpen now q hE
    obtain ⟨hL, hall⟩ := ih (σ := σ.closeOpen now q) (by rw [hq.endTime]; exact hE)
    refine ⟨hq.trans hL, fun p hp => ?_⟩
    rcases List.mem_cons.mp hp with rfl | hp
    · exact hL.init p hinit
    · exact hall p hp

theorem closing_finishMeasurement (now : ℚ) (me : T) (hE : σ.endProgrammTime ≠ 0)
    (hr : σ.running = false) (hf : σ.finished = false) :
    Closing σ (σ.finishMeasurement now me) ∧
      ∀ p, p = me ∨ p ∈ σ.threadClocks → (σ.finishMeasurement now me).topState p = .init := by
  let σ₁ : Session T S B := { σ with finished := true }
  have heq : σ.finishMeasurement now me =
      σ.threadClocks.foldl (closeOpen now) (σ₁.close now me) := by
    simp [finishMeasurement, hf, stopMeasurement, hr, σ₁, close]
  have h₀ : Closing σ σ₁ := ⟨rfl, fun _ _ _ => rfl, fun _ h => h⟩
  obtain ⟨h₁, hme⟩ := closing_close (σ := σ₁) now me hE
  obtain ⟨h₂, hall⟩ := closing_foldl (σ := σ₁.close now me) now σ.threadClocks
    (by rw [h₁.endTime]; exact hE)
  rw [heq]
  refine ⟨(h₀.trans h₁).trans h₂, fun p hp => ?_⟩
  rcases hp with rfl | hp
  · exact h₂.init p hme
  · exact hall p hp

end

end Session

end CritPath
