import CritPath.Measure.Job
import CritPath.Measure.TimeOffsets

/-!
# A change of the time base

`getTime` subtracts `localTimeOffset`, which is zero until `init_timer_offsets`
sets it inside `MPI_Init`. If OpenMP came first the measurement is running then.
A process here gets its commands at instants of the raw clock, and the run is
compared with the one that has the offset from the start (`Apart`): up to the
change the two runs store the same times in different bases, afterwards the
clocks that were running keep a start time of the old base. In `MPI_Init` the
calling thread is in `STATE_MPI`, so its `CLOCK_OOMP` is one of them.
-/

namespace CritPath

open Lib

structure Process (T S B : Type) where
  session : Session T S B
  startProgrammTime : ℚ
  localTimeOffset : ℚ

namespace Process

def load (T S B : Type) (localTimeOffset raw : ℚ) : Process T S B where
  session := { Session.start S B [] with running := false }
  startProgrammTime := raw - localTimeOffset
  localTimeOffset := localTimeOffset

/-- `getTime()` at the instant `raw`. -/
def getTime {T S B : Type} (p : Process T S B) (raw : ℚ) : ℚ := raw - p.localTimeOffset

/-- The last lines of `init_timer_offsets`, with the rank's entry of the table. -/
def initTimerOffsets {T S B : Type} (offset : ℚ) (p : Process T S B) : Process T S B :=
  { p with localTimeOffset := offset }

section
variable {T S B : Type} [DecidableEq T] [DecidableEq S] [DecidableEq B]

def step (p : Process T S B) (e : ℚ × Command T S B) : Process T S B :=
  let now := p.getTime e.1
  { p with
    session := Job.perform p.startProgrammTime now p.session e.2
    startProgrammTime := Job.startsAt p.session p.startProgrammTime now e.2 }

/-- A worker thread begins before it does anything else. -/
def allowed (p : Process T S B) : Command T S B → Prop
  | .threadBegin th false => p.session.topState th = .init
  | _ => True

instance (p : Process T S B) : (c : Command T S B) → Decidable (p.allowed c)
  | .threadBegin th false => inferInstanceAs (Decidable (p.session.topState th = .init))
  | .threadBegin _ true | .act _ | .startTool .. | .stopTool _ | .mpiFinalize .. => .isTrue trivial

def machine (T S B : Type) [DecidableEq T] [DecidableEq S] [DecidableEq B] :
    Machine (Process T S B) (ℚ × Command T S B) where
  step := step
  guard p e := p.allowed e.2

instance (p : Process T S B) (e : ℚ × Command T S B) :
    Decidable ((machine T S B).guard p e) :=
  inferInstanceAs (Decidable (p.allowed e.2))

end

/-- `totalRuntimeReal` in `finishMeasurement`; `runtime` is the flag. -/
def totalRuntimeReal {T S B : Type} (runtime : ℚ) (p : Process T S B) : ℚ :=
  if runtime > 0 then runtime else p.session.endProgrammTime - p.startProgrammTime

end Process

structure Report (T : Type) where
  useful : T → CpClocks
  ompi : T → CpClocks
  oomp : T → CpClocks
  totalRuntimeReal : ℚ

def Process.report {T S B : Type} (runtime : ℚ) (p : Process T S B) : Report T where
  useful th := (p.session.sys.thread th).clocks .useful
  ompi th := (p.session.sys.thread th).clocks .ompi
  oomp th := (p.session.sys.thread th).clocks .oomp
  totalRuntimeReal := p.totalRuntimeReal runtime

/-! ## One thread clock in two runs -/

/-- `c` has gone through the same states as `c'` with all times larger by `d`, and its time
outside OpenMP is short by `k`. -/
structure ThreadClock.Apart (k d : ℚ) (c c' : ThreadClock) : Prop where
  stack : c.stack = c'.stack
  elapsed : ∀ t, c.elapsed .oomp .thread (t + d) = c'.elapsed .oomp .thread t - k

namespace ThreadClock

variable {k d : ℚ} {c c' : ThreadClock}

theorem Apart.getState (h : Apart k d c c') : c.getState = c'.getState := by
  unfold ThreadClock.getState
  rw [h.stack]

theorem Apart.of_elapsed (hstack : c.stack = c'.stack) {t : ℚ}
    (ht : c.elapsed .oomp .thread (t + d) = c'.elapsed .oomp .thread t - k) : Apart k d c c' := by
  refine ⟨hstack, fun s => ?_⟩
  have hstate : c.getState = c'.getState := by
    unfold ThreadClock.getState
    rw [hstack]
  rw [elapsed_later c _ _ (t + d), elapsed_later c' _ _ t, ht, hstate, add_sub_add_right_eq_sub]
  ring

theorem Apart.enterState (h : Apart k d c c') (r : Bool) (t : ℚ) (cs : ClockState) :
    Apart k d (c.enterState r (t + d) cs (t + d)) (c'.enterState r t cs t) := by
  cases r with
  | false => exact h
  | true =>
    refine .of_elapsed (t := t) (by simp [h.stack]) ?_
    rw [elapsed_enterState, elapsed_enterState, h.elapsed]

theorem Apart.exitState (h : Apart k d c c') (r : Bool) (t : ℚ) :
    Apart k d (c.exitState r (t + d) (t + d)) (c'.exitState r t t) := by
  cases r with
  | false => exact h
  | true =>
    refine .of_elapsed (t := t) (by rw [stack_exitState, stack_exitState, h.stack, h.getState]) ?_
    rw [elapsed_exitState, elapsed_exitState, h.elapsed]

theorem Apart.setState_true (h : Apart k d c c') (t : ℚ) (cs : ClockState) :
    Apart k d (c.setState true (t + d) cs (t + d)) (c'.setState true t cs t) := by
  refine .of_elapsed (t := t) (by simp [setState, h.stack]) ?_
  rw [elapsed_setState, elapsed_setState, h.elapsed]

theorem Apart.setState (h : Apart k d c c') (r : Bool) (t : ℚ) (cs : ClockState) :
    Apart k d (c.setState r (t + d) cs (t + d)) (c'.setState r t cs t) := by
  cases r with
  | true => exact h.setState_true t cs
  | false =>
    by_cases hcs : cs = .init
    · subst hcs
      exact h.setState_true t .init
    · simpa [ThreadClock.setState, hcs] using h

theorem Apart.congr (h : Apart k d c c') {e e' : ThreadClock} (hs : e.stack = c.stack)
    (hs' : e'.stack = c'.stack) (ht : (e.clocks .oomp).thread = (c.clocks .oomp).thread)
    (ht' : (e'.clocks .oomp).thread = (c'.clocks .oomp).thread) : Apart k d e e' := by
  refine .of_elapsed (t := 0) (by rw [hs, hs', h.stack]) ?_
  have h0 := h.elapsed 0
  simp only [ThreadClock.elapsed, CpClocks.get, ThreadClock.getState] at h0 ⊢
  rw [hs, hs', ht, ht']
  exact h0

theorem elapsed_enterState_omp (hinit : c.getState = .init) (t now u : ℚ) :
    (c.enterState true t .omp now).elapsed .oomp .thread u = c.elapsed .oomp .thread u := by
  simp [elapsed, ThreadClock.enterState, switchState, hinit, runTerm, State]

theorem Apart.enterState_omp (h : Apart k d c c') (hinit : c.getState = .init) (r : Bool)
    (t now t' now' : ℚ) : Apart k d (c.enterState r t .omp now) (c'.enterState r t' .omp now') := by
  cases r with
  | false => exact h
  | true =>
    refine .of_elapsed (t := 0) (by simp [h.stack]) ?_
    rw [elapsed_enterState_omp hinit, elapsed_enterState_omp (h.getState.symm.trans hinit),
      h.elapsed]

/-- The clocks that run at a change of the base lose `d`. -/
theorem Apart.rebase (h : Apart 0 d c c') : Apart (runTerm c.getState .oomp d) 0 c c' := by
  refine .of_elapsed (t := 0) h.stack ?_
  have h0 := h.elapsed 0
  rw [elapsed_later c _ _ 0 (0 + d)] at h0
  simp only [add_zero, zero_add, sub_zero] at h0 ⊢
  rw [← h0]
  ring

end ThreadClock

/-! ## One session in two runs -/

theorem Sys.apart_step {T S : Type} [DecidableEq T] [DecidableEq S] {k : T → ℚ} {d : ℚ}
    {σ σ' : Sys T S} (h : ∀ p, (σ.thread p).Apart (k p) d (σ'.thread p)) (r : Bool) (t : ℚ)
    (o : Op T S) (p : T) :
    ((σ.step r ⟨t + d, o⟩).thread p).Apart (k p) d ((σ'.step r ⟨t, o⟩).thread p) := by
  have hset : ∀ {q c c'}, c.Apart (k q) d c' →
      ((σ.setThread q c).thread p).Apart (k p) d ((σ'.setThread q c').thread p) := by
    intro q c c' hc
    by_cases hp : p = q
    · subst hp
      simpa using hc
    · simpa [hp] using h p
  cases o with
  | enterState q cs => exact hset ((h q).enterState ..)
  | exitState q => exact hset ((h q).exitState ..)
  | setState q cs => exact hset ((h q).setState ..)
  | ompHBefore s q => exact h p
  | ompHAfter s q =>
    exact hset ((h q).congr (SyncClock.stack_ompHAfter ..) (SyncClock.stack_ompHAfter ..)
      (SyncClock.thread_ompHAfter ..) (SyncClock.thread_ompHAfter ..))
  | ompCReset s => exact h p

/-- The sessions of two runs of the same commands. Times are larger by `d` in `σ`, and thread
`th` is short by `k th`. -/
structure Session.Apart {T S B : Type} (k : T → ℚ) (d : ℚ) (σ σ' : Session T S B) : Prop where
  running : σ.running = σ'.running
  finished : σ.finished = σ'.finished
  threadClocks : σ.threadClocks = σ'.threadClocks
  clock : ∀ th, (σ.sys.thread th).Apart (k th) d (σ'.sys.thread th)
  endTime : d = 0 → σ.running = false → σ.endProgrammTime = σ'.endProgrammTime

namespace Session.Apart

section
variable {T S B : Type} {k : T → ℚ} {d : ℚ} {σ σ' : Session T S B}

theorem stopMeasurement (h : Apart k d σ σ') (t : ℚ) :
    Apart k d (σ.stopMeasurement (t + d)) (σ'.stopMeasurement t) := by
  unfold Session.stopMeasurement
  rw [← h.running]
  split
  · exact ⟨rfl, h.finished, h.threadClocks, h.clock, fun hd _ => by simp [hd]⟩
  · exact h

variable [DecidableEq T]

theorem setThread (h : Apart k d σ σ') {th : T} {c c' : ThreadClock} (hc : c.Apart (k th) d c') :
    Apart k d { σ with sys := σ.sys.setThread th c }
      { σ' with sys := σ'.sys.setThread th c' } := by
  refine ⟨h.running, h.finished, h.threadClocks, fun q => ?_, h.endTime⟩
  by_cases hq : q = th
  · subst hq
    simpa using hc
  · simpa [hq] using h.clock q

theorem close (h : Apart k 0 σ σ') (hr : σ.running = false) (now : ℚ) (th : T) :
    Apart k 0 (σ.close now th) (σ'.close now th) := by
  have hE : σ'.endProgrammTime = σ.endProgrammTime := (h.endTime rfl hr).symm
  refine h.setThread ?_
  rw [hE, ← h.running, hr]
  by_cases h0 : σ.endProgrammTime = 0
  · -- `setState` reads the time itself
    have hnow := (h.clock th).setState false now .init
    rw [add_zero] at hnow
    simpa [ThreadClock.setState, ThreadClock.switchState, h0] using hnow
  · have hat := (h.clock th).setState_true σ.endProgrammTime .init
    rw [add_zero] at hat
    rwa [ThreadClock.setState_init (σ.sys.thread th) _ h0,
      ThreadClock.setState_init (σ'.sys.thread th) _ h0]

theorem running_closeOpen (σ : Session T S B) (now : ℚ) (th : T) :
    (σ.closeOpen now th).running = σ.running := by
  unfold Session.closeOpen
  split <;> rfl

theorem closeOpen (h : Apart k 0 σ σ') (hr : σ.running = false) (now : ℚ) (th : T) :
    Apart k 0 (σ.closeOpen now th) (σ'.closeOpen now th) := by
  unfold Session.closeOpen
  rw [(h.clock th).getState]
  split
  · exact h.close hr now th
  · exact h

theorem foldl_closeOpen (h : Apart k 0 σ σ') (hr : σ.running = false) (now : ℚ) (L : List T) :
    Apart k 0 (L.foldl (Session.closeOpen now) σ) (L.foldl (Session.closeOpen now) σ') := by
  induction L generalizing σ σ' with
  | nil => exact h
  | cons th L ih => exact ih (h.closeOpen hr now th) (by rw [running_closeOpen, hr])

theorem finishMeasurement (h : Apart k 0 σ σ') (now : ℚ) (th : T) :
    Apart k 0 (σ.finishMeasurement now th) (σ'.finishMeasurement now th) := by
  unfold Session.finishMeasurement
  rw [← h.finished]
  split
  · exact h
  · have h₁ : Apart k 0 { σ with finished := true } { σ' with finished := true } :=
      ⟨h.running, rfl, h.threadClocks, h.clock, h.endTime⟩
    have h₂ := h₁.stopMeasurement now
    rw [add_zero] at h₂
    have hr := Session.running_stopMeasurement { σ with finished := true } now
    have h₃ := h₂.close hr now th
    simp only [h₃.threadClocks]
    exact h₃.foldl_closeOpen hr now _

theorem startTool (h : Apart k d σ σ') (t : ℚ) (th : T) (cs : ClockState) :
    Apart k d (σ.startTool (t + d) th cs) (σ'.startTool t th cs) := by
  unfold Session.startTool
  rw [← h.running]
  split
  · exact h
  · have h₁ : Apart k d { σ with running := true } { σ' with running := true } :=
      ⟨rfl, h.finished, h.threadClocks, h.clock, fun _ h => nomatch h⟩
    refine h₁.setThread (ThreadClock.Apart.enterState ?_ true t cs)
    simp only [(h.clock th).getState]
    split
    · exact (h.clock th).enterState true t .useful
    · exact h.clock th

theorem stopTool (h : Apart k d σ σ') (t : ℚ) (th : T) :
    Apart k d (σ.stopTool (t + d) th) (σ'.stopTool t th) := by
  unfold Session.stopTool
  rw [← h.running]
  split
  · rename_i hr
    -- the clock is closed at the time of the stop
    have h₁ := h.stopMeasurement t
    have hr' : σ'.running = true := h.running.symm.trans hr
    simp only [Session.stopMeasurement, hr, hr', if_true] at h₁ ⊢
    exact h₁.setThread ((h.clock th).setState false t .init)
  · exact h

theorem threadBegin (h : Apart k d σ σ') (start start' t : ℚ) (th : T) (initial : Bool)
    (hinit : initial = false → σ.topState th = .init) :
    Apart k d (σ.threadBegin start (t + d) th initial) (σ'.threadBegin start' t th initial) := by
  have hclock : ((σ.sys.thread th).enterState σ.running (if initial then 0 else start) .omp
      (t + d)).Apart (k th) d
      ((σ'.sys.thread th).enterState σ'.running (if initial then 0 else start') .omp t) := by
    rw [← h.running]
    cases initial with
    | true =>
      have hnow := (h.clock th).enterState σ.running t .omp
      simpa [ThreadClock.enterState, ThreadClock.switchState] using hnow
    | false => exact (h.clock th).enterState_omp (hinit rfl) σ.running ..
  have h₁ := h.setThread hclock
  exact ⟨h₁.running, h₁.finished, congrArg (· ++ [th]) h.threadClocks, h₁.clock, h₁.endTime⟩

theorem mpiMerge (h : Apart k d σ σ') (th : T) (uc uc' : IpcData) (r r' : Bool) :
    Apart k d { σ with sys := σ.sys.setThread th ((σ.sys.thread th).mpiHappensAfter r uc) }
      { σ' with sys := σ'.sys.setThread th ((σ'.sys.thread th).mpiHappensAfter r' uc') } :=
  h.setThread ((h.clock th).congr (ThreadClock.stack_mpiHappensAfter ..)
    (ThreadClock.stack_mpiHappensAfter ..) (ThreadClock.thread_mpiHappensAfter ..)
    (ThreadClock.thread_mpiHappensAfter ..))

end

section
variable {T S B : Type} [DecidableEq T] [DecidableEq S] [DecidableEq B] {k : T → ℚ} {d : ℚ}
  {σ σ' : Session T S B}

theorem op (h : Apart k d σ σ') (t : ℚ) (o : Op T S) :
    Apart k d (σ.step (t + d, .op o)) (σ'.step (t, .op o)) := by
  refine ⟨h.running, h.finished, h.threadClocks, ?_, h.endTime⟩
  simp only [Session.step, ← h.running]
  exact Sys.apart_step h.clock σ.running t o

theorem perform (h : Apart k d σ σ') (start start' t : ℚ) (c : Command T S B)
    (hbegin : ∀ th, c = .threadBegin th false → σ.topState th = .init)
    (hfinish : d = 0 ∨ ∀ th, c ≠ .act (.finishMeasurement th)) :
    Apart k d (Job.perform start (t + d) σ c) (Job.perform start' t σ' c) := by
  cases c with
  | act a =>
    cases a with
    | op o => exact h.op t o
    | mpiHappensBefore th b => exact ⟨h.running, h.finished, h.threadClocks, h.clock, h.endTime⟩
    | mpiHappensAfter th b => exact h.mpiMerge th (σ.ipc b) (σ'.ipc b) σ.running σ'.running
    | receive b uc => exact ⟨h.running, h.finished, h.threadClocks, h.clock, h.endTime⟩
    | stopMeasurement => exact h.stopMeasurement t
    | finishMeasurement th =>
      obtain rfl : d = 0 := hfinish.resolve_right fun hne => hne th rfl
      rw [add_zero]
      exact h.finishMeasurement t th
  | threadBegin th initial =>
    refine h.threadBegin start start' t th initial fun hi => ?_
    subst hi
    exact hbegin th rfl
  | startTool th cs => exact h.startTool t th cs
  | stopTool th => exact h.stopTool t th
  | mpiFinalize th b => exact h.mpiMerge th (σ.ipc b) (σ'.ipc b) true true

end

end Session.Apart

/-! ## Two runs -/

namespace Process

variable {T S B : Type}

/-- The same commands at the same instants, read with offsets that are `d` apart. -/
structure Apart (k : T → ℚ) (d : ℚ) (p p' : Process T S B) : Prop where
  session : p.session.Apart k d p'.session
  offset : p'.localTimeOffset = p.localTimeOffset + d

theorem apart_load (T S B : Type) (δ x₀ : ℚ) :
    Apart (fun _ => 0) δ (load T S B 0 x₀) (load T S B δ x₀) where
  session :=
    { running := rfl
      finished := rfl
      threadClocks := rfl
      clock := fun _ => .of_elapsed (t := 0) rfl (by simp [load, Session.start, Sys.start])
      endTime := fun _ _ => rfl }
  offset := (zero_add δ).symm

theorem initTimerOffsets_self {δ : ℚ} {p : Process T S B} (h : p.localTimeOffset = δ) :
    p.initTimerOffsets δ = p := by
  subst h
  rfl

theorem Apart.initTimerOffsets {δ : ℚ} {p p' : Process T S B} (h : Apart (fun _ => 0) δ p p')
    (h0 : p.localTimeOffset = 0) (hr : p.session.running = true) :
    Apart (fun th => runTerm (p.session.topState th) .oomp δ) 0 (p.initTimerOffsets δ) p' where
  session :=
    { running := h.session.running
      finished := h.session.finished
      threadClocks := h.session.threadClocks
      clock := fun th => (h.session.clock th).rebase
      endTime := fun _ hstop => nomatch hr.symm.trans hstop }
  offset := by
    rw [h.offset, h0, zero_add]
    exact (add_zero δ).symm

variable [DecidableEq T] [DecidableEq S] [DecidableEq B] {k : T → ℚ} {d : ℚ}

theorem Apart.step {p p' : Process T S B} (h : Apart k d p p') {e : ℚ × Command T S B}
    (hallowed : p.allowed e.2) (hfinish : d = 0 ∨ ∀ th, e.2 ≠ .act (.finishMeasurement th)) :
    Apart k d (p.step e) (p'.step e) where
  session := by
    have hnow : p.getTime e.1 = p'.getTime e.1 + d := by
      rw [getTime, getTime, h.offset]
      ring
    have hbegin : ∀ th, e.2 = .threadBegin th false → p.session.topState th = .init := by
      intro th he
      rw [he] at hallowed
      exact hallowed
    have := h.session.perform p.startProgrammTime p'.startProgrammTime (p'.getTime e.1) e.2 hbegin
      hfinish
    rwa [← hnow] at this
  offset := h.offset

theorem Apart.run {p p' : Process T S B} (h : Apart k d p p') {es : List (ℚ × Command T S B)}
    (hes : (machine T S B).Valid p es)
    (hfinish : d = 0 ∨ ∀ e ∈ es, ∀ th, e.2 ≠ .act (.finishMeasurement th)) :
    Apart k d ((machine T S B).run p es) ((machine T S B).run p' es) := by
  have hcond : (machine T S B).Along (fun _ e => d = 0 ∨ ∀ th, e.2 ≠ .act (.finishMeasurement th))
      p es :=
    Machine.along_of_forall p fun e he => hfinish.imp_right fun hno => hno e he
  exact (Machine.along_and.mpr ⟨hes, hcond⟩).sim (R := Apart k d)
    (fun _ _ _ hR hl => hR.step hl.1 hl.2) h

theorem localTimeOffset_run (p : Process T S B) (es : List (ℚ × Command T S B)) :
    ((machine T S B).run p es).localTimeOffset = p.localTimeOffset :=
  Machine.run_inv (I := fun q : Process T S B => q.localTimeOffset = p.localTimeOffset)
    (fun _ _ hq => hq) rfl es

end Process

section
variable {T S B : Type} [DecidableEq T] [DecidableEq S] [DecidableEq B]

def Process.loadedRun (offset x₀ : ℚ) (es : List (ℚ × Command T S B)) : Process T S B :=
  (machine T S B).run (load T S B offset x₀) es

/-- The process after `pre` with offset zero, the change to `δ`, and `post`. -/
def Process.rebasedRun (δ x₀ : ℚ) (pre post : List (ℚ × Command T S B)) : Process T S B :=
  (machine T S B).run ((loadedRun 0 x₀ pre).initTimerOffsets δ) post

/-- An offset `δ` that is set while the tool is running and thread `me` is in `MPI_Init` is not
seen in the report iff it is zero: otherwise `CLOCK_OOMP` of thread `me`, which runs in
`STATE_MPI`, is wrong by `δ`. -/
theorem report_rebasedRun_iff (x₀ δ runtime : ℚ) (pre post : List (ℚ × Command T S B)) (me : T)
    (hpre : (Process.machine T S B).Valid (.load T S B 0 x₀) pre)
    (hopen : ∀ e ∈ pre, ∀ th, e.2 ≠ .act (.finishMeasurement th))
    (hrun : (Process.loadedRun 0 x₀ pre).session.running = true)
    (hme : (Process.loadedRun 0 x₀ pre).session.topState me = .mpi)
    (hpost : (Process.machine T S B).Valid ((Process.loadedRun 0 x₀ pre).initTimerOffsets δ) post) :
    (Process.rebasedRun δ x₀ pre post).report runtime =
      (Process.loadedRun δ x₀ (pre ++ post)).report runtime ↔ δ = 0 := by
  have hoff : (Process.loadedRun 0 x₀ pre).localTimeOffset = 0 :=
    Process.localTimeOffset_run (.load T S B 0 x₀) pre
  have h₁ : Process.Apart (fun _ => 0) δ (Process.loadedRun 0 x₀ pre)
      (Process.loadedRun δ x₀ pre) :=
    (Process.apart_load T S B δ x₀).run hpre (.inr hopen)
  have h₂ := (h₁.initTimerOffsets hoff hrun).run hpost (.inl rfl)
  have hideal : Process.loadedRun δ x₀ (pre ++ post) =
      (Process.machine T S B).run (Process.loadedRun δ x₀ pre) post := Machine.run_append ..
  rw [hideal]
  constructor
  · intro heq
    -- compare the stored times outside OpenMP of thread `me`
    have hstored := congrArg (fun r : Report T => (r.oomp me).thread) heq
    have hapart := (h₂.session.clock me).elapsed 0
    have hstate := (h₂.session.clock me).getState
    have hloss : runTerm ((Process.loadedRun 0 x₀ pre).session.topState me) .oomp δ = δ := by
      rw [hme]
      rfl
    simp only [ThreadClock.elapsed, CpClocks.get, hstate, hloss, add_zero] at hapart
    simp only [Process.report, Process.rebasedRun] at hstored
    linarith
  · rintro rfl
    rw [Process.rebasedRun, Process.initTimerOffsets_self hoff]

/-- `init_timer_offsets` runs on a rank while the tool is running and thread `me` is in
`MPI_Init`. What the process reports in the end is what it would have reported with the resulting
offset from the start on, if and only if the rank is rank 0 or the middle one of its samples is
zero. -/
theorem report_rebased_iff (W : PingPong) (verbose : Bool) (rank : ℕ) (hrank : rank < W.size)
    (x₀ runtime : ℚ) (pre post : List (ℚ × Command T S B)) (me : T)
    (hpre : (Process.machine T S B).Valid (.load T S B 0 x₀) pre)
    (hopen : ∀ e ∈ pre, ∀ th, e.2 ≠ .act (.finishMeasurement th))
    (hrun : (Process.loadedRun 0 x₀ pre).session.running = true)
    (hme : (Process.loadedRun 0 x₀ pre).session.topState me = .mpi)
    (hpost : (Process.machine T S B).Valid
      ((Process.loadedRun 0 x₀ pre).initTimerOffsets (W.initTimerOffsets verbose rank).2) post) :
    (Process.rebasedRun (W.initTimerOffsets verbose rank).2 x₀ pre post).report runtime =
      (Process.loadedRun (W.initTimerOffsets verbose rank).2 x₀ (pre ++ post)).report runtime ↔
    rank = 0 ∨ W.middleSample rank = 0 := by
  rw [report_rebasedRun_iff x₀ _ runtime pre post me hpre hopen hrun hme hpost,
    PingPong.localTimeOffset_eq verbose hrank]
  split
  · rename_i h0
    simp only [h0, true_or]
  · rename_i h0
    simp only [h0, false_or]

end

/-- The main thread starts the tool and calls `MPI_Init`. -/
def ompThenMpi : List (ℚ × Command Unit Unit Unit) :=
  [(1, .startTool () .useful), (2, .act (.op (.enterState () .mpi)))]

/-- It returns from `MPI_Init`, works on and ends. -/
def restOfRun : List (ℚ × Command Unit Unit Unit) :=
  [(5, .act (.op (.exitState ()))), (8, .act (.finishMeasurement ()))]

/-- Rank 1 is one second ahead of rank 0. -/
def secondAhead : PingPong where
  size := 2
  clock j := if j = 0 then ⟨0, 0⟩ else ⟨1, 0⟩
  rounds _ _ := .instant 0

/-- On rank 0 the reports agree. -/
theorem report_rebased_iff_rank_zero :
    (Process.rebasedRun (secondAhead.initTimerOffsets false 0).2 0 ompThenMpi restOfRun).report 0 =
      (Process.loadedRun (secondAhead.initTimerOffsets false 0).2 0
        (ompThenMpi ++ restOfRun)).report 0 :=
  (report_rebased_iff secondAhead false 0 (by decide) 0 0 ompThenMpi restOfRun ()
    (by decide +kernel) (by simp [ompThenMpi]) (by decide +kernel) (by decide +kernel)
    (by decide +kernel)).mpr (.inl rfl)

/-- Rank 1 gets an offset of one second. It reports 6 seconds of runtime and outside OpenMP; seven
have passed. -/
theorem rebased_report_short :
    (secondAhead.initTimerOffsets false 1).2 = 1 ∧
    ((Process.rebasedRun 1 0 ompThenMpi restOfRun).report 0).totalRuntimeReal = 6 ∧
    (((Process.rebasedRun 1 0 ompThenMpi restOfRun).report 0).oomp ()).thread = 6 ∧
    ((Process.loadedRun 1 0 (ompThenMpi ++ restOfRun)).report 0).totalRuntimeReal = 7 ∧
    (((Process.loadedRun 1 0 (ompThenMpi ++ restOfRun)).report 0).oomp ()).thread = 7 := by
  decide +kernel

end CritPath
