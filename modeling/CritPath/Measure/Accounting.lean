import CritPath.Measure.Session
import Mathlib.Data.Fintype.Basic

/-!
# Time accounting

`segments` lists the intervals of a run with the state on top of one thread's
stack, and `activeTime i` adds up those in which clock `i` runs. The clocks get
there by adding and subtracting times at state changes only. At the end of the
measurement both agree on the thread component.
-/

namespace CritPath

open Lib

namespace Session

variable {T S B : Type} [DecidableEq T] [DecidableEq S] [DecidableEq B]

/-- The intervals from time `t` to time `E`, cut at the times of the calls, with the state on
top of thread `th`'s stack in each. -/
def segments (th : T) : Session T S B → ℚ → List (ℚ × Action T S B) → ℚ →
    List (ClockState × ℚ × ℚ)
  | σ, t, [], E => [(σ.topState th, t, E)]
  | σ, t, a :: as, E => (σ.topState th, t, a.1) :: segments th (σ.step a) a.1 as E

end Session

/-- The total length of the intervals in which clock `i` runs. -/
def activeTime (i : ClockType) (segs : List (ClockState × ℚ × ℚ)) : ℚ :=
  (segs.map fun s => if State s.1 i then max 0 (s.2.2 - s.2.1) else 0).sum

namespace Session

variable {T S B : Type} [DecidableEq T] [DecidableEq S] [DecidableEq B]
  {σ : Session T S B} {th : T} {i : ClockType}

theorem active_eq_runTerm {cs : ClockState} {t u : ℚ} (h : State cs i = false ∨ t ≤ u) :
    (if State cs i then max 0 (u - t) else 0) = runTerm cs i (u - t) := by
  unfold runTerm
  split
  · rename_i hs
    have hle : t ≤ u := h.resolve_left (by simp [hs])
    exact max_eq_right (sub_nonneg.mpr hle)
  · rfl

/-- The thread value at time `E` after calls is what it was at `t` plus the active time since. -/
theorem elapsed_thread_run {calls : List (ℚ × Action T S B)} (th : T) (i : ClockType) {t E : ℚ}
    (hr : σ.running = true)
    (hcalls : ∀ a ∈ calls, a.2.IsCall) (hsorted : calls.Pairwise (·.1 ≤ ·.1))
    (hE : ∀ a ∈ calls, a.1 ≤ E)
    (ht : State (σ.topState th) i = false ∨ (t ≤ E ∧ ∀ a ∈ calls, t ≤ a.1)) :
    (((machine T S B).run σ calls).sys.thread th).elapsed i .thread E =
      (σ.sys.thread th).elapsed i .thread t + activeTime i (segments th σ t calls E) := by
  induction calls generalizing σ t with
  | nil =>
    have hseg := active_eq_runTerm (t := t) (u := E) (ht.imp_right And.left)
    simp only [Machine.run_nil, segments, activeTime, List.map_cons, List.map_nil, List.sum_cons,
      List.sum_nil, add_zero, hseg]
    exact ThreadClock.elapsed_later ..
  | cons a as ih =>
    have ha := hcalls a (List.mem_cons_self ..)
    have hseg := active_eq_runTerm (t := t) (u := a.1)
      (ht.imp_right fun h => h.2 a (List.mem_cons_self ..))
    have hrest := ih (σ := σ.step a) (t := a.1) ((globals_step ha).1.trans hr)
      (fun b hb => hcalls b (List.mem_cons_of_mem _ hb)) (List.pairwise_cons.mp hsorted).2
      (fun b hb => hE b (List.mem_cons_of_mem _ hb))
      (.inr ⟨hE a (List.mem_cons_self ..), (List.pairwise_cons.mp hsorted).1⟩)
    rw [elapsed_thread_step hr ha,
      ThreadClock.elapsed_later (σ.sys.thread th) i .thread t a.1] at hrest
    rw [Machine.run_cons]
    simp only [segments, activeTime, List.map_cons, List.sum_cons, hseg] at hrest ⊢
    rw [← add_assoc]
    exact hrest

/-! ## The end of the measurement -/

theorem step_stopMeasurement (hr : σ.running = true) (E : ℚ) :
    σ.step (E, .stopMeasurement) = { σ with endProgrammTime := E, running := false } := by
  simp [step, stopMeasurement, hr]

theorem thread_run_stop {post : List (ℚ × Action T S B)} (hr : σ.running = true) (E : ℚ)
    (hpost : ∀ a ∈ post, a.2.IsCall) :
    ((machine T S B).run σ ((E, .stopMeasurement) :: post)).sys.thread = σ.sys.thread := by
  have hstop := step_stopMeasurement hr E
  have hpost' := thread_run_stopped (σ := σ.step (E, .stopMeasurement)) (by rw [hstop]) hpost
  rw [hstop] at hpost'
  rw [Machine.run_cons]
  show ((machine T S B).run (σ.step (E, .stopMeasurement)) post).sys.thread = σ.sys.thread
  rw [hstop, hpost']

/-- Stopped at time `E` and finished later, a clock holds its value of time `E`. -/
theorem closed_run {post : List (ℚ × Action T S B)} {E : ℚ} {me : T} (hr : σ.running = true)
    (hf : σ.finished = false) (hE : E ≠ 0) (hpost : ∀ a ∈ post, a.2.IsCall)
    (hth : th = me ∨ th ∈ σ.threadClocks) (now : ℚ) (i : ClockType) (x : Comp) :
    ((((machine T S B).run σ ((E, .stopMeasurement) :: post ++
      [(now, .finishMeasurement me)])).sys.thread th).clocks i).get x =
      (σ.sys.thread th).elapsed i x E := by
  obtain ⟨σ', hσ'⟩ : ∃ σ', σ' = (machine T S B).run σ ((E, .stopMeasurement) :: post) := ⟨_, rfl⟩
  have hsame := thread_run_stop hr E hpost
  have hglob := globals_run (σ := σ.step (E, .stopMeasurement)) hpost
  rw [step_stopMeasurement hr E] at hglob
  have hrun : σ' = (machine T S B).run { σ with endProgrammTime := E, running := false } post := by
    rw [hσ', Machine.run_cons, ← step_stopMeasurement hr E]; rfl
  rw [← hσ'] at hsame
  rw [← hrun] at hglob
  obtain ⟨hrun', hE', hf', hL'⟩ := hglob
  obtain ⟨hclose, hinit⟩ := closing_finishMeasurement (σ := σ') now me (by rw [hE']; exact hE)
    hrun' (hf'.trans hf)
  have hinit := hinit th (by rw [hL']; exact hth)
  have hval := hclose.elapsed th i x
  rw [hE', hsame, ThreadClock.elapsed] at hval
  unfold topState at hinit
  rw [hinit, runTerm_init, add_zero] at hval
  rw [Machine.run_concat, ← hσ']
  exact hval

end Session

/-! ## The stacks -/

namespace Session

section
variable {T S B : Type} {σ : Session T S B}

def Based (σ : Session T S B) : Prop := ∀ p, (σ.sys.thread p).Based

theorem based_start (L : List T) : (start S B L).Based := fun _ => rfl

theorem Based.stopMeasurement (h : σ.Based) (t : ℚ) : (σ.stopMeasurement t).Based := by
  unfold Based
  rw [sys_stopMeasurement]
  exact h

variable [DecidableEq T]

theorem Based.setThread (h : σ.Based) {q : T} {c : ThreadClock} (hc : c.Based) (p : T) :
    ((σ.sys.setThread q c).thread p).Based := by
  by_cases hp : p = q
  · subst hp; simpa using hc
  · simpa [hp] using h p

theorem Based.close (h : σ.Based) (now : ℚ) (q : T) : (σ.close now q).Based :=
  h.setThread ((h q).close ..)

theorem Based.finishMeasurement (h : σ.Based) (now : ℚ) (me : T) :
    (σ.finishMeasurement now me).Based := by
  refine finishMeasurement_inv (p := Based) now ?_ me (fun _ => h) fun _ => ?_
  · intro σ th hσ
    exact hσ.close now th
  · exact Based.stopMeasurement (σ := { σ with finished := true }) h now

variable [DecidableEq S] [DecidableEq B]

theorem Based.step {a : ℚ × Action T S B} (ha : ∀ p cs, a.2 ≠ .op (.setState p cs))
    (h : σ.Based) : (σ.step a).Based := by
  obtain ⟨t, act⟩ := a
  cases act with
  | op o => exact Sys.based_step _ (fun p cs ho => ha p cs (congrArg Action.op ho)) h
  | mpiHappensBefore p b => exact h
  | mpiHappensAfter p b =>
    refine h.setThread ?_
    unfold ThreadClock.Based
    rw [ThreadClock.stack_mpiHappensAfter]
    exact h p
  | receive b uc => exact h
  | stopMeasurement => exact h.stopMeasurement t
  | finishMeasurement p => exact h.finishMeasurement t p

theorem Based.run {as : List (ℚ × Action T S B)}
    (has : ∀ a ∈ as, ∀ p cs, a.2 ≠ .op (.setState p cs)) (h : σ.Based) :
    ((machine T S B).run σ as).Based := by
  induction as generalizing σ with
  | nil => exact h
  | cons a as ih =>
    exact ih (fun b hb => has b (List.mem_cons_of_mem _ hb))
      (h.step (has a (List.mem_cons_self ..)))

end

end Session

/-! ## Whole measurements -/

/-- A whole measurement: calls, the stop at time `E`, more calls, and the end. -/
def measurement {T S B : Type} (calls : List (ℚ × Action T S B)) (E : ℚ)
    (post : List (ℚ × Action T S B)) (now : ℚ) (me : T) : List (ℚ × Action T S B) :=
  calls ++ ((E, .stopMeasurement) :: post ++ [(now, .finishMeasurement me)])

theorem measurement_ne_setState {T S B : Type} {calls post : List (ℚ × Action T S B)} {E now : ℚ}
    {me : T} (hcalls : ∀ a ∈ calls, a.2.IsCall) (hpost : ∀ a ∈ post, a.2.IsCall)
    {a : ℚ × Action T S B} (ha : a ∈ measurement calls E post now me) (p : T) (cs : ClockState) :
    a.2 ≠ .op (.setState p cs) := by
  intro heq
  have hno : ¬ a.2.IsCall := by rw [heq]; exact id
  simp only [measurement, List.mem_append, List.mem_cons, List.not_mem_nil, or_false] at ha
  rcases ha with ha | (rfl | ha) | rfl
  · exact hno (hcalls a ha)
  · cases heq
  · exact hno (hpost a ha)
  · cases heq

section
variable {T S B : Type} [DecidableEq T] [DecidableEq S] [DecidableEq B]

def sessionAfter (L : List T) (as : List (ℚ × Action T S B)) : Session T S B :=
  (Session.machine T S B).run (.start S B L) as

theorem thread_measurement (L : List T) (calls post : List (ℚ × Action T S B)) (E now : ℚ)
    (me : T) (hcalls : ∀ a ∈ calls, a.2.IsCall) (hpost : ∀ a ∈ post, a.2.IsCall)
    (hsorted : calls.Pairwise (·.1 ≤ ·.1)) (hE : ∀ a ∈ calls, a.1 ≤ E) (hE0 : E ≠ 0)
    (i : ClockType) {th : T} (hth : th = me ∨ th ∈ L) :
    (((sessionAfter L (measurement calls E post now me)).sys.thread th).clocks i).thread =
      activeTime i (Session.segments th (.start S B L) 0 calls E) := by
  obtain ⟨hrun, -, hfin, hL⟩ := Session.globals_run (σ := .start S B L) hcalls
  have hth' : th = me ∨ th ∈ (sessionAfter L calls).threadClocks := by
    show th = me ∨ th ∈ ((Session.machine T S B).run (.start S B L) calls).threadClocks
    rw [hL]; exact hth
  have hclosed := Session.closed_run hrun hfin hE0 hpost hth' now i .thread
  have hactive := Session.elapsed_thread_run (σ := .start S B L) th i (t := 0) rfl hcalls hsorted
    hE (.inl rfl)
  have hzero : ((Session.start S B L).sys.thread th).elapsed i .thread 0 = 0 :=
    ThreadClock.elapsed_new ..
  rw [hzero, zero_add] at hactive
  unfold sessionAfter measurement
  rw [Machine.run_append]
  exact hclosed.trans hactive

/-- At the end of a measurement the thread components of the finishing thread and of every
registered one are the total length of the intervals up to the stop in which the clock was
running. Merges change no thread component, the stacks keep `STATE_INIT` at their bottom all
along, and the calls after the stop change no thread clock. -/
theorem finishMeasurement_exact (L : List T) (calls post : List (ℚ × Action T S B)) (E now : ℚ)
    (me : T) (hcalls : ∀ a ∈ calls, a.2.IsCall) (hpost : ∀ a ∈ post, a.2.IsCall)
    (hsorted : calls.Pairwise (·.1 ≤ ·.1)) (hE : ∀ a ∈ calls, a.1 ≤ E) (hE0 : E ≠ 0)
    (i : ClockType) :
    (∀ th, th = me ∨ th ∈ L →
      (((sessionAfter L (measurement calls E post now me)).sys.thread th).clocks i).thread =
        activeTime i (Session.segments th (.start S B L) 0 calls E)) ∧
    (∀ (σ : Session T S B) t p q,
      (∀ s, (((σ.step (t, .op (.ompHAfter s p))).sys.thread q).clocks i).thread =
        ((σ.sys.thread q).clocks i).thread) ∧
      ∀ b, (((σ.step (t, .mpiHappensAfter p b)).sys.thread q).clocks i).thread =
        ((σ.sys.thread q).clocks i).thread) ∧
    (∀ pre suf, measurement calls E post now me = pre ++ suf → ∀ p,
      ((sessionAfter L pre).sys.thread p).stack ≠ [] ∧
      ((sessionAfter L pre).sys.thread p).stack.getLast? = some .init) ∧
    (sessionAfter L (calls ++ (E, .stopMeasurement) :: post)).sys.thread =
      (sessionAfter L calls).sys.thread := by
  obtain ⟨hrun, -⟩ := Session.globals_run (σ := .start S B L) hcalls
  refine ⟨fun th hth => ?_, fun σ t p q => ⟨fun s => ?_, fun b => ?_⟩, fun pre suf heq p => ?_, ?_⟩
  · exact thread_measurement L calls post E now me hcalls hpost hsorted hE hE0 i hth
  · exact Session.thread_step_ompHAfter σ q i t s p
  · exact Session.thread_step_mpiHappensAfter σ q i t p b
  · have hbased : ((sessionAfter L pre).sys.thread p).Based := by
      refine Session.Based.run (fun a ha => ?_) (Session.based_start L) p
      exact measurement_ne_setState hcalls hpost (by rw [heq]; exact List.mem_append_left _ ha)
    exact ⟨hbased.ne_nil, hbased⟩
  · unfold sessionAfter
    rw [Machine.run_append]
    exact Session.thread_run_stop hrun E hpost

end

def earlyStop : List (ℚ × Action Bool Bool Bool) :=
  [(1, .op (.enterState false .useful)), (2, .op (.enterState true .useful)),
   (4, .op (.enterState false .mpi)), (6, .receive false ⟨20, 20, 20⟩),
   (6, .mpiHappensAfter false false), (7, .op (.exitState false)),
   (8, .op (.ompHBefore false false)), (8, .op (.ompHAfter false true))]

/-- Thread `true`, closed late by the other one, has worked for 7 units. -/
theorem finishMeasurement_exact_earlyStop :
    (((sessionAfter [false, true] (measurement earlyStop 9 [(12, .op (.enterState true .omp))] 15
      false)).sys.thread true).clocks .useful).thread = 7 := by
  have h := (finishMeasurement_exact [false, true] earlyStop [(12, .op (.enterState true .omp))] 9
    15 false (by simp [earlyStop, Action.IsCall]) (by simp [Action.IsCall]) (by decide +kernel)
    (by decide +kernel) (by decide +kernel) .useful).1 true (by decide)
  have hval : activeTime .useful
      (Session.segments true (.start Bool Bool [false, true]) 0 earlyStop 9) = 7 := by
    decide +kernel
  rwa [hval] at h

end CritPath
