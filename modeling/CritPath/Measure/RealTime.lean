import CritPath.Measure.Job

/-!
# Clocks and real time

`CLOCK_USEFUL.critical` and `CLOCK_OOMP.critical` never stand for more than the
time since the first start `S` of the tool. Their values travel between threads
and processes in two forms, as a total of a stopped clock or as an offset of a
running one; which one it is follows from the state of the thread they are taken
from. `InTime S H cs v` bounds both: values `v` taken in state `cs` stand for at
most `t - S` at every time `t` from `H` on. Arcs carry values of `STATE_OMP` and
messages values of `STATE_MPI`. The horizon `H` is the present while a process
measures, and its end time once it has stopped.
-/

namespace CritPath

open Lib

/-- The clocks whose critical components are compared with the run time. -/
def ClockType.Compared (i : ClockType) : Prop := i = .useful ∨ i = .oomp

/-- Values `v` of a thread in state `cs` stand for at most `t - S` at every time `t` from `H`. -/
def InTime (S H : ℚ) (cs : ClockState) (v : ClockType → ℚ) : Prop :=
  ∀ i : ClockType, i.Compared → ∀ t, H ≤ t → S ≤ t → v i + runTerm cs i t ≤ t - S

namespace InTime

variable {S H : ℚ} {cs o n : ClockState} {v w : ClockType → ℚ}

theorem mono {H' : ℚ} (h : InTime S H cs v) (hH : H ≤ H') : InTime S H' cs v :=
  fun i hi t ht => h i hi t (hH.trans ht)

theorem congr (h : InTime S H cs v) (hw : ∀ i : ClockType, i.Compared → w i = v i) :
    InTime S H cs w := by
  intro i hi t ht hS
  rw [hw i hi]
  exact h i hi t ht hS

theorem max (h : InTime S H cs v) (h' : InTime S H cs w) :
    InTime S H cs fun i => Max.max (v i) (w i) := by
  intro i hi t ht hS
  have hv := h i hi t ht hS
  have hw := h' i hi t ht hS
  have hmax : Max.max (v i) (w i) ≤ t - S - runTerm cs i t :=
    max_le (by linarith) (by linarith)
  dsimp only
  linarith

theorem runTerm_stopped {i : ClockType} (hi : i.Compared) (hn : n = .init ∨ n = .omp) (t : ℚ) :
    runTerm n i t = 0 := by
  rcases hi with rfl | rfl <;> rcases hn with rfl | rfl <;> rfl

theorem zero (S H : ℚ) (hn : n = .init ∨ n = .omp) : InTime S H n fun _ => 0 := by
  intro i hi t _ hS
  rw [runTerm_stopped hi hn]
  linarith

theorem switch (h : InTime S H o v) (hS : S ≤ H) (n : ClockState) :
    InTime S H n fun i => v i + (runTerm o i H - runTerm n i H) := by
  intro i hi t ht _
  have hv := h i hi H (le_refl H) hS
  have hn : runTerm n i t - runTerm n i H ≤ t - H := by
    rw [← runTerm_sub]
    unfold runTerm
    split
    · exact le_refl _
    · exact sub_nonneg.mpr ht
  linarith

theorem stop (h : InTime S H o v) {u : ℚ} (hu : u ≤ H) (hn : n = .init ∨ n = .omp) :
    InTime S H n fun i => v i + (runTerm o i u - runTerm n i u) := by
  intro i hi t ht hS
  have hv := h i hi t ht hS
  have hmono := runTerm_mono o i (hu.trans ht)
  simp only [runTerm_stopped hi hn]
  linarith

end InTime

/-! ## Thread clocks and sync clocks -/

namespace ThreadClock

variable {S H : ℚ} {c : ThreadClock}

def criticals (c : ThreadClock) (i : ClockType) : ℚ := (c.clocks i).critical

def InTime (S H : ℚ) (c : ThreadClock) : Prop := CritPath.InTime S H c.getState c.criticals

theorem InTime.elapsed_le (h : c.InTime S H) {i : ClockType} (hi : i.Compared) {t : ℚ}
    (ht : H ≤ t) (hS : S ≤ t) : c.elapsed i .critical t ≤ t - S := h i hi t ht hS

theorem inTime_new (S H : ℚ) : ThreadClock.new.InTime S H := .zero S H (.inl rfl)

theorem switchState_time (c : ThreadClock) (o n : ClockState) (t now : ℚ) :
    c.switchState o n t now =
      c.switchState o n (if t = 0 then now else t) (if t = 0 then now else t) := by
  simp only [switchState, ite_self]

theorem InTime.enterState (h : c.InTime S H) (hS : S ≤ H) (r : Bool) (cs : ClockState) :
    (c.enterState r H cs H).InTime S H := by
  cases r with
  | false => exact h
  | true =>
    refine (h.switch hS cs).congr fun i _ => ?_
    simp only [criticals, clocks_enterState, CpClocks.addAll]

theorem InTime.exitState (h : c.InTime S H) (hS : S ≤ H) (r : Bool) :
    (c.exitState r H H).InTime S H := by
  cases r with
  | false => exact h
  | true =>
    refine (h.switch hS (c.exitState true H H).getState).congr fun i _ => ?_
    simp only [criticals, clocks_exitState, CpClocks.addAll]

theorem InTime.setState (h : c.InTime S H) (hS : S ≤ H) (cs : ClockState) :
    (c.setState true H cs H).InTime S H := by
  refine (h.switch hS cs).congr fun i _ => ?_
  simp only [criticals, clocks_setState, CpClocks.addAll]

theorem InTime.close (h : c.InTime S H) (r : Bool) {u : ℚ} (hu : u ≤ H) (h0 : u ≠ 0) (now : ℚ) :
    (c.setState r u .init now).InTime S H := by
  rw [setState_init c r h0]
  refine (h.stop hu (.inl rfl)).congr fun i _ => ?_
  simp only [criticals, clocks_setState, CpClocks.addAll]

theorem InTime.close_init (h : c.InTime S H) (hc : c.getState = .init) (r : Bool) (u now : ℚ) :
    (c.setState r u .init now).InTime S H := by
  have heq : (c.setState r u .init now).clocks = c.clocks := by
    cases r <;> simp [ThreadClock.setState, switchState, hc]
  have hst : (c.setState r u .init now).getState = .init := by
    cases r <;> rfl
  unfold InTime at *
  rw [hst]
  rw [hc] at h
  refine h.congr fun i _ => ?_
  simp only [criticals, heq]

theorem InTime.enterOmp (h : c.InTime S H) (r : Bool) {u now : ℚ} (hu : u ≤ H) (hnow : now ≤ H) :
    (c.enterState r u .omp now).InTime S H := by
  cases r with
  | false => exact h
  | true =>
    have hle : (if u = 0 then now else u) ≤ H := by
      split
      · exact hnow
      · exact hu
    refine (h.stop hle (.inr rfl)).congr fun i _ => ?_
    simp only [criticals, ThreadClock.enterState, Bool.not_true, Bool.false_eq_true, ↓reduceIte]
    rw [switchState_time, clocks_switchState]
    rfl

theorem InTime.mpiHappensAfter (h : c.InTime S H) (hc : c.getState = .mpi) {uc : IpcData}
    (huc : CritPath.InTime S H .mpi uc.get) : (c.mpiHappensAfter true uc).InTime S H := by
  unfold InTime at *
  rw [getState_mpiHappensAfter]
  rw [hc] at h ⊢
  refine (h.max huc).congr fun i hi => ?_
  rcases hi with rfl | rfl <;> exact updateMaximum_eq _ _

end ThreadClock

namespace SyncClock

variable {S H : ℚ} {s : SyncClock} {tc : ThreadClock}

/-- A sync clock holds values of threads in `STATE_OMP`. -/
def InTime (S H : ℚ) (s : SyncClock) : Prop :=
  CritPath.InTime S H .omp fun i => (s.clocks i).critical

theorem inTime_fresh (S H : ℚ) : SyncClock.fresh.InTime S H := .zero S H (.inr rfl)

theorem InTime.ompCReset (h : s.InTime S H) (r : Bool) : (s.ompCReset r).InTime S H := by
  cases r with
  | false => exact h
  | true =>
    refine (CritPath.InTime.zero S H (.inr rfl)).congr fun i hi => ?_
    rcases hi with rfl | rfl <;> rfl

theorem InTime.ompHBefore (h : s.InTime S H) (htc : tc.InTime S H) {r : Bool}
    (hc : r = true → tc.getState = .omp) : (s.ompHBefore r tc).InTime S H := by
  cases r with
  | false => exact h
  | true =>
    unfold ThreadClock.InTime at htc
    rw [hc rfl] at htc
    by_cases hst : s.syncState = .init
    · refine htc.congr fun i hi => ?_
      rw [get_ompHBefore_first hst (by rcases hi with rfl | rfl <;> decide)]
      rfl
    · refine (h.max htc).congr fun i hi => ?_
      exact get_ompHBefore_later (x := .critical) hst (by rcases hi with rfl | rfl <;> decide)
        (by decide)

theorem InTime.ompHAfter (h : s.InTime S H) (htc : tc.InTime S H) {r : Bool}
    (hc : r = true → tc.getState = .omp) :
    (s.ompHAfter r tc).1.InTime S H ∧ (s.ompHAfter r tc).2.InTime S H := by
  cases r with
  | false => exact ⟨h, htc⟩
  | true =>
    refine ⟨by unfold InTime; rw [clocks_ompHAfter_fst]; exact h, ?_⟩
    unfold ThreadClock.InTime at *
    rw [getState_ompHAfter]
    rw [hc rfl] at htc ⊢
    refine (htc.max h).congr fun i hi => ?_
    exact get_ompHAfter (x := .critical) (by rcases hi with rfl | rfl <;> decide) (by decide)

end SyncClock

/-! ## Sessions -/

def Sys.InTime {T S : Type} (S₀ H : ℚ) (σ : Sys T S) : Prop :=
  (∀ th, (σ.thread th).InTime S₀ H) ∧ ∀ s, (σ.sync s).InTime S₀ H

namespace Sys.InTime

variable {T S : Type} {S₀ H : ℚ} {σ : Sys T S}

theorem mono {H' : ℚ} (h : σ.InTime S₀ H) (hH : H ≤ H') : σ.InTime S₀ H' :=
  ⟨fun th => CritPath.InTime.mono (h.1 th) hH, fun s => CritPath.InTime.mono (h.2 s) hH⟩

theorem setThread [DecidableEq T] (h : σ.InTime S₀ H) {th : T} {c : ThreadClock}
    (hc : c.InTime S₀ H) : (σ.setThread th c).InTime S₀ H := by
  refine ⟨?_, h.2⟩
  exact (Function.forall_update_iff σ.thread fun _ c => c.InTime S₀ H).mpr ⟨hc, fun q _ => h.1 q⟩

theorem setSync [DecidableEq S] (h : σ.InTime S₀ H) {s : S} {c : SyncClock}
    (hc : c.InTime S₀ H) : (σ.setSync s c).InTime S₀ H := by
  refine ⟨h.1, ?_⟩
  exact (Function.forall_update_iff σ.sync fun _ c => c.InTime S₀ H).mpr ⟨hc, fun q _ => h.2 q⟩

end Sys.InTime

namespace Session

variable {T S B : Type}

/-- The values of a buffer were loaded in `STATE_MPI` before. -/
def FromLoads (loaded : List IpcData) (uc : IpcData) : Prop :=
  (∃ l ∈ loaded, uc.useful = l.useful) ∧ (∃ l ∈ loaded, uc.ompi = l.ompi) ∧
    ∃ l ∈ loaded, uc.oomp = l.oomp

instance (loaded : List IpcData) (uc : IpcData) : Decidable (FromLoads loaded uc) :=
  inferInstanceAs (Decidable (_ ∧ _ ∧ _))

theorem FromLoads.inTime {loaded : List IpcData} {uc : IpcData} (h : FromLoads loaded uc)
    {S₀ H : ℚ} (hl : ∀ l ∈ loaded, InTime S₀ H .mpi l.get) : InTime S₀ H .mpi uc.get := by
  obtain ⟨⟨l, hmem, hu⟩, -, ⟨m, hmem', ho⟩⟩ := h
  intro i hi
  rcases hi with rfl | rfl
  · have := hl l hmem .useful (.inl rfl)
    simpa only [IpcData.get, hu] using this
  · have := hl m hmem' .oomp (.inr rfl)
    simpa only [IpcData.get, ho] using this

/-- What a measurement asks of a command at time `now`: arcs in `STATE_OMP`, merges in
`STATE_MPI` of values loaded there before, and no start before `S₀`. States are only replaced
by `stopTool` and `finishMeasurement`, or while the tool is running. -/
def Timely (S₀ now : ℚ) (loaded : List IpcData) (σ : Session T S B) : Command T S B → Prop
  | .act (.op (.ompHBefore _ th)) => σ.running = true → σ.topState th = .omp
  | .act (.op (.ompHAfter _ th)) => σ.running = true → σ.topState th = .omp
  | .act (.op (.setState _ _)) => σ.running = true
  | .act (.mpiHappensAfter th b) =>
    σ.running = true → σ.topState th = .mpi ∧ FromLoads loaded (σ.ipc b)
  | .mpiFinalize th b => σ.topState th = .mpi ∧ FromLoads loaded (σ.ipc b)
  | .startTool _ _ => σ.running = true ∨ S₀ ≤ now
  | _ => True

instance (S₀ now : ℚ) (loaded : List IpcData) (σ : Session T S B) (c : Command T S B) :
    Decidable (Timely S₀ now loaded σ c) := by
  unfold Timely
  split <;> infer_instance

structure Dated (S₀ now start : ℚ) (σ : Session T S B) : Prop where
  running : σ.running = true → S₀ ≤ now ∧ start ≤ now
  ended : σ.endProgrammTime ≤ now
  idle : σ.running = false → σ.endProgrammTime = 0 → ∀ th, σ.topState th = .init

def Reached (now H : ℚ) (σ : Session T S B) : Prop :=
  (σ.running = true → now ≤ H) ∧ σ.endProgrammTime ≤ H

section
variable {S₀ H now start : ℚ} {σ : Session T S B} {loaded : List IpcData}

theorem stopMeasurement_running (hr : σ.running = true) (t : ℚ) :
    σ.stopMeasurement t = { σ with endProgrammTime := t, running := false } := by
  simp [stopMeasurement, hr]

theorem inTime_loadsOf (h : σ.sys.InTime S₀ H) (c : Command T S B) :
    ∀ l ∈ Job.loadsOf σ c, InTime S₀ H .mpi l.get := by
  intro l hl
  obtain ⟨th, b, rfl⟩ : ∃ th b, c = .act (.mpiHappensBefore th b) := by
    rcases c with ⟨_ | ⟨th, b⟩ | _ | _ | _ | _⟩ | _ | _ | _ | _ <;>
      first | exact ⟨_, _, rfl⟩ | simp [Job.loadsOf, loads] at hl
  simp only [Job.loadsOf, loads] at hl
  split at hl
  · rename_i hst
    obtain rfl := List.mem_singleton.mp hl
    have hth := h.1 th
    unfold topState at hst
    unfold ThreadClock.InTime at hth
    rw [hst] at hth
    refine hth.congr fun i hi => ?_
    rcases hi with rfl | rfl <;> rfl
  · exact absurd hl List.not_mem_nil

variable [DecidableEq T]

theorem inTime_close (h : σ.sys.InTime S₀ H) (hH : σ.endProgrammTime ≤ H)
    (hidle : σ.endProgrammTime = 0 → ∀ th, σ.topState th = .init) (t : ℚ) (th : T) :
    (σ.close t th).sys.InTime S₀ H := by
  refine h.setThread ?_
  by_cases h0 : σ.endProgrammTime = 0
  · exact (h.1 th).close_init (hidle h0 th) _ _ _
  · exact (h.1 th).close _ hH h0 _

theorem topState_close (t : ℚ) (th q : T) (h : σ.topState q = .init) :
    (σ.close t th).topState q = .init := by
  have hset : ((σ.sys.thread th).setState σ.running σ.endProgrammTime .init t).getState
      = .init := by
    cases σ.running <;> rfl
  by_cases hq : q = th
  · subst hq; simpa [close, topState] using hset
  · simpa [close, topState, hq] using h

theorem inTime_finishMeasurement (h : σ.sys.InTime S₀ H) {t : ℚ}
    (hH : (σ.stopMeasurement t).endProgrammTime ≤ H)
    (hidle : (σ.stopMeasurement t).endProgrammTime = 0 → ∀ th, σ.topState th = .init) (me : T) :
    (σ.finishMeasurement t me).sys.InTime S₀ H := by
  by_cases hf : σ.finished = true
  · rw [finishMeasurement, if_pos hf]
    exact h
  · -- closing a clock neither moves the end time nor opens another clock
    refine (finishMeasurement_inv (p := fun σ => σ.sys.InTime S₀ H ∧ σ.endProgrammTime ≤ H ∧
      (σ.endProgrammTime = 0 → ∀ th, σ.topState th = .init)) t ?_ me (fun hf' => absurd hf' hf)
      fun _ => ?_).1
    · rintro σ th ⟨hσ, hE, hinit⟩
      exact ⟨inTime_close hσ hE hinit t th, hE, fun h0 q => topState_close t th q (hinit h0 q)⟩
    · simp only [endProgrammTime_stopMeasurement] at hH hidle ⊢
      refine ⟨?_, hH, fun h0 th => ?_⟩
      · rw [sys_stopMeasurement]
        exact h
      · unfold topState
        rw [sys_stopMeasurement]
        exact hidle h0 th

theorem globals_finishMeasurement (hf : ¬ σ.finished = true) (t : ℚ) (me : T) :
    (σ.finishMeasurement t me).running = false ∧
      (σ.finishMeasurement t me).endProgrammTime = (if σ.running then t else σ.endProgrammTime) ∧
      ∀ q, σ.topState q = .init → (σ.finishMeasurement t me).topState q = .init := by
  refine finishMeasurement_inv (p := fun σ' => σ'.running = false ∧
    σ'.endProgrammTime = (if σ.running then t else σ.endProgrammTime) ∧
    ∀ q, σ.topState q = .init → σ'.topState q = .init) t ?_ me (fun hf' => absurd hf' hf)
    fun _ => ?_
  · rintro σ' th ⟨hr, hE, hinit⟩
    exact ⟨hr, hE, fun q hq => topState_close t th q (hinit q hq)⟩
  · refine ⟨running_stopMeasurement .., endProgrammTime_stopMeasurement .., fun q hq => ?_⟩
    unfold topState
    rw [sys_stopMeasurement]
    exact hq

theorem inTime_startTool {t : ℚ} (h : σ.sys.InTime S₀ t) (hS : S₀ ≤ t) (th : T)
    (cs : ClockState) : (σ.startTool t th cs).sys.InTime S₀ t := by
  unfold startTool
  split
  · exact h
  · have hc : (if cs = .mpi ∧ (σ.sys.thread th).getState = .init
        then (σ.sys.thread th).enterState true t .useful t else σ.sys.thread th).InTime S₀ t := by
      split
      · exact (h.1 th).enterState hS true .useful
      · exact h.1 th
    exact h.setThread (hc.enterState hS true cs)

variable [DecidableEq S] [DecidableEq B]

theorem inTime_perform_running {t : ℚ} (h : σ.sys.InTime S₀ t)
    (hl : ∀ l ∈ loaded, InTime S₀ t .mpi l.get) (hr : σ.running = true) (hpos : 0 < S₀)
    (hS : S₀ ≤ t) (hstart : start ≤ t) {c : Command T S B} (hc : Timely S₀ t loaded σ c) :
    (Job.perform start t σ c).sys.InTime S₀ t := by
  have ht0 : t ≠ 0 := (hpos.trans_le hS).ne'
  have hstop : (σ.stopMeasurement t).endProgrammTime = t := by rw [stopMeasurement_running hr]
  cases c with
  | act a =>
    cases a with
    | op o =>
      simp only [Job.perform, step, hr]
      cases o with
      | enterState th cs => exact h.setThread ((h.1 th).enterState hS true cs)
      | exitState th => exact h.setThread ((h.1 th).exitState hS true)
      | setState th cs => exact h.setThread ((h.1 th).setState hS cs)
      | ompHBefore s th =>
        exact h.setSync ((h.2 s).ompHBefore (h.1 th) fun _ => hc hr)
      | ompHAfter s th =>
        obtain ⟨hs, hth⟩ := (h.2 s).ompHAfter (h.1 th) (r := true) fun _ => hc hr
        exact (h.setSync hs).setThread hth
      | ompCReset s => exact h.setSync ((h.2 s).ompCReset true)
    | mpiHappensBefore th b => exact h
    | mpiHappensAfter th b =>
      obtain ⟨hst, hfrom⟩ := hc hr
      simp only [Job.perform, step, hr]
      exact h.setThread ((h.1 th).mpiHappensAfter hst (hfrom.inTime hl))
    | receive b uc => exact h
    | stopMeasurement =>
      simp only [Job.perform, step, stopMeasurement_running hr]
      exact h
    | finishMeasurement th =>
      exact inTime_finishMeasurement h hstop.le (fun h0 => absurd (hstop.symm.trans h0) ht0) th
  | threadBegin th initial =>
    refine h.setThread ((h.1 th).enterOmp _ ?_ (le_refl t))
    cases initial with
    | true => exact hpos.le.trans hS
    | false => exact hstart
  | startTool th cs =>
    simp only [Job.perform, startTool, hr, ↓reduceIte]
    exact h
  | stopTool th =>
    simp only [Job.perform, stopTool, hr, ↓reduceIte, stopMeasurement_running hr]
    exact inTime_close (σ := { σ with endProgrammTime := t, running := false }) h (le_refl t)
      (fun h0 => absurd h0 ht0) t th
  | mpiFinalize th b => exact h.setThread ((h.1 th).mpiHappensAfter hc.1 (hc.2.inTime hl))

theorem inTime_perform_stopped {t : ℚ} (h : σ.sys.InTime S₀ H)
    (hl : ∀ l ∈ loaded, InTime S₀ H .mpi l.get) (hr : σ.running = false)
    (hH : σ.endProgrammTime ≤ H) (hidle : σ.endProgrammTime = 0 → ∀ th, σ.topState th = .init)
    {c : Command T S B} (hc : Timely S₀ t loaded σ c) (hns : ∀ th cs, c ≠ .startTool th cs) :
    (Job.perform start t σ c).sys.InTime S₀ H := by
  have hstop : σ.stopMeasurement t = σ := by simp [stopMeasurement, hr]
  cases c with
  | act a =>
    cases a with
    | op o =>
      simp only [Job.perform, step, hr]
      cases o with
      | enterState th cs => exact h.setThread (h.1 th)
      | exitState th => exact h.setThread (h.1 th)
      | setState th cs => exact absurd hc (by simp [Timely, hr])
      | ompHBefore s th => exact h.setSync (h.2 s)
      | ompHAfter s th => exact (h.setSync (h.2 s)).setThread (h.1 th)
      | ompCReset s => exact h.setSync (h.2 s)
    | mpiHappensBefore th b => exact h
    | mpiHappensAfter th b =>
      simp only [Job.perform, step, hr]
      exact h.setThread (h.1 th)
    | receive b uc => exact h
    | stopMeasurement =>
      simp only [Job.perform, step, hstop]
      exact h
    | finishMeasurement th =>
      exact inTime_finishMeasurement h (by rwa [hstop]) (by rwa [hstop]) th
  | threadBegin th initial =>
    simp only [Job.perform, threadBegin, hr]
    exact h.setThread (h.1 th)
  | startTool th cs => exact absurd rfl (hns th cs)
  | stopTool th =>
    simp only [Job.perform, stopTool, hr]
    exact h
  | mpiFinalize th b => exact h.setThread ((h.1 th).mpiHappensAfter hc.1 (hc.2.inTime hl))

/-! ## The times of a process -/

theorem perform_cases (start : ℚ) {t : ℚ} {c : Command T S B} (hc : Timely S₀ t loaded σ c) :
    ((Job.perform start t σ c).running = σ.running ∧
      (Job.perform start t σ c).endProgrammTime = σ.endProgrammTime ∧
      (σ.running = false → ∀ th, σ.topState th = .init →
        (Job.perform start t σ c).topState th = .init)) ∨
    (σ.running = true ∧ (Job.perform start t σ c).running = false ∧
      (Job.perform start t σ c).endProgrammTime = t) ∨
    (σ.running = false ∧ (∃ th cs, c = .startTool th cs) ∧
      (Job.perform start t σ c).running = true ∧
      (Job.perform start t σ c).endProgrammTime = σ.endProgrammTime) := by
  cases c with
  | act a =>
    cases a with
    | op o =>
      refine .inl ⟨rfl, rfl, fun hr th hth => ?_⟩
      have hns : ∀ q cs, o ≠ .setState q cs := by
        rintro q cs rfl
        exact absurd hc (by simp [Timely, hr])
      simp only [Job.perform, step, topState, hr, Sys.thread_step_false (e := ⟨t, o⟩) hns]
      exact hth
    | mpiHappensBefore th b => exact .inl ⟨rfl, rfl, fun _ _ h => h⟩
    | mpiHappensAfter th b =>
      refine .inl ⟨rfl, rfl, fun _ q hq => ?_⟩
      exact (topState_step_mpiHappensAfter σ q t th b).trans hq
    | receive b uc => exact .inl ⟨rfl, rfl, fun _ _ h => h⟩
    | stopMeasurement =>
      cases hr : σ.running with
      | true => exact .inr (.inl (by simp [Job.perform, step, stopMeasurement, hr]))
      | false => exact .inl (by simp [Job.perform, step, stopMeasurement, hr])
    | finishMeasurement me =>
      by_cases hf : σ.finished = true
      · simp only [Job.perform, step, finishMeasurement, if_pos hf]
        exact .inl ⟨trivial, trivial, fun _ _ h => h⟩
      · obtain ⟨hr', hE, hinit⟩ := globals_finishMeasurement hf t me
        cases hr : σ.running with
        | true =>
          rw [hr, if_pos rfl] at hE
          exact .inr (.inl ⟨rfl, hr', hE⟩)
        | false =>
          rw [hr, if_neg Bool.false_ne_true] at hE
          exact .inl ⟨hr', hE, fun _ => hinit⟩
  | threadBegin th initial =>
    refine .inl ⟨rfl, rfl, fun hr q hq => ?_⟩
    have heq : (Job.perform start t σ (.threadBegin th initial)).sys.thread = σ.sys.thread := by
      simp only [Job.perform, threadBegin, hr]
      exact Function.update_eq_self _ _
    simpa only [topState, heq] using hq
  | startTool th cs =>
    cases hr : σ.running with
    | true => exact .inl (by simp [Job.perform, startTool, hr])
    | false => exact .inr (.inr ⟨rfl, ⟨th, cs, rfl⟩, by simp [Job.perform, startTool, hr]⟩)
  | stopTool th =>
    cases hr : σ.running with
    | true => exact .inr (.inl (by simp [Job.perform, stopTool, stopMeasurement, close, hr]))
    | false => exact .inl (by simp [Job.perform, stopTool, hr])
  | mpiFinalize th b =>
    refine .inl ⟨rfl, rfl, fun _ q hq => ?_⟩
    by_cases hq' : q = th
    · subst hq'; simpa [Job.perform, mpiFinalize, topState] using hq
    · simpa [Job.perform, mpiFinalize, topState, hq'] using hq

theorem Dated.perform (h : σ.Dated S₀ now start) (hpos : 0 < S₀) {t : ℚ} (hnow : now ≤ t)
    {c : Command T S B} (hc : Timely S₀ t loaded σ c) :
    (Job.perform start t σ c).Dated S₀ t (Job.startsAt σ start t c) := by
  have hend := h.ended.trans hnow
  rcases perform_cases start hc with ⟨hr, hE, hinit⟩ | ⟨hr, hr', hE⟩ |
    ⟨hr, ⟨th, cs, rfl⟩, hr', hE⟩
  · refine ⟨fun hrun => ?_, by rwa [hE], fun hrun h0 => ?_⟩
    · obtain ⟨hS, hle⟩ := h.running (hr ▸ hrun)
      refine ⟨hS.trans hnow, ?_⟩
      cases c <;> simp [Job.startsAt, hr ▸ hrun, hle.trans hnow]
    · rw [hr] at hrun
      rw [hE] at h0
      exact fun th => hinit hrun th (h.idle hrun h0 th)
  · obtain ⟨hS, -⟩ := h.running hr
    refine ⟨fun hrun => absurd (hr'.symm.trans hrun) (by decide), hE.le, fun _ h0 => ?_⟩
    exact absurd (hE.symm.trans h0) (hpos.trans_le (hS.trans hnow)).ne'
  · refine ⟨fun _ => ?_, by rwa [hE], fun hrun => absurd (hr'.symm.trans hrun) (by decide)⟩
    have hS : S₀ ≤ t := hc.resolve_left (by simp [hr])
    simp [Job.startsAt, hr, hS]

theorem Dated.reached (h : σ.Dated S₀ now start) {t : ℚ} (hnow : now ≤ t) {c : Command T S B}
    (hc : Timely S₀ t loaded σ c) (hR : (Job.perform start t σ c).Reached t H) :
    σ.Reached now H ∧ ((σ.running = true ∨ ∃ th cs, c = .startTool th cs) → t ≤ H) := by
  rcases perform_cases start hc with ⟨hr, hE, -⟩ | ⟨hr, -, hE⟩ | ⟨hr, -, hr', -⟩
  · have hle : σ.running = true → t ≤ H := fun hrun => hR.1 (hr.trans hrun)
    refine ⟨⟨fun hrun => hnow.trans (hle hrun), hE ▸ hR.2⟩, ?_⟩
    rintro (hrun | ⟨th, cs, rfl⟩)
    · exact hle hrun
    · cases hrun : σ.running with
      | true => exact hle hrun
      | false => exact absurd hr (by simp [Job.perform, startTool, hrun])
  · have hle : t ≤ H := hE ▸ hR.2
    exact ⟨⟨fun _ => hnow.trans hle, h.ended.trans (hnow.trans hle)⟩, fun _ => hle⟩
  · have hle := hR.1 hr'
    exact ⟨⟨fun _ => hnow.trans hle, h.ended.trans (hnow.trans hle)⟩, fun _ => hle⟩

end

end Session

/-! ## Jobs -/

namespace Job

variable {P T S B : Type}

/-- The events of a measurement: time does not run backwards. -/
def Timely [DecidableEq T] [DecidableEq S] [DecidableEq B] (S₀ : ℚ) (j : Job P T S B)
    (e : JobEvent P T S B) : Prop :=
  j.now ≤ e.time ∧ (j.rank e.rank).Timely S₀ e.time j.loaded e.command

instance [DecidableEq T] [DecidableEq S] [DecidableEq B] (S₀ : ℚ) (j : Job P T S B)
    (e : JobEvent P T S B) : Decidable (j.Timely S₀ e) := inferInstanceAs (Decidable (_ ∧ _))

structure Inv (S₀ : ℚ) (j : Job P T S B) : Prop where
  dated : ∀ p, (j.rank p).Dated S₀ j.now (j.startProgrammTime p)
  inTime : ∀ H, (∀ p, (j.rank p).Reached j.now H) →
    (∀ p, (j.rank p).sys.InTime S₀ H) ∧ ∀ l ∈ j.loaded, InTime S₀ H .mpi l.get

theorem inv_start (S₀ : ℚ) (load : P → ℚ) : (start T S B load).Inv S₀ where
  dated _ := ⟨fun h => Bool.noConfusion h, le_refl 0, fun _ _ _ => rfl⟩
  inTime H _ :=
    ⟨fun _ => ⟨fun _ => ThreadClock.inTime_new S₀ H, fun _ => SyncClock.inTime_fresh S₀ H⟩,
      fun _ hl => absurd hl List.not_mem_nil⟩

variable {S₀ : ℚ} {j : Job P T S B}

theorem Inv.reached_now (h : j.Inv S₀) {t : ℚ} (ht : j.now ≤ t) (p : P) :
    (j.rank p).Reached j.now t :=
  ⟨fun _ => ht, (h.dated p).ended.trans ht⟩

variable [DecidableEq P] [DecidableEq T] [DecidableEq S] [DecidableEq B] {e : JobEvent P T S B}

theorem step_rank_self (j : Job P T S B) (e : JobEvent P T S B) :
    (j.step e).rank e.rank =
      perform (j.startProgrammTime e.rank) e.time (j.rank e.rank) e.command := by
  simp [step]

theorem step_rank_of_ne {p : P} (hp : p ≠ e.rank) : (j.step e).rank p = j.rank p := by
  simp [step, hp]

theorem Inv.step (h : j.Inv S₀) (hpos : 0 < S₀) (he : j.Timely S₀ e) : (j.step e).Inv S₀ where
  dated p := by
    by_cases hp : p = e.rank
    · subst hp
      have := (h.dated e.rank).perform hpos he.1 he.2
      simpa [Job.step] using this
    · obtain ⟨hrun, hend, hidle⟩ := h.dated p
      rw [step_rank_of_ne hp]
      refine ⟨fun hr => ?_, hend.trans he.1, hidle⟩
      obtain ⟨hS, hle⟩ := hrun hr
      refine ⟨hS.trans he.1, ?_⟩
      simpa [Job.step, hp] using hle.trans he.1
  inTime H hR := by
    have hself := hR e.rank
    rw [step_rank_self] at hself
    obtain ⟨hR₀, hle⟩ := (h.dated e.rank).reached he.1 he.2 hself
    have hreach : ∀ p, (j.rank p).Reached j.now H := by
      intro p
      by_cases hp : p = e.rank
      · subst hp; exact hR₀
      · have := hR p
        rw [step_rank_of_ne hp] at this
        exact ⟨fun hr => he.1.trans (this.1 hr), this.2⟩
    obtain ⟨hall, hloaded⟩ := h.inTime H hreach
    refine ⟨fun p => ?_, fun l hl => ?_⟩
    · by_cases hp : p = e.rank
      · subst hp
        rw [step_rank_self]
        -- a running process is looked at from the time of the command
        obtain ⟨hnow, hnowl⟩ := h.inTime e.time (h.reached_now he.1)
        by_cases hst : ∃ th cs, e.command = .startTool th cs
        · obtain ⟨th, cs, hcmd⟩ := hst
          have hS : S₀ ≤ e.time := by
            have htimely := he.2
            rw [hcmd] at htimely
            rcases htimely with hr | hS
            · exact ((h.dated e.rank).running hr).1.trans he.1
            · exact hS
          rw [hcmd]
          exact (Session.inTime_startTool (hnow e.rank) hS th cs).mono (hle (.inr ⟨th, cs, hcmd⟩))
        · cases hr : (j.rank e.rank).running with
          | true =>
            obtain ⟨hS, hstart⟩ := (h.dated e.rank).running hr
            exact (Session.inTime_perform_running (hnow e.rank) hnowl hr hpos (hS.trans he.1)
              (hstart.trans he.1) he.2).mono (hle (.inl hr))
          | false =>
            exact Session.inTime_perform_stopped (hall e.rank) hloaded hr hR₀.2
              ((h.dated e.rank).idle hr) he.2 fun th cs hcmd => hst ⟨th, cs, hcmd⟩
      · rw [step_rank_of_ne hp]
        exact hall p
    · rcases List.mem_append.mp hl with hl | hl
      · exact hloaded l hl
      · exact Session.inTime_loadsOf (hall e.rank) e.command l hl

end Job

/-- In every job whose arcs are made in `STATE_OMP` and whose merges, in `STATE_MPI`, are of
values loaded in `STATE_MPI` before, no critical value of `CLOCK_USEFUL` or `CLOCK_OOMP` stands
for more than the time since `S₀`, the first start of the tool. Once all processes have stopped,
at the latest at time `E`, a closed clock holds at most `E - S₀`. -/
theorem critical_le_realTime {P T S B : Type} [DecidableEq P] [DecidableEq T] [DecidableEq S]
    [DecidableEq B] (load : P → ℚ) (S₀ : ℚ) (hpos : 0 < S₀) (es : List (JobEvent P T S B))
    (hes : (Job.machine P T S B).Along (Job.Timely S₀) (.start T S B load) es)
    (i : ClockType) (hi : i = .useful ∨ i = .oomp) (p : P) (th : T) :
    (∀ t, (Job.afterRun load es).now ≤ t → S₀ ≤ t →
      (((Job.afterRun load es).rank p).sys.thread th).elapsed i .critical t ≤ t - S₀) ∧
    ∀ E, S₀ ≤ E →
      (∀ q, ((Job.afterRun load es).rank q).running = false ∧
        ((Job.afterRun load es).rank q).endProgrammTime ≤ E) →
      ((Job.afterRun load es).rank p).topState th = .init →
      ((((Job.afterRun load es).rank p).sys.thread th).clocks i).critical ≤ E - S₀ := by
  have hinv : (Job.afterRun load es).Inv S₀ :=
    hes.inv (fun j e hj he => hj.step hpos he) (Job.inv_start S₀ load)
  refine ⟨fun t ht hS => ?_, fun E hS hend hinit => ?_⟩
  · exact ((hinv.inTime t (hinv.reached_now ht)).1 p).1 th |>.elapsed_le hi (le_refl t) hS
  · have hreach : ∀ q, ((Job.afterRun load es).rank q).Reached (Job.afterRun load es).now E :=
      fun q => ⟨fun hr => absurd ((hend q).1.symm.trans hr) (by decide), (hend q).2⟩
    have hle := ((hinv.inTime E hreach).1 p).1 th |>.elapsed_le hi (le_refl E) hS
    unfold Session.topState at hinit
    rwa [ThreadClock.elapsed, hinit, runTerm_init, add_zero] at hle

def sentOn : List (JobEvent Bool Bool Bool Bool) :=
  [⟨1, false, .startTool false .useful⟩, ⟨2, true, .startTool false .useful⟩,
   ⟨4, false, .act (.op (.enterState false .mpi))⟩, ⟨4, false, .act (.mpiHappensBefore false false)⟩,
   ⟨5, true, .act (.op (.enterState false .mpi))⟩, ⟨5, true, .act (.receive false ⟨3, 3, -1⟩)⟩,
   ⟨5, true, .act (.mpiHappensAfter false false)⟩, ⟨5, true, .act (.op (.exitState false))⟩,
   ⟨9, false, .stopTool false⟩, ⟨9, true, .stopTool false⟩]

/-- The receiver ends with 7 units, one less than the time since the first start. -/
theorem critical_le_realTime_sentOn :
    ((((Job.afterRun (fun _ => 0) sentOn).rank true).sys.thread false).clocks .useful).critical = 7 ∧
    ((((Job.afterRun (fun _ => 0) sentOn).rank true).sys.thread false).clocks .useful).critical ≤
      9 - 1 :=
  ⟨by decide +kernel,
    (critical_le_realTime (fun _ => 0) 1 (by decide) sentOn (by decide +kernel) .useful (.inl rfl)
      true false).2 9 (by decide) (by decide +kernel) (by decide +kernel)⟩

end CritPath
