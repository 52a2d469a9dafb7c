import CritPath.Measure.Job

/-!
# The order of the components

A clock counts the time of its thread, of the longest path inside the process
and of the longest path over all processes, so its components should be ordered
in this way. Every operation keeps the order: times are added to all three
components, the first arc copies all three, later arcs and received values only
raise the larger ones.
-/

namespace CritPath

open Lib

/-- `thread ≤ proc ≤ critical`. -/
def CpClocks.Ordered (c : CpClocks) : Prop := c.thread ≤ c.proc ∧ c.proc ≤ c.critical

namespace CpClocks.Ordered

variable {c cc : CpClocks}

theorem reset (t : ℚ) : (CpClocks.reset t).Ordered := ⟨le_refl t, le_refl t⟩

theorem addAll (h : c.Ordered) (t : ℚ) : (c.addAll t).Ordered :=
  ⟨add_le_add_left h.1 t, add_le_add_left h.2 t⟩

theorem ompHBefore (h : c.Ordered) (h' : cc.Ordered) : (c.ompHBefore cc).Ordered := by
  simp only [Ordered, CpClocks.ompHBefore, updateMaximum_eq]
  exact ⟨h.1.trans (le_max_left _ _), max_le_max h.2 h'.2⟩

theorem ompHAfter (h : c.Ordered) (h' : cc.Ordered) : (c.ompHAfter cc).Ordered := by
  simp only [Ordered, CpClocks.ompHAfter, updateMaximum_eq]
  exact ⟨h'.1.trans (le_max_left _ _), max_le_max h'.2 h.2⟩

theorem maxCritical (h : c.Ordered) (v : ℚ) : (ThreadClock.maxCritical c v).Ordered := by
  simp only [Ordered, ThreadClock.maxCritical, updateMaximum_eq]
  exact ⟨h.1, h.2.trans (le_max_left _ _)⟩

end CpClocks.Ordered

/-! ## Thread clocks -/

def ThreadClock.Ordered (c : ThreadClock) : Prop := ∀ i, (c.clocks i).Ordered

namespace ThreadClock.Ordered

variable {c : ThreadClock}

theorem new : ThreadClock.new.Ordered := fun _ => .reset 0

theorem switchState (h : c.Ordered) (o n : ClockState) (t now : ℚ) :
    (c.switchState o n t now).Ordered := by
  intro i
  unfold ThreadClock.switchState
  split
  · exact h i
  · dsimp only
    split
    · exact h i
    · split
      · exact (h i).addAll _
      · exact (h i).addAll _

theorem enterState (h : c.Ordered) (r : Bool) (t now : ℚ) (cs : ClockState) :
    (c.enterState r t cs now).Ordered := by
  unfold ThreadClock.enterState
  split
  · exact h
  · exact h.switchState _ _ _ _

theorem exitState (h : c.Ordered) (r : Bool) (t now : ℚ) : (c.exitState r t now).Ordered := by
  unfold ThreadClock.exitState
  split
  · exact h
  · dsimp only
    split
    · exact h
    · have hpop : ThreadClock.Ordered { c with stack := c.stack.tail } := h
      exact hpop.switchState _ _ _ _

theorem setState (h : c.Ordered) (r : Bool) (t now : ℚ) (cs : ClockState) :
    (c.setState r t cs now).Ordered := by
  unfold ThreadClock.setState
  split
  · exact h
  · exact h.switchState _ _ _ _

theorem mpiHappensAfter (h : c.Ordered) (r : Bool) (uc : IpcData) :
    (c.mpiHappensAfter r uc).Ordered := by
  intro i
  unfold ThreadClock.mpiHappensAfter
  split
  · exact h i
  · cases i with
    | useful => exact (h .useful).maxCritical _
    | ompi => exact (h .ompi).maxCritical _
    | oomp => exact (h .oomp).maxCritical _
    | ogpu => exact h .ogpu

end ThreadClock.Ordered

/-! ## Sync clocks -/

def SyncClock.Ordered (s : SyncClock) : Prop := ∀ i, (s.clocks i).Ordered

namespace SyncClock.Ordered

variable {s : SyncClock} {tc : ThreadClock}

theorem fresh : SyncClock.fresh.Ordered := fun _ => .reset 0

theorem ompHBefore (h : s.Ordered) (htc : tc.Ordered) (r : Bool) :
    (s.ompHBefore r tc).Ordered := by
  cases r with
  | false => exact h
  | true =>
    intro i
    by_cases hst : s.syncState = .init
    · -- the first arc copies
      unfold SyncClock.ompHBefore checkArc
      cases i <;> simp only [hst]
      exacts [htc .useful, htc .ompi, htc .oomp, h .ogpu]
    · unfold SyncClock.ompHBefore checkArc
      cases i <;> simp only [hst]
      exacts [(h _).ompHBefore (htc _), (h _).ompHBefore (htc _), (h _).ompHBefore (htc _), h .ogpu]

theorem ompHAfter (h : s.Ordered) (htc : tc.Ordered) (r : Bool) :
    (s.ompHAfter r tc).1.Ordered ∧ (s.ompHAfter r tc).2.Ordered := by
  cases r with
  | false => exact ⟨h, htc⟩
  | true =>
    refine ⟨fun i => by rw [clocks_ompHAfter_fst]; exact h i, fun i => ?_⟩
    have hs : ∀ i, ((s.checkArc tc).1.clocks i).Ordered := fun i => by
      rw [clocks_checkArc]; exact h i
    cases i with
    | useful => exact (hs .useful).ompHAfter (htc .useful)
    | ompi => exact (hs .ompi).ompHAfter (htc .ompi)
    | oomp => exact (hs .oomp).ompHAfter (htc .oomp)
    | ogpu => exact htc .ogpu

theorem ompCReset (h : s.Ordered) (r : Bool) : (s.ompCReset r).Ordered := by
  cases r with
  | false => exact h
  | true =>
    intro i
    cases i
    exacts [.reset 0, .reset 0, .reset 0, h .ogpu]

end SyncClock.Ordered

/-! ## Systems, sessions and jobs -/

def Sys.Ordered {T S : Type} (σ : Sys T S) : Prop :=
  (∀ th, (σ.thread th).Ordered) ∧ ∀ s, (σ.sync s).Ordered

namespace Sys.Ordered

variable {T S : Type} {σ : Sys T S}

theorem start : (Sys.start T S).Ordered := ⟨fun _ => .new, fun _ => .fresh⟩

theorem setThread [DecidableEq T] (h : σ.Ordered) {th : T} {c : ThreadClock} (hc : c.Ordered) :
    (σ.setThread th c).Ordered := by
  refine ⟨?_, h.2⟩
  exact (Function.forall_update_iff σ.thread fun _ c => c.Ordered).mpr ⟨hc, fun q _ => h.1 q⟩

theorem setSync [DecidableEq S] (h : σ.Ordered) {s : S} {c : SyncClock} (hc : c.Ordered) :
    (σ.setSync s c).Ordered := by
  refine ⟨h.1, ?_⟩
  exact (Function.forall_update_iff σ.sync fun _ c => c.Ordered).mpr ⟨hc, fun q _ => h.2 q⟩

theorem step [DecidableEq T] [DecidableEq S] (h : σ.Ordered) (r : Bool) (e : Event T S) :
    (σ.step r e).Ordered := by
  obtain ⟨t, op⟩ := e
  cases op with
  | enterState th cs => exact h.setThread ((h.1 th).enterState _ _ _ _)
  | exitState th => exact h.setThread ((h.1 th).exitState _ _ _)
  | setState th cs => exact h.setThread ((h.1 th).setState _ _ _ _)
  | ompHBefore s th => exact h.setSync ((h.2 s).ompHBefore (h.1 th) r)
  | ompHAfter s th =>
    obtain ⟨hs, hc⟩ := (h.2 s).ompHAfter (h.1 th) r
    exact (h.setSync hs).setThread hc
  | ompCReset s => exact h.setSync ((h.2 s).ompCReset r)

end Sys.Ordered

namespace Session

variable {T S B : Type} {σ : Session T S B}

theorem ordered_stopMeasurement (h : σ.sys.Ordered) (t : ℚ) : (σ.stopMeasurement t).sys.Ordered := by
  rw [sys_stopMeasurement]
  exact h

variable [DecidableEq T]

theorem ordered_close (h : σ.sys.Ordered) (now : ℚ) (th : T) : (σ.close now th).sys.Ordered :=
  h.setThread ((h.1 th).setState _ _ _ _)

theorem ordered_finishMeasurement (h : σ.sys.Ordered) (now : ℚ) (me : T) :
    (σ.finishMeasurement now me).sys.Ordered := by
  refine finishMeasurement_inv (p := fun σ => σ.sys.Ordered) now ?_ me (fun _ => h) fun _ => ?_
  · intro σ th hσ
    exact ordered_close hσ now th
  · rw [sys_stopMeasurement]
    exact h

theorem ordered_startTool (h : σ.sys.Ordered) (now : ℚ) (th : T) (cs : ClockState) :
    (σ.startTool now th cs).sys.Ordered := by
  unfold startTool
  split
  · exact h
  · have hc : (if cs = .mpi ∧ (σ.sys.thread th).getState = .init
        then (σ.sys.thread th).enterState true now .useful now else σ.sys.thread th).Ordered := by
      split
      · exact (h.1 th).enterState _ _ _ _
      · exact h.1 th
    exact h.setThread (hc.enterState true now now cs)

variable [DecidableEq S] [DecidableEq B]

theorem ordered_step (h : σ.sys.Ordered) (a : ℚ × Action T S B) : (σ.step a).sys.Ordered := by
  obtain ⟨t, act⟩ := a
  cases act with
  | op o => exact h.step σ.running ⟨t, o⟩
  | mpiHappensBefore th b => exact h
  | mpiHappensAfter th b => exact h.setThread ((h.1 th).mpiHappensAfter _ _)
  | receive b uc => exact h
  | stopMeasurement => exact ordered_stopMeasurement h t
  | finishMeasurement th => exact ordered_finishMeasurement h t th

theorem ordered_perform (h : σ.sys.Ordered) (start now : ℚ) (c : Command T S B) :
    (Job.perform start now σ c).sys.Ordered := by
  cases c with
  | act a => exact ordered_step h (now, a)
  | threadBegin th initial => exact h.setThread ((h.1 th).enterState _ _ _ _)
  | startTool th cs => exact ordered_startTool h now th cs
  | stopTool th =>
    unfold Job.perform stopTool
    dsimp only
    split
    · exact ordered_close (ordered_stopMeasurement h now) now th
    · exact h
  | mpiFinalize th b => exact h.setThread ((h.1 th).mpiHappensAfter _ _)

end Session

/-- In every reachable state of a job every clock of every thread clock and sync clock is
ordered. -/
theorem components_ordered {P T S B : Type} [DecidableEq P] [DecidableEq T] [DecidableEq S]
    [DecidableEq B] (load : P → ℚ) (es : List (JobEvent P T S B)) (p : P) (i : ClockType) :
    (∀ th, (((Job.afterRun load es).rank p).sys.thread th |>.clocks i).Ordered) ∧
    ∀ s, (((Job.afterRun load es).rank p).sys.sync s |>.clocks i).Ordered := by
  have hall : ∀ p, ((Job.afterRun load es).rank p).sys.Ordered := by
    refine Machine.run_inv (I := fun j : Job P T S B => ∀ p, (j.rank p).sys.Ordered) ?_ ?_ es
    · intro j e hj
      have hrank := Session.ordered_perform (hj e.rank) (j.startProgrammTime e.rank) e.time e.command
      exact (Function.forall_update_iff j.rank fun _ σ => σ.sys.Ordered).mpr ⟨hrank, fun q _ => hj q⟩
    · exact fun _ => .start
  exact ⟨fun th => (hall p).1 th i, fun s => (hall p).2 s i⟩

end CritPath
