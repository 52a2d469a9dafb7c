import CritPath.Omp.StateStack

/-!
# Discipline of the clock state stack

In a run of nested callbacks the stack of a thread is that of its open regions
(`Opened.Nested`), and the records of its tasks say in which of them they wait
(`Opened.Records`). One lemma per callback shows that its clock calls pass their
checks and lead to the stack of the regions after it.
-/

namespace CritPath

open Lib ClockAct Opened

/-! ## The records of the tasks -/

namespace OmpThread

section InUse

variable {I G : Type} {d d' d'' : TaskData I G}

theorem InUse.refl (d : TaskData I G) : InUse d d := ⟨rfl, rfl, rfl, id⟩

theorem InUse.trans (h : InUse d d') (h' : InUse d' d'') : InUse d d'' :=
  ⟨h'.1.trans h.1, h'.2.1.trans h.2.1, h'.2.2.1.trans h.2.2.1, fun hd => h'.2.2.2 (h.2.2.2 hd)⟩

theorem InUse.of_sameData (h : SameData d d') : InUse d d' := by
  rw [h]
  exact ⟨rfl, rfl, rfl, id⟩

variable [DecidableEq I] {sh sh' : Shared I G}

theorem inUse_of_update {i : I} (htask : sh'.task = Function.update sh.task i d')
    (hd : InUse (sh.task i) d') (j : I) : InUse (sh.task j) (sh'.task j) := by
  rw [htask]
  by_cases hj : j = i
  · subst hj
    simpa using hd
  · simpa [Function.update_of_ne hj] using InUse.refl _

/-- `InBarrier` of task `i` becomes `w`, and nothing else. -/
def Marks (i : I) (w : Bool) (sh sh' : Shared I G) : Prop :=
  ∀ j, InUse { sh.task j with inBarrier := if j = i then w else (sh.task j).inBarrier } (sh'.task j)

theorem Marks.of_ne {i j : I} {w : Bool} (h : Marks i w sh sh') (hj : j ≠ i) :
    InUse (sh.task j) (sh'.task j) := by
  simpa [hj] using h j

variable (t : ℚ) (i : I) (s : View I G)

theorem marks_of_update {w : Bool} (htask : sh'.task = Function.update sh.task i d')
    (hd : InUse { sh.task i with inBarrier := w } d') : Marks i w sh sh' := by
  intro j
  rw [htask]
  by_cases hj : j = i
  · subst hj
    simpa using hd
  · simpa [hj] using InUse.refl _

theorem marks_syncRegionBegin : Marks i true s.1 (Shared.syncRegionBegin true t i s).1 := by
  unfold Shared.syncRegionBegin
  dsimp only
  split <;> exact marks_of_update i rfl (.refl _)

theorem marks_syncRegionEnd (pd : Bool) :
    Marks i false s.1 (Shared.syncRegionEnd true t pd i s).1 := by
  unfold Shared.syncRegionEnd
  dsimp only
  split <;> exact marks_of_update i rfl ⟨rfl, rfl, rfl, id⟩

theorem inUse_taskCreate {κ : I} (type : TaskType) {j : I} (hj : j ≠ κ) :
    InUse (s.1.task j) ((Shared.taskCreate true t i κ type s).1.task j) := by
  have hnew : (s.1.modifyTask κ (.new true i (s.1.task i).taskGroup type)).task j = s.1.task j :=
    Function.update_of_ne hj ..
  unfold Shared.taskCreate
  dsimp only
  split
  · rw [hnew]
    exact .refl _
  · split
    · have hbefore := Shared.sameData_taskBefore κ (s.2.enterState true t .omp t)
        (s.1.modifyTask κ (.new true i (s.1.task i).taskGroup type)) j
      rw [hnew] at hbefore
      refine (InUse.of_sameData hbefore).trans (inUse_of_update (i := i) rfl ?_ j)
      exact ⟨rfl, rfl, rfl, fun _ => Nat.succ_pos _⟩
    · exact .refl _

theorem inUse_dependences (deps : List TaskDependency) (j : I) :
    InUse (s.1.task j) ((Shared.dependences true t i deps s).1.task j) := by
  unfold Shared.dependences
  split
  · exact .refl _
  · refine .trans ?_ (.of_sameData (Shared.sameData_taskBefore i _ _ j))
    refine inUse_of_update (i := i) rfl ?_ j
    exact ⟨rfl, rfl, rfl, id⟩

theorem inUse_startTask (j : I) :
    InUse (s.1.task j) ((Shared.startTask true t i s).1.task j) := by
  unfold Shared.startTask
  dsimp only
  split
  · refine .trans ?_ (.of_sameData (Shared.sameData_taskAfter i _ j))
    refine inUse_of_update (i := i) rfl ?_ j
    exact ⟨rfl, rfl, rfl, fun _ => Nat.succ_pos _⟩
  · split
    · split
      · exact .refl _
      · exact .of_sameData (Shared.sameData_taskAfter i s j)
    · exact .refl _

theorem started_startTask : 0 < ((Shared.startTask true t i s).1.task i).execution := by
  by_cases h : (s.1.task i).execution = 0
  · simp [Shared.startTask, h, Shared.taskAfter, Shared.modifyTask]
  · exact (inUse_startTask t i s i).2.2.2 (Nat.pos_of_ne_zero h)

variable [DecidableEq G]

/-- What the calls of taskwaits and taskgroups do to `InBarrier`. -/
def waitMark : WaitCall G → Option Bool
  | .taskwaitBegin | .taskgroupWaitBegin => some true
  | .taskwaitEnd | .taskgroupWaitEnd => some false
  | .taskgroupBegin _ | .taskgroupEnd => none

theorem marks_waitCall {call : WaitCall G} {w : Bool} (hcall : waitMark call = some w) :
    Marks i w s.1 (Shared.waitCall true t i call s).1 := by
  cases call with
  | taskwaitBegin => cases hcall; exact marks_of_update i rfl (.refl _)
  | taskgroupWaitBegin => cases hcall; exact marks_of_update i rfl (.refl _)
  | taskwaitEnd => cases hcall; exact marks_of_update i rfl ⟨rfl, rfl, rfl, id⟩
  | taskgroupWaitEnd => cases hcall; exact marks_of_update i rfl (.refl _)
  | taskgroupBegin g => cases hcall
  | taskgroupEnd => cases hcall

theorem inUse_waitCall {call : WaitCall G} (hcall : waitMark call = none) (j : I) :
    InUse (s.1.task j) ((Shared.waitCall true t i call s).1.task j) := by
  cases call with
  | taskgroupBegin g =>
    refine inUse_of_update (i := i) rfl ?_ j
    exact ⟨rfl, rfl, rfl, id⟩
  | taskgroupEnd =>
    simp only [Shared.waitCall]
    split
    · exact .refl _
    · refine inUse_of_update (i := i) rfl ?_ j
      exact ⟨rfl, rfl, rfl, id⟩
  | taskwaitBegin => cases hcall
  | taskgroupWaitBegin => cases hcall
  | taskwaitEnd => cases hcall
  | taskgroupWaitEnd => cases hcall

theorem inUse_taskSchedule {status : TaskStatus}
    (hstatus : status = .switch ∨ status = .yield ∨ status = .complete) (next j : I) :
    InUse (s.1.task j) ((Shared.taskSchedule true t i status next s).1.task j) ∧
      0 < ((Shared.taskSchedule true t i status next s).1.task next).execution := by
  rcases hstatus with rfl | rfl | rfl
  · exact ⟨.trans (.of_sameData (Shared.sameData_suspendTask t i s j)) (inUse_startTask t next _ j),
      started_startTask t next _⟩
  · exact ⟨.trans (.of_sameData (Shared.sameData_suspendTask t i s j)) (inUse_startTask t next _ j),
      started_startTask t next _⟩
  · refine ⟨.trans (.of_sameData ?_) (inUse_startTask t next _ j), started_startTask t next _⟩
    exact Shared.sameData_completeTask i (Shared.suspendTaskEnd true t i s) j

end InUse

end OmpThread

/-! ## The invariant -/

def Region.marks {I : Type} : Region I → List ClockState
  | .parallel | .barrier | .taskwait | .taskgroupWait | .mutex => [.omp]
  | .implicit _ => [.useful]
  | .explicit _ => [.useful, .omp]
  | .taskgroup | .regionWait => []

namespace Opened

variable {I G : Type} {o : Opened I} {os : List (Opened I)} {st base : List ClockState}

/-- The stack is that of the open regions, on top of `base`. -/
def Nested (base : List ClockState) : List (Opened I) → List ClockState → Prop
  | [], st => st = base
  | o :: os, st => st = o.region.marks ++ o.before ∧ Nested base os o.before

/-- Where a region is opened. -/
def Placed : List (Opened I) → Prop
  | [] => True
  | ⟨.explicit _, _⟩ :: os => (executing os = true ∨ waiting os = true) ∧ Placed os
  | ⟨.implicit _, _⟩ :: os | ⟨.regionWait, _⟩ :: os => Placed os
  | _ :: os => waiting os = false ∧ Placed os

/-- The record of a task on the thread, which waits in a region if `w`. -/
structure OnThread (d : TaskData I G) (w : Bool) : Prop where
  isRunning : d.isRunning = true
  tied : d.type.untied = false
  started : 0 < d.execution
  inBarrier : d.inBarrier = w

/-- The records of the tasks on the thread, the first of which waits in a region if `w`. -/
def Records (task : I → TaskData I G) : Bool → List (Opened I) → Prop
  | _, [] => True
  | w, o :: os =>
    match o.region.task with
    | some i => OnThread (task i) w ∧ Records task (waiting os) os
    | none => Records task w os

theorem OnThread.inUse {d d' : TaskData I G} {w : Bool} (h : OnThread d w)
    (hu : OmpThread.InUse d d') : OnThread d' w :=
  ⟨hu.1.trans h.isRunning, hu.2.2.1.trans h.tied, hu.2.2.2 h.started, hu.2.1.trans h.inBarrier⟩

theorem waiting_of_executing (h : executing os = true) : waiting os = false := by
  unfold executing at h
  split at h <;> first | rfl | cases h

theorem head_of_executing (hn : Nested base os st) (h : executing os = true) :
    st.headD .init = .useful := by
  induction os generalizing st with
  | nil => cases h
  | cons o os ih =>
    obtain ⟨region, before⟩ := o
    obtain ⟨rfl, hn⟩ := hn
    cases region with
    | implicit i => rfl
    | explicit i => rfl
    | taskgroup => exact ih hn h
    | parallel => cases h
    | barrier => cases h
    | taskwait => cases h
    | taskgroupWait => cases h
    | regionWait => cases h
    | mutex => cases h

theorem head_of_waiting (hn : Nested base os st) (h : waiting os = true) :
    st.headD .init = .omp := by
  induction os generalizing st with
  | nil => cases h
  | cons o os ih =>
    obtain ⟨region, before⟩ := o
    obtain ⟨rfl, hn⟩ := hn
    cases region with
    | barrier => rfl
    | taskwait => rfl
    | taskgroupWait => rfl
    | regionWait => exact ih hn h
    | implicit i => cases h
    | explicit i => cases h
    | taskgroup => cases h
    | parallel => cases h
    | mutex => cases h

theorem exists_of_top {r : Region I} (h : top os = some r) :
    ∃ before os', os = ⟨r, before⟩ :: os' := by
  cases os with
  | nil => cases h
  | cons o os =>
    obtain ⟨region, before⟩ := o
    cases h
    exact ⟨before, os, rfl⟩

namespace Records

variable {task task' : I → TaskData I G} {w w' : Bool} {i : I}

theorem cons_task (h : o.region.task = some i) :
    Records task w (o :: os) ↔ OnThread (task i) w ∧ Records task (waiting os) os := by
  simp only [Records, h]

theorem cons_none (h : o.region.task = none) :
    Records task w (o :: os) ↔ Records task w os := by
  simp only [Records, h]

theorem owner (h : Records task w os) (hi : owner os = some i) : OnThread (task i) w := by
  induction os generalizing w with
  | nil => cases hi
  | cons o os ih =>
    cases hr : o.region.task with
    | none =>
      rw [cons_none hr] at h
      exact ih h (by simpa [Opened.owner, tasks, hr] using hi)
    | some j =>
      rw [cons_task hr] at h
      obtain rfl : j = i := by simpa [Opened.owner, tasks, hr] using hi
      exact h.1

theorem congr (h : Records task w os)
    (hu : ∀ j ∈ tasks os, OmpThread.InUse (task j) (task' j)) : Records task' w os := by
  induction os generalizing w with
  | nil => trivial
  | cons o os ih =>
    cases hr : o.region.task with
    | none =>
      rw [cons_none hr] at h ⊢
      exact ih h fun j hj => hu j (by simpa [tasks, hr] using hj)
    | some j =>
      have htasks : tasks (o :: os) = j :: tasks os := by simp [tasks, hr]
      rw [htasks] at hu
      rw [cons_task hr] at h ⊢
      exact ⟨h.1.inUse (hu j (List.mem_cons_self ..)),
        ih h.2 fun j' hj' => hu j' (List.mem_cons_of_mem _ hj')⟩

theorem mark (h : Records task w os) (hnd : (tasks os).Nodup) (hi : Opened.owner os = some i)
    (hmark : OmpThread.InUse { task i with inBarrier := w' } (task' i))
    (hu : ∀ j, j ≠ i → OmpThread.InUse (task j) (task' j)) : Records task' w' os := by
  induction os generalizing w with
  | nil => trivial
  | cons o os ih =>
    cases hr : o.region.task with
    | none =>
      have htasks : tasks (o :: os) = tasks os := by simp [tasks, hr]
      rw [htasks] at hnd
      rw [Opened.owner, htasks] at hi
      rw [cons_none hr] at h ⊢
      exact ih h hnd hi
    | some j =>
      have htasks : tasks (o :: os) = j :: tasks os := by simp [tasks, hr]
      rw [htasks] at hnd
      obtain rfl : j = i := by simpa [Opened.owner, htasks] using hi
      rw [cons_task hr] at h ⊢
      have hd : OnThread { task j with inBarrier := w' } w' := { h.1 with inBarrier := rfl }
      refine ⟨hd.inUse hmark, h.2.congr fun j' hj' => hu j' ?_⟩
      rintro rfl
      exact (List.nodup_cons.mp hnd).1 hj'

end Records

end Opened

namespace OmpThread

section

variable {I G : Type} {d d' : TaskData I G} {w : Bool}

theorem NotStarted.startActs (hd : NotStarted d) (st : List ClockState)
    (hst : st.headD .init = .omp) :
    Checked d.startActs st ∧ run d.startActs st = .useful :: st := by
  have hacts : d.startActs =
      List.replicate (readClocks d.dependencies).length .arc ++ [.arc, .enter .useful] :=
    if_pos hd.1
  have hrep := run_replicate_arc (readClocks d.dependencies).length st
  rw [hacts, checked_append, run_append, hrep]
  exact ⟨⟨checked_arcs (fun _ ha => List.eq_of_mem_replicate ha) hst, hst, trivial, trivial⟩, rfl⟩

theorem startActs_of_onThread (hd : OnThread d w) :
    d.startActs = [.exitTo .omp (if w then .omp else .useful) true] := by
  have hex : d.execution ≠ 0 := Nat.pos_iff_ne_zero.mp hd.started
  simp only [TaskData.startActs, hex, hd.tied, hd.inBarrier, hd.isRunning, if_false,
    Bool.false_eq_true]
  cases w <;> rfl

theorem suspendActs_of_onThread (hd : OnThread d w) :
    d.suspendActs = [.enter .omp] := by
  simp [TaskData.suspendActs, hd.tied]

theorem NotStarted.onThread (hd : NotStarted d) (hrun : d.isRunning = true) (hu : InUse d d')
    (hex : 0 < d'.execution) : OnThread d' false :=
  ⟨hu.1.trans hrun, hu.2.2.1.trans hd.2.2, hex, hu.2.1.trans hd.2.1⟩

end

variable {I G : Type} [DecidableEq I] [DecidableEq G] {σ : OmpThread I G}
  {l : ℚ × ThreadCall I G} {base : List ClockState} {t : ℚ}

omit [DecidableEq I] [DecidableEq G] in
theorem acts_taskCreate (σ : OmpThread I G) (parent κ : I) (type : TaskType) :
    σ.acts (.taskCreate parent κ type) = [] ∨
      σ.acts (.taskCreate parent κ type) = TaskData.timedArc := by
  unfold acts
  dsimp only
  split
  · exact .inl rfl
  · split
    · exact .inr rfl
    · exact .inl rfl

omit [DecidableEq I] [DecidableEq G] in
theorem acts_dependences (σ : OmpThread I G) (κ : I) (deps : List TaskDependency) :
    σ.acts (.dependences κ deps) = [] ∨ σ.acts (.dependences κ deps) = TaskData.timedArc := by
  unfold acts
  dsimp only
  split
  · exact .inl rfl
  · exact .inr rfl

theorem run_of_timedArc {acts : List ClockAct} (st : List ClockState)
    (h : acts = [] ∨ acts = TaskData.timedArc) : run acts st = st := by
  rcases h with h | h <;> rw [h] <;> rfl

theorem checked_timedArc (st : List ClockState) : Checked TaskData.timedArc st :=
  ⟨trivial, rfl, trivial, trivial⟩

theorem checked_of_timedArc {acts : List ClockAct} {st : List ClockState}
    (h : acts = [] ∨ acts = TaskData.timedArc) : Checked acts st := by
  rcases h with h | h <;> rw [h]
  · trivial
  · exact checked_timedArc st

theorem stack_step (σ : OmpThread I G) (l : ℚ × ThreadCall I G) :
    (σ.step l).clock.stack = run (σ.acts l.2) σ.clock.stack := by
  obtain ⟨t, call⟩ := l
  cases call with
  | other shared locks => rfl
  | threadBegin time => exact ThreadClock.stack_enterState ..
  | parallelBegin => exact Shared.stack_parallelBegin ..
  | parallelEnd => exact ThreadClock.stack_exitState_eq_pop ..
  | implicitTaskBegin initial i threadNum =>
    cases initial with
    | true => exact ThreadClock.stack_enterState ..
    | false =>
      simp only [step, on, opens, implicitTaskBegin, Shared.implicitTaskBegin, acts,
        Bool.false_eq_true, if_false, ThreadClock.stack_enterState, Shared.stack_barrierAfter]
      split <;> simp [exec]
  | implicitTaskEnd i => exact ThreadClock.stack_exitState_eq_pop ..
  | barrierBegin i => exact Shared.stack_syncRegionBegin ..
  | barrierEnd i pd => exact Shared.stack_syncRegionEnd ..
  | wait i call => cases call <;> exact Shared.stack_waitCall ..
  | regionWaitBegin => rfl
  | regionWaitEnd => rfl
  | mutexAcquire => exact ThreadClock.stack_enterState ..
  | mutexAcquired waitId =>
    simp [step, closes, mutexAcquired, acts, exec, ThreadClock.stack_exitState_eq_pop]
  | mutexReleased waitId =>
    simp [step, mutexReleased, acts, TaskData.timedArc, exec, ThreadClock.stack_exitState_eq_pop]
  | taskCreate parent κ type =>
    exact (Shared.stack_taskCreate ..).trans (run_of_timedArc _ (acts_taskCreate ..)).symm
  | dependences κ deps =>
    exact (Shared.stack_dependences ..).trans (run_of_timedArc _ (acts_dependences ..)).symm
  | taskSchedule i status next => exact Shared.stack_taskSchedule ..

/-- The stack and the records are those of the open regions. -/
structure Inv (base : List ClockState) (σ : OmpThread I G) : Prop where
  idle : σ.begun = false → σ.regions = []
  nested : Nested (if σ.begun then .omp :: base else base) σ.regions σ.clock.stack
  placed : Placed σ.regions
  records : Opened.Records σ.shared.task (waiting σ.regions) σ.regions
  nodup : (tasks σ.regions).Nodup

omit [DecidableEq I] [DecidableEq G] in
theorem Inv.begun (hi : σ.Inv base) (h : σ.regions ≠ []) : σ.begun = true := by
  by_contra hb
  exact h (hi.idle (by simpa using hb))

theorem Inv.opening {r : Region I} (hi : σ.Inv base) (hbegun : σ.begun = true)
    (hstep : (σ.step l).begun = true)
    (hregions : (σ.step l).regions = ⟨r, σ.clock.stack⟩ :: σ.regions)
    (hrun : run (σ.acts l.2) σ.clock.stack = r.marks ++ σ.clock.stack)
    (hplaced : Placed (⟨r, σ.clock.stack⟩ :: σ.regions))
    (hrec : Opened.Records (σ.step l).shared.task (waiting (σ.step l).regions) (σ.step l).regions)
    (hnd : (tasks (σ.step l).regions).Nodup) : (σ.step l).Inv base where
  idle h := by rw [hstep] at h; cases h
  nested := by
    have hn := hi.nested
    rw [hbegun] at hn
    rw [hstep, hregions, stack_step, hrun]
    exact ⟨rfl, hn⟩
  placed := by rw [hregions]; exact hplaced
  records := hrec
  nodup := hnd

theorem Inv.closing {o : Opened I} {os : List (Opened I)} (hi : σ.Inv base)
    (hos : σ.regions = o :: os) (hstep : (σ.step l).begun = σ.begun)
    (hregions : (σ.step l).regions = os) (hrun : run (σ.acts l.2) σ.clock.stack = o.before)
    (hplaced : Placed os) (hrec : Opened.Records (σ.step l).shared.task (waiting os) os) :
    (σ.step l).Inv base where
  idle h := by
    rw [hstep] at h
    have hnil := hi.idle h
    rw [hos] at hnil
    cases hnil
  nested := by
    have hn := hi.nested
    rw [hos] at hn
    rw [hstep, hregions, stack_step, hrun]
    exact hn.2
  placed := by rw [hregions]; exact hplaced
  records := by rw [hregions]; exact hrec
  nodup := by
    have hnd := hi.nodup
    rw [hos] at hnd
    rw [hregions]
    exact hnd.sublist ((List.sublist_cons_self o os).filterMap _)

theorem Inv.same (hi : σ.Inv base) (hstep : (σ.step l).begun = σ.begun)
    (hregions : (σ.step l).regions = σ.regions)
    (hrun : run (σ.acts l.2) σ.clock.stack = σ.clock.stack)
    (hu : ∀ j ∈ tasks σ.regions, InUse (σ.shared.task j) ((σ.step l).shared.task j)) :
    (σ.step l).Inv base where
  idle h := by rw [hregions]; exact hi.idle (hstep ▸ h)
  nested := by
    rw [hstep, hregions, stack_step, hrun]
    exact hi.nested
  placed := by rw [hregions]; exact hi.placed
  records := by rw [hregions]; exact hi.records.congr hu
  nodup := by rw [hregions]; exact hi.nodup

/-! ## One callback -/

omit [DecidableEq I] [DecidableEq G] in
theorem Inv.of_top {r : Region I} (hi : σ.Inv base) (h : top σ.regions = some r) :
    ∃ before os, σ.regions = ⟨r, before⟩ :: os ∧ σ.clock.stack = r.marks ++ before := by
  obtain ⟨before, os, hos⟩ := exists_of_top h
  have hn := hi.nested
  rw [hos] at hn
  exact ⟨before, os, hos, hn.1⟩

theorem Inv.opening_plain (hi : σ.Inv base) (r : Region I) (hex : executing σ.regions = true)
    (hr : r.task = none) (hw : waiting (⟨r, σ.clock.stack⟩ :: σ.regions) = false)
    (hplaced : waiting σ.regions = false → Placed σ.regions →
      Placed (⟨r, σ.clock.stack⟩ :: σ.regions))
    (hstep : (σ.step l).begun = σ.begun)
    (hregions : (σ.step l).regions = ⟨r, σ.clock.stack⟩ :: σ.regions)
    (hrun : run (σ.acts l.2) σ.clock.stack = r.marks ++ σ.clock.stack)
    (hu : ∀ j ∈ tasks σ.regions, InUse (σ.shared.task j) ((σ.step l).shared.task j)) :
    (σ.step l).Inv base := by
  have hb : σ.begun = true := hi.begun fun hnil => by rw [hnil] at hex; cases hex
  have hwait := waiting_of_executing hex
  refine hi.opening hb (hstep.trans hb) hregions hrun (hplaced hwait hi.placed) ?_ ?_
  · rw [hregions, hw, Opened.Records.cons_none hr, ← hwait]
    exact hi.records.congr hu
  · rw [hregions, show tasks (⟨r, σ.clock.stack⟩ :: σ.regions) = tasks σ.regions by simp [tasks, hr]]
    exact hi.nodup

/-- A region in which the task of the thread waits is opened. -/
theorem Inv.opening_wait {i : I} (hi : σ.Inv base) (r : Region I)
    (hnw : waiting σ.regions = false) (howner : owner σ.regions = some i)
    (hr : r.task = none) (hw : waiting (⟨r, σ.clock.stack⟩ :: σ.regions) = true)
    (hplaced : waiting σ.regions = false → Placed σ.regions →
      Placed (⟨r, σ.clock.stack⟩ :: σ.regions))
    (hstep : (σ.step l).begun = σ.begun)
    (hregions : (σ.step l).regions = ⟨r, σ.clock.stack⟩ :: σ.regions)
    (hrun : run (σ.acts l.2) σ.clock.stack = r.marks ++ σ.clock.stack)
    (hm : Marks i true σ.shared (σ.step l).shared) : (σ.step l).Inv base := by
  have hb : σ.begun = true := hi.begun fun hnil => by rw [hnil] at howner; cases howner
  refine hi.opening hb (hstep.trans hb) hregions hrun (hplaced hnw hi.placed) ?_ ?_
  · rw [hregions, hw, Opened.Records.cons_none hr]
    exact hi.records.mark hi.nodup howner (by simpa using hm i) fun j hj => hm.of_ne hj
  · rw [hregions, show tasks (⟨r, σ.clock.stack⟩ :: σ.regions) = tasks σ.regions by simp [tasks, hr]]
    exact hi.nodup

theorem Inv.closing_plain {r : Region I} {before : List ClockState} {os : List (Opened I)}
    (hi : σ.Inv base) (hos : σ.regions = ⟨r, before⟩ :: os) (hr : r.task = none)
    (hw : waiting (⟨r, before⟩ :: os) = waiting os) (hplaced : Placed os)
    (hstep : (σ.step l).begun = σ.begun) (hregions : (σ.step l).regions = os)
    (hrun : run (σ.acts l.2) σ.clock.stack = before)
    (hu : ∀ j ∈ tasks os, InUse (σ.shared.task j) ((σ.step l).shared.task j)) :
    (σ.step l).Inv base := by
  have hrec := hi.records
  rw [hos, Opened.Records.cons_none hr, hw] at hrec
  exact hi.closing hos hstep hregions hrun hplaced (hrec.congr hu)

/-- The end of a region in which the task of the thread waited. -/
theorem Inv.closing_wait {r : Region I} {before : List ClockState} {os : List (Opened I)} {i : I}
    (hi : σ.Inv base) (hos : σ.regions = ⟨r, before⟩ :: os) (howner : owner σ.regions = some i)
    (hr : r.task = none) (hw : waiting os = false) (hplaced : Placed os)
    (hstep : (σ.step l).begun = σ.begun) (hregions : (σ.step l).regions = os)
    (hrun : run (σ.acts l.2) σ.clock.stack = before)
    (hm : Marks i false σ.shared (σ.step l).shared) : (σ.step l).Inv base := by
  have htasks : tasks (⟨r, before⟩ :: os) = tasks os := by simp [tasks, hr]
  have hrec := hi.records
  have hnd := hi.nodup
  rw [hos, htasks] at hnd
  rw [hos, owner, htasks] at howner
  rw [hos, Opened.Records.cons_none hr] at hrec
  refine hi.closing hos hstep hregions hrun hplaced ?_
  rw [hw]
  exact hrec.mark hnd howner (by simpa using hm i) fun j hj => hm.of_ne hj

theorem Disciplined.closing_of {r : Region I} {before : List ClockState} {os : List (Opened I)}
    (hos : σ.regions = ⟨r, before⟩ :: os) (hregions : (σ.step l).regions = os)
    (hrun : run (σ.acts l.2) σ.clock.stack = before)
    (hchecked : Checked (σ.acts l.2) σ.clock.stack) (hsingle : ¬ Single l.2) : Disciplined σ l where
  checked := hchecked
  closing _ := ⟨_, os, hos, hregions, (stack_step σ l).trans hrun⟩
  single h := absurd h hsingle

theorem Disciplined.of_checked (hchecked : Checked (σ.acts l.2) σ.clock.stack)
    (hclosing : ¬ σ.Closing l.2) (hsingle : ¬ Single l.2) : Disciplined σ l :=
  ⟨hchecked, fun h => absurd h hclosing, fun h => absurd h hsingle⟩

theorem Disciplined.of_single (hchecked : Checked (σ.acts l.2) σ.clock.stack)
    (hclosing : ¬ σ.Closing l.2) (hrun : run (σ.acts l.2) σ.clock.stack = σ.clock.stack) :
    Disciplined σ l :=
  ⟨hchecked, fun h => absurd h hclosing, fun _ => (stack_step σ l).trans hrun⟩

section Calls

variable (hi : σ.Inv base)
include hi

theorem Inv.parallelBegin (hg : σ.Allowed .parallelBegin) :
    Disciplined σ (t, .parallelBegin) ∧ (σ.step (t, .parallelBegin)).Inv base := by
  refine ⟨.of_checked ⟨trivial, rfl, trivial⟩ id id, ?_⟩
  exact hi.opening_plain .parallel hg rfl rfl (fun h h' => ⟨h, h'⟩) rfl rfl rfl fun j _ => .refl _

theorem Inv.parallelEnd (hg : σ.Allowed .parallelEnd) :
    Disciplined σ (t, .parallelEnd) ∧ (σ.step (t, .parallelEnd)).Inv base := by
  obtain ⟨before, os, hos, hst⟩ := hi.of_top hg
  have hregions : (σ.step (t, .parallelEnd)).regions = os := congrArg List.tail hos
  have hrun : run (σ.acts .parallelEnd) σ.clock.stack = before := by rw [hst]; rfl
  have hplaced := hi.placed
  rw [hos] at hplaced
  refine ⟨.closing_of hos hregions hrun ⟨trivial, trivial⟩ id, ?_⟩
  exact hi.closing_plain hos rfl hplaced.1.symm hplaced.2 rfl hregions hrun fun j _ => .refl _

theorem Inv.threadBegin {time : ℚ} (hg : σ.Allowed (.threadBegin time)) :
    Disciplined σ (t, .threadBegin time) ∧ (σ.step (t, .threadBegin time)).Inv base := by
  have hb : σ.begun = false := hg
  have hnil := hi.idle hb
  have hn := hi.nested
  rw [hnil, hb] at hn
  refine ⟨.of_checked ⟨trivial, trivial⟩ id id, ?_⟩
  have hregions : (σ.step (t, .threadBegin time)).regions = [] := hnil
  constructor
  · exact fun _ => hregions
  · rw [hregions, stack_step]
    exact congrArg (List.cons .omp) hn
  · rw [hregions]
    trivial
  · rw [hregions]
    trivial
  · rw [hregions]
    exact List.nodup_nil

theorem Inv.implicitTaskBegin {initial : Bool} {i : I} {threadNum : ℕ}
    (hg : σ.Allowed (.implicitTaskBegin initial i threadNum)) :
    Disciplined σ (t, .implicitTaskBegin initial i threadNum) ∧
      (σ.step (t, .implicitTaskBegin initial i threadNum)).Inv base := by
  obtain ⟨hb, hnew, hplace⟩ := hg
  have hhead : σ.clock.stack.headD .init = .omp := by
    have hn := hi.nested
    rw [hb] at hn
    rcases hplace with hnil | ⟨-, htop⟩
    · rw [hnil] at hn
      rw [hn]
      rfl
    · obtain ⟨before, os, -, hst⟩ := hi.of_top htop
      rw [hst]
      rfl
  have hstate : σ.clock.getState ≠ .init := by
    rw [ThreadClock.getState, hhead]
    decide
  have hacts : σ.acts (.implicitTaskBegin initial i threadNum) =
      if initial then [.enter .useful] else [.arc, .enter .useful] := by
    simp [acts, hstate]
  have htask : ∀ j, j ≠ i →
      (σ.step (t, .implicitTaskBegin initial i threadNum)).shared.task j = σ.shared.task j := by
    intro j hj
    cases initial <;> exact Function.update_of_ne hj ..
  have hrecord : (σ.step (t, .implicitTaskBegin initial i threadNum)).shared.task i =
      .newImplicit true threadNum (σ.shared.task i) := by
    cases initial <;> exact Function.update_self ..
  refine ⟨.of_checked ?_ id id, ?_⟩
  · rw [hacts]
    cases initial with
    | true => exact ⟨trivial, trivial⟩
    | false => exact ⟨hhead, trivial, trivial⟩
  · refine hi.opening (r := .implicit i) hb hb rfl ?_ hi.placed ⟨?_, ?_⟩ ?_
    · rw [hacts]
      cases initial <;> rfl
    · rw [hrecord]
      exact ⟨rfl, rfl, Nat.zero_lt_one, rfl⟩
    · refine hi.records.congr fun j hj => ?_
      rw [htask j fun hji => hnew (hji ▸ hj)]
      exact .refl _
    · exact List.nodup_cons.mpr ⟨hnew, hi.nodup⟩

theorem Inv.implicitTaskEnd {i : I} (hg : σ.Allowed (.implicitTaskEnd i)) :
    Disciplined σ (t, .implicitTaskEnd i) ∧ (σ.step (t, .implicitTaskEnd i)).Inv base := by
  obtain ⟨before, os, hos, hst⟩ := hi.of_top hg
  have hrec := hi.records
  have hplaced := hi.placed
  rw [hos] at hrec hplaced
  have hregions : (σ.step (t, .implicitTaskEnd i)).regions = os := congrArg List.tail hos
  have hrun : run (σ.acts (.implicitTaskEnd i)) σ.clock.stack = before := by
    rw [hst, acts, hrec.1.isRunning]
    rfl
  exact ⟨.closing_of hos hregions hrun ⟨trivial, trivial⟩ id,
    hi.closing hos rfl hregions hrun hplaced hrec.2⟩

theorem Inv.barrierBegin {i : I} (hg : σ.Allowed (.barrierBegin i)) :
    Disciplined σ (t, .barrierBegin i) ∧ (σ.step (t, .barrierBegin i)).Inv base := by
  refine ⟨.of_checked ⟨trivial, rfl, trivial⟩ id id, ?_⟩
  exact hi.opening_wait .barrier (waiting_of_executing hg.1) hg.2 rfl rfl (fun h h' => ⟨h, h'⟩) rfl
    rfl rfl (marks_syncRegionBegin t i (σ.shared, σ.clock))

theorem Inv.barrierEnd {i : I} {pd : Bool} (hg : σ.Allowed (.barrierEnd i pd)) :
    Disciplined σ (t, .barrierEnd i pd) ∧ (σ.step (t, .barrierEnd i pd)).Inv base := by
  obtain ⟨before, os, hos, hst⟩ := hi.of_top hg.1
  have hplaced := hi.placed
  rw [hos] at hplaced
  have hregions : (σ.step (t, .barrierEnd i pd)).regions = os := congrArg List.tail hos
  have hr := (hi.records.owner hg.2).isRunning
  have hrun : run (σ.acts (.barrierEnd i pd)) σ.clock.stack = before := by
    rw [hst, acts, hr]
    split <;> rfl
  refine ⟨.closing_of hos hregions hrun ?_ id, ?_⟩
  · rw [hst, acts]
    split
    · exact ⟨rfl, trivial, trivial⟩
    · exact ⟨trivial, trivial⟩
  · exact hi.closing_wait hos hg.2 rfl hplaced.1 hplaced.2 rfl hregions hrun
      (marks_syncRegionEnd t i (σ.shared, σ.clock) pd)

theorem Inv.wait {i : I} {call : WaitCall G} (hg : σ.Allowed (.wait i call)) :
    Disciplined σ (t, .wait i call) ∧ (σ.step (t, .wait i call)).Inv base := by
  obtain ⟨howner, hg⟩ := hg
  have hr := (hi.records.owner howner).isRunning
  have hmarks := fun w (h : waitMark call = some w) =>
    marks_waitCall t i (σ.shared, σ.clock) h
  have hinUse := fun (h : waitMark call = none) => inUse_waitCall t i (σ.shared, σ.clock) h
  have hplaced := hi.placed
  cases call with
  | taskwaitBegin =>
    refine ⟨.of_checked ⟨trivial, trivial⟩ id id, ?_⟩
    exact hi.opening_wait .taskwait (waiting_of_executing hg) howner rfl rfl
      (fun h h' => ⟨h, h'⟩) rfl rfl rfl (hmarks true rfl)
  | taskgroupBegin g =>
    refine ⟨.of_checked trivial id id, ?_⟩
    exact hi.opening_plain .taskgroup hg rfl rfl (fun h h' => ⟨h, h'⟩) rfl rfl rfl
      fun j _ => hinUse rfl j
  | taskgroupWaitBegin =>
    obtain ⟨before, os, hos, -⟩ := hi.of_top hg
    have hw : waiting σ.regions = false := by
      rw [hos]
      rfl
    refine ⟨.of_checked ⟨trivial, trivial⟩ id id, ?_⟩
    exact hi.opening_wait .taskgroupWait hw howner rfl rfl (fun h h' => ⟨h, h'⟩) rfl rfl rfl
      (hmarks true rfl)
  | taskwaitEnd =>
    obtain ⟨before, os, hos, hst⟩ := hi.of_top hg
    rw [hos] at hplaced
    have hregions : (σ.step (t, .wait i .taskwaitEnd)).regions = os := congrArg List.tail hos
    have hrun : run (σ.acts (.wait i .taskwaitEnd)) σ.clock.stack = before := by
      rw [hst, acts, TaskData.waitActs, hr]
      split <;> rfl
    refine ⟨.closing_of hos hregions hrun ?_ id, ?_⟩
    · rw [hst, acts, TaskData.waitActs]
      split
      · exact ⟨rfl, trivial, trivial⟩
      · exact ⟨trivial, trivial⟩
    · exact hi.closing_wait hos howner rfl hplaced.1 hplaced.2 rfl hregions hrun (hmarks false rfl)
  | taskgroupWaitEnd =>
    obtain ⟨before, os, hos, hst⟩ := hi.of_top hg
    rw [hos] at hplaced
    have hregions : (σ.step (t, .wait i .taskgroupWaitEnd)).regions = os := congrArg List.tail hos
    have hrun : run (σ.acts (.wait i .taskgroupWaitEnd)) σ.clock.stack = before := by
      rw [hst, acts, TaskData.waitActs, hr]
      rfl
    refine ⟨.closing_of hos hregions hrun ⟨trivial, trivial⟩ id, ?_⟩
    exact hi.closing_wait hos howner rfl hplaced.1 hplaced.2 rfl hregions hrun (hmarks false rfl)
  | taskgroupEnd =>
    obtain ⟨before, os, hos, hst⟩ := hi.of_top hg
    rw [hos] at hplaced
    have hregions : (σ.step (t, .wait i .taskgroupEnd)).regions = os := congrArg List.tail hos
    have hrun : run (σ.acts (.wait i .taskgroupEnd)) σ.clock.stack = before := by
      rw [hst]
      rfl
    refine ⟨.closing_of hos hregions hrun (checked_timedArc _) id, ?_⟩
    exact hi.closing_plain hos rfl hplaced.1.symm hplaced.2 rfl hregions hrun
      fun j _ => hinUse rfl j

theorem Inv.regionWaitBegin (hg : σ.Allowed .regionWaitBegin) :
    Disciplined σ (t, .regionWaitBegin) ∧ (σ.step (t, .regionWaitBegin)).Inv base := by
  have hb : σ.begun = true := by
    refine hi.begun fun hnil => ?_
    rcases hg with hg | hg <;> rw [hnil] at hg <;> cases hg
  exact ⟨.of_checked trivial id id,
    hi.opening (r := .regionWait) hb hb rfl rfl hi.placed hi.records hi.nodup⟩

theorem Inv.regionWaitEnd (hg : σ.Allowed .regionWaitEnd) :
    Disciplined σ (t, .regionWaitEnd) ∧ (σ.step (t, .regionWaitEnd)).Inv base := by
  obtain ⟨before, os, hos, hst⟩ := hi.of_top hg
  have hplaced := hi.placed
  rw [hos] at hplaced
  have hregions : (σ.step (t, .regionWaitEnd)).regions = os := congrArg List.tail hos
  exact ⟨.closing_of hos hregions hst trivial id,
    hi.closing_plain hos rfl rfl hplaced rfl hregions hst fun j _ => .refl _⟩

theorem Inv.mutexAcquire (hg : σ.Allowed .mutexAcquire) :
    Disciplined σ (t, .mutexAcquire) ∧ (σ.step (t, .mutexAcquire)).Inv base := by
  refine ⟨.of_checked ⟨trivial, trivial⟩ id id, ?_⟩
  exact hi.opening_plain .mutex hg rfl rfl (fun h h' => ⟨h, h'⟩) rfl rfl rfl fun j _ => .refl _

theorem Inv.mutexAcquired {waitId : ℕ} (hg : σ.Allowed (.mutexAcquired waitId)) :
    Disciplined σ (t, .mutexAcquired waitId) ∧ (σ.step (t, .mutexAcquired waitId)).Inv base := by
  obtain ⟨before, os, hos, hst⟩ := hi.of_top hg
  have hplaced := hi.placed
  rw [hos] at hplaced
  have hregions : (σ.step (t, .mutexAcquired waitId)).regions = os := congrArg List.tail hos
  have hrun : run (σ.acts (.mutexAcquired waitId)) σ.clock.stack = before := by
    rw [hst]
    rfl
  refine ⟨.closing_of hos hregions hrun ?_ id, ?_⟩
  · rw [hst]
    exact ⟨rfl, trivial, trivial⟩
  · exact hi.closing_plain hos rfl hplaced.1.symm hplaced.2 rfl hregions hrun fun j _ => .refl _

theorem Inv.mutexReleased (waitId : ℕ) :
    Disciplined σ (t, .mutexReleased waitId) ∧ (σ.step (t, .mutexReleased waitId)).Inv base :=
  ⟨.of_single (checked_timedArc _) id rfl, hi.same rfl rfl rfl fun _ _ => .refl _⟩

theorem Inv.taskCreate {parent κ : I} {type : TaskType} (hg : σ.Allowed (.taskCreate parent κ type)) :
    Disciplined σ (t, .taskCreate parent κ type) ∧
      (σ.step (t, .taskCreate parent κ type)).Inv base := by
  have hacts := acts_taskCreate σ parent κ type
  have hrun := run_of_timedArc σ.clock.stack hacts
  refine ⟨.of_single (checked_of_timedArc hacts) id hrun, hi.same rfl rfl hrun fun j hj => ?_⟩
  exact inUse_taskCreate t parent (σ.shared, σ.clock) type fun hjκ => hg.2.2 (hjκ ▸ hj)

theorem Inv.dependences (κ : I) (deps : List TaskDependency) :
    Disciplined σ (t, .dependences κ deps) ∧ (σ.step (t, .dependences κ deps)).Inv base := by
  have hacts := acts_dependences σ κ deps
  have hrun := run_of_timedArc σ.clock.stack hacts
  refine ⟨.of_single (checked_of_timedArc hacts) id hrun, hi.same rfl rfl hrun fun j _ => ?_⟩
  exact inUse_dependences t κ (σ.shared, σ.clock) deps j

theorem Inv.other {shared : Shared I G} {locks : ℕ → SyncClock}
    (hg : σ.Allowed (.other shared locks)) :
    Disciplined σ (t, .other shared locks) ∧ (σ.step (t, .other shared locks)).Inv base :=
  ⟨.of_checked trivial id id, hi.same rfl rfl rfl hg⟩

theorem Inv.suspend {i next : I} {status : TaskStatus}
    (hstatus : status = .switch ∨ status = .yield)
    (howner : owner σ.regions = some i)
    (hplace : executing σ.regions = true ∨ waiting σ.regions = true)
    (hnew : next ∉ tasks σ.regions) (hfresh : NotStarted (σ.shared.task next))
    (hrunning : (σ.shared.task next).isRunning = true) :
    Disciplined σ (t, .taskSchedule i status next) ∧
      (σ.step (t, .taskSchedule i status next)).Inv base := by
  have hacts : σ.acts (.taskSchedule i status next) =
      .enter .omp :: (σ.shared.task next).startActs := by
    have hsus := suspendActs_of_onThread (hi.records.owner howner)
    rcases hstatus with rfl | rfl <;> simp [acts, TaskData.scheduleActs, hsus]
  obtain ⟨hchecked, hrun⟩ := hfresh.startActs (.omp :: σ.clock.stack) rfl
  have hregions : (σ.step (t, .taskSchedule i status next)).regions =
      ⟨.explicit next, σ.clock.stack⟩ :: σ.regions := by
    rcases hstatus with rfl | rfl <;> rfl
  have hu := inUse_taskSchedule t i (σ.shared, σ.clock)
    (hstatus.imp_right .inl : status = .switch ∨ status = .yield ∨ status = .complete) next
  have hb : σ.begun = true := hi.begun fun hnil => by rw [hnil] at howner; cases howner
  refine ⟨.of_checked ?_ ?_ id, ?_⟩
  · rw [hacts]
    exact ⟨trivial, hchecked⟩
  · rcases hstatus with rfl | rfl <;> exact fun h => TaskStatus.noConfusion h.1
  · refine hi.opening (r := .explicit next) hb hb hregions ?_ ⟨hplace, hi.placed⟩ ?_ ?_
    · rw [hacts]
      exact hrun
    · rw [hregions]
      exact ⟨hfresh.onThread hrunning (hu next).1 (hu next).2,
        hi.records.congr fun j _ => (hu j).1⟩
    · rw [hregions]
      exact List.nodup_cons.mpr ⟨hnew, hi.nodup⟩

omit [DecidableEq I] [DecidableEq G] in
theorem Inv.completing {i : I} (before : List ClockState) (next : I)
    (howner : owner σ.regions = some i) (hst : σ.clock.stack = .useful :: .omp :: before) :
    (Checked (σ.acts (.taskSchedule i .complete next)) σ.clock.stack ↔
      Checked (σ.shared.task next).startActs (.omp :: before)) ∧
    run (σ.acts (.taskSchedule i .complete next)) σ.clock.stack =
      run (σ.shared.task next).startActs (.omp :: before) := by
  have harcs := TaskData.completeActs_arcs (σ.shared.task i)
  have hpre : run ((σ.shared.task i).suspendEndActs ++ (σ.shared.task i).completeActs)
      σ.clock.stack = .omp :: before := by
    rw [run_append, run_arcs harcs, TaskData.suspendEndActs, (hi.records.owner howner).isRunning,
      hst]
    rfl
  have hchecked : Checked ((σ.shared.task i).suspendEndActs ++ (σ.shared.task i).completeActs)
      σ.clock.stack := by
    rw [checked_append, TaskData.suspendEndActs, (hi.records.owner howner).isRunning, hst]
    exact ⟨⟨fun _ => ⟨rfl, rfl⟩, trivial⟩, checked_arcs harcs rfl⟩
  constructor
  · show Checked (_ ++ _) _ ↔ _
    rw [checked_append, hpre]
    exact and_iff_right hchecked
  · show run (_ ++ _) _ = _
    rw [run_append, hpre]

theorem Inv.resume {i next : I} (howner : owner σ.regions = some i)
    (htop : top σ.regions = some (.explicit i)) (hnext : owner σ.regions.tail = some next) :
    Disciplined σ (t, .taskSchedule i .complete next) ∧
      (σ.step (t, .taskSchedule i .complete next)).Inv base := by
  obtain ⟨before, os, hos, hst⟩ := hi.of_top htop
  obtain ⟨hchecked, hrun⟩ := hi.completing before next howner hst
  have hn := hi.nested
  have hplaced := hi.placed
  have hrec := hi.records
  rw [hos] at hn hplaced hrec hnext
  have hstart := startActs_of_onThread (hrec.2.owner hnext)
  have hregions : (σ.step (t, .taskSchedule i .complete next)).regions = os := by
    simp [step, scheduled, hos, show owner os = some next from hnext]
  rw [hstart] at hchecked hrun
  refine ⟨.closing_of hos hregions hrun (hchecked.mpr ⟨fun _ => ⟨rfl, ?_⟩, trivial⟩) id, ?_⟩
  · show before.headD .init = _
    rcases hplaced.1 with hex | hw
    · rw [head_of_executing hn.2 hex, waiting_of_executing hex]
      rfl
    · rw [head_of_waiting hn.2 hw, hw]
      rfl
  · refine hi.closing hos rfl hregions hrun hplaced.2 (hrec.2.congr fun j _ => ?_)
    exact (inUse_taskSchedule t i (σ.shared, σ.clock) (.inr (.inr rfl)) next j).1

/-- Another task is started in place of the one that has completed. -/
theorem Inv.replace {i next : I} (howner : owner σ.regions = some i)
    (htop : top σ.regions = some (.explicit i)) (hnew : next ∉ tasks σ.regions)
    (hfresh : NotStarted (σ.shared.task next)) (hrunning : (σ.shared.task next).isRunning = true) :
    Disciplined σ (t, .taskSchedule i .complete next) ∧
      (σ.step (t, .taskSchedule i .complete next)).Inv base := by
  obtain ⟨before, os, hos, hst⟩ := hi.of_top htop
  obtain ⟨hchecked, hrun⟩ := hi.completing before next howner hst
  obtain ⟨hstart, hpush⟩ := hfresh.startActs (.omp :: before) rfl
  have hn := hi.nested
  have hplaced := hi.placed
  have hrec := hi.records
  have hnd := hi.nodup
  rw [hos] at hn hplaced hrec hnd hnew
  have hnot : owner os ≠ some next := fun h =>
    hnew (List.mem_cons_of_mem _ (List.mem_of_mem_head? h))
  have hregions : (σ.step (t, .taskSchedule i .complete next)).regions =
      ⟨.explicit next, before⟩ :: os := by
    simp [step, scheduled, hos, hnot]
  have hu := inUse_taskSchedule t i (σ.shared, σ.clock) (.inr (.inr rfl)) next
  refine ⟨.of_checked (hchecked.mpr hstart) ?_ id, ?_⟩
  · rintro ⟨-, h⟩
    rw [hos] at h
    exact hnot h
  · constructor
    · intro h
      have hnil := hi.idle h
      rw [hos] at hnil
      cases hnil
    · rw [hregions, stack_step, hrun, hpush]
      exact ⟨rfl, hn.2⟩
    · rw [hregions]
      exact hplaced
    · rw [hregions]
      exact ⟨hfresh.onThread hrunning (hu next).1 (hu next).2, hrec.2.congr fun j _ => (hu j).1⟩
    · rw [hregions]
      have htail := (List.nodup_cons.mp hnd).2
      exact List.nodup_cons.mpr ⟨fun h => hnew (List.mem_cons_of_mem _ h), htail⟩

theorem Inv.taskSchedule {i next : I} {status : TaskStatus}
    (hg : σ.Allowed (.taskSchedule i status next))
    (hr : StartsRunning σ (t, .taskSchedule i status next)) :
    Disciplined σ (t, .taskSchedule i status next) ∧
      (σ.step (t, .taskSchedule i status next)).Inv base := by
  obtain ⟨howner, hg⟩ := hg
  cases status with
  | switch => exact hi.suspend (.inl rfl) howner hg.1 hg.2.1 hg.2.2 (hr hg.2.1)
  | yield => exact hi.suspend (.inr rfl) howner hg.1 hg.2.1 hg.2.2 (hr hg.2.1)
  | complete =>
    obtain ⟨htop, hnext | ⟨hnew, hfresh⟩⟩ := hg
    · exact hi.resume howner htop hnext
    · exact hi.replace howner htop hnew hfresh (hr hnew)
  | cancel => exact hg.elim
  | detach => exact hg.elim
  | earlyFulfill => exact hg.elim
  | lateFulfill => exact hg.elim
  | taskwaitComplete => exact hg.elim

end Calls

theorem Inv.step (hi : σ.Inv base) (hg : σ.Allowed l.2) (hr : StartsRunning σ l) :
    Disciplined σ l ∧ (σ.step l).Inv base := by
  obtain ⟨t, call⟩ := l
  cases call with
  | other shared locks => exact hi.other hg
  | threadBegin time => exact hi.threadBegin hg
  | parallelBegin => exact hi.parallelBegin hg
  | parallelEnd => exact hi.parallelEnd hg
  | implicitTaskBegin initial i threadNum => exact hi.implicitTaskBegin hg
  | implicitTaskEnd i => exact hi.implicitTaskEnd hg
  | barrierBegin i => exact hi.barrierBegin hg
  | barrierEnd i pd => exact hi.barrierEnd hg
  | wait i call => exact hi.wait hg
  | regionWaitBegin => exact hi.regionWaitBegin hg
  | regionWaitEnd => exact hi.regionWaitEnd hg
  | mutexAcquire => exact hi.mutexAcquire hg
  | mutexAcquired waitId => exact hi.mutexAcquired hg
  | mutexReleased waitId => exact hi.mutexReleased waitId
  | taskCreate parent κ type => exact hi.taskCreate hg
  | dependences κ deps => exact hi.dependences κ deps
  | taskSchedule i status next => exact hi.taskSchedule hg hr

def start (shared : Shared I G) (locks : ℕ → SyncClock) (clock : ThreadClock) : OmpThread I G :=
  { shared := shared, locks := locks, clock := clock }

omit [DecidableEq I] [DecidableEq G] in
theorem inv_start (shared : Shared I G) (locks : ℕ → SyncClock) (clock : ThreadClock) :
    (start shared locks clock).Inv clock.stack :=
  ⟨fun _ => rfl, rfl, trivial, trivial, List.nodup_nil⟩

theorem Inv.along {ls : List (ℚ × ThreadCall I G)} (hi : σ.Inv base)
    (hv : (machine I G).Valid σ ls) (hr : (machine I G).Along StartsRunning σ ls) :
    (machine I G).Along Disciplined σ ls :=
  (Machine.along_and.mpr ⟨hv, hr⟩).of_inv (I := fun σ' => σ'.Inv base)
    (fun _ _ hσ' hl => hσ'.step hl.1 hl.2) hi

end OmpThread

/-- A clock whose arcs were all made under `STATE_OMP`. -/
inductive SyncClock.OnlyOmp : SyncClock → Prop where
  | fresh : OnlyOmp .fresh
  | before {s : SyncClock} {tc : ThreadClock} (running : Bool) : s.OnlyOmp →
    tc.getState = .omp → OnlyOmp (s.ompHBefore running tc)
  | after {s : SyncClock} {tc : ThreadClock} (running : Bool) : s.OnlyOmp →
    tc.getState = .omp → OnlyOmp (s.ompHAfter running tc).1
  | reset {s : SyncClock} (running : Bool) : s.OnlyOmp → OnlyOmp (s.ompCReset running)

/-- The state check of `CheckArc`. -/
def SyncClock.ArcPasses (s : SyncClock) (tc : ThreadClock) : Prop :=
  s.syncState = .init ∨ tc.getState = s.syncState

theorem SyncClock.OnlyOmp.syncState {s : SyncClock} (h : s.OnlyOmp) :
    s.syncState = .init ∨ s.syncState = .omp := by
  induction h with
  | fresh => exact .inl rfl
  | @before s tc running _ htc ih =>
    cases running with
    | false => exact ih
    | true =>
      rw [syncState_ompHBefore, htc]
      split
      · exact .inr rfl
      · exact ih
  | @after s tc running _ htc ih =>
    cases running with
    | false => exact ih
    | true =>
      rw [syncState_ompHAfter, htc]
      split
      · exact .inr rfl
      · exact ih
  | @reset s running _ ih =>
    cases running with
    | false => exact ih
    | true => exact .inl rfl

theorem SyncClock.OnlyOmp.arcPasses {s : SyncClock} {tc : ThreadClock} (h : s.OnlyOmp)
    (htc : tc.getState = .omp) : s.ArcPasses tc :=
  h.syncState.imp_right fun hs => htc.trans hs.symm

/-- In every run of a thread whose tasks were created while the tool was running, each callback that
closes a region restores the stack, every `exitState(oldcs, nextcs)` finds the states it checks and
every arc is made under `STATE_OMP`, where `CheckArc` passes. -/
theorem state_stack_discipline {I G : Type} [DecidableEq I] [DecidableEq G] (shared : Shared I G)
    (locks : ℕ → SyncClock) (clock : ThreadClock) (ls : List (ℚ × ThreadCall I G))
    (hv : (OmpThread.machine I G).Valid (.start shared locks clock) ls)
    (hr : (OmpThread.machine I G).Along OmpThread.StartsRunning (.start shared locks clock) ls) :
    (OmpThread.machine I G).Along OmpThread.Disciplined (.start shared locks clock) ls ∧
      ∀ (s : SyncClock) (tc : ThreadClock), s.OnlyOmp → tc.getState = .omp → s.ArcPasses tc :=
  ⟨(OmpThread.inv_start shared locks clock).along hv hr, fun _ _ hs htc => hs.arcPasses htc⟩

namespace OmpThread

variable {I G : Type} [DecidableEq I] [DecidableEq G]

instance (d d' : TaskData I G) : Decidable (InUse d d') := inferInstanceAs (Decidable (_ ∧ _))

instance (d : TaskData I G) : Decidable (NotStarted d) := inferInstanceAs (Decidable (_ ∧ _))

instance (σ : OmpThread I G) : ∀ l, Decidable ((machine I G).guard σ l)
  | (_, .other shared _) =>
    inferInstanceAs (Decidable (∀ i ∈ tasks σ.regions, InUse (σ.shared.task i) (shared.task i)))
  | (_, .threadBegin _) | (_, .parallelBegin) | (_, .parallelEnd) | (_, .implicitTaskEnd _)
  | (_, .regionWaitEnd) | (_, .mutexAcquire) | (_, .mutexAcquired _) | (_, .mutexReleased _)
  | (_, .dependences _ _) => inferInstanceAs (Decidable (_ = _))
  | (_, .implicitTaskBegin _ _ _) => inferInstanceAs (Decidable (_ ∧ _ ∧ (_ ∨ _ ∧ _)))
  | (_, .barrierBegin _) | (_, .barrierEnd _ _)
  | (_, .wait _ .taskwaitBegin) | (_, .wait _ .taskwaitEnd) | (_, .wait _ (.taskgroupBegin _))
  | (_, .wait _ .taskgroupWaitBegin) | (_, .wait _ .taskgroupWaitEnd)
  | (_, .wait _ .taskgroupEnd) => inferInstanceAs (Decidable (_ ∧ _))
  | (_, .regionWaitBegin) => inferInstanceAs (Decidable (_ ∨ _))
  | (_, .taskCreate _ _ _) => inferInstanceAs (Decidable (_ ∧ _ ∧ _))
  | (_, .taskSchedule _ .switch next) | (_, .taskSchedule _ .yield next) =>
    inferInstanceAs (Decidable (_ ∧ (_ ∨ _) ∧ _ ∧ NotStarted (σ.shared.task next)))
  | (_, .taskSchedule _ .complete next) =>
    inferInstanceAs (Decidable (_ ∧ _ ∧ (_ ∨ _ ∧ NotStarted (σ.shared.task next))))
  | (_, .taskSchedule _ .cancel _) | (_, .taskSchedule _ .detach _)
  | (_, .taskSchedule _ .earlyFulfill _) | (_, .taskSchedule _ .lateFulfill _)
  | (_, .taskSchedule _ .taskwaitComplete _) => inferInstanceAs (Decidable (_ ∧ False))

instance (σ : OmpThread I G) : ∀ l, Decidable (StartsRunning σ l)
  | (_, .taskSchedule _ _ next) =>
    inferInstanceAs (Decidable (next ∉ tasks σ.regions → (σ.shared.task next).isRunning = true))
  | (_, .other _ _) | (_, .threadBegin _) | (_, .parallelBegin) | (_, .parallelEnd)
  | (_, .implicitTaskBegin _ _ _) | (_, .implicitTaskEnd _) | (_, .barrierBegin _)
  | (_, .barrierEnd _ _) | (_, .wait _ _) | (_, .regionWaitBegin) | (_, .regionWaitEnd)
  | (_, .mutexAcquire) | (_, .mutexAcquired _) | (_, .mutexReleased _) | (_, .taskCreate _ _ _)
  | (_, .dependences _ _) => inferInstanceAs (Decidable True)

def taskInBarrier : List (ℚ × ThreadCall ℕ ℕ) :=
  [(1, .threadBegin 1), (2, .implicitTaskBegin false 0 1),
    (3, .taskCreate 0 1 { explicit := true }), (4, .barrierBegin 0), (5, .regionWaitBegin),
    (6, .taskSchedule 0 .switch 1), (7, .wait 1 (.taskgroupBegin 0)), (8, .mutexAcquire),
    (9, .mutexAcquired 7), (10, .mutexReleased 7), (11, .wait 1 .taskgroupWaitBegin),
    (12, .wait 1 .taskgroupWaitEnd), (13, .wait 1 .taskgroupEnd), (14, .taskSchedule 1 .complete 0),
    (15, .regionWaitEnd), (16, .barrierEnd 0 true)]

/-- Task 1 was created by another thread, before the tool was started. -/
def earlierTask : Shared ℕ ℕ :=
  Shared.fresh.modifyTask 1 (.new false 5 none { explicit := true })

/-- The implicit task of the thread executes task 1 in a barrier. -/
def taskOfOther : List (ℚ × ThreadCall ℕ ℕ) :=
  [(1, .threadBegin 1), (2, .implicitTaskBegin false 0 1), (3, .barrierBegin 0),
    (4, .taskSchedule 0 .switch 1), (5, .taskSchedule 1 .complete 0)]

end OmpThread

theorem state_stack_discipline_taskInBarrier :
    (OmpThread.machine ℕ ℕ).Along OmpThread.Disciplined
      (.start .fresh (fun _ => .fresh) .new) OmpThread.taskInBarrier :=
  (state_stack_discipline .fresh (fun _ => .fresh) .new OmpThread.taskInBarrier
    (by decide +kernel) (by decide +kernel)).1

/-- `TaskEnd` of a task with `isRunning` unset leaves the state of its `TaskBegin` on the stack, and
the arcs of `completeTask` are made under `STATE_USEFUL`. -/
theorem stack_broken_by_earlierTask :
    (OmpThread.machine ℕ ℕ).Valid (.start OmpThread.earlierTask (fun _ => .fresh) .new)
        OmpThread.taskOfOther ∧
      ¬ (OmpThread.machine ℕ ℕ).Along OmpThread.Disciplined
        (.start OmpThread.earlierTask (fun _ => .fresh) .new) OmpThread.taskOfOther :=
  ⟨by decide +kernel, fun h => absurd h.2.2.2.2.1.checked (by decide +kernel)⟩

end CritPath
