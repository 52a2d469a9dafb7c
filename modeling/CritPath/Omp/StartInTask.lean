import CritPath.Omp.StackDiscipline

/-!
# Starting the tool inside a task

`enterState` looks at the running flag only, `exitState` also at the flag that
the task's record took over when it was made. In a task whose record was made
before the tool was started the begin of a barrier or taskwait is pushed and its
end does not pop.

Inside such a region the thread may execute other tasks. `Surplus` counts the
states that were left on the stack, beyond those of the open regions; a region
is closed as it was opened exactly if this number is 0 and its own end pops.
-/

namespace CritPath

open Lib ClockAct Opened

/-! ## States left on the stack -/

namespace ClockAct

variable {j k : ℕ} {base mid st : List ClockState}

/-- There are `k` states on top of `base`, none of which is `STATE_INIT`. -/
def Rests (k : ℕ) (base st : List ClockState) : Prop :=
  ∃ top, st = top ++ base ∧ top.length = k ∧ .init ∉ top

theorem Rests.refl (st : List ClockState) : Rests 0 st st := ⟨[], rfl, rfl, List.not_mem_nil⟩

theorem Rests.trans (h : Rests k base mid) (h' : Rests j mid st) : Rests (k + j) base st := by
  obtain ⟨top, rfl, rfl, htop⟩ := h
  obtain ⟨top', rfl, rfl, htop'⟩ := h'
  refine ⟨top' ++ top, (List.append_assoc ..).symm, ?_, ?_⟩
  · rw [List.length_append, Nat.add_comm]
  · exact fun hmem => (List.mem_append.mp hmem).elim htop' htop

theorem Rests.enter {cs : ClockState} (h : Rests k base st) (hcs : .init ≠ cs) :
    Rests (k + 1) base (cs :: st) := by
  obtain ⟨top, rfl, rfl, htop⟩ := h
  exact ⟨cs :: top, rfl, rfl, fun hmem => (List.mem_cons.mp hmem).elim hcs htop⟩

/-- What `exitState` leaves on the stack. -/
def missed (isRunning : Bool) : ℕ := if isRunning then 0 else 1

theorem missed_eq_zero {r : Bool} : missed r = 0 ↔ r = true := by cases r <;> decide

theorem Rests.pop (h : Rests (k + 1) base st) (r : Bool) :
    Rests (k + missed r) base (pop r st) := by
  cases r with
  | false => exact h
  | true =>
    obtain ⟨top, rfl, hlen, htop⟩ := h
    cases top with
    | nil => cases hlen
    | cons cs top =>
      have hcs : cs ≠ .init := fun h => htop (h ▸ List.mem_cons_self)
      refine ⟨top, ?_, Nat.succ.inj hlen, fun hmem => htop (List.mem_cons_of_mem cs hmem)⟩
      simp [ClockAct.pop, hcs]

theorem Rests.eq_iff (h : Rests k base st) : st = base ↔ k = 0 := by
  obtain ⟨top, rfl, rfl, -⟩ := h
  rw [List.append_left_eq_self, List.length_eq_zero_iff]

theorem run_ite_arc (p : Prop) [Decidable p] (st : List ClockState) :
    run (if p then [.arc] else []) st = st := by
  split <;> rfl

end ClockAct

namespace TaskData

variable {I G : Type} {d : TaskData I G}

/-- A task that `suspendTask` suspends with a push and `startTask` resumes with a pop. -/
structure Resumable (d : TaskData I G) : Prop where
  started : 0 < d.execution
  pushes : d.type.untied = false ∨ d.inBarrier = true

theorem Resumable.run_suspendActs (hd : d.Resumable) (st : List ClockState) :
    run d.suspendActs st = .omp :: st := by
  rcases hd.pushes with h | h
  · simp [suspendActs, h, exec]
  · unfold suspendActs
    rw [h]
    split <;> rfl

theorem Resumable.run_startActs (hd : d.Resumable) (st : List ClockState) :
    run d.startActs st = pop d.isRunning st := by
  have hex : d.execution ≠ 0 := Nat.pos_iff_ne_zero.mp hd.started
  rw [startActs, if_neg hex]
  rcases hd.pushes with h | h
  · rw [h]
    cases d.inBarrier <;> rfl
  · rw [h]
    split <;> rfl

theorem run_startActs_of_notStarted (hd : OmpThread.NotStarted d) (st : List ClockState) :
    run d.startActs st = .useful :: st := by
  rw [startActs, if_pos hd.1, run_append, run_replicate_arc]
  rfl

end TaskData

namespace Opened

variable {I : Type} {base st st' : List ClockState} {o : Opened I} {new os : List (Opened I)}
  {j k n : ℕ}

/-- The stack of the open regions on top of `base`, with `n` states too many. -/
def Surplus (base : List ClockState) : ℕ → List (Opened I) → List ClockState → Prop
  | n, [], st => n = 0 ∧ st = base
  | n, o :: os, st =>
    ∃ m k, n = m + k ∧ Rests (o.region.marks.length + m) o.before st ∧ Surplus base k os o.before

theorem Surplus.opening {r : Region I} (h : Surplus base n os st)
    (hst : Rests r.marks.length st st') : Surplus base n (⟨r, st⟩ :: os) st' :=
  ⟨0, n, (Nat.zero_add n).symm, hst, h⟩

theorem Surplus.add (h : Surplus base n os st) (hos : os ≠ []) (hst : Rests j st st') :
    Surplus base (n + j) os st' := by
  cases os with
  | nil => exact absurd rfl hos
  | cons o os =>
    obtain ⟨m, k, rfl, hrests, hos⟩ := h
    exact ⟨m + j, k, by omega, (Nat.add_assoc ..) ▸ hrests.trans hst, hos⟩

/-- A region whose marks were pushed, or a region in one, leaves the thread in a state. -/
theorem Surplus.getState_ne (h : Surplus base n (new ++ [o]) st) (ho : o.region.marks ≠ []) :
    st.headD .init ≠ .init := by
  induction new generalizing n st with
  | nil =>
    obtain ⟨m, k, -, ⟨top, rfl, hlen, htop⟩, -⟩ := h
    cases top with
    | nil =>
      have hpos := List.length_pos_iff.mpr ho
      rw [List.length_nil] at hlen
      omega
    | cons cs top => exact fun hcs => htop (hcs ▸ List.mem_cons_self)
  | cons o' new ih =>
    obtain ⟨m, k, -, ⟨top, rfl, hlen, htop⟩, hos⟩ := h
    cases top with
    | nil => exact ih hos
    | cons cs top => exact fun hcs => htop (hcs ▸ List.mem_cons_self)

theorem rests_marks (r : Region I) (st : List ClockState) :
    Rests r.marks.length st (r.marks ++ st) :=
  ⟨r.marks, rfl, rfl, by cases r <;> simp [Region.marks]⟩

theorem Placed.tail (h : Placed (o :: os)) : Placed os := by
  obtain ⟨region, before⟩ := o
  cases region with
  | implicit i => exact h
  | regionWait => exact h
  | explicit i => exact h.2
  | parallel => exact h.2
  | barrier => exact h.2
  | taskwait => exact h.2
  | taskgroup => exact h.2
  | taskgroupWait => exact h.2
  | mutex => exact h.2

/-- The regions in which a task waits and does not open others. -/
def Waiting (r : Region I) : Prop := r = .barrier ∨ r = .taskwait

variable {r : Region I} {before : List ClockState}

theorem tasks_append (os os' : List (Opened I)) : tasks (os ++ os') = tasks os ++ tasks os' :=
  List.filterMap_append

theorem tasks_cons_of_none (h : o.region.task = none) : tasks (o :: os) = tasks os := by
  simp [tasks, h]

theorem tasks_cons_of_some {i : I} (h : o.region.task = some i) :
    tasks (o :: os) = i :: tasks os := by
  simp [tasks, h]

theorem Waiting.task (hr : Waiting r) : r.task = none := by
  rcases hr with rfl | rfl <;> rfl

theorem Waiting.marks (hr : Waiting r) : r.marks = [.omp] := by
  rcases hr with rfl | rfl <;> rfl

variable (new before) in
/-- The task that the thread executes inside a region of task `i`. -/
theorem Waiting.owner_append {i : I} (hr : Waiting r) (hi : owner os = some i) :
    owner (new ++ ⟨r, before⟩ :: os) = some ((tasks new).headD i) := by
  rw [owner, tasks_append, tasks_cons_of_none hr.task]
  cases tasks new with
  | nil => exact hi
  | cons j js => rfl

theorem Waiting.owner_mem {i j : I} (hr : Waiting r) (hi : owner os = some i)
    (hj : owner (new ++ ⟨r, before⟩ :: os) = some j) : j ∈ i :: tasks new := by
  obtain rfl := Option.some.inj ((hr.owner_append new before hi).symm.trans hj)
  cases tasks new with
  | nil => exact List.mem_cons_self
  | cons j js => exact List.mem_cons_of_mem _ List.mem_cons_self

/-- What is below a region in which a task waits does not matter to what the thread does. -/
theorem Waiting.executing_append (hr : Waiting r) :
    executing (new ++ ⟨r, before⟩ :: os) = executing (new ++ [⟨r, before⟩]) := by
  induction new with
  | nil => rcases hr with rfl | rfl <;> rfl
  | cons o new ih =>
    obtain ⟨region, b⟩ := o
    cases region <;> first | rfl | exact ih

theorem Waiting.waiting_append (hr : Waiting r) :
    waiting (new ++ ⟨r, before⟩ :: os) = waiting (new ++ [⟨r, before⟩]) := by
  induction new with
  | nil => rcases hr with rfl | rfl <;> rfl
  | cons o new ih =>
    obtain ⟨region, b⟩ := o
    cases region <;> first | rfl | exact ih

/-- Where no task was started in the region, the thread waits in it. -/
theorem Waiting.of_tasks_nil (hr : Waiting r) (hp : Placed (new ++ [⟨r, before⟩]))
    (hnil : tasks new = []) : waiting (new ++ [⟨r, before⟩]) = true ∧
      (new = [] ∨ ∃ b new', new = ⟨.regionWait, b⟩ :: new') := by
  induction new with
  | nil => rcases hr with rfl | rfl <;> exact ⟨rfl, .inl rfl⟩
  | cons o new ih =>
    obtain ⟨region, b⟩ := o
    have hwait : tasks new = [] → Placed (new ++ [⟨r, before⟩]) →
        waiting (new ++ [⟨r, before⟩]) ≠ false := by
      intro h hp
      rw [(ih hp h).1]
      decide
    cases region with
    | regionWait => exact ⟨(ih hp hnil).1, .inr ⟨b, new, rfl⟩⟩
    | implicit i => cases hnil
    | explicit i => cases hnil
    | parallel => exact absurd hp.1 (hwait hnil hp.2)
    | barrier => exact absurd hp.1 (hwait hnil hp.2)
    | taskwait => exact absurd hp.1 (hwait hnil hp.2)
    | taskgroup => exact absurd hp.1 (hwait hnil hp.2)
    | taskgroupWait => exact absurd hp.1 (hwait hnil hp.2)
    | mutex => exact absurd hp.1 (hwait hnil hp.2)

end Opened

/-! ## The records inside a region -/

namespace OmpThread

variable {I G : Type} [DecidableEq I] [DecidableEq G] {σ : OmpThread I G}
  {l : ℚ × ThreadCall I G} {i j : I}

/-- The callbacks that set `InBarrier` of a task. -/
def Marking (j : I) : ThreadCall I G → Prop
  | .barrierBegin i | .barrierEnd i _ => i = j
  | .wait i call => i = j ∧ waitMark call ≠ none
  | _ => False

omit [DecidableEq G] in
theorem Marks.record {w : Bool} {sh sh' : Shared I G} (h : Marks i w sh sh') (j : I) :
    ∃ w', InUse { sh.task j with inBarrier := w' } (sh'.task j) ∧
      (i = j ∨ w' = (sh.task j).inBarrier) := by
  by_cases hj : j = i
  · exact ⟨w, by simpa [hj] using h j, .inl hj.symm⟩
  · exact ⟨_, h.of_ne hj, .inr rfl⟩

/-- What a callback leaves of the records of the tasks on the thread. -/
theorem record_step (hg : σ.Allowed l.2) (hj : j ∈ tasks σ.regions) :
    ∃ w, InUse { σ.shared.task j with inBarrier := w } ((σ.step l).shared.task j) ∧
      (Marking j l.2 ∨ w = (σ.shared.task j).inBarrier) := by
  have hkeep : InUse (σ.shared.task j) ((σ.step l).shared.task j) →
      ∃ w, InUse { σ.shared.task j with inBarrier := w } ((σ.step l).shared.task j) ∧
        (Marking j l.2 ∨ w = (σ.shared.task j).inBarrier) := fun h => ⟨_, h, .inr rfl⟩
  obtain ⟨t, call⟩ := l
  cases call with
  | other shared locks => exact hkeep (hg j hj)
  | threadBegin time => exact hkeep (.refl _)
  | parallelBegin => exact hkeep (.refl _)
  | parallelEnd => exact hkeep (.refl _)
  | implicitTaskBegin initial i threadNum =>
    have hne : j ≠ i := fun h => hg.2.1 (h ▸ hj)
    have htask : (σ.step (t, .implicitTaskBegin initial i threadNum)).shared.task j =
        σ.shared.task j := by
      cases initial <;> exact Function.update_of_ne hne ..
    exact hkeep (htask ▸ .refl _)
  | implicitTaskEnd i => exact hkeep (.refl _)
  | barrierBegin i => exact (marks_syncRegionBegin t i (σ.shared, σ.clock)).record j
  | barrierEnd i pd => exact (marks_syncRegionEnd t i (σ.shared, σ.clock) pd).record j
  | wait i call =>
    have hshared : (σ.step (t, .wait i call)).shared =
        (Shared.waitCall true t i call (σ.shared, σ.clock)).1 := by
      cases call <;> rfl
    rw [hshared] at hkeep ⊢
    cases hmark : waitMark call with
    | none => exact hkeep (inUse_waitCall t i (σ.shared, σ.clock) hmark j)
    | some w =>
      obtain ⟨w', hu, hw⟩ := (marks_waitCall t i (σ.shared, σ.clock) hmark).record j
      refine ⟨w', hu, hw.imp_left fun hi => ⟨hi, ?_⟩⟩
      rw [hmark]
      exact Option.some_ne_none w
  | regionWaitBegin => exact hkeep (.refl _)
  | regionWaitEnd => exact hkeep (.refl _)
  | mutexAcquire => exact hkeep (.refl _)
  | mutexAcquired waitId => exact hkeep (.refl _)
  | mutexReleased waitId => exact hkeep (.refl _)
  | taskCreate parent κ type =>
    exact hkeep (inUse_taskCreate t parent (σ.shared, σ.clock) type fun h => hg.2.2 (h ▸ hj))
  | dependences κ deps => exact hkeep (inUse_dependences t κ (σ.shared, σ.clock) deps j)
  | taskSchedule i status next =>
    have hstatus : status = .switch ∨ status = .yield ∨ status = .complete := by
      have hg := hg.2
      cases status with
      | switch => exact .inl rfl
      | yield => exact .inr (.inl rfl)
      | complete => exact .inr (.inr rfl)
      | cancel => exact hg.elim
      | detach => exact hg.elim
      | earlyFulfill => exact hg.elim
      | lateFulfill => exact hg.elim
      | taskwaitComplete => exact hg.elim
    exact hkeep (inUse_taskSchedule t i (σ.shared, σ.clock) hstatus next j).1

theorem isRunning_step (hg : σ.Allowed l.2) (hj : j ∈ tasks σ.regions) :
    ((σ.step l).shared.task j).isRunning = (σ.shared.task j).isRunning := by
  obtain ⟨w, hu, -⟩ := record_step hg hj
  exact hu.1

theorem untied_step (hg : σ.Allowed l.2) (hj : j ∈ tasks σ.regions) :
    ((σ.step l).shared.task j).type.untied = (σ.shared.task j).type.untied := by
  obtain ⟨w, hu, -⟩ := record_step hg hj
  exact hu.2.2.1

theorem started_step (hg : σ.Allowed l.2) (hj : j ∈ tasks σ.regions)
    (h : 0 < (σ.shared.task j).execution) : 0 < ((σ.step l).shared.task j).execution := by
  obtain ⟨w, hu, -⟩ := record_step hg hj
  exact hu.2.2.2 h

theorem inBarrier_step (hg : σ.Allowed l.2) (hj : j ∈ tasks σ.regions) (hm : ¬ Marking j l.2) :
    ((σ.step l).shared.task j).inBarrier = (σ.shared.task j).inBarrier := by
  obtain ⟨w, hu, hw⟩ := record_step hg hj
  exact hu.2.1.trans (hw.resolve_left hm)

theorem begun_step (hb : σ.begun = true) : (σ.step l).begun = true := by
  obtain ⟨t, call⟩ := l
  cases call with
  | threadBegin time => rfl
  | wait i call => cases call <;> exact hb
  | _ => exact hb

/-! ## Inside a region -/

section Inside

variable {r : Region I} {before : List ClockState} {os new : List (Opened I)} {n : ℕ}

structure Inside (r : Region I) (before : List ClockState) (os : List (Opened I)) (i : I)
    (new : List (Opened I)) (n : ℕ) (σ : OmpThread I G) : Prop where
  begun : σ.begun = true
  waiting : Opened.Waiting r
  owner : owner os = some i
  regions : σ.regions = new ++ ⟨r, before⟩ :: os
  surplus : Surplus before n (new ++ [⟨r, before⟩]) σ.clock.stack
  placed : Placed (new ++ [⟨r, before⟩])
  tied : ∀ j ∈ tasks new, (σ.shared.task j).type.untied = false
  started : ∀ j ∈ i :: tasks new, 0 < (σ.shared.task j).execution
  inBarrier : (σ.shared.task i).inBarrier = true
  other : i ∉ tasks new

/-- Nothing was left on the stack, and nothing will be for one of the tasks. -/
def Clean (i : I) (new : List (Opened I)) (n : ℕ) (σ : OmpThread I G) : Prop :=
  n = 0 ∧ ∀ j ∈ i :: tasks new, (σ.shared.task j).isRunning = true

/-- The regions `os` stay open. -/
def KeepsOpen (os : List (Opened I)) (σ : OmpThread I G) (l : ℚ × ThreadCall I G) : Prop :=
  os <:+ (σ.step l).regions

def Goes (r : Region I) (before : List ClockState) (os : List (Opened I)) (i : I)
    (new : List (Opened I)) (n : ℕ) (σ : OmpThread I G) (l : ℚ × ThreadCall I G) : Prop :=
  ∃ new' n', Inside r before os i new' n' (σ.step l) ∧
    (Clean i new' n' (σ.step l) ↔ Clean i new n σ ∧ StartsRunning σ l)

section
omit [DecidableEq I] [DecidableEq G]
variable (h : Inside r before os i new n σ)
include h

theorem Inside.tasks_regions : tasks σ.regions = tasks new ++ tasks os := by
  rw [h.regions, tasks_append, tasks_cons_of_none h.waiting.task]

theorem Inside.mem_regions (hj : j ∈ i :: tasks new) : j ∈ tasks σ.regions := by
  rw [h.tasks_regions, List.mem_append]
  rcases List.mem_cons.mp hj with rfl | hj
  · exact .inr (List.mem_of_mem_head? h.owner)
  · exact .inl hj

theorem Inside.owner_mem (hj : Opened.owner σ.regions = some j) : j ∈ i :: tasks new :=
  h.waiting.owner_mem h.owner (h.regions ▸ hj)

theorem Inside.resumable (hj : j ∈ i :: tasks new) : (σ.shared.task j).Resumable := by
  refine ⟨h.started j hj, ?_⟩
  rcases List.mem_cons.mp hj with rfl | hj
  · exact .inr h.inBarrier
  · exact .inl (h.tied j hj)

theorem Inside.tasks_nil (hi : Opened.owner σ.regions = some i) : tasks new = [] := by
  have howner := h.waiting.owner_append new before h.owner
  rw [← h.regions, hi] at howner
  have heq := Option.some.inj howner
  have hother := h.other
  cases hnew : tasks new with
  | nil => rfl
  | cons j js =>
    rw [hnew] at heq hother
    exact absurd (heq.symm ▸ List.mem_cons_self) hother

theorem Inside.executing_eq : executing σ.regions = executing (new ++ [⟨r, before⟩]) := by
  rw [h.regions, h.waiting.executing_append]

theorem Inside.waiting_eq : Opened.waiting σ.regions = Opened.waiting (new ++ [⟨r, before⟩]) := by
  rw [h.regions, h.waiting.waiting_append]

theorem Inside.not_waiting (hex : executing σ.regions = true) :
    Opened.waiting (new ++ [⟨r, before⟩]) = false :=
  waiting_of_executing (h.executing_eq ▸ hex)

/-- The task that waits in the region does not execute code. -/
theorem Inside.owner_ne_of_executing (hex : executing σ.regions = true) :
    Opened.owner σ.regions ≠ some i := by
  intro hi
  have hw := (h.waiting.of_tasks_nil h.placed (h.tasks_nil hi)).1
  rw [h.not_waiting hex] at hw
  cases hw

/-- The innermost region, where the task that waits in the region is in turn. -/
theorem Inside.top_of_owner (hi : Opened.owner σ.regions = some i) :
    new = [] ∨ top σ.regions = some .regionWait := by
  refine (h.waiting.of_tasks_nil h.placed (h.tasks_nil hi)).2.imp_right ?_
  rintro ⟨b, new', rfl⟩
  rw [h.regions]
  rfl

/-- A region that is closed was opened inside. -/
theorem Inside.exists_of_closing {o : Opened I} {os' : List (Opened I)}
    (hos : σ.regions = o :: os') (hkeep : (⟨r, before⟩ :: os) <:+ os') :
    ∃ new', new = o :: new' ∧ os' = new' ++ ⟨r, before⟩ :: os := by
  rw [h.regions] at hos
  cases new with
  | nil =>
    obtain ⟨-, rfl⟩ := List.cons.inj hos
    exact absurd hkeep.length_le (by simp)
  | cons o' new' =>
    obtain ⟨rfl, rfl⟩ := List.cons.inj hos
    exact ⟨new', rfl, rfl⟩

end

variable (h : Inside r before os i new n σ)
include h

/-- The callbacks inside the region do not touch `InBarrier` of the task that waits in it. -/
theorem Inside.not_marking (hg : σ.Allowed l.2)
    (hkeep : (⟨r, before⟩ :: os) <:+ (σ.step l).regions) : ¬ Marking i l.2 := by
  -- the region itself is not closed
  have hopen : ∀ r', top σ.regions = some r' → r' ≠ .regionWait →
      (σ.step l).regions = σ.regions.tail → Opened.owner σ.regions ≠ some i := by
    intro r' htop hr' hregions hi
    rcases h.top_of_owner hi with hnil | hwait
    · obtain ⟨b, os', hos⟩ := exists_of_top htop
      rw [hregions, hos] at hkeep
      obtain ⟨new', hnew, -⟩ := h.exists_of_closing hos hkeep
      rw [hnil] at hnew
      cases hnew
    · exact hr' (Option.some.inj (htop.symm.trans hwait))
  obtain ⟨t, call⟩ := l
  cases call with
  | barrierBegin j =>
    rintro rfl
    exact h.owner_ne_of_executing hg.1 hg.2
  | barrierEnd j pd =>
    rintro rfl
    exact hopen .barrier hg.1 (by simp) rfl hg.2
  | wait j call =>
    rintro ⟨rfl, hmark⟩
    obtain ⟨howner, hg⟩ := hg
    cases call with
    | taskwaitBegin => exact h.owner_ne_of_executing hg howner
    | taskwaitEnd => exact hopen .taskwait hg (by simp) rfl howner
    | taskgroupWaitEnd => exact hopen .taskgroupWait hg (by simp) rfl howner
    | taskgroupBegin g => exact hmark rfl
    | taskgroupEnd => exact hmark rfl
    | taskgroupWaitBegin =>
      rcases h.top_of_owner howner with hnil | hwait
      · have htop := hg
        rw [h.regions, hnil] at htop
        rcases h.waiting with rfl | rfl <;> cases htop
      · rw [hwait] at hg
        cases hg
  | _ => exact id

theorem Inside.next {new' : List (Opened I)} {n' : ℕ} (hg : σ.Allowed l.2)
    (hregions : (σ.step l).regions = new' ++ ⟨r, before⟩ :: os)
    (hsurplus : Surplus before n' (new' ++ [⟨r, before⟩]) (run (σ.acts l.2) σ.clock.stack))
    (hplaced : Placed (new' ++ [⟨r, before⟩]))
    (htasks : ∀ j ∈ tasks new', j ∈ tasks new ∨ j ≠ i ∧
      ((σ.step l).shared.task j).type.untied = false ∧ 0 < ((σ.step l).shared.task j).execution) :
    Inside r before os i new' n' (σ.step l) where
  begun := begun_step h.begun
  waiting := h.waiting
  owner := h.owner
  regions := hregions
  surplus := by
    rw [stack_step]
    exact hsurplus
  placed := hplaced
  tied := by
    intro j hj
    rcases htasks j hj with hold | hnew
    · rw [untied_step hg (h.mem_regions (List.mem_cons_of_mem i hold))]
      exact h.tied j hold
    · exact hnew.2.1
  started := by
    have hkept : ∀ j ∈ i :: tasks new, 0 < ((σ.step l).shared.task j).execution :=
      fun j hj => started_step hg (h.mem_regions hj) (h.started j hj)
    intro j hj
    rcases List.mem_cons.mp hj with rfl | hj
    · exact hkept j List.mem_cons_self
    · rcases htasks j hj with hold | hnew
      · exact hkept j (List.mem_cons_of_mem i hold)
      · exact hnew.2.2
  inBarrier := by
    have hkeep : (⟨r, before⟩ :: os) <:+ (σ.step l).regions := hregions ▸ List.suffix_append ..
    rw [inBarrier_step hg (h.mem_regions List.mem_cons_self) (h.not_marking hg hkeep)]
    exact h.inBarrier
  other := by
    intro hi
    rcases htasks i hi with hold | hnew
    · exact h.other hold
    · exact hnew.1 rfl

/-- The flags of the tasks in the region stay as they are. -/
theorem Inside.running_iff (js : List I) (hg : σ.Allowed l.2) (hjs : ∀ j ∈ js, j ∈ i :: tasks new) :
    (∀ j ∈ js, ((σ.step l).shared.task j).isRunning = true) ↔
      ∀ j ∈ js, (σ.shared.task j).isRunning = true :=
  forall₂_congr fun j hj => by rw [isRunning_step hg (h.mem_regions (hjs j hj))]

theorem Inside.same (hg : σ.Allowed l.2) (hregions : (σ.step l).regions = σ.regions)
    (hrun : run (σ.acts l.2) σ.clock.stack = σ.clock.stack) (hstarts : StartsRunning σ l) :
    Goes r before os i new n σ l := by
  refine ⟨new, n, h.next hg (hregions.trans h.regions) ?_ h.placed fun j hj => .inl hj, ?_⟩
  · rw [hrun]
    exact h.surplus
  · rw [and_iff_left hstarts]
    exact and_congr_right fun _ => h.running_iff _ hg fun j hj => hj

theorem Inside.opening (r' : Region I) (hg : σ.Allowed l.2) (hr' : r'.task = none)
    (hregions : (σ.step l).regions = ⟨r', σ.clock.stack⟩ :: σ.regions)
    (hrun : run (σ.acts l.2) σ.clock.stack = r'.marks ++ σ.clock.stack)
    (hplaced : Placed (⟨r', σ.clock.stack⟩ :: (new ++ [⟨r, before⟩])))
    (hstarts : StartsRunning σ l) : Goes r before os i new n σ l := by
  have htasks : tasks (⟨r', σ.clock.stack⟩ :: new) = tasks new := tasks_cons_of_none hr'
  refine ⟨⟨r', σ.clock.stack⟩ :: new, n, h.next hg ?_ ?_ hplaced fun j hj => .inl (htasks ▸ hj), ?_⟩
  · rw [hregions, h.regions]
    rfl
  · rw [hrun]
    exact h.surplus.opening (rests_marks r' _)
  · rw [and_iff_left hstarts, Clean, htasks]
    exact and_congr_right fun _ => h.running_iff _ hg fun j hj => hj

theorem Inside.closing {o : Opened I} {os' : List (Opened I)} {x : ℕ} (hg : σ.Allowed l.2)
    (hos : σ.regions = o :: os') (hregions : (σ.step l).regions = os')
    (hkeep : (⟨r, before⟩ :: os) <:+ (σ.step l).regions)
    (hrests : ∀ k, Rests (k + o.region.marks.length) o.before σ.clock.stack →
      Rests (k + x) o.before (run (σ.acts l.2) σ.clock.stack))
    (hx : ∀ new', new = o :: new' → ((x = 0 ∧ ∀ j ∈ i :: tasks new', (σ.shared.task j).isRunning) ↔
      ∀ j ∈ i :: tasks new, (σ.shared.task j).isRunning))
    (hstarts : StartsRunning σ l) : Goes r before os i new n σ l := by
  rw [hregions] at hkeep
  obtain ⟨new', hnew, hos'⟩ := h.exists_of_closing hos hkeep
  have hsub : ∀ j ∈ tasks new', j ∈ tasks new := by
    intro j hj
    rw [hnew, show o :: new' = [o] ++ new' from rfl, tasks_append]
    exact List.mem_append_right _ hj
  have hplaced := h.placed
  have hsurplus := h.surplus
  rw [hnew] at hplaced hsurplus
  obtain ⟨m, k, hn, hst, hsurplus⟩ := hsurplus
  refine ⟨new', k + (m + x), h.next hg (hregions.trans hos') ?_ hplaced.tail
    fun j hj => .inl (hsub j hj), ?_⟩
  · exact hsurplus.add (by simp) (hrests m (Nat.add_comm .. ▸ hst))
  · have hcongr := h.running_iff (i :: tasks new') hg fun j hj =>
      (List.mem_cons.mp hj).elim (· ▸ List.mem_cons_self) fun hj => List.mem_cons_of_mem i (hsub j hj)
    rw [and_iff_left hstarts, Clean, Clean, hcongr, ← hx new' hnew, ← and_assoc]
    exact and_congr_left fun _ => by omega

omit h [DecidableEq I] [DecidableEq G] in
theorem forall_running_cons {σ' : OmpThread I G} {κ : I} {js : List I} :
    (∀ j ∈ i :: κ :: js, (σ'.shared.task j).isRunning = true) ↔
      (∀ j ∈ i :: js, (σ'.shared.task j).isRunning = true) ∧ (σ'.shared.task κ).isRunning = true := by
  simp only [List.forall_mem_cons]
  tauto

theorem Inside.starting (r' : Region I) {κ : I} (hg : σ.Allowed l.2) (hr' : r'.task = some κ)
    (hκ : κ ∉ tasks σ.regions)
    (hregions : (σ.step l).regions = ⟨r', σ.clock.stack⟩ :: σ.regions)
    (hrun : run (σ.acts l.2) σ.clock.stack = r'.marks ++ σ.clock.stack)
    (hplaced : Placed (⟨r', σ.clock.stack⟩ :: (new ++ [⟨r, before⟩])))
    (hrecord : ((σ.step l).shared.task κ).type.untied = false ∧
      0 < ((σ.step l).shared.task κ).execution)
    (hstarts : ((σ.step l).shared.task κ).isRunning = true ↔ StartsRunning σ l) :
    Goes r before os i new n σ l := by
  have htasks : tasks (⟨r', σ.clock.stack⟩ :: new) = κ :: tasks new := tasks_cons_of_some hr'
  have hne : κ ≠ i := fun hi => hκ (hi ▸ h.mem_regions List.mem_cons_self)
  refine ⟨⟨r', σ.clock.stack⟩ :: new, n, h.next hg ?_ ?_ hplaced fun j hj => ?_, ?_⟩
  · rw [hregions, h.regions]
    rfl
  · rw [hrun]
    exact h.surplus.opening (rests_marks r' _)
  · rw [htasks] at hj
    rcases List.mem_cons.mp hj with rfl | hj
    · exact .inr ⟨hne, hrecord⟩
    · exact .inl hj
  · rw [Clean, htasks, forall_running_cons, hstarts, h.running_iff _ hg fun j hj => hj, ← and_assoc]
    rfl

theorem Inside.implicitTaskBegin {t : ℚ} {initial : Bool} {κ : I} {threadNum : ℕ}
    (hg : σ.Allowed (.implicitTaskBegin initial κ threadNum)) :
    Goes r before os i new n σ (t, .implicitTaskBegin initial κ threadNum) := by
  obtain ⟨hb, hκ, hplace⟩ := hg
  have hmarks : (⟨r, before⟩ : Opened I).region.marks ≠ [] := by
    rw [h.waiting.marks]
    exact List.cons_ne_nil _ _
  have hstate : σ.clock.getState ≠ .init := h.surplus.getState_ne hmarks
  have hrun : run (σ.acts (.implicitTaskBegin initial κ threadNum)) σ.clock.stack =
      .useful :: σ.clock.stack := by
    cases initial <;> simp [acts, hstate, exec]
  have hrecord : (σ.step (t, .implicitTaskBegin initial κ threadNum)).shared.task κ =
      .newImplicit true threadNum (σ.shared.task κ) := by
    cases initial <;> exact Function.update_self ..
  refine h.starting (.implicit κ) ⟨hb, hκ, hplace⟩ rfl hκ rfl hrun h.placed ?_ ?_
  · rw [hrecord]
    exact ⟨rfl, Nat.zero_lt_one⟩
  · rw [hrecord]
    exact iff_of_true rfl trivial

theorem Inside.suspend {t : ℚ} {i₀ next : I} {status : TaskStatus}
    (hstatus : status = .switch ∨ status = .yield)
    (hg : σ.Allowed (.taskSchedule i₀ status next)) (howner : Opened.owner σ.regions = some i₀)
    (hplace : executing σ.regions = true ∨ Opened.waiting σ.regions = true)
    (hnew : next ∉ tasks σ.regions) (hfresh : NotStarted (σ.shared.task next)) :
    Goes r before os i new n σ (t, .taskSchedule i₀ status next) := by
  have hacts : σ.acts (.taskSchedule i₀ status next) =
      (σ.shared.task i₀).suspendActs ++ (σ.shared.task next).startActs := by
    rcases hstatus with rfl | rfl <;> rfl
  have hu := inUse_taskSchedule t i₀ (σ.shared, σ.clock)
    (hstatus.imp_right .inl : status = .switch ∨ status = .yield ∨ status = .complete) next next
  have hstarts : (σ.shared.task next).isRunning = true ↔
      StartsRunning σ (t, .taskSchedule i₀ status next) :=
    ⟨fun hr _ => hr, fun hr => hr hnew⟩
  refine h.starting (.explicit next) hg rfl hnew ?_ ?_ ⟨?_, h.placed⟩ ⟨?_, hu.2⟩ ?_
  · rcases hstatus with rfl | rfl <;> rfl
  · rw [hacts, run_append, (h.resumable (h.owner_mem howner)).run_suspendActs,
      TaskData.run_startActs_of_notStarted hfresh]
    rfl
  · rw [← h.executing_eq, ← h.waiting_eq]
    exact hplace
  · exact hu.1.2.2.1.trans hfresh.2.2
  · rw [← hstarts]
    exact iff_of_eq (congrArg (· = true) hu.1.1)

omit h [DecidableEq I] [DecidableEq G] in
theorem rests_completing (i₀ next : I) {k : ℕ} {b : List ClockState}
    (hst : Rests (k + 2) b σ.clock.stack) :
    ∃ st, Rests (k + missed (σ.shared.task i₀).isRunning + 1) b st ∧
      run (σ.acts (.taskSchedule i₀ .complete next)) σ.clock.stack =
        run (σ.shared.task next).startActs st := by
  refine ⟨pop (σ.shared.task i₀).isRunning σ.clock.stack, ?_, ?_⟩
  · rw [Nat.add_right_comm]
    exact hst.pop (σ.shared.task i₀).isRunning
  · show run (_ ++ _ ++ _) _ = _
    rw [run_append, run_append, run_arcs (TaskData.completeActs_arcs _)]
    rfl

theorem Inside.resume {t : ℚ} {i₀ next : I} (hg : σ.Allowed (.taskSchedule i₀ .complete next))
    (hkeep : (⟨r, before⟩ :: os) <:+ (σ.step (t, .taskSchedule i₀ .complete next)).regions)
    (htop : top σ.regions = some (.explicit i₀)) (hnext : Opened.owner σ.regions.tail = some next) :
    Goes r before os i new n σ (t, .taskSchedule i₀ .complete next) := by
  obtain ⟨b, os', hos⟩ := exists_of_top htop
  rw [hos] at hnext
  have hregions : (σ.step (t, .taskSchedule i₀ .complete next)).regions = os' := by
    simp [step, scheduled, hos, show Opened.owner os' = some next from hnext]
  -- the task below is one of the region
  have hmem : ∀ new', new = ⟨.explicit i₀, b⟩ :: new' → next ∈ i :: tasks new' := by
    rintro new' rfl
    have hreg := h.regions
    rw [hos] at hreg
    exact h.waiting.owner_mem h.owner ((List.cons.inj hreg).2 ▸ hnext)
  have hsub : ∀ new', new = ⟨.explicit i₀, b⟩ :: new' → tasks new = i₀ :: tasks new' := by
    rintro new' rfl
    exact tasks_cons_of_some rfl
  refine h.closing (x := missed (σ.shared.task i₀).isRunning +
    missed (σ.shared.task next).isRunning) hg hos hregions hkeep ?_ ?_ ?_
  · intro k hst
    obtain ⟨new', hnew, -⟩ := h.exists_of_closing hos (hregions ▸ hkeep)
    have hnextMem : next ∈ i :: tasks new := by
      rw [hsub new' hnew]
      exact (List.mem_cons.mp (hmem new' hnew)).elim (· ▸ List.mem_cons_self)
        fun hj => List.mem_cons_of_mem _ (List.mem_cons_of_mem _ hj)
    obtain ⟨st, hrest, hrun⟩ := rests_completing i₀ next hst
    rw [hrun, (h.resumable hnextMem).run_startActs, ← Nat.add_assoc]
    exact hrest.pop (σ.shared.task next).isRunning
  · intro new' hnew
    rw [hsub new' hnew, forall_running_cons, Nat.add_eq_zero_iff, missed_eq_zero, missed_eq_zero]
    constructor
    · rintro ⟨⟨hi₀, -⟩, hall⟩
      exact ⟨hall, hi₀⟩
    · rintro ⟨hall, hi₀⟩
      exact ⟨⟨hi₀, hall next (hmem new' hnew)⟩, hall⟩
  · intro hnot
    rw [hos] at hnot
    exact absurd (List.mem_cons_of_mem i₀ (List.mem_of_mem_head? hnext)) hnot

theorem Inside.replace {t : ℚ} {i₀ next : I} (hg : σ.Allowed (.taskSchedule i₀ .complete next))
    (hkeep : (⟨r, before⟩ :: os) <:+ (σ.step (t, .taskSchedule i₀ .complete next)).regions)
    (htop : top σ.regions = some (.explicit i₀)) (hnew : next ∉ tasks σ.regions)
    (hfresh : NotStarted (σ.shared.task next)) :
    Goes r before os i new n σ (t, .taskSchedule i₀ .complete next) := by
  obtain ⟨b, os', hos⟩ := exists_of_top htop
  have hnot : Opened.owner os' ≠ some next := fun hnext =>
    hnew (hos ▸ List.mem_cons_of_mem _ (List.mem_of_mem_head? hnext))
  have hregions : (σ.step (t, .taskSchedule i₀ .complete next)).regions =
      ⟨.explicit next, b⟩ :: os' := by
    simp [step, scheduled, hos, hnot]
  -- the region itself is no task's
  have hopen : (⟨r, before⟩ :: os) <:+ os' := by
    rw [hregions, List.suffix_cons_iff] at hkeep
    refine hkeep.resolve_left fun heq => ?_
    have hr : r = .explicit next := congrArg Opened.region (List.cons.inj heq).1
    have htask := h.waiting.task
    rw [hr] at htask
    cases htask
  obtain ⟨new', rfl, rfl⟩ := h.exists_of_closing hos hopen
  have hne : next ≠ i := fun hi => hnew (hi ▸ h.mem_regions List.mem_cons_self)
  have hu := inUse_taskSchedule t i₀ (σ.shared, σ.clock) (.inr (.inr rfl)) next next
  have hstarts : (σ.shared.task next).isRunning = true ↔
      StartsRunning σ (t, .taskSchedule i₀ .complete next) :=
    ⟨fun hr _ => hr, fun hr => hr hnew⟩
  obtain ⟨m, k, rfl, hst, hsurplus⟩ := h.surplus
  obtain ⟨st, hrest, hrun⟩ := rests_completing i₀ next (Nat.add_comm .. ▸ hst)
  refine ⟨⟨.explicit next, b⟩ :: new', m + k + missed (σ.shared.task i₀).isRunning,
    h.next hg hregions ?_ h.placed fun j hj => ?_, ?_⟩
  · refine ⟨m + missed (σ.shared.task i₀).isRunning, k, by omega, ?_, hsurplus⟩
    rw [hrun, TaskData.run_startActs_of_notStarted hfresh, Nat.add_comm]
    exact hrest.enter (by decide)
  · rcases List.mem_cons.mp hj with rfl | hj
    · exact .inr ⟨hne, hu.1.2.2.1.trans hfresh.2.2, hu.2⟩
    · exact .inl (List.mem_cons_of_mem i₀ hj)
  · have hrunning : ((σ.step (t, .taskSchedule i₀ .complete next)).shared.task next).isRunning =
        (σ.shared.task next).isRunning := hu.1.1
    have hcongr := h.running_iff (i :: tasks new') (l := (t, .taskSchedule i₀ .complete next))
      hg fun j hj => (List.mem_cons.mp hj).elim (· ▸ List.mem_cons_self)
        fun hj => List.mem_cons_of_mem i (List.mem_cons_of_mem i₀ hj)
    rw [Clean, Clean, tasks_cons_of_some rfl, tasks_cons_of_some rfl, forall_running_cons,
      forall_running_cons, hcongr, hrunning, hstarts, Nat.add_eq_zero_iff, missed_eq_zero]
    tauto

/-- The end of a region without a task, with `exitState` under the flag `f`. -/
theorem Inside.closing_plain {o : Opened I} {os' : List (Opened I)} {x : ℕ} (hg : σ.Allowed l.2)
    (hos : σ.regions = o :: os') (ho : o.region.task = none) (hregions : (σ.step l).regions = os')
    (hkeep : (⟨r, before⟩ :: os) <:+ (σ.step l).regions)
    (hrests : ∀ k, Rests (k + o.region.marks.length) o.before σ.clock.stack →
      Rests (k + x) o.before (run (σ.acts l.2) σ.clock.stack))
    (hx : x = 0 ∨ ∃ j ∈ i :: tasks new, x = missed (σ.shared.task j).isRunning)
    (hstarts : StartsRunning σ l) : Goes r before os i new n σ l := by
  refine h.closing hg hos hregions hkeep hrests ?_ hstarts
  rintro new' rfl
  rw [tasks_cons_of_none ho] at hx ⊢
  refine and_iff_right_of_imp fun hall => ?_
  rcases hx with hx | ⟨j, hj, hx⟩
  · exact hx
  · rw [hx, missed_eq_zero]
    exact hall j hj

theorem Inside.implicitTaskEnd {t : ℚ} {κ : I} (hg : σ.Allowed (.implicitTaskEnd κ))
    (hkeep : (⟨r, before⟩ :: os) <:+ (σ.step (t, .implicitTaskEnd κ)).regions) :
    Goes r before os i new n σ (t, .implicitTaskEnd κ) := by
  obtain ⟨b, os', hos⟩ := exists_of_top hg
  refine h.closing (x := missed (σ.shared.task κ).isRunning) hg hos (congrArg List.tail hos) hkeep
    (fun k hst => hst.pop _) ?_ trivial
  rintro new' rfl
  rw [tasks_cons_of_some rfl, forall_running_cons, missed_eq_zero]
  exact and_comm

theorem Inside.wait {t : ℚ} {j : I} {call : WaitCall G} (hg : σ.Allowed (.wait j call))
    (hkeep : (⟨r, before⟩ :: os) <:+ (σ.step (t, .wait j call)).regions) :
    Goes r before os i new n σ (t, .wait j call) := by
  have hj := h.owner_mem hg.1
  cases call with
  | taskwaitBegin =>
    exact h.opening .taskwait hg rfl rfl rfl ⟨h.not_waiting hg.2, h.placed⟩ trivial
  | taskgroupBegin g =>
    exact h.opening .taskgroup hg rfl rfl rfl ⟨h.not_waiting hg.2, h.placed⟩ trivial
  | taskgroupWaitBegin =>
    have hw : Opened.waiting σ.regions = false := by
      obtain ⟨b, os', hos⟩ := exists_of_top hg.2
      rw [hos]
      rfl
    exact h.opening .taskgroupWait hg rfl rfl rfl ⟨h.waiting_eq ▸ hw, h.placed⟩ trivial
  | taskwaitEnd =>
    obtain ⟨b, os', hos⟩ := exists_of_top hg.2
    refine h.closing_plain hg hos rfl (congrArg List.tail hos) hkeep (fun k hst => ?_)
      (.inr ⟨j, hj, rfl⟩) trivial
    rw [acts, TaskData.waitActs, run_append, run_ite_arc]
    exact hst.pop _
  | taskgroupWaitEnd =>
    obtain ⟨b, os', hos⟩ := exists_of_top hg.2
    exact h.closing_plain hg hos rfl (congrArg List.tail hos) hkeep (fun k hst => hst.pop _)
      (.inr ⟨j, hj, rfl⟩) trivial
  | taskgroupEnd =>
    obtain ⟨b, os', hos⟩ := exists_of_top hg.2
    exact h.closing_plain hg hos rfl (congrArg List.tail hos) hkeep (fun k hst => hst)
      (.inl rfl) trivial

theorem Inside.taskSchedule {t : ℚ} {i₀ next : I} {status : TaskStatus}
    (hg : σ.Allowed (.taskSchedule i₀ status next))
    (hkeep : (⟨r, before⟩ :: os) <:+ (σ.step (t, .taskSchedule i₀ status next)).regions) :
    Goes r before os i new n σ (t, .taskSchedule i₀ status next) := by
  have hcases := hg.2
  cases status with
  | switch => exact h.suspend (.inl rfl) hg hg.1 hcases.1 hcases.2.1 hcases.2.2
  | yield => exact h.suspend (.inr rfl) hg hg.1 hcases.1 hcases.2.1 hcases.2.2
  | complete =>
    obtain ⟨htop, hnext | ⟨hnew, hfresh⟩⟩ := hcases
    · exact h.resume hg hkeep htop hnext
    · exact h.replace hg hkeep htop hnew hfresh
  | cancel => exact hcases.elim
  | detach => exact hcases.elim
  | earlyFulfill => exact hcases.elim
  | lateFulfill => exact hcases.elim
  | taskwaitComplete => exact hcases.elim

theorem Inside.step (hg : σ.Allowed l.2)
    (hkeep : (⟨r, before⟩ :: os) <:+ (σ.step l).regions) : Goes r before os i new n σ l := by
  obtain ⟨t, call⟩ := l
  cases call with
  | other shared locks => exact h.same hg rfl rfl trivial
  | threadBegin time => exact absurd (h.begun.symm.trans hg) (by decide)
  | parallelBegin =>
    exact h.opening .parallel hg rfl rfl rfl ⟨h.not_waiting hg, h.placed⟩ trivial
  | parallelEnd =>
    obtain ⟨b, os', hos⟩ := exists_of_top hg
    exact h.closing_plain hg hos rfl (congrArg List.tail hos) hkeep (fun k hst => hst.pop true)
      (.inl rfl) trivial
  | implicitTaskBegin initial κ threadNum => exact h.implicitTaskBegin hg
  | implicitTaskEnd κ => exact h.implicitTaskEnd hg hkeep
  | barrierBegin j =>
    exact h.opening .barrier hg rfl rfl rfl ⟨h.not_waiting hg.1, h.placed⟩ trivial
  | barrierEnd j pd =>
    obtain ⟨b, os', hos⟩ := exists_of_top hg.1
    refine h.closing_plain hg hos rfl (congrArg List.tail hos) hkeep (fun k hst => ?_)
      (.inr ⟨j, h.owner_mem hg.2, rfl⟩) trivial
    rw [acts, run_append, run_ite_arc]
    exact hst.pop _
  | wait j call => exact h.wait hg hkeep
  | regionWaitBegin => exact h.opening .regionWait hg rfl rfl rfl h.placed trivial
  | regionWaitEnd =>
    obtain ⟨b, os', hos⟩ := exists_of_top hg
    exact h.closing_plain hg hos rfl (congrArg List.tail hos) hkeep (fun k hst => hst)
      (.inl rfl) trivial
  | mutexAcquire =>
    exact h.opening .mutex hg rfl rfl rfl ⟨h.not_waiting hg, h.placed⟩ trivial
  | mutexAcquired waitId =>
    obtain ⟨b, os', hos⟩ := exists_of_top hg
    exact h.closing_plain hg hos rfl (congrArg List.tail hos) hkeep (fun k hst => hst.pop true)
      (.inl rfl) trivial
  | mutexReleased waitId => exact h.same hg rfl rfl trivial
  | taskCreate parent κ type => exact h.same hg rfl (run_of_timedArc _ (acts_taskCreate ..)) trivial
  | dependences κ deps => exact h.same hg rfl (run_of_timedArc _ (acts_dependences ..)) trivial
  | taskSchedule i₀ status next => exact h.taskSchedule hg hkeep

theorem Inside.run {ls : List (ℚ × ThreadCall I G)} (hv : (machine I G).Valid σ ls)
    (hkeep : (machine I G).Along (KeepsOpen (⟨r, before⟩ :: os)) σ ls) :
    ∃ new' n', Inside r before os i new' n' ((machine I G).run σ ls) ∧
      (Clean i new' n' ((machine I G).run σ ls) ↔
        Clean i new n σ ∧ (machine I G).Along StartsRunning σ ls) := by
  induction ls generalizing σ new n with
  | nil => exact ⟨new, n, h, (and_iff_left trivial).symm⟩
  | cons l ls ih =>
    obtain ⟨new₁, n₁, h₁, hclean₁⟩ := h.step hv.1 hkeep.1
    obtain ⟨new₂, n₂, h₂, hclean₂⟩ := ih h₁ hv.2 hkeep.2
    refine ⟨new₂, n₂, h₂, hclean₂.trans ?_⟩
    rw [hclean₁, and_assoc]
    rfl

end Inside

/-! ## The region as a whole -/

/-- The sync regions of a task, with what their end looks at. -/
inductive SyncRegion where
  | barrier (parallelData : Bool)
  | taskwait
  deriving DecidableEq

namespace SyncRegion

def region : SyncRegion → Region I
  | .barrier _ => .barrier
  | .taskwait => .taskwait

def begins (i : I) : SyncRegion → ThreadCall I G
  | .barrier _ => .barrierBegin i
  | .taskwait => .wait i .taskwaitBegin

def ends (i : I) : SyncRegion → ThreadCall I G
  | .barrier parallelData => .barrierEnd i parallelData
  | .taskwait => .wait i .taskwaitEnd

omit [DecidableEq I] in
theorem waiting (s : SyncRegion) : Opened.Waiting (s.region : Region I) := by
  cases s with
  | barrier pd => exact .inl rfl
  | taskwait => exact .inr rfl

theorem stack_begins (s : SyncRegion) (t : ℚ) (i : I) (σ : OmpThread I G) :
    (σ.step (t, s.begins i)).clock.stack = .omp :: σ.clock.stack := by
  rw [stack_step]
  cases s <;> rfl

theorem stack_ends (s : SyncRegion) (t : ℚ) (i : I) (σ : OmpThread I G) :
    (σ.step (t, s.ends i)).clock.stack = pop (σ.shared.task i).isRunning σ.clock.stack := by
  rw [stack_step]
  cases s with
  | barrier pd =>
    rw [ends, acts, run_append, run_ite_arc]
    rfl
  | taskwait =>
    rw [ends, acts, TaskData.waitActs, run_append, run_ite_arc]
    rfl

theorem marks_begins (s : SyncRegion) (t : ℚ) (i : I) (σ : OmpThread I G) :
    Marks i true σ.shared (σ.step (t, s.begins i)).shared := by
  cases s with
  | barrier pd => exact marks_syncRegionBegin t i (σ.shared, σ.clock)
  | taskwait =>
    have hmark : waitMark (G := G) .taskwaitBegin = some true := rfl
    exact marks_waitCall t i (σ.shared, σ.clock) hmark

theorem regions_begins (s : SyncRegion) (t : ℚ) (i : I) (σ : OmpThread I G) :
    (σ.step (t, s.begins i)).regions = ⟨s.region, σ.clock.stack⟩ :: σ.regions := by
  cases s <;> rfl

omit [DecidableEq I] [DecidableEq G] in
theorem top_of_ends {s : SyncRegion} (hg : σ.Allowed (s.ends i)) :
    top σ.regions = some s.region ∧ owner σ.regions = some i := by
  cases s with
  | barrier pd => exact hg
  | taskwait => exact hg.symm

theorem inside_begins {s : SyncRegion} {t : ℚ} (hb : σ.begun = true)
    (howner : owner σ.regions = some i) (hstarted : 0 < (σ.shared.task i).execution) :
    Inside s.region σ.clock.stack σ.regions i [] 0 (σ.step (t, s.begins i)) where
  begun := begun_step hb
  waiting := s.waiting
  owner := howner
  regions := s.regions_begins t i σ
  surplus := by
    rw [stack_begins]
    have hnone : Surplus (I := I) σ.clock.stack 0 [] σ.clock.stack := ⟨rfl, rfl⟩
    refine hnone.opening ?_
    rw [s.waiting.marks]
    exact (Rests.refl _).enter (by decide)
  placed := by cases s <;> exact ⟨rfl, trivial⟩
  tied j hj := absurd hj List.not_mem_nil
  started j hj := by
    obtain rfl := List.mem_singleton.mp hj
    exact (s.marks_begins t j σ j).2.2.2 hstarted
  inBarrier := by
    have hi := (s.marks_begins t i σ i).2.1
    simpa using hi
  other := List.not_mem_nil

omit [DecidableEq I] [DecidableEq G] in
theorem owner_of_begins {s : SyncRegion} (hg : σ.Allowed (s.begins i)) :
    owner σ.regions = some i := by
  cases s with
  | barrier pd => exact hg.2
  | taskwait => exact hg.1

/-- The end of a region, when `n` states were left on the stack in it. -/
theorem stack_ends_eq_iff {s : SyncRegion} {t : ℚ} {before : List ClockState}
    {os new : List (Opened I)} {n : ℕ} (h : Inside s.region before os i new n σ)
    (hg : σ.Allowed (s.ends i)) :
    (σ.step (t, s.ends i)).clock.stack = before ↔ Clean i new n σ := by
  obtain ⟨htop, howner⟩ := top_of_ends hg
  -- the region that ends is the one that was begun
  obtain rfl : new = [] := by
    refine (h.top_of_owner howner).resolve_right fun hwait => ?_
    rw [htop] at hwait
    cases s <;> cases hwait
  obtain ⟨m, k, rfl, hst, rfl, -⟩ := h.surplus
  rw [s.waiting.marks, List.length_singleton, Nat.add_comm] at hst
  rw [stack_ends, (hst.pop _).eq_iff, Nat.add_eq_zero_iff, missed_eq_zero, Clean]
  simp [tasks]

/-- A region of a task leaves the stack as it found it if its own end pops, and so do those of the
tasks that are executed in it. -/
theorem balanced_iff {s : SyncRegion} {tb te : ℚ} {mid : List (ℚ × ThreadCall I G)}
    (hb : σ.begun = true) (hstarted : 0 < (σ.shared.task i).execution)
    (hv : (machine I G).Valid σ ((tb, s.begins i) :: (mid ++ [(te, s.ends i)])))
    (hkeep : (machine I G).Along (KeepsOpen (σ.step (tb, s.begins i)).regions)
      (σ.step (tb, s.begins i)) mid) :
    ((machine I G).run σ ((tb, s.begins i) :: (mid ++ [(te, s.ends i)]))).clock.stack =
        σ.clock.stack ↔
      (σ.shared.task i).isRunning = true ∧
        (machine I G).Along StartsRunning (σ.step (tb, s.begins i)) mid := by
  obtain ⟨hbegin, hrest⟩ := hv
  obtain ⟨hmid, hend, -⟩ := (Machine.along_append _ _).mp hrest
  have howner := owner_of_begins hbegin
  have hinside := inside_begins (s := s) (t := tb) hb howner hstarted
  rw [s.regions_begins] at hkeep
  obtain ⟨new, n, h, hclean⟩ := hinside.run hmid hkeep
  rw [Machine.run_cons, Machine.run_concat]
  refine (stack_ends_eq_iff h hend).trans (hclean.trans (and_congr_left fun _ => ?_))
  have hrunning := isRunning_step (l := (tb, s.begins i)) hbegin (List.mem_of_mem_head? howner)
  simp [Clean, tasks, hrunning]

end SyncRegion

def startTool (t : ℚ) (σ : OmpThread I G) : OmpThread I G := σ.onClock (·.enterState true t .useful t)

theorem record_run (os : List (Opened I)) {ls : List (ℚ × ThreadCall I G)} (hb : σ.begun = true)
    (hi : i ∈ tasks os) (hos : os <:+ σ.regions) (hstarted : 0 < (σ.shared.task i).execution)
    (hv : (machine I G).Valid σ ls) (hkeep : (machine I G).Along (KeepsOpen os) σ ls) :
    ((machine I G).run σ ls).begun = true ∧
      0 < (((machine I G).run σ ls).shared.task i).execution ∧
      (((machine I G).run σ ls).shared.task i).isRunning = (σ.shared.task i).isRunning := by
  have hboth := Machine.along_and.mpr ⟨hv, hkeep⟩
  refine (hboth.inv (I := fun σ' => os <:+ σ'.regions ∧ σ'.begun = true ∧
    0 < (σ'.shared.task i).execution ∧ (σ'.shared.task i).isRunning = (σ.shared.task i).isRunning)
    ?_ ⟨hos, hb, hstarted, rfl⟩).2
  rintro σ' l ⟨hos', hb', hstarted', hrunning⟩ ⟨hg, hopen⟩
  have hmem : i ∈ tasks σ'.regions := (hos'.sublist.filterMap _).subset hi
  exact ⟨hopen, begun_step hb', started_step hg hmem hstarted', (isRunning_step hg hmem).trans hrunning⟩

end OmpThread

open OmpThread in
/-- The tool is started in task `i`. A later barrier or taskwait of the task leaves the stack as it
found it exactly if the record of the task was made while the tool was running, as well as those of
the tasks that the thread starts in the region. -/
theorem sync_region_balanced_iff {I G : Type} [DecidableEq I] [DecidableEq G] (σ : OmpThread I G)
    (i : I) (t tb te : ℚ) (s : SyncRegion) (pre mid : List (ℚ × ThreadCall I G))
    (hbegun : σ.begun = true) (howner : Opened.owner σ.regions = some i)
    (hstarted : 0 < (σ.shared.task i).execution)
    (hv : (machine I G).Valid (σ.startTool t)
      (pre ++ (tb, s.begins i) :: (mid ++ [(te, s.ends i)])))
    (hpre : (machine I G).Along (KeepsOpen σ.regions) (σ.startTool t) pre)
    (hmid : (machine I G).Along
      (KeepsOpen ((machine I G).run (σ.startTool t) (pre ++ [(tb, s.begins i)])).regions)
      ((machine I G).run (σ.startTool t) (pre ++ [(tb, s.begins i)])) mid) :
    ((machine I G).run (σ.startTool t)
        (pre ++ (tb, s.begins i) :: (mid ++ [(te, s.ends i)]))).clock.stack =
      ((machine I G).run (σ.startTool t) pre).clock.stack ↔
    (σ.shared.task i).isRunning = true ∧ (machine I G).Along StartsRunning
      ((machine I G).run (σ.startTool t) (pre ++ [(tb, s.begins i)])) mid := by
  obtain ⟨hvpre, hvregion⟩ := (Machine.along_append _ _).mp hv
  obtain ⟨hb, hst, hrunning⟩ := record_run (σ := σ.startTool t) σ.regions hbegun
    (List.mem_of_mem_head? howner) List.suffix_rfl hstarted hvpre hpre
  rw [Machine.run_concat] at hmid ⊢
  rw [Machine.run_append, SyncRegion.balanced_iff hb hst hvregion hmid, hrunning]
  rfl

namespace OmpThread

/-- An implicit task that began before the tool was started. -/
def inImplicitTask : OmpThread ℕ ℕ where
  shared := Shared.fresh.modifyTask 0 (.newImplicit false 0)
  locks _ := .fresh
  clock := .new
  begun := true
  regions := [⟨.implicit 0, []⟩]

end OmpThread

open OmpThread in
theorem sync_region_balanced_iff_restarted :
    let σ : OmpThread ℕ ℕ := { inImplicitTask with
      shared := Shared.fresh.modifyTask 0 fun d =>
        { TaskData.new true 5 none { explicit := true } d with execution := 1 }
      regions := [⟨.explicit 0, []⟩, ⟨.implicit 1, []⟩] }
    ((machine ℕ ℕ).run (σ.startTool 10) [(20, .barrierBegin 0), (30, .barrierEnd 0 true)]).clock.stack
      = (σ.startTool 10).clock.stack :=
  (sync_region_balanced_iff _ 0 10 20 30 (.barrier true) [] [] rfl rfl (by decide +kernel)
    (by decide +kernel) trivial trivial).mpr ⟨by decide +kernel, trivial⟩

open OmpThread in
/-- After two barriers in the task in which the tool was started the thread is in `STATE_OMP`, and
the state of each of them is still on the stack. -/
theorem sync_region_unbalanced :
    (machine ℕ ℕ).Valid (inImplicitTask.startTool 10)
        [(20, .barrierBegin 0), (30, .barrierEnd 0 true), (40, .barrierBegin 0),
          (50, .barrierEnd 0 true)] ∧
      (inImplicitTask.startTool 10).clock.stack = [.useful, .init] ∧
      ((machine ℕ ℕ).run (inImplicitTask.startTool 10)
        [(20, .barrierBegin 0), (30, .barrierEnd 0 true)]).clock.stack = [.omp, .useful, .init] ∧
      ((machine ℕ ℕ).run (inImplicitTask.startTool 10)
        [(20, .barrierBegin 0), (30, .barrierEnd 0 true), (40, .barrierBegin 0),
          (50, .barrierEnd 0 true)]).clock.stack = [.omp, .omp, .useful, .init] := by
  decide +kernel

end CritPath
