import CritPath.Omp.TaskTree

/-!
# Taskwaits and taskgroups join what they wait for

A completing task signals the innermost taskgroup it was generated in and its
parent's taskwait clock, nothing else. Its values get to the end of an outer
taskgroup through the tasks and regions between: at the end of an inner region
they are on the thread of its owner, which is itself generated in the outer
region and brings them there when it completes, or owns that region
(`Reached`). This breaks where a task is completed by another thread than the
one that has executed it, that is by a late fulfilment.
-/

namespace CritPath

open Lib

namespace Tasking

variable {T K G : Type}

def Open (σ : Tasking T K G) (n : GroupRegion T K G) : Prop :=
  σ.Alive n.owner ∧ n ∈ σ.scope n.owner

/-- The values `v` are on their way to the end of region `n`: in the clock of a region in `n`, or on
the thread of a task in `n`. -/
inductive Reached (σ : Tasking T K G) (n : GroupRegion T K G) (v : Comp → ℚ) : Prop
  | region {m : GroupRegion T K G} {r : List (GroupRegion T K G)} (alive : σ.Alive m.owner)
      (nested : (m :: r) <:+ σ.scope m.owner) (mem : n ∈ m :: r)
      (covers : (σ.team.shared.group m.record).ptr.Covers v)
  | thread {i : T ⊕ K} {q : T} (alive : σ.Alive i) (home : σ.thread i = some q)
      (mem : n ∈ σ.scope i)
      (le : ∀ x, x ≠ .thread → v x ≤ (σ.team.clock q).elapsed .useful x σ.team.now)

/-- What completed tasks had is on its way. -/
structure Delivered (σ : Tasking T K G) : Prop where
  taskwait : ∀ κ, σ.team.completed κ = true → σ.undeferred κ = false →
    (σ.team.shared.task (σ.parent κ)).taskwait.Covers (σ.value κ)
  group : ∀ κ, σ.team.completed κ = true → σ.undeferred κ = false → ∀ n ∈ σ.gen κ, σ.Open n →
    σ.Reached n (σ.value κ)

theorem Delivered.initial (now : ℚ) (clock : T → ThreadClock) (shared : Shared (T ⊕ K) G) :
    Delivered (.initial (.initial now clock shared)) where
  taskwait _ h := by cases h
  group _ h := by cases h

theorem Reached.mono {σ σ' : Tasking T K G} {n : GroupRegion T K G} {v : Comp → ℚ}
    (h : σ.Reached n v)
    (hkeep : ∀ i, σ.Alive i → σ'.Alive i ∧ σ.scope i <:+ σ'.scope i ∧
      ∀ q, σ.thread i = some q → σ'.thread i = some q)
    (hgroup : ∀ g, (σ.team.shared.group g).ptr.Covers v → (σ'.team.shared.group g).ptr.Covers v)
    (hle : ∀ q, (∀ x, x ≠ .thread → v x ≤ (σ.team.clock q).elapsed .useful x σ.team.now) →
      ∀ x, x ≠ .thread → v x ≤ (σ'.team.clock q).elapsed .useful x σ'.team.now) :
    σ'.Reached n v := by
  cases h with
  | region alive nested mem covers =>
    obtain ⟨halive, hscope, -⟩ := hkeep _ alive
    exact .region halive (nested.trans hscope) mem (hgroup _ covers)
  | thread alive home mem le =>
    obtain ⟨halive, hscope, hthread⟩ := hkeep _ alive
    exact .thread halive (hthread _ home) (hscope.subset mem) (hle _ le)

variable [DecidableEq T] [DecidableEq K] [DecidableEq G] {crew : Crew T} {σ : Tasking T K G} {t : ℚ}
  {p : T} {n : GroupRegion T K G} {v : Comp → ℚ}

/-! ## Every callback -/

theorem team_step (a : Label T K G) : (σ.step crew a).team = σ.team.step crew a := by
  obtain ⟨t, p, call⟩ := a
  cases call with
  | wait call => cases call <;> rfl
  | _ => rfl

theorem le_elapsed_step {a : Label T K G} (ha : (machine crew K G).guard σ a) {q : T}
    (hv : ∀ x, x ≠ .thread → v x ≤ (σ.team.clock q).elapsed .useful x σ.team.now) :
    ∀ x, x ≠ .thread → v x ≤ ((σ.step crew a).team.clock q).elapsed .useful x
      (σ.step crew a).team.now := by
  intro x hx
  rw [team_step]
  exact Team.le_elapsed_step ha.1 hv hx

theorem covers_group_step {a : Label T K G} (ha : (machine crew K G).guard σ a) {g : G}
    (hg : (σ.team.shared.group g).ptr.Covers v) :
    ((σ.step crew a).team.shared.group g).ptr.Covers v := by
  obtain ⟨t, p, call⟩ := a
  cases call with
  | work o | parallelBegin | implicitTaskBegin | barrierBegin | barrierReset => exact hg
  | barrierEnd pd =>
    have hr := Retains.syncRegionEnd t pd (.inl p) (σ.team.shared, σ.team.clock p)
    exact hr.group g v hg
  | wait call =>
    have hr := Retains.waitCall t (σ.team.current p) call (σ.team.shared, σ.team.clock p)
    cases call with
    | taskgroupBegin g' =>
      show ((Shared.waitCall true t (σ.team.current p) (.taskgroupBegin g')
        (σ.team.shared, σ.team.clock p)).1.group g).ptr.Covers v
      by_cases hgg : g = g'
      · rw [hgg, group_taskgroupBegin_self]
        exact hgg ▸ hg
      · rwa [group_taskgroupBegin hgg]
    | taskgroupEnd => exact (group_taskgroupEnd g).2 v hg
    | taskwaitBegin | taskwaitEnd | taskgroupWaitBegin | taskgroupWaitEnd =>
      exact (hr (by simp) (by simp)).group g v hg
  | taskCreate κ type =>
    have hr := Retains.taskCreate t (σ.team.current p) (.inr κ) ha.1.2.2.2.2
      (σ.team.shared, σ.team.clock p)
    exact hr.group g v hg
  | dependences κ deps =>
    have hr := Retains.dependences t (.inr κ) deps (σ.team.shared, σ.team.clock p)
    exact hr.group g v hg
  | taskSchedule i status next =>
    have hr := Retains.taskSchedule t i status next (σ.team.shared, σ.team.clock p)
    exact hr.group g v hg

/-- Nor out of a taskwait clock; a new record keeps its old clocks. -/
theorem covers_taskwait_step {a : Label T K G} (ha : (machine crew K G).guard σ a) {j : T ⊕ K}
    (hj : (σ.team.shared.task j).taskwait.Covers v) :
    ((σ.step crew a).team.shared.task j).taskwait.Covers v := by
  obtain ⟨t, p, call⟩ := a
  cases call with
  | work o | parallelBegin | barrierReset => exact hj
  | implicitTaskBegin =>
    by_cases hjp : j = .inl p
    · subst hjp
      simpa [step, Team.step, Team.onThread, Shared.implicitTaskBegin, Shared.barrierAfter,
        Shared.modifyTask, TaskData.newImplicit] using hj
    · simpa [step, Team.step, Team.onThread, Shared.implicitTaskBegin, Shared.barrierAfter,
        Shared.modifyTask, hjp] using hj
  | barrierBegin =>
    have hr := Retains.barrierBegin t (.inl p) (σ.team.shared, σ.team.clock p)
    exact (hr.task j).taskwait v hj
  | barrierEnd pd =>
    have hr := Retains.syncRegionEnd t pd (.inl p) (σ.team.shared, σ.team.clock p)
    exact (hr.task j).taskwait v hj
  | wait call =>
    have hr := Retains.waitCall t (σ.team.current p) call (σ.team.shared, σ.team.clock p)
    cases call with
    | taskgroupBegin g =>
      exact (congrArg (SyncClock.Covers · v) (taskwait_taskgroupBegin (t := t) j)).mpr hj
    | taskgroupEnd => exact (congrArg (SyncClock.Covers · v) (taskwait_taskgroupEnd j)).mpr hj
    | taskwaitBegin | taskwaitEnd | taskgroupWaitBegin | taskgroupWaitEnd =>
      exact ((hr (by simp) (by simp)).task j).taskwait v hj
  | taskCreate κ type =>
    have hr := Retains.taskCreate t (σ.team.current p) (.inr κ) ha.1.2.2.2.2
      (σ.team.shared, σ.team.clock p)
    refine (hr.task j).taskwait v ?_
    by_cases hjκ : j = .inr κ
    · subst hjκ; simpa [Shared.modifyTask, TaskData.new] using hj
    · simpa [Shared.modifyTask, hjκ] using hj
  | dependences κ deps =>
    have hr := Retains.dependences t (.inr κ) deps (σ.team.shared, σ.team.clock p)
    exact (hr.task j).taskwait v hj
  | taskSchedule i status next =>
    have hr := Retains.taskSchedule t i status next (σ.team.shared, σ.team.clock p)
    exact (hr.task j).taskwait v hj

theorem fixed_step (htree : Tree σ) {a : Label T K G} (ha : (machine crew K G).guard σ a) {κ : K}
    (hκ : σ.team.completed κ = true) :
    (σ.step crew a).value κ = σ.value κ ∧ (σ.step crew a).gen κ = σ.gen κ ∧
      (σ.step crew a).parent κ = σ.parent κ ∧
      (σ.step crew a).undeferred κ = σ.undeferred κ := by
  have hnew : ∀ type, a.call ≠ .taskCreate κ type := by
    intro type hcall
    have hcre : σ.team.created κ = false := by
      have hallowed := ha.1.2
      rw [hcall] at hallowed
      exact hallowed.2.2.1
    rw [(htree.completed κ hκ).1] at hcre
    cases hcre
  have hdef := undeferred_step ha hnew
  obtain ⟨t, p, call⟩ := a
  cases call with
  | work | parallelBegin | implicitTaskBegin | barrierBegin | barrierReset | barrierEnd
  | dependences => exact ⟨rfl, rfl, rfl, hdef⟩
  | wait call => cases call <;> exact ⟨rfl, rfl, rfl, hdef⟩
  | taskCreate κ' type =>
    have hκκ : κ ≠ κ' := fun heq => hnew type (heq ▸ rfl)
    exact ⟨rfl, gen_taskCreate hκκ, parent_taskCreate hκκ, hdef⟩
  | taskSchedule i status next =>
    refine ⟨if_neg ?_, rfl, rfl, hdef⟩
    rintro ⟨hst, rfl⟩
    have hnot := (ha.1.2.2.1 hst).2.2
    rw [hκ] at hnot
    cases hnot

theorem open_of_step (htree : Tree σ) {a : Label T K G} (ha : (machine crew K G).guard σ a)
    (hn : n.id < σ.begun) (hopen : (σ.step crew a).Open n) : σ.Open n := by
  obtain ⟨halive, hmem⟩ := hopen
  obtain ⟨t, p, call⟩ := a
  cases call with
  | work | parallelBegin | barrierBegin | barrierReset | barrierEnd | dependences =>
    exact ⟨halive, hmem⟩
  | implicitTaskBegin =>
    refine ⟨?_, hmem⟩
    cases howner : n.owner with
    | inr κ => rw [howner] at halive; exact halive
    | inl q =>
      -- a thread that has not started owns no region
      by_contra hq
      have hmem' : n ∈ σ.scope n.owner := hmem
      rw [howner, htree.unstarted q (by simpa [Alive] using hq)] at hmem'
      exact absurd hmem' List.not_mem_nil
  | wait call =>
    cases call with
    | taskgroupBegin g =>
      refine ⟨halive, ?_⟩
      by_cases howner : n.owner = σ.team.current p
      · rw [howner, scope_taskgroupBegin_self] at hmem
        rw [howner]
        refine (List.mem_cons.mp hmem).resolve_left fun heq => ?_
        rw [heq] at hn
        exact lt_irrefl _ hn
      · rwa [scope_taskgroupBegin howner] at hmem
    | taskgroupEnd =>
      refine ⟨halive, ?_⟩
      by_cases howner : n.owner = σ.team.current p
      · rw [howner, scope_taskgroupEnd_self] at hmem
        rw [howner]
        exact List.mem_of_mem_tail hmem
      · rwa [scope_taskgroupEnd howner] at hmem
    | taskwaitBegin | taskwaitEnd | taskgroupWaitBegin | taskgroupWaitEnd => exact ⟨halive, hmem⟩
  | taskCreate κ type =>
    obtain ⟨-, hp, hκ, -⟩ := ha.1.2
    have howner : n.owner ≠ .inr κ := by
      intro heq
      rw [heq, scope_taskCreate_self] at hmem
      exact (htree.alive_owner (htree.alive_current hp) hmem).ne_of_created hκ heq
    exact ⟨(alive_taskCreate howner).mp halive, by rwa [scope_taskCreate howner] at hmem⟩
  | taskSchedule i status next => exact ⟨alive_of_taskSchedule halive, hmem⟩

/-! ## Values on their way -/

theorem Reached.of_completing (hshape : Team.Shape crew σ.team) (htree : Tree σ)
    (hrec : Records σ) {κ : K} {status : TaskStatus} {next : T ⊕ K}
    (ha : σ.team.Allowed crew p (.taskSchedule (.inr κ) status next))
    (huseful : σ.team.EndsUseful p status) (hends : σ.Ends status (.inr κ))
    (hst : status.completes = true)
    (hthread : σ.thread (.inr κ) = some p)
    (hresumes : status.switches = true → σ.Resumes p (.inr κ) next) (hn : n ∈ σ.gen κ)
    (hv : ∀ x, x ≠ .thread → v x ≤ (Shared.completing t status (.inr κ)
      (σ.team.shared, σ.team.clock p)).2.elapsed .useful x t) :
    (σ.step crew ⟨t, p, .taskSchedule (.inr κ) status next⟩).Reached n v := by
  obtain ⟨hκ, hidle, hscope, -⟩ := hends
  by_cases hu : σ.undeferred κ = true
  · obtain ⟨halive, hgen, hhome⟩ := htree.included κ hκ hu
    have hne : σ.parent κ ≠ .inr κ := by
      intro heq
      have hfin := hidle κ hκ.1 heq hu
      rw [hκ.2] at hfin
      cases hfin
    have hgrows := Quiet.after_completeTask (t := t) hst (.inr κ) next
      (σ.team.shared, σ.team.clock p)
    refine .thread (alive_taskSchedule halive fun _ => hne)
      (thread_taskSchedule hresumes (hhome p hthread)) (hgen ▸ hn) fun x hx => ?_
    rw [team_step, Team.now_step]
    refine (hv x hx).trans ?_
    simpa [Team.step, Team.onThread] using hgrows.grows x hx
  · have hdef : σ.undeferred κ = false := by simpa using hu
    obtain ⟨m, r, hgen⟩ := List.exists_cons_of_ne_nil (List.ne_nil_of_mem hn)
    obtain ⟨halive, hnested⟩ := htree.nested (.inr κ) hκ m r (by rw [hscope, hgen])
    have howner := htree.generated κ hκ m (hgen ▸ List.mem_cons_self)
    have hgroup : (σ.team.shared.task (.inr κ)).taskGroup = some m.record := by
      rw [hrec.taskGroup _ hκ, hscope, hgen]
      rfl
    refine .region (alive_taskSchedule halive fun _ => howner) hnested (hgen ▸ hn) ?_
    have hstate := Team.getState_completing (t := t) hshape hst ha huseful
    refine (Retains.covers_taskSchedule hst next (by rw [hstate]; decide) (fun x hx => ?_) hdef).2 _
      hgroup
    -- in `STATE_OMP` the clock stores its value
    have hle := hv x hx
    rwa [ThreadClock.elapsed_of_stopped (by rw [hstate]; rfl)] at hle

/-- A task ends in the states that `suspendTaskEnd` checks, and a late fulfilment comes from the
thread that has executed the task. -/
def EndsAtHome (σ : Tasking T K G) (a : Label T K G) : Prop :=
  match a.call with
  | .taskSchedule i status _ => σ.team.EndsUseful a.thread status ∧
    (status = .lateFulfill → σ.thread i = some a.thread)
  | _ => True

omit [DecidableEq K] [DecidableEq G] in
theorem thread_of_completes (htree : Tree σ) {κ : K} {status : TaskStatus} {next : T ⊕ K}
    (ha : σ.team.Allowed crew p (.taskSchedule (.inr κ) status next))
    (hhome : σ.EndsAtHome ⟨t, p, .taskSchedule (.inr κ) status next⟩)
    (hst : status.completes = true) : σ.thread (.inr κ) = some p := by
  cases status with
  | complete | cancel =>
    rw [(ha.2.2 rfl).1]
    exact htree.thread p
  | lateFulfill => exact hhome.2 rfl
  | yield | detach | earlyFulfill | switch | taskwaitComplete => cases hst

theorem Reached.taskSchedule (h : σ.Reached n v) (hshape : Team.Shape crew σ.team) (htree : Tree σ)
    (hrec : Records σ) {i next : T ⊕ K} {status : TaskStatus}
    (ha : (machine crew K G).guard σ ⟨t, p, .taskSchedule i status next⟩)
    (hhome : σ.EndsAtHome ⟨t, p, .taskSchedule i status next⟩) :
    (σ.step crew ⟨t, p, .taskSchedule i status next⟩).Reached n v := by
  obtain ⟨hresumes, hends⟩ := ha.2
  by_cases hst : status.finishes = true
  · have hend := (hends (by simp [TaskStatus.endsBody, hst])).1
    cases i with
    | inl q => exact absurd hend id
    | inr κ =>
      obtain ⟨hκ, -, hscope, -, hwait⟩ := id hend
      cases h with
      | @region m r alive nested mem covers =>
        -- the task owns no region any more
        have howner : m.owner ≠ .inr κ := by
          intro heq
          have hm : m ∈ σ.scope m.owner := nested.subset List.mem_cons_self
          rw [heq, hscope] at hm
          exact htree.generated κ hκ m hm heq
        exact .region (alive_taskSchedule alive fun _ => howner) nested mem
          (covers_group_step ha covers)
      | @thread j q alive home mem le =>
        by_cases hj : j = .inr κ
        · subst hj
          by_cases hc : status.completes = true
          · have hp := thread_of_completes htree ha.1.2 hhome hc
            obtain rfl : q = p := Option.some_inj.mp (home.symm.trans hp)
            have hgrows := Quiet.completing t status (.inr κ) (σ.team.shared, σ.team.clock q)
            exact .of_completing hshape htree hrec ha.1.2 hhome.1 hend hc hp hresumes (hscope ▸ mem)
              fun x hx => Grows.later le ha.1.1 hgrows.grows hx
          · have hs : status = .taskwaitComplete := by simpa [TaskStatus.finishes, hc] using hst
            rw [show σ.thread (.inr κ) = none from hwait hs] at home
            cases home
        · exact .thread (alive_taskSchedule alive fun _ => hj) (thread_taskSchedule hresumes home) mem
            (le_elapsed_step ha le)
  · refine h.mono (fun j hj => ⟨alive_taskSchedule hj fun hst' => absurd hst' hst,
      List.suffix_refl _, fun q hq => thread_taskSchedule hresumes hq⟩)
      (fun g => covers_group_step ha) fun q => le_elapsed_step ha

section
variable {i : T ⊕ K} {sh : Shared (T ⊕ K) G} {c : ThreadClock} {x : Comp}

/-- At the end of a taskgroup the thread gets what the taskgroup's clock has. -/
theorem le_elapsed_taskgroupEnd {g : G} (ht : 0 ≤ t) (hg : (sh.task i).taskGroup = some g)
    (hv : (sh.group g).ptr.Covers v) (hx : x ≠ .thread) :
    v x ≤ (Shared.waitCall true t i .taskgroupEnd (sh, c)).2.elapsed .useful x t := by
  simp only [Shared.waitCall, hg, ThreadClock.elapsed_exitState]
  exact hv.le_elapsed _ ht hx

/-- At the end of a taskwait it gets what the taskwait clock has, if the task has counted a child. -/
theorem le_elapsed_taskwaitEnd (ht : 0 ≤ t) (hexec : 2 ≤ (sh.task i).execution)
    (hv : (sh.task i).taskwait.Covers v) (hx : x ≠ .thread) :
    v x ≤ (Shared.waitCall true t i .taskwaitEnd (sh, c)).2.elapsed .useful x t := by
  simp only [Shared.waitCall, if_pos (show 1 < (sh.task i).execution from hexec)]
  exact (hv.le_elapsed c ht hx).trans (Grows.exitState t _ _ x hx)

end

theorem le_elapsed_ended (hrec : Records σ) (ht : 0 ≤ t)
    (ha : σ.PermitsWait (σ.team.current p) .taskgroupEnd) {e : GroupRegion T K G}
    (he : e ∈ (σ.scope (σ.team.current p)).head?)
    (hv : (σ.team.shared.group e.record).ptr.Covers v) :
    ∀ x, x ≠ .thread → v x ≤ ((σ.step crew ⟨t, p, .wait .taskgroupEnd⟩).team.clock p).elapsed
      .useful x t := by
  intro x hx
  have hgroup : (σ.team.shared.task (σ.team.current p)).taskGroup = some e.record := by
    rw [hrec.taskGroup _ ha.1, Option.mem_def.mp he]
    rfl
  simp only [step, Team.step, Team.onThread, Function.update_self]
  exact le_elapsed_taskgroupEnd ht hgroup hv hx

theorem Reached.taskgroupEnd (h : σ.Reached n v) (htree : Tree σ) (hrec : Records σ)
    (hnow : 0 ≤ σ.team.now) (ha : (machine crew K G).guard σ ⟨t, p, .wait .taskgroupEnd⟩)
    (hopen : (σ.step crew ⟨t, p, .wait .taskgroupEnd⟩).Open n) :
    (σ.step crew ⟨t, p, .wait .taskgroupEnd⟩).Reached n v := by
  obtain ⟨hi, -, -, e, he, howner⟩ := id ha.2
  obtain ⟨rest, hscope⟩ : ∃ rest, σ.scope (σ.team.current p) = e :: rest :=
    List.head?_eq_some_iff.mp he
  have hself : (σ.step crew ⟨t, p, .wait .taskgroupEnd⟩).scope (σ.team.current p) = rest := by
    rw [scope_taskgroupEnd_self, hscope]
    rfl
  have hrest : e ∉ rest := by
    have hnodup := htree.nodup (σ.team.current p)
    rw [hscope] at hnodup
    exact (List.nodup_cons.mp hnodup).1
  have hne : n ≠ e := by
    rintro rfl
    have hmem := hopen.2
    rw [howner, hself] at hmem
    exact hrest hmem
  cases h with
  | @region m r alive nested mem covers =>
    by_cases hm : m = e
    · -- from the clock of the region to the thread of its owner
      subst hm
      rw [howner, hscope] at nested
      have hr : r = rest := by
        rcases List.suffix_cons_iff.mp nested with heq | hr
        · exact (List.cons.inj heq).2
        · exact absurd (hr.subset List.mem_cons_self) hrest
      refine .thread hi (htree.thread p) ?_ ?_
      · rw [hself, ← hr]
        exact (List.mem_cons.mp mem).resolve_left hne
      · rw [team_step, Team.now_step, ← team_step]
        exact le_elapsed_ended hrec (hnow.trans ha.1.1) ha.2 he covers
    · refine .region alive ?_ mem (covers_group_step ha covers)
      by_cases hmi : m.owner = σ.team.current p
      · rw [hmi, hscope] at nested
        rw [hmi, hself]
        exact (List.suffix_cons_iff.mp nested).resolve_left fun heq => hm (List.cons.inj heq).1
      · rwa [scope_taskgroupEnd hmi]
  | @thread j q alive home mem le =>
    refine .thread alive home ?_ (le_elapsed_step ha le)
    by_cases hj : j = σ.team.current p
    · rw [hj, hscope] at mem
      rw [hj, hself]
      exact (List.mem_cons.mp mem).resolve_left hne
    · rwa [scope_taskgroupEnd hj]

/-- Where a region ends, everything on its way to its end has arrived. -/
theorem Reached.le_elapsed {e : GroupRegion T K G} (h : σ.Reached e v) (htree : Tree σ)
    (hrec : Records σ) (hnow : 0 ≤ σ.team.now)
    (ha : (machine crew K G).guard σ ⟨t, p, .wait .taskgroupEnd⟩)
    (he : e ∈ (σ.scope (σ.team.current p)).head?) :
    ∀ x, x ≠ .thread → v x ≤ ((σ.step crew ⟨t, p, .wait .taskgroupEnd⟩).team.clock p).elapsed
      .useful x t := by
  have howner : e.owner = σ.team.current p := by
    obtain ⟨-, -, -, e', he', howner⟩ := ha.2
    rwa [Option.mem_unique he he']
  obtain ⟨rest, hscope⟩ : ∃ rest, σ.scope (σ.team.current p) = e :: rest :=
    List.head?_eq_some_iff.mp he
  -- only the owner is left in the region
  have hlast : ∀ j, σ.Alive j → e ∈ σ.scope j → j = σ.team.current p := by
    intro j hj hmem
    by_contra hne
    exact htree.notMem_of_taskgroupEnd ha.2 he hj hne hmem
  cases h with
  | @region m r alive nested mem covers =>
    have hm : m.owner = σ.team.current p := hlast _ alive (nested.subset mem)
    obtain rfl : m = e := by
      rw [hm, hscope] at nested
      rcases List.suffix_cons_iff.mp nested with heq | hr
      · exact (List.cons.inj heq).1
      · have hnodup := htree.nodup (σ.team.current p)
        rw [hscope] at hnodup
        exact absurd (hr.subset mem) (List.nodup_cons.mp hnodup).1
    exact le_elapsed_ended hrec (hnow.trans ha.1.1) ha.2 he covers
  | @thread j q alive home mem le =>
    obtain rfl := hlast j alive mem
    obtain rfl : q = p := Option.some_inj.mp (home.symm.trans (htree.thread p))
    have hle := le_elapsed_step ha le
    rwa [team_step, Team.now_step, ← team_step] at hle

theorem Reached.step (h : σ.Reached n v) (hshape : Team.Shape crew σ.team) (htree : Tree σ)
    (hrec : Records σ) (hnow : 0 ≤ σ.team.now) {a : Label T K G}
    (ha : (machine crew K G).guard σ a) (hhome : σ.EndsAtHome a)
    (hopen : (σ.step crew a).Open n) : (σ.step crew a).Reached n v := by
  -- where a step keeps the tasks and their scopes, only the clocks matter
  have hkeep : (∀ i, σ.Alive i → (σ.step crew a).Alive i ∧ σ.scope i <:+ (σ.step crew a).scope i ∧
      ∀ q, σ.thread i = some q → (σ.step crew a).thread i = some q) →
      (σ.step crew a).Reached n v := fun hi =>
    h.mono hi (fun _ => covers_group_step ha) fun _ => le_elapsed_step ha
  obtain ⟨t, p, call⟩ := a
  cases call with
  | work | parallelBegin | barrierBegin | barrierReset | barrierEnd | dependences =>
    exact hkeep fun i hi => ⟨hi, List.suffix_refl _, fun _ => id⟩
  | implicitTaskBegin =>
    refine hkeep fun i hi => ⟨alive_congr (σ := σ) (fun q hq => ?_) rfl rfl hi,
      List.suffix_refl _, fun _ => id⟩
    by_cases hqp : q = p
    · simp [Tasking.step, Team.step, hqp]
    · simpa [Tasking.step, Team.step, hqp] using hq
  | wait call =>
    cases call with
    | taskgroupBegin g =>
      refine hkeep fun i hi => ⟨hi, ?_, fun _ => id⟩
      by_cases hip : i = σ.team.current p
      · rw [hip, scope_taskgroupBegin_self]
        exact List.suffix_cons _ _
      · rw [scope_taskgroupBegin hip]
    | taskgroupEnd => exact h.taskgroupEnd htree hrec hnow ha hopen
    | taskwaitBegin | taskwaitEnd | taskgroupWaitBegin | taskgroupWaitEnd =>
      exact hkeep fun i hi => ⟨hi, List.suffix_refl _, fun _ => id⟩
  | taskCreate κ type =>
    obtain ⟨-, -, hκ, -⟩ := ha.1.2
    refine hkeep fun i hi => ?_
    have hne := hi.ne_of_created hκ
    exact ⟨(alive_taskCreate hne).mpr hi, by rw [scope_taskCreate hne], fun q hq =>
      (thread_taskCreate hne).trans hq⟩
  | taskSchedule i status next => exact h.taskSchedule hshape htree hrec ha hhome

/-! ## Whole runs -/

theorem completed_of_step {a : Label T K G} {κ : K}
    (hκ : (σ.step crew a).team.completed κ = true) :
    σ.team.completed κ = true ∨ ∃ status next, status.completes = true ∧
      a.call = .taskSchedule (.inr κ) status next := by
  obtain ⟨t, p, call⟩ := a
  rw [team_step] at hκ
  cases call with
  | taskSchedule i status next =>
    have hκ' : (σ.team.completed κ || (status.completes && decide (i = .inr κ))) = true := hκ
    rcases Bool.or_eq_true_iff.mp hκ' with hold | hnew
    · exact .inl hold
    · obtain ⟨hst, rfl⟩ : status.completes = true ∧ i = .inr κ := by simpa using hnew
      exact .inr ⟨status, next, hst, rfl⟩
  | _ => exact .inl hκ

theorem completed_step {a : Label T K G} {κ : K} (hκ : σ.team.completed κ = true) :
    (σ.step crew a).team.completed κ = true := by
  obtain ⟨t, p, call⟩ := a
  rw [team_step]
  cases call with
  | taskSchedule i status next => simp [Team.step, hκ]
  | _ => exact hκ

theorem completed_taskSchedule {κ : K} {status : TaskStatus} {next : T ⊕ K}
    (hst : status.completes = true) :
    (σ.step crew ⟨t, p, .taskSchedule (.inr κ) status next⟩).team.completed κ = true := by
  simp [Tasking.step, Team.step, hst]

theorem value_completes {κ : K} {status : TaskStatus} {next : T ⊕ K}
    (hst : status.completes = true) :
    (σ.step crew ⟨t, p, .taskSchedule (.inr κ) status next⟩).value κ = fun x =>
      (Shared.completing t status (.inr κ) (σ.team.shared, σ.team.clock p)).2.elapsed .useful x t :=
  if_pos ⟨hst, rfl⟩

theorem Delivered.step (h : Delivered σ) (hshape : Team.Shape crew σ.team) (htree : Tree σ)
    (hrec : Records σ) (hnow : 0 ≤ σ.team.now) {a : Label T K G}
    (ha : (machine crew K G).guard σ a) (hhome : σ.EndsAtHome a) :
    Delivered (σ.step crew a) := by
  refine ⟨fun κ hκ hu => ?_, fun κ hκ hu n hn hopen => ?_⟩
  · rcases completed_of_step hκ with hold | ⟨status, next, hst, hcall⟩
    · obtain ⟨hvalue, -, hparent, hdef⟩ := fixed_step htree ha hold
      rw [hvalue, hparent]
      exact covers_taskwait_step ha (h.taskwait κ hold (hdef.symm.trans hu))
    · obtain ⟨t, p, call⟩ := a
      obtain rfl : call = _ := hcall
      have hdef := (undeferred_step ha (by simp)).symm.trans hu
      have hstate := Team.getState_completing (t := t) hshape hst ha.1.2 hhome.1
      rw [value_completes hst]
      refine (Retains.covers_taskSchedule hst next (by rw [hstate]; decide) (fun x _ => ?_) hdef).1 _
        (hrec.parent κ (ha.1.2.2.1 hst).2.1)
      rw [ThreadClock.elapsed_of_stopped (by rw [hstate]; rfl)]
  · rcases completed_of_step hκ with hold | ⟨status, next, hst, hcall⟩
    · obtain ⟨hvalue, hgen, -, hdef⟩ := fixed_step htree ha hold
      rw [hgen] at hn
      rw [hvalue]
      have hopen' := open_of_step htree ha (htree.genBelow κ n hn) hopen
      exact (h.group κ hold (hdef.symm.trans hu) n hn hopen').step hshape htree hrec hnow ha hhome
        hopen
    · obtain ⟨t, p, call⟩ := a
      obtain rfl : call = _ := hcall
      have hends := (ha.2.2 (by simp [TaskStatus.endsBody, TaskStatus.finishes, hst])).1
      rw [value_completes hst]
      exact .of_completing hshape htree hrec ha.1.2 hhome.1 hends hst
        (thread_of_completes htree ha.1.2 hhome hst) ha.2.1 hn fun _ _ => le_refl _

structure Inv (crew : Crew T) (σ : Tasking T K G) : Prop where
  shape : Team.Shape crew σ.team
  now : 0 ≤ σ.team.now
  tree : Tree σ
  records : Records σ
  delivered : Delivered σ

omit [DecidableEq K] [DecidableEq G] in
theorem Inv.initial {now : ℚ} (hnow : 0 ≤ now) (clock : T → ThreadClock)
    (shared : Shared (T ⊕ K) G) : Inv crew (.initial (.initial now clock shared)) :=
  ⟨.initial crew now clock shared, hnow, .initial now clock shared, .initial now clock shared,
    .initial now clock shared⟩

theorem Inv.step (h : Inv crew σ) {a : Label T K G} (ha : (machine crew K G).guard σ a)
    (hhome : σ.EndsAtHome a) : Inv crew (σ.step crew a) where
  shape := by rw [team_step]; exact h.shape.step ha.1
  now := by rw [team_step]; exact Team.nonneg_now_step h.now ha.1
  tree := h.tree.step ha
  records := h.records.step h.tree ha
  delivered := h.delivered.step h.shape h.tree h.records h.now ha hhome

/-- Where a task stops waiting it has what the tasks that it waited for had. -/
theorem Inv.le_elapsed_wait (h : Inv crew σ) {call : WaitCall G}
    (ha : (machine crew K G).guard σ ⟨t, p, .wait call⟩) {κ : K}
    (hκ : σ.team.completed κ = true) (hdef : σ.undeferred κ = false)
    (hawaits : σ.Awaits (σ.team.current p) call κ) {x : Comp} (hx : x ≠ .thread) :
    σ.value κ x ≤ ((σ.step crew ⟨t, p, .wait call⟩).team.clock p).elapsed .useful x t := by
  cases call with
  | taskgroupEnd =>
    obtain ⟨-, e, he, hgen⟩ := hawaits
    have howner : e.owner = σ.team.current p := by
      obtain ⟨-, -, -, e', he', howner⟩ := ha.2
      rwa [Option.mem_unique he he']
    have hopen : σ.Open e := by
      refine ⟨howner ▸ ha.2.1, ?_⟩
      rw [howner]
      exact List.mem_of_mem_head? he
    exact (h.delivered.group κ hκ hdef e hgen hopen).le_elapsed h.tree h.records h.now ha he x hx
  | taskwaitEnd =>
    obtain ⟨hcre, hparent⟩ := hawaits
    have hcovers := h.delivered.taskwait κ hκ hdef
    have hexec := h.records.children κ hcre hdef
    rw [show σ.parent κ = σ.team.current p from hparent] at hcovers hexec
    simp only [Tasking.step, Team.step, Team.onThread, Function.update_self]
    exact le_elapsed_taskwaitEnd (h.now.trans ha.1.1) hexec hcovers hx
  | taskwaitBegin | taskgroupBegin | taskgroupWaitBegin | taskgroupWaitEnd => exact absurd hawaits.2 id

end Tasking

def Team.Setup.tasking {T K G : Type} [DecidableEq T] [DecidableEq K] [DecidableEq G]
    (S : Team.Setup T K G) (as : List (Label T K G)) : Tasking T K G :=
  (Tasking.machine S.crew K G).run (.initial (.initial S.now S.clock S.shared)) as

/-- At the end of a taskgroup or taskwait the thread has at least the values of every deferred task
that it waits for, at the `completeTask` of that task: for a taskgroup the tasks that were generated
in it at any depth, for a taskwait the children. This holds for all trees of tied tasks and all
schedules in which tasks end in the states that `suspendTaskEnd` checks and an event that is
fulfilled late is fulfilled by the thread that has executed the task. -/
theorem wait_ge_completed {T K G : Type} [DecidableEq T] [DecidableEq K] [DecidableEq G]
    (S : Team.Setup T K G) (pre mid : List (Label T K G)) (t u : ℚ) (q p : T) (κ : K)
    (status : TaskStatus) (next : T ⊕ K) (call : WaitCall G)
    (hvalid : (Tasking.machine S.crew K G).Valid (S.tasking [])
      (pre ++ ⟨t, q, .taskSchedule (.inr κ) status next⟩ :: (mid ++ [⟨u, p, .wait call⟩])))
    (hhome : (Tasking.machine S.crew K G).Along Tasking.EndsAtHome (S.tasking [])
      (pre ++ ⟨t, q, .taskSchedule (.inr κ) status next⟩ :: (mid ++ [⟨u, p, .wait call⟩])))
    (hstatus : status.completes = true) (hdeferred : (S.tasking pre).undeferred κ = false)
    (hawaits : (S.tasking (pre ++ ⟨t, q, .taskSchedule (.inr κ) status next⟩ :: mid)).Awaits
      ((S.tasking (pre ++ ⟨t, q, .taskSchedule (.inr κ) status next⟩ :: mid)).team.current p) call κ)
    (x : Comp) (hx : x ≠ .thread) :
    (Shared.completing t status (.inr κ)
        ((S.tasking pre).team.shared, (S.tasking pre).team.clock q)).2.elapsed .useful x t ≤
      ((S.tasking (pre ++ ⟨t, q, .taskSchedule (.inr κ) status next⟩ ::
        (mid ++ [⟨u, p, .wait call⟩]))).team.clock p).elapsed .useful x u := by
  obtain ⟨hpre, hcomplete, hmid, hend⟩ :=
    Machine.along_between (Machine.along_and.mpr ⟨hvalid, hhome⟩)
  have hinv := hpre.inv (I := fun σ => Tasking.Inv S.crew σ) (fun _ _ hσ ha => hσ.step ha.1 ha.2)
    (.initial S.nonneg S.clock S.shared)
  simp only [Team.Setup.tasking, Machine.run_nil, Machine.run_append_cons] at *
  generalize (Tasking.machine S.crew K G).run (.initial (.initial S.now S.clock S.shared)) pre = σ
    at *
  -- from the completion on the task stays as it is
  obtain ⟨hinv', hdone, hdef, hvalue⟩ := hmid.inv
    (I := fun σ' => Tasking.Inv S.crew σ' ∧ σ'.team.completed κ = true ∧ σ'.undeferred κ = false ∧
      σ'.value κ = fun x => (Shared.completing t status (.inr κ)
        (σ.team.shared, σ.team.clock q)).2.elapsed .useful x t)
    (fun σ' a hσ' ha => by
      obtain ⟨hi, hc, hu, hv⟩ := hσ'
      obtain ⟨hvalue, -, -, hdef⟩ := Tasking.fixed_step hi.tree ha.1 hc
      exact ⟨hi.step ha.1 ha.2, Tasking.completed_step hc, hdef.trans hu, hvalue.trans hv⟩)
    ⟨hinv.step hcomplete.1 hcomplete.2, Tasking.completed_taskSchedule hstatus,
      (Tasking.undeferred_step hcomplete.1 (by simp)).trans hdeferred,
      Tasking.value_completes hstatus⟩
  have hle := hinv'.le_elapsed_wait hend.1 hdone hdef hawaits hx
  rwa [hvalue] at hle

/-- Thread `false` begins a taskgroup, creates task `false` in it and waits for a message. Thread
`true` executes task `false`, with a taskgroup of its own and task `true` in it from 4 to 14. -/
def innerTaskgroup : List (Label Bool Bool Bool) :=
  [⟨2, false, .parallelBegin⟩, ⟨2, false, .implicitTaskBegin⟩, ⟨2, true, .implicitTaskBegin⟩,
   ⟨3, false, .wait (.taskgroupBegin false)⟩, ⟨3, false, .taskCreate false { explicit := true }⟩,
   ⟨3, false, .work (.enterState .mpi)⟩, ⟨3, true, .barrierBegin⟩,
   ⟨4, true, .taskSchedule (.inl true) .switch (.inr false)⟩,
   ⟨4, true, .wait (.taskgroupBegin true)⟩, ⟨4, true, .taskCreate true { explicit := true }⟩,
   ⟨4, true, .wait .taskgroupWaitBegin⟩, ⟨4, true, .taskSchedule (.inr false) .switch (.inr true)⟩]

def outerTaskgroup (ends : List (Label Bool Bool Bool)) : List (Label Bool Bool Bool) :=
  [⟨14, true, .wait .taskgroupWaitEnd⟩, ⟨14, true, .wait .taskgroupEnd⟩] ++ ends ++
  [⟨17, false, .wait .taskgroupWaitBegin⟩, ⟨17, false, .wait .taskgroupWaitEnd⟩]

def endsAtHome : List (Label Bool Bool Bool) :=
  [⟨14, true, .taskSchedule (.inr false) .complete (.inl true)⟩, ⟨16, false, .work .exitState⟩]

/-- The message arrives, and thread `false` fulfils the event of task `false`. -/
def endsElsewhere : List (Label Bool Bool Bool) :=
  [⟨14, true, .taskSchedule (.inr false) .detach (.inl true)⟩, ⟨16, false, .work .exitState⟩,
   ⟨17, false, .taskSchedule (.inr false) .lateFulfill (.inl false)⟩]

instance {T K G : Type} [DecidableEq T] (σ : Tasking T K G) : ∀ a, Decidable (σ.EndsAtHome a)
  | ⟨_, _, .taskSchedule _ _ _⟩ => inferInstanceAs (Decidable (_ ∧ (_ → _)))
  | ⟨_, _, .work _⟩ | ⟨_, _, .parallelBegin⟩ | ⟨_, _, .implicitTaskBegin⟩ | ⟨_, _, .barrierBegin⟩
  | ⟨_, _, .barrierReset⟩ | ⟨_, _, .barrierEnd _⟩ | ⟨_, _, .wait _⟩ | ⟨_, _, .taskCreate _ _⟩
  | ⟨_, _, .dependences _ _⟩ => .isTrue trivial

/-- Thread `false` ends the outer taskgroup with the values of the task in the inner one. -/
theorem wait_ge_completed_innerTaskgroup :
    12 ≤ (((twoThreads Bool Bool).tasking
      (innerTaskgroup ++ ⟨14, true, .taskSchedule (.inr true) .complete (.inr false)⟩ ::
        (outerTaskgroup endsAtHome ++ [⟨18, false, .wait .taskgroupEnd⟩]))).team.clock
          false).elapsed .useful .critical 18 := by
  have h := wait_ge_completed (twoThreads Bool Bool) innerTaskgroup (outerTaskgroup endsAtHome) 14 18
    true false true .complete (.inr false) .taskgroupEnd (by decide +kernel) (by decide +kernel) rfl
    (by decide +kernel) (by decide +kernel) .critical (by decide)
  have hval : (Shared.completing 14 .complete (.inr true)
      (((twoThreads Bool Bool).tasking innerTaskgroup).team.shared,
        ((twoThreads Bool Bool).tasking innerTaskgroup).team.clock true)).2.elapsed
        .useful .critical 14 = 12 := by decide +kernel
  rw [hval] at h
  exact h

/-- Where the event of task `false` is fulfilled by the other thread, the values of the task in the
inner taskgroup do not get to the end of the outer one: 12 against 4. -/
theorem wait_misses_completed :
    let before := innerTaskgroup ++ ⟨14, true, .taskSchedule (.inr true) .complete (.inr false)⟩ ::
      outerTaskgroup endsElsewhere
    let start := (twoThreads Bool Bool).tasking innerTaskgroup
    (Tasking.machine Crew.pair Bool Bool).Valid ((twoThreads Bool Bool).tasking [])
      (before ++ [⟨18, false, .wait .taskgroupEnd⟩]) ∧
    start.undeferred true = false ∧
    ((twoThreads Bool Bool).tasking before).Awaits (.inl false) .taskgroupEnd true ∧
    (((twoThreads Bool Bool).tasking
      (before ++ [⟨18, false, .wait .taskgroupEnd⟩])).team.clock false).elapsed
        .useful .critical 18 <
      (Shared.completing 14 .complete (.inr true)
        (start.team.shared, start.team.clock true)).2.elapsed .useful .critical 14 := by
  refine ⟨?_, ?_, ?_, ?_⟩ <;> decide +kernel

end CritPath
