import CritPath.Omp.Tasking
import Mathlib.Data.List.Infix

/-!
# The tree of tasks

What every run of tied tasks keeps: how tasks, threads and taskgroup regions
are placed (`Tree`), and that the tool's records show these places
(`Records`). A region stays in the scope of its owner until it ends, and below
it always the same regions, whatever task looks at them (`Tree.nested`).
-/

namespace CritPath

open Lib

namespace Tasking

section
variable {T K G : Type}

/-- How the tasks are placed. -/
structure Tree (σ : Tasking T K G) : Prop where
  thread : ∀ p, σ.thread (σ.team.current p) = some p
  current : ∀ p κ, σ.team.current p = .inr κ → σ.Alive (.inr κ) ∧ σ.detached κ = false
  completed : ∀ κ, σ.team.completed κ = true → σ.team.created κ = true ∧ σ.finished κ = true
  unstarted : ∀ p, σ.team.started p = false → σ.scope (.inl p) = []
  parents : ∀ κ, σ.team.created κ = true → σ.Exists (σ.parent κ)
  below : ∀ i, ∀ n ∈ σ.scope i, n.id < σ.begun
  genBelow : ∀ κ, ∀ n ∈ σ.gen κ, n.id < σ.begun
  nodup : ∀ i, (σ.scope i).Nodup
  own : ∀ i, σ.Alive i → ∀ n ∈ σ.scope i, n.owner = i ∨ ∃ κ, i = .inr κ ∧ n ∈ σ.gen κ
  generated : ∀ κ, σ.Alive (.inr κ) → ∀ n ∈ σ.gen κ, n.owner ≠ .inr κ
  nested : ∀ i, σ.Alive i → ∀ n r, (n :: r) <:+ σ.scope i →
    σ.Alive n.owner ∧ (n :: r) <:+ σ.scope n.owner
  included : ∀ κ, σ.Alive (.inr κ) → σ.undeferred κ = true →
    σ.Alive (σ.parent κ) ∧ σ.scope (σ.parent κ) = σ.gen κ ∧
      ∀ q, σ.home κ = some q → σ.thread (σ.parent κ) = some q

variable {σ σ' : Tasking T K G} {i : T ⊕ K}

theorem Alive.exists (h : σ.Alive i) : σ.Exists i := by
  cases i with
  | inl p => exact h
  | inr κ => exact h.1

theorem Alive.ne_of_created {κ : K} (h : σ.Alive i) (hκ : σ.team.created κ = false) :
    i ≠ .inr κ := by
  rintro rfl
  rw [h.1] at hκ
  cases hκ

theorem alive_congr (hstarted : ∀ p, σ.team.started p = true → σ'.team.started p = true)
    (hcreated : σ'.team.created = σ.team.created) (hfinished : σ'.finished = σ.finished)
    (h : σ.Alive i) : σ'.Alive i := by
  cases i with
  | inl p => exact hstarted p h
  | inr κ => exact ⟨by rw [hcreated]; exact h.1, by rw [hfinished]; exact h.2⟩

theorem exists_suffix_of_mem {α : Type} {n : α} {l : List α} (h : n ∈ l) :
    ∃ r, (n :: r) <:+ l := by
  obtain ⟨s, r, rfl⟩ := List.mem_iff_append.mp h
  exact ⟨r, s, rfl⟩

/-! ## What a step changes -/

section
variable [DecidableEq T] [DecidableEq K] [DecidableEq G] {crew : Crew T} {t : ℚ} {p : T} {κ κ' : K}
  {type : TaskType} {j : T ⊕ K}

theorem scope_taskgroupBegin {g : G} (hj : j ≠ σ.team.current p) :
    (σ.step crew ⟨t, p, .wait (.taskgroupBegin g)⟩).scope j = σ.scope j :=
  Function.update_of_ne hj _ _

theorem scope_taskgroupBegin_self {g : G} :
    (σ.step crew ⟨t, p, .wait (.taskgroupBegin g)⟩).scope (σ.team.current p) =
      ⟨σ.begun, σ.team.current p, g⟩ :: σ.scope (σ.team.current p) :=
  Function.update_self ..

theorem scope_taskgroupEnd (hj : j ≠ σ.team.current p) :
    (σ.step crew ⟨t, p, .wait .taskgroupEnd⟩).scope j = σ.scope j :=
  Function.update_of_ne hj _ _

theorem scope_taskgroupEnd_self :
    (σ.step crew ⟨t, p, .wait .taskgroupEnd⟩).scope (σ.team.current p) =
      (σ.scope (σ.team.current p)).tail :=
  Function.update_self ..

theorem alive_taskCreate (hj : j ≠ .inr κ) :
    (σ.step crew ⟨t, p, .taskCreate κ type⟩).Alive j ↔ σ.Alive j := by
  cases j with
  | inl q => exact Iff.rfl
  | inr κ' =>
    have hκ : κ' ≠ κ := fun heq => hj (congrArg _ heq)
    simp [Alive, step, Team.step, hκ]

theorem thread_taskCreate (hj : j ≠ .inr κ) :
    (σ.step crew ⟨t, p, .taskCreate κ type⟩).thread j = σ.thread j := by
  cases j with
  | inl q => rfl
  | inr κ' =>
    have hκ : κ' ≠ κ := fun heq => hj (congrArg _ heq)
    simp [thread, step, hκ]

theorem scope_taskCreate (hj : j ≠ .inr κ) :
    (σ.step crew ⟨t, p, .taskCreate κ type⟩).scope j = σ.scope j :=
  Function.update_of_ne hj _ _

theorem scope_taskCreate_self :
    (σ.step crew ⟨t, p, .taskCreate κ type⟩).scope (.inr κ) = σ.scope (σ.team.current p) :=
  Function.update_self ..

/-- A creation makes no new regions. -/
theorem exists_scope_taskCreate (j : T ⊕ K) :
    ∃ i, (σ.step crew ⟨t, p, .taskCreate κ type⟩).scope j = σ.scope i := by
  by_cases hj : j = .inr κ
  · exact ⟨σ.team.current p, by rw [hj, scope_taskCreate_self]⟩
  · exact ⟨j, scope_taskCreate hj⟩

theorem gen_taskCreate (hκ : κ' ≠ κ) :
    (σ.step crew ⟨t, p, .taskCreate κ type⟩).gen κ' = σ.gen κ' :=
  Function.update_of_ne hκ _ _

theorem gen_taskCreate_self :
    (σ.step crew ⟨t, p, .taskCreate κ type⟩).gen κ = σ.scope (σ.team.current p) :=
  Function.update_self ..

theorem parent_taskCreate (hκ : κ' ≠ κ) :
    (σ.step crew ⟨t, p, .taskCreate κ type⟩).parent κ' = σ.parent κ' :=
  Function.update_of_ne hκ _ _

theorem parent_taskCreate_self :
    (σ.step crew ⟨t, p, .taskCreate κ type⟩).parent κ = σ.team.current p :=
  Function.update_self ..

theorem created_taskCreate (hκ : κ' ≠ κ) :
    (σ.step crew ⟨t, p, .taskCreate κ type⟩).team.created κ' = σ.team.created κ' :=
  Function.update_of_ne hκ _ _

theorem exists_taskCreate (hj : σ.Exists j) :
    (σ.step crew ⟨t, p, .taskCreate κ type⟩).Exists j := by
  cases j with
  | inl q => exact hj
  | inr κ' =>
    by_cases hκ : κ' = κ
    · simp [Exists, step, Team.step, hκ]
    · exact (created_taskCreate hκ).trans hj

theorem undeferred_taskCreate (htype : (type.undeferred || type.explicit || type.target) = true)
    (hκ : κ' ≠ κ) :
    (σ.step crew ⟨t, p, .taskCreate κ type⟩).undeferred κ' = σ.undeferred κ' := by
  have hquiet := Quiet.taskCreate t (σ.team.current p) (.inr κ) htype
    (σ.team.shared, σ.team.clock p)
  refine ((hquiet.fields (.inr κ')).2.2.2).trans ?_
  simp [Shared.modifyTask, hκ, undeferred]

theorem undeferred_step {a : Label T K G} (ha : (machine crew K G).guard σ a)
    (hκ : ∀ type, a.call ≠ .taskCreate κ type) :
    (σ.step crew a).undeferred κ = σ.undeferred κ := by
  obtain ⟨t, p, call⟩ := a
  cases call with
  | work o | parallelBegin | barrierReset => rfl
  | implicitTaskBegin =>
    simp [step, Team.step, Team.onThread, Shared.implicitTaskBegin, Shared.barrierAfter,
      Shared.modifyTask, undeferred]
  | barrierBegin =>
    exact ((Retains.barrierBegin t (.inl p) (σ.team.shared, σ.team.clock p)).task
      (.inr κ)).undeferred
  | barrierEnd pd =>
    exact ((Retains.syncRegionEnd t pd (.inl p) (σ.team.shared, σ.team.clock p)).task
      (.inr κ)).undeferred
  | wait call =>
    have hr := Quiet.waitCall t (σ.team.current p) call (σ.team.shared, σ.team.clock p)
    cases call <;> exact (hr.fields (.inr κ)).2.2.2
  | taskCreate κ' type =>
    exact undeferred_taskCreate ha.1.2.2.2.2 fun heq => hκ type (heq ▸ rfl)
  | dependences κ' deps =>
    exact ((Retains.dependences t (.inr κ') deps (σ.team.shared, σ.team.clock p)).task
      (.inr κ)).undeferred
  | taskSchedule i status next =>
    exact ((Retains.taskSchedule t i status next (σ.team.shared, σ.team.clock p)).task
      (.inr κ)).undeferred

variable {status : TaskStatus} {next : T ⊕ K}

theorem alive_of_taskSchedule
    (h : (σ.step crew ⟨t, p, .taskSchedule i status next⟩).Alive j) : σ.Alive j := by
  cases j with
  | inl q => exact h
  | inr κ =>
    obtain ⟨hcre, hfin⟩ := h
    simp only [step, schedule, Bool.or_eq_false_iff] at hfin
    exact ⟨hcre, hfin.1⟩

theorem alive_taskSchedule (h : σ.Alive j) (hne : status.finishes = true → j ≠ i) :
    (σ.step crew ⟨t, p, .taskSchedule i status next⟩).Alive j := by
  cases j with
  | inl q => exact h
  | inr κ =>
    refine ⟨h.1, ?_⟩
    have hnot : ¬(status.finishes = true ∧ i = .inr κ) := fun heq => hne heq.1 heq.2.symm
    simpa [step, schedule, h.2] using hnot

theorem detached_taskSchedule (h : σ.detached κ = false)
    (hne : status = .detach → i ≠ .inr κ) :
    (σ.step crew ⟨t, p, .taskSchedule i status next⟩).detached κ = false := by
  simpa [step, schedule, h] using hne

theorem current_taskSchedule {q : T} (hq : status.switches = true → q ≠ p) :
    (σ.step crew ⟨t, p, .taskSchedule i status next⟩).team.current q = σ.team.current q := by
  by_cases hsw : status.switches = true
  · simp [step, Team.step, hsw, hq hsw]
  · simp [step, Team.step, hsw]

theorem current_taskSchedule_self (hsw : status.switches = true) :
    (σ.step crew ⟨t, p, .taskSchedule i status next⟩).team.current p = next := by
  simp [step, Team.step, hsw]

theorem thread_taskSchedule {q : T} (ha : status.switches = true → σ.Resumes p i next)
    (h : σ.thread j = some q) :
    (σ.step crew ⟨t, p, .taskSchedule i status next⟩).thread j = some q := by
  cases j with
  | inl q' => exact h
  | inr κ =>
    show (if status.switches = true ∧ next = .inr κ then some p else σ.home κ) = some q
    have hhome : σ.home κ = some q := h
    split
    · rename_i hcond
      obtain ⟨hst, rfl⟩ := hcond
      obtain ⟨-, -, hp | ⟨hnone, -⟩⟩ := ha hst
      · exact hp.symm.trans hhome
      · rw [hnone] at hhome
        cases hhome
    · exact hhome

end

/-! ## The tree in all runs -/

namespace Tree

theorem initial (now : ℚ) (clock : T → ThreadClock) (shared : Shared (T ⊕ K) G) :
    Tree (.initial (.initial now clock shared)) where
  thread _ := rfl
  current _ _ h := by cases h
  completed _ h := by cases h
  unstarted _ _ := rfl
  parents _ h := by cases h
  below _ _ hn := absurd hn List.not_mem_nil
  genBelow _ _ hn := absurd hn List.not_mem_nil
  nodup _ := List.nodup_nil
  own _ _ _ hn := absurd hn List.not_mem_nil
  generated _ _ _ hn := absurd hn List.not_mem_nil
  nested _ _ _ _ hr := absurd (hr.subset List.mem_cons_self) List.not_mem_nil
  included _ h := by cases h.1

theorem alive_current (h : Tree σ) {p : T} (hp : σ.team.started p = true) :
    σ.Alive (σ.team.current p) := by
  cases hcur : σ.team.current p with
  | inl q =>
    have hq := h.thread p
    rw [hcur] at hq
    obtain rfl : q = p := Option.some_inj.mp hq
    exact hp
  | inr κ => exact (h.current p κ hcur).1

theorem alive_owner (h : Tree σ) (hi : σ.Alive i) {n : GroupRegion T K G} (hn : n ∈ σ.scope i) :
    σ.Alive n.owner := by
  obtain ⟨r, hr⟩ := exists_suffix_of_mem hn
  exact (h.nested i hi n r hr).1

/-- The tree does not depend on the clocks and records; a thread that starts is in no region. -/
theorem withTeam (h : Tree σ) (team : Team T K G) (hcurrent : team.current = σ.team.current)
    (hcreated : team.created = σ.team.created) (hcompleted : team.completed = σ.team.completed)
    (hstarted : ∀ p, σ.team.started p = true → team.started p = true)
    (hdef : ∀ κ, (team.shared.task (.inr κ)).type.undeferred = σ.undeferred κ) :
    Tree { σ with team } := by
  have hnew : ∀ i, σ.Alive i → Alive { σ with team } i := fun i hi =>
    alive_congr hstarted hcreated rfl hi
  have hold : ∀ κ, Alive { σ with team } (.inr κ) → σ.Alive (.inr κ) := fun κ hκ =>
    ⟨by rw [← hcreated]; exact hκ.1, hκ.2⟩
  have hscope : ∀ i, Alive { σ with team } i → ∀ n ∈ σ.scope i, σ.Alive i := by
    intro i hi n hn
    cases i with
    | inl p =>
      by_contra hp
      rw [h.unstarted p (by simpa [Alive] using hp)] at hn
      exact absurd hn List.not_mem_nil
    | inr κ => exact hold κ hi
  refine ⟨fun p => ?_, fun p κ hκ => ?_, fun κ hκ => ?_, fun p hp => ?_, fun κ hκ => ?_, h.below,
    h.genBelow, h.nodup, fun i hi n hn => h.own i (hscope i hi n hn) n hn,
    fun κ hκ => h.generated κ (hold κ hκ), fun i hi n r hr => ?_, fun κ hκ hu => ?_⟩
  · exact (congrArg σ.thread (congrFun hcurrent p)).trans (h.thread p)
  · obtain ⟨halive, hdetached⟩ := h.current p κ (by rw [← hcurrent]; exact hκ)
    exact ⟨hnew _ halive, hdetached⟩
  · obtain ⟨hcre, hfin⟩ := h.completed κ (by rw [← hcompleted]; exact hκ)
    exact ⟨by rw [hcreated]; exact hcre, hfin⟩
  · refine h.unstarted p ?_
    by_contra hp'
    have := hstarted p (by simpa using hp')
    rw [this] at hp
    cases hp
  · have hex := h.parents κ (by rw [← hcreated]; exact hκ)
    show Exists _ (σ.parent κ)
    cases hpar : σ.parent κ with
    | inl p => rw [hpar] at hex; exact hstarted p hex
    | inr κ' => rw [hpar] at hex; show team.created κ' = true; rw [hcreated]; exact hex
  · obtain ⟨halive, hsuffix⟩ := h.nested i (hscope i hi n (hr.subset List.mem_cons_self)) n r hr
    exact ⟨hnew _ halive, hsuffix⟩
  · obtain ⟨halive, hgen⟩ := h.included κ (hold κ hκ) ((hdef κ).symm.trans hu)
    exact ⟨hnew _ halive, hgen⟩

variable [DecidableEq T] [DecidableEq K]

theorem setScope (h : Tree σ) (team : Team T K G) (hcurrent : team.current = σ.team.current)
    (hcreated : team.created = σ.team.created) (hcompleted : team.completed = σ.team.completed)
    (hstarted : team.started = σ.team.started)
    (hdef : ∀ κ, (team.shared.task (.inr κ)).type.undeferred = σ.undeferred κ)
    (hi : σ.Alive i) (hidle : σ.Idle i) {l : List (GroupRegion T K G)} {b : ℕ}
    (hb : σ.begun ≤ b) (hbelow : ∀ n ∈ l, n.id < b) (hnodup : l.Nodup)
    (hl : ∀ n r, (n :: r) <:+ l → n.owner = i ∨ (n :: r) <:+ σ.scope i)
    (hkeep : ∀ j, j ≠ i → σ.Alive j → ∀ n r, n.owner = i → (n :: r) <:+ σ.scope j →
      (n :: r) <:+ σ.scope i → (n :: r) <:+ l) :
    Tree { σ with team, scope := Function.update σ.scope i l, begun := b } := by
  have h' := h.withTeam team hcurrent hcreated hcompleted (fun p hp => hstarted ▸ hp) hdef
  have hold : ∀ j, Alive { σ with team } j → σ.Alive j := fun j hj =>
    alive_congr (σ := { σ with team }) (fun p hp => hstarted ▸ hp) hcreated.symm rfl hj
  have hnew : ∀ j, σ.Alive j → Alive { σ with team } j := fun j hj =>
    alive_congr (fun p hp => hstarted ▸ hp) hcreated rfl hj
  refine ⟨h'.thread, h'.current, h'.completed, fun p hp => ?_, h'.parents, fun j n hn => ?_,
    fun κ n hn => (h.genBelow κ n hn).trans_le hb, fun j => ?_, fun j hj n hn => ?_, h'.generated,
    fun j hj n r hr => ?_, fun κ hκ hu => ?_⟩
  · have hne : (.inl p : T ⊕ K) ≠ i := by
      rintro rfl
      have hp' : σ.team.started p = false := by rw [← hstarted]; exact hp
      rw [show σ.team.started p = true from hi] at hp'
      cases hp'
    show Function.update σ.scope i l (.inl p) = []
    rw [Function.update_of_ne hne]
    exact h'.unstarted p hp
  · by_cases hji : j = i
    · subst hji
      exact hbelow n (by simpa using hn)
    · exact (h.below j n (by simpa [hji] using hn)).trans_le hb
  · by_cases hji : j = i
    · subst hji; simpa using hnodup
    · simpa [hji] using h.nodup j
  · by_cases hji : j = i
    · subst hji
      obtain ⟨r, hr⟩ := exists_suffix_of_mem (show n ∈ l by simpa using hn)
      rcases hl n r hr with howner | hr
      · exact .inl howner
      · exact h.own j (hold j hj) n (hr.subset List.mem_cons_self)
    · exact h.own j (hold j hj) n (by simpa [hji] using hn)
  · -- the part below a region is in the scope of its owner, before and after
    have hset : σ.Alive n.owner → (n :: r) <:+ σ.scope n.owner →
        (n.owner = i → (n :: r) <:+ σ.scope i → (n :: r) <:+ l) → Alive { σ with team } n.owner ∧
          (n :: r) <:+ Function.update σ.scope i l n.owner := by
      intro halive hsuffix howner
      refine ⟨hnew _ halive, ?_⟩
      by_cases hni : n.owner = i
      · rw [hni, Function.update_self]
        exact howner hni (hni ▸ hsuffix)
      · rwa [Function.update_of_ne hni]
    by_cases hji : j = i
    · subst hji
      have hr' : (n :: r) <:+ l := by simpa using hr
      rcases hl n r hr' with howner | hrj
      · refine ⟨howner ▸ hj, ?_⟩
        show _ <:+ Function.update σ.scope j l n.owner
        rwa [howner, Function.update_self]
      · obtain ⟨halive, hsuffix⟩ := h.nested j hi n r hrj
        exact hset halive hsuffix fun _ _ => hr'
    · have hrj : (n :: r) <:+ σ.scope j := by simpa [hji] using hr
      obtain ⟨halive, hsuffix⟩ := h.nested j (hold j hj) n r hrj
      exact hset halive hsuffix fun howner => hkeep j hji (hold j hj) n r howner hrj
  · obtain ⟨halive, hgen, hhome⟩ := h'.included κ hκ hu
    -- the parent would not go on
    have hne : σ.parent κ ≠ i := by
      intro hpar
      have hfin := hidle κ (hold (.inr κ) hκ).1 hpar ((hdef κ).symm.trans hu)
      rw [show σ.finished κ = false from hκ.2] at hfin
      cases hfin
    refine ⟨halive, ?_, hhome⟩
    show Function.update σ.scope i l (σ.parent κ) = σ.gen κ
    rw [Function.update_of_ne hne]
    exact hgen

variable [DecidableEq G] {crew : Crew T} {t : ℚ} {p : T}

theorem taskgroupBegin (h : Tree σ) {g : G}
    (ha : σ.PermitsWait (σ.team.current p) (.taskgroupBegin g)) :
    Tree (σ.step crew ⟨t, p, .wait (.taskgroupBegin g)⟩) := by
  obtain ⟨hi, hidle, -, -⟩ := ha
  have hquiet := Quiet.waitCall t (σ.team.current p) (.taskgroupBegin g)
    (σ.team.shared, σ.team.clock p)
  refine h.setScope (σ.team.step crew ⟨t, p, .wait (.taskgroupBegin g)⟩) rfl rfl rfl rfl
    (fun κ => (hquiet.fields (.inr κ)).2.2.2) hi hidle (Nat.le_succ _) (fun n hn => ?_) ?_
    (fun n r hr => ?_) fun _ _ _ n r _ _ hr => ?_
  · rcases List.mem_cons.mp hn with rfl | hn
    · exact Nat.lt_succ_self _
    · exact (h.below _ n hn).trans (Nat.lt_succ_self _)
  · refine List.nodup_cons.mpr ⟨fun hmem => ?_, h.nodup _⟩
    exact absurd (h.below _ _ hmem) (lt_irrefl _)
  · rcases List.suffix_cons_iff.mp hr with heq | hr
    · obtain ⟨rfl, -⟩ := List.cons.inj heq
      exact .inl rfl
    · exact .inr hr
  · exact hr.trans (List.suffix_cons _ _)

omit [DecidableEq T] [DecidableEq K] [DecidableEq G] in
/-- When a region ends, only its owner is in it. -/
theorem notMem_of_taskgroupEnd (h : Tree σ) (ha : σ.PermitsWait i .taskgroupEnd)
    {e : GroupRegion T K G} (he : e ∈ (σ.scope i).head?) {j : T ⊕ K} (hj : σ.Alive j)
    (hji : j ≠ i) : e ∉ σ.scope j := by
  intro hmem
  obtain ⟨-, -, hfinished, e', he', howner⟩ := ha
  obtain rfl : e = e' := Option.mem_unique he he'
  rcases h.own j hj e hmem with howner' | ⟨κ, rfl, hgen⟩
  · exact hji (howner'.symm.trans howner)
  · have hfin := hfinished κ ⟨hj.1, e, he, hgen⟩
    rw [hj.2] at hfin
    cases hfin

theorem taskgroupEnd (h : Tree σ) (ha : σ.PermitsWait (σ.team.current p) .taskgroupEnd) :
    Tree (σ.step crew ⟨t, p, .wait .taskgroupEnd⟩) := by
  have hquiet := Quiet.waitCall t (σ.team.current p) .taskgroupEnd (σ.team.shared, σ.team.clock p)
  have htail := List.tail_suffix (σ.scope (σ.team.current p))
  refine h.setScope (σ.team.step crew ⟨t, p, .wait .taskgroupEnd⟩) rfl rfl rfl rfl
    (fun κ => (hquiet.fields (.inr κ)).2.2.2) ha.1 ha.2.1 (le_refl _)
    (fun n hn => h.below _ n (List.mem_of_mem_tail hn)) ((h.nodup _).tail)
    (fun n r hr => .inr (hr.trans htail)) fun j hji hj n r _ hrj hr => ?_
  cases hscope : σ.scope (σ.team.current p) with
  | nil =>
    rw [hscope] at hr
    exact absurd (hr.subset List.mem_cons_self) List.not_mem_nil
  | cons e rest =>
    rw [hscope] at hr
    rcases List.suffix_cons_iff.mp hr with heq | hr
    · obtain ⟨rfl, -⟩ := List.cons.inj heq
      exact absurd (hrj.subset List.mem_cons_self)
        (h.notMem_of_taskgroupEnd ha (by rw [hscope]; rfl) hj hji)
    · exact hr

theorem taskCreate (h : Tree σ) {κ : K} {type : TaskType}
    (ha : σ.team.Allowed crew p (.taskCreate κ type)) :
    Tree (σ.step crew ⟨t, p, .taskCreate κ type⟩) := by
  obtain ⟨-, hp, hκ, htype⟩ := ha
  have hi := h.alive_current hp
  have hinr : ∀ {κ'}, κ' ≠ κ → (.inr κ' : T ⊕ K) ≠ .inr κ := fun hκκ heq => hκκ (Sum.inr.inj heq)
  have hscope : ∀ j, ∃ i, (σ.step crew ⟨t, p, .taskCreate κ type⟩).scope j = σ.scope i :=
    exists_scope_taskCreate
  -- a region that a living task is in, seen from its owner
  have hnested : ∀ j, σ.Alive j → ∀ n r, (n :: r) <:+ σ.scope j →
      (σ.step crew ⟨t, p, .taskCreate κ type⟩).Alive n.owner ∧
        (n :: r) <:+ (σ.step crew ⟨t, p, .taskCreate κ type⟩).scope n.owner := by
    intro j hj n r hr
    obtain ⟨halive, hsuffix⟩ := h.nested j hj n r hr
    have hno := halive.ne_of_created hκ
    exact ⟨(alive_taskCreate hno).mpr halive, by rwa [scope_taskCreate hno]⟩
  refine ⟨fun q => ?_, fun q κ' hcur => ?_, fun κ' hκ' => ?_, fun q hq => ?_, fun κ' hκ' => ?_,
    fun j n hn => ?_, fun κ' n hn => ?_, fun j => ?_, fun j hj n hn => ?_, fun κ' hκ' n hn => ?_,
    fun j hj n r hr => ?_, fun κ' hκ' hu => ?_⟩
  · have hcurrent : σ.team.current q ≠ .inr κ := fun heq =>
      (h.current q κ heq).1.ne_of_created hκ rfl
    exact (thread_taskCreate hcurrent).trans (h.thread q)
  · obtain ⟨halive, hdetached⟩ := h.current q κ' hcur
    have hne := halive.ne_of_created hκ
    have hκκ : κ' ≠ κ := fun heq => hne (congrArg _ heq)
    exact ⟨(alive_taskCreate hne).mpr halive, (Function.update_of_ne hκκ _ _).trans hdetached⟩
  · obtain ⟨hcre, hfin⟩ := h.completed κ' hκ'
    have hκκ : κ' ≠ κ := by
      rintro rfl
      rw [hcre] at hκ
      cases hκ
    exact ⟨(created_taskCreate hκκ).trans hcre, (Function.update_of_ne hκκ _ _).trans hfin⟩
  · rw [scope_taskCreate Sum.inl_ne_inr]
    exact h.unstarted q hq
  · by_cases hκκ : κ' = κ
    · rw [hκκ, parent_taskCreate_self]
      exact exists_taskCreate hi.exists
    · rw [parent_taskCreate hκκ]
      exact exists_taskCreate (h.parents κ' ((created_taskCreate hκκ).symm.trans hκ'))
  · obtain ⟨i, hi⟩ := hscope j
    rw [hi] at hn
    exact h.below i n hn
  · by_cases hκκ : κ' = κ
    · rw [hκκ, gen_taskCreate_self] at hn
      exact h.below _ n hn
    · rw [gen_taskCreate hκκ] at hn
      exact h.genBelow κ' n hn
  · obtain ⟨i, hi⟩ := hscope j
    rw [hi]
    exact h.nodup i
  · by_cases hj' : j = .inr κ
    · rw [hj', scope_taskCreate_self] at hn
      exact .inr ⟨κ, hj', by rwa [gen_taskCreate_self]⟩
    · rw [scope_taskCreate hj'] at hn
      rcases h.own j ((alive_taskCreate hj').mp hj) n hn with howner | ⟨κ', rfl, hmem⟩
      · exact .inl howner
      · have hκκ : κ' ≠ κ := fun heq => hj' (congrArg _ heq)
        exact .inr ⟨κ', rfl, by rwa [gen_taskCreate hκκ]⟩
  · by_cases hκκ : κ' = κ
    · rw [hκκ, gen_taskCreate_self] at hn
      rw [hκκ]
      exact (h.alive_owner hi hn).ne_of_created hκ
    · rw [gen_taskCreate hκκ] at hn
      exact h.generated κ' ((alive_taskCreate (hinr hκκ)).mp hκ') n hn
  · by_cases hj' : j = .inr κ
    · rw [hj', scope_taskCreate_self] at hr
      exact hnested _ hi n r hr
    · rw [scope_taskCreate hj'] at hr
      exact hnested j ((alive_taskCreate hj').mp hj) n r hr
  · by_cases hκκ : κ' = κ
    · -- the new task is in the regions of its parent, and on no thread
      rw [hκκ, parent_taskCreate_self, gen_taskCreate_self]
      have hne := hi.ne_of_created hκ
      refine ⟨(alive_taskCreate hne).mpr hi, scope_taskCreate hne, fun q hq => ?_⟩
      rw [show (σ.step crew ⟨t, p, .taskCreate κ type⟩).home κ = none from
        Function.update_self ..] at hq
      cases hq
    · obtain ⟨halive, hsame, hhome⟩ := h.included κ' ((alive_taskCreate (hinr hκκ)).mp hκ')
        ((undeferred_taskCreate htype hκκ).symm.trans hu)
      have hne := halive.ne_of_created hκ
      rw [parent_taskCreate hκκ, gen_taskCreate hκκ, thread_taskCreate hne]
      refine ⟨(alive_taskCreate hne).mpr halive, (scope_taskCreate hne).trans hsame, fun q hq => ?_⟩
      exact hhome q ((thread_taskCreate (hinr hκκ)).symm.trans hq)

omit [DecidableEq K] [DecidableEq G] in
/-- A task whose code ends is executed by no other thread. -/
theorem ne_current_of_endsBody (h : Tree σ) {κ : K} {status : TaskStatus} {next : T ⊕ K}
    (ha : σ.team.Allowed crew p (.taskSchedule (.inr κ) status next))
    (hends : σ.Ends status (.inr κ)) (hst : status.endsBody = true) {q : T}
    (hq : status.switches = true → q ≠ p) : σ.team.current q ≠ .inr κ := by
  intro hcur
  have hthread := h.thread q
  by_cases hsw : status.switches = true
  · -- the calling thread has it
    have hp := h.thread p
    rw [← (ha.2.2 hsw).1] at hp
    rw [hcur] at hthread
    exact hq hsw (Option.some_inj.mp (hthread.symm.trans hp))
  · obtain ⟨-, -, -, hlate, hwait⟩ := hends
    have hdetached := (h.current q κ hcur).2
    cases status with
    | lateFulfill =>
      rw [hlate rfl] at hdetached
      cases hdetached
    | taskwaitComplete =>
      rw [hcur] at hthread
      rw [show σ.thread (.inr κ) = none from hwait rfl] at hthread
      cases hthread
    | earlyFulfill => cases hst
    | complete | cancel | detach | yield | switch => exact hsw rfl

theorem taskSchedule (h : Tree σ) {i next : T ⊕ K} {status : TaskStatus}
    (ha : σ.team.Allowed crew p (.taskSchedule i status next))
    (hp : σ.Permits p (.taskSchedule i status next)) :
    Tree (σ.step crew ⟨t, p, .taskSchedule i status next⟩) := by
  obtain ⟨hresumes, hends⟩ := hp
  have hfin : status.finishes = true → status.endsBody = true := fun hst => by
    simp [TaskStatus.endsBody, hst]
  -- who is left when a task finishes
  have hkept : ∀ {j}, σ.Alive j → (∀ κ, i = .inr κ → σ.Ends status i → j ≠ i) →
      (σ.step crew ⟨t, p, .taskSchedule i status next⟩).Alive j := by
    intro j hj hne
    refine alive_taskSchedule hj fun hst => ?_
    have hend := (hends (hfin hst)).1
    cases i with
    | inl q => exact absurd hend id
    | inr κ => exact hne κ rfl hend
  refine ⟨fun q => ?_, fun q κ hcur => ?_, fun κ hκ => ?_, h.unstarted, h.parents, h.below,
    h.genBelow, h.nodup, fun j hj => h.own j (alive_of_taskSchedule hj),
    fun κ hκ => h.generated κ (alive_of_taskSchedule hκ), fun j hj n r hr => ?_,
    fun κ hκ hu => ?_⟩
  · by_cases hq : status.switches = true → q ≠ p
    · rw [current_taskSchedule hq]
      exact thread_taskSchedule hresumes (h.thread q)
    · obtain ⟨hsw, hqp⟩ := Classical.not_imp.mp hq
      obtain rfl : q = p := not_not.mp hqp
      rw [current_taskSchedule_self hsw]
      have hrun := (ha.2.2 hsw).2
      cases next with
      | inl q' => exact congrArg some hrun
      | inr κ => exact if_pos ⟨hsw, rfl⟩
  · by_cases hq : status.switches = true → q ≠ p
    · rw [current_taskSchedule hq] at hcur
      obtain ⟨halive, hdetached⟩ := h.current q κ hcur
      have hne : status.endsBody = true → i ≠ .inr κ := by
        rintro hst rfl
        exact h.ne_current_of_endsBody ha (hends hst).1 hst hq hcur
      refine ⟨alive_taskSchedule halive fun hst => (hne (hfin hst)).symm,
        detached_taskSchedule hdetached fun hst => hne (by rw [hst]; rfl)⟩
    · obtain ⟨hsw, hqp⟩ := Classical.not_imp.mp hq
      obtain rfl : q = p := not_not.mp hqp
      rw [current_taskSchedule_self hsw] at hcur
      subst hcur
      obtain ⟨hfinished, hdetached, -⟩ := hresumes hsw
      refine ⟨alive_taskSchedule ⟨(ha.2.2 hsw).2.1, hfinished⟩ fun hst => (hends (hfin hst)).2,
        detached_taskSchedule hdetached fun hst => (hends (by rw [hst]; rfl)).2.symm⟩
  · have hκ' : (σ.team.completed κ || (status.completes && decide (i = .inr κ))) = true := hκ
    show σ.team.created κ = true ∧
      (σ.finished κ || (status.finishes && decide (i = .inr κ))) = true
    by_cases hold : σ.team.completed κ = true
    · obtain ⟨hcre, hfin'⟩ := h.completed κ hold
      exact ⟨hcre, by rw [hfin']; rfl⟩
    · obtain ⟨hst, rfl⟩ : status.completes = true ∧ i = .inr κ := by simpa [hold] using hκ'
      exact ⟨(ha.2.1 hst).2.1, by simp [TaskStatus.finishes, hst]⟩
  · -- no region of the task is left when its code ends
    obtain ⟨halive, hsuffix⟩ := h.nested j (alive_of_taskSchedule hj) n r hr
    refine ⟨hkept halive fun κ hi hend howner => ?_, hsuffix⟩
    subst hi
    obtain ⟨hκ, -, hgen, -⟩ := hend
    have hmem : n ∈ σ.scope n.owner := hsuffix.subset List.mem_cons_self
    rw [howner, hgen] at hmem
    exact h.generated κ hκ n hmem howner
  · have hu' : σ.undeferred κ = true :=
      ((Retains.taskSchedule t i status next (σ.team.shared, σ.team.clock p)).task
        (.inr κ)).undeferred.symm.trans hu
    have hκ' := alive_of_taskSchedule hκ
    obtain ⟨halive, hgen, hhome⟩ := h.included κ hκ' hu'
    refine ⟨hkept halive fun κ' hi hend hpar => ?_, hgen, fun q hq => ?_⟩
    · -- a parent does not end before its undeferred child
      subst hi
      have hfinished := hend.2.1 κ hκ'.1 hpar hu'
      rw [hκ'.2] at hfinished
      cases hfinished
    · refine thread_taskSchedule hresumes ?_
      change (if status.switches = true ∧ next = .inr κ then some p else σ.home κ) = some q at hq
      by_cases hstart : status.switches = true ∧ next = .inr κ
      · rw [if_pos hstart] at hq
        obtain rfl : p = q := Option.some_inj.mp hq
        obtain ⟨hsw, rfl⟩ := hstart
        obtain ⟨-, -, hhome' | ⟨-, hparent⟩⟩ := hresumes hsw
        · exact hhome p hhome'
        · show σ.thread (σ.parent κ) = some p
          rw [hparent hu', (ha.2.2 hsw).1]
          exact h.thread p
      · rw [if_neg hstart] at hq
        exact hhome q hq

theorem step (h : Tree σ) {a : Label T K G} (ha : (machine crew K G).guard σ a) :
    Tree (σ.step crew a) := by
  have hdef : ∀ κ, (∀ type, a.call ≠ .taskCreate κ type) →
      (σ.step crew a).undeferred κ = σ.undeferred κ := fun κ => undeferred_step ha
  obtain ⟨t, p, call⟩ := a
  obtain ⟨⟨-, hallowed⟩, hpermits⟩ := ha
  cases call with
  | work o | parallelBegin | barrierBegin | barrierReset | barrierEnd | dependences =>
    exact h.withTeam _ rfl rfl rfl (fun _ => id) fun κ => hdef κ (by simp)
  | implicitTaskBegin =>
    refine h.withTeam _ rfl rfl rfl (fun q hq => ?_) fun κ => hdef κ (by simp)
    by_cases hqp : q = p
    · simp [Team.step, hqp]
    · simpa [Team.step, hqp] using hq
  | wait call =>
    cases call with
    | taskgroupBegin g => exact h.taskgroupBegin hpermits
    | taskgroupEnd => exact h.taskgroupEnd hpermits
    | taskwaitBegin | taskwaitEnd | taskgroupWaitBegin | taskgroupWaitEnd =>
      exact h.withTeam _ rfl rfl rfl (fun _ => id) fun κ => hdef κ (by simp)
  | taskCreate κ type => exact h.taskCreate hallowed
  | taskSchedule i status next => exact h.taskSchedule hallowed hpermits

end Tree

/-! ## The records show the tree -/

section
variable {I G : Type} [DecidableEq I] [DecidableEq G] {sh : Shared I G} {c : ThreadClock} {t : ℚ}
  {i j : I} {g g' : G}

theorem task_taskgroupBegin (hj : j ≠ i) :
    (Shared.waitCall true t i (.taskgroupBegin g) (sh, c)).1.task j = sh.task j := by
  simp [Shared.waitCall, Shared.modifyTask, Shared.modifyGroup, hj]

theorem task_taskgroupBegin_self :
    (Shared.waitCall true t i (.taskgroupBegin g) (sh, c)).1.task i =
      { sh.task i with taskGroup := some g } := by
  simp [Shared.waitCall, Shared.modifyTask, Shared.modifyGroup]

theorem group_taskgroupBegin (hg : g' ≠ g) :
    (Shared.waitCall true t i (.taskgroupBegin g) (sh, c)).1.group g' = sh.group g' := by
  simp [Shared.waitCall, Shared.modifyTask, Shared.modifyGroup, hg]

theorem group_taskgroupBegin_self :
    (Shared.waitCall true t i (.taskgroupBegin g) (sh, c)).1.group g =
      { sh.group g with parent := (sh.task i).taskGroup } := by
  simp [Shared.waitCall, Shared.modifyTask, Shared.modifyGroup]

theorem task_taskgroupEnd (hj : j ≠ i) :
    (Shared.waitCall true t i .taskgroupEnd (sh, c)).1.task j = sh.task j := by
  simp only [Shared.waitCall]
  split <;> simp [Shared.modifyTask, Shared.modifyGroup, hj]

theorem task_taskgroupEnd_self (hg : (sh.task i).taskGroup = some g) :
    (Shared.waitCall true t i .taskgroupEnd (sh, c)).1.task i =
      { sh.task i with taskGroup := (sh.group g).parent } := by
  simp [Shared.waitCall, Shared.modifyTask, Shared.modifyGroup, hg]

theorem taskwait_taskgroupBegin (j : I) :
    ((Shared.waitCall true t i (.taskgroupBegin g) (sh, c)).1.task j).taskwait =
      (sh.task j).taskwait := by
  by_cases hj : j = i
  · rw [hj, task_taskgroupBegin_self]
  · rw [task_taskgroupBegin hj]

theorem taskwait_taskgroupEnd (j : I) :
    ((Shared.waitCall true t i .taskgroupEnd (sh, c)).1.task j).taskwait =
      (sh.task j).taskwait := by
  by_cases hj : j = i
  · subst hj
    cases hg : (sh.task j).taskGroup with
    | none => simp only [Shared.waitCall, hg]
    | some g => rw [task_taskgroupEnd_self hg]
  · rw [task_taskgroupEnd hj]

theorem group_taskgroupEnd (g' : G) :
    ((Shared.waitCall true t i .taskgroupEnd (sh, c)).1.group g').parent = (sh.group g').parent ∧
    ∀ v, (sh.group g').ptr.Covers v →
      ((Shared.waitCall true t i .taskgroupEnd (sh, c)).1.group g').ptr.Covers v := by
  simp only [Shared.waitCall]
  split
  · exact ⟨rfl, fun _ => id⟩
  · rename_i g _
    by_cases hg : g' = g
    · subst hg
      simp only [Shared.modifyTask, Shared.modifyGroup, Function.update_self]
      exact ⟨trivial, fun v hv => hv.ompHAfter _⟩
    · simp [Shared.modifyTask, Shared.modifyGroup, hg]

end

structure Records (σ : Tasking T K G) : Prop where
  taskGroup : ∀ i, σ.Alive i →
    (σ.team.shared.task i).taskGroup = (σ.scope i).head?.map GroupRegion.record
  outer : ∀ i, σ.Alive i → ∀ n r, (n :: r) <:+ σ.scope i →
    (σ.team.shared.group n.record).parent = r.head?.map GroupRegion.record
  parent : ∀ κ, σ.team.created κ = true →
    (σ.team.shared.task (.inr κ)).parent = some (σ.parent κ)
  started : ∀ i, σ.Alive i → σ.thread i ≠ none → 1 ≤ (σ.team.shared.task i).execution
  children : ∀ κ, σ.team.created κ = true → σ.undeferred κ = false →
    2 ≤ (σ.team.shared.task (σ.parent κ)).execution

namespace Records

theorem initial (now : ℚ) (clock : T → ThreadClock) (shared : Shared (T ⊕ K) G) :
    Records (.initial (.initial now clock shared)) := by
  have hdead : ∀ i, ¬ (Tasking.initial (Team.initial now clock shared)).Alive i := by
    intro i hi
    cases i with
    | inl p => cases hi
    | inr κ => cases hi.1
  refine ⟨fun i hi => absurd hi (hdead i), fun i hi => absurd hi (hdead i), fun _ h => ?_,
    fun i hi => absurd hi (hdead i), fun _ h => ?_⟩
  · cases h
  · cases h

theorem withTeam (h : Records σ) (team : Team T K G) {c c' : ThreadClock}
    (hcreated : team.created = σ.team.created) (hstarted : team.started = σ.team.started)
    (hr : Retains (σ.team.shared, c) (team.shared, c')) : Records { σ with team } := by
  have hold : ∀ i, Alive { σ with team } i → σ.Alive i := fun i hi =>
    alive_congr (σ := { σ with team }) (fun p hp => hstarted ▸ hp) hcreated.symm rfl hi
  refine ⟨fun i hi => ?_, fun i hi n r hn => ?_, fun κ hκ => ?_, fun i hi hth => ?_,
    fun κ hκ hu => ?_⟩
  · exact (hr.task i).taskGroup.trans (h.taskGroup i (hold i hi))
  · exact (hr.outer n.record).trans (h.outer i (hold i hi) n r hn)
  · exact (hr.task (.inr κ)).parent.trans (h.parent κ (by rw [← hcreated]; exact hκ))
  · exact (h.started i (hold i hi) hth).trans (hr.task i).execution
  · refine (h.children κ (by rw [← hcreated]; exact hκ) ?_).trans (hr.task _).execution
    exact (hr.task (.inr κ)).undeferred.symm.trans hu

variable [DecidableEq T] [DecidableEq K] [DecidableEq G] {crew : Crew T} {t : ℚ} {p : T}

theorem implicitTaskBegin (h : Records σ) (htree : Tree σ) (hp : σ.team.started p = false) :
    Records (σ.step crew ⟨t, p, .implicitTaskBegin⟩) := by
  set sh := (σ.step crew ⟨t, p, .implicitTaskBegin⟩).team.shared with hsh
  have hself : sh.task (.inl p) = .newImplicit true (crew.num p) (σ.team.shared.task (.inl p)) := by
    simp [hsh, step, Team.step, Team.onThread, Shared.implicitTaskBegin, Shared.barrierAfter,
      Shared.modifyTask]
  have hother : ∀ j, j ≠ .inl p → sh.task j = σ.team.shared.task j := by
    intro j hj
    simp [hsh, step, Team.step, Team.onThread, Shared.implicitTaskBegin, Shared.barrierAfter,
      Shared.modifyTask, hj]
  have hold : ∀ j, j ≠ .inl p → (σ.step crew ⟨t, p, .implicitTaskBegin⟩).Alive j → σ.Alive j := by
    intro j hj halive
    cases j with
    | inl q =>
      have hqp : q ≠ p := fun heq => hj (congrArg _ heq)
      simpa [Alive, step, Team.step, hqp] using halive
    | inr κ => exact halive
  refine ⟨fun j hj => ?_, fun j hj n r hr => ?_, fun κ hκ => ?_, fun j hj hth => ?_,
    fun κ hκ hu => ?_⟩
  · show (sh.task j).taskGroup = (σ.scope j).head?.map GroupRegion.record
    by_cases hjp : j = .inl p
    · rw [hjp, hself, htree.unstarted p hp]
      rfl
    · rw [hother j hjp]
      exact h.taskGroup j (hold j hjp hj)
  · have hjp : j ≠ .inl p := by
      rintro rfl
      have hr' : (n :: r) <:+ σ.scope (.inl p) := hr
      rw [htree.unstarted p hp] at hr'
      exact absurd (hr'.subset List.mem_cons_self) List.not_mem_nil
    exact h.outer j (hold j hjp hj) n r hr
  · show (sh.task (.inr κ)).parent = some (σ.parent κ)
    rw [hother _ Sum.inr_ne_inl]
    exact h.parent κ hκ
  · show 1 ≤ (sh.task j).execution
    by_cases hjp : j = .inl p
    · rw [hjp, hself]
      exact le_refl 1
    · rw [hother j hjp]
      exact h.started j (hold j hjp hj) hth
  · have hpar : σ.parent κ ≠ .inl p := by
      intro heq
      have hex := htree.parents κ hκ
      rw [heq, show σ.Exists (.inl p) ↔ σ.team.started p = true from Iff.rfl, hp] at hex
      cases hex
    show 2 ≤ (sh.task (σ.parent κ)).execution
    rw [hother _ hpar]
    refine h.children κ hκ ?_
    have hu' : (sh.task (.inr κ)).type.undeferred = false := hu
    rwa [hother _ Sum.inr_ne_inl] at hu'

/-- A wait keeps what a record says about the place of its task, its taskgroup apart. -/
theorem waitFields (t : ℚ) (i : T ⊕ K) (call : WaitCall G) (s : Shared (T ⊕ K) G × ThreadClock)
    (j : T ⊕ K) :
    ((Shared.waitCall true t i call s).1.task j).parent = (s.1.task j).parent ∧
    ((Shared.waitCall true t i call s).1.task j).execution = (s.1.task j).execution ∧
    ((Shared.waitCall true t i call s).1.task j).type = (s.1.task j).type := by
  by_cases hj : j = i
  · subst hj
    cases call with
    | taskgroupEnd =>
      simp only [Shared.waitCall]
      split <;> simp [Shared.modifyTask, Shared.modifyGroup]
    | _ => simp [Shared.waitCall, Shared.modifyTask, Shared.modifyGroup]
  · cases call with
    | taskgroupEnd =>
      simp only [Shared.waitCall]
      split <;> simp [Shared.modifyTask, Shared.modifyGroup, hj]
    | _ => simp [Shared.waitCall, Shared.modifyTask, Shared.modifyGroup, hj]

theorem taskgroupBegin (h : Records σ) {g : G}
    (ha : σ.PermitsWait (σ.team.current p) (.taskgroupBegin g)) :
    Records (σ.step crew ⟨t, p, .wait (.taskgroupBegin g)⟩) := by
  obtain ⟨hi, -, -, hfree⟩ := ha
  have hfields := waitFields t (σ.team.current p) (.taskgroupBegin g)
    (σ.team.shared, σ.team.clock p)
  -- no region in use has the record
  have hgroup : ∀ j, σ.Alive j → ∀ n r, (n :: r) <:+ σ.scope j →
      ((σ.step crew ⟨t, p, .wait (.taskgroupBegin g)⟩).team.shared.group n.record).parent =
        r.head?.map GroupRegion.record := by
    intro j hj n r hr
    have hne := hfree j hj n (hr.subset List.mem_cons_self)
    exact (congrArg Taskgroup.parent (group_taskgroupBegin (t := t) hne)).trans (h.outer j hj n r hr)
  refine ⟨fun j hj => ?_, fun j hj n r hr => ?_, fun κ hκ => ?_, fun j hj hth => ?_,
    fun κ hκ hu => ?_⟩
  · by_cases hji : j = σ.team.current p
    · rw [hji, scope_taskgroupBegin_self]
      exact congrArg TaskData.taskGroup (task_taskgroupBegin_self (t := t))
    · rw [scope_taskgroupBegin hji]
      exact (congrArg TaskData.taskGroup (task_taskgroupBegin (t := t) hji)).trans (h.taskGroup j hj)
  · by_cases hji : j = σ.team.current p
    · rw [hji, scope_taskgroupBegin_self] at hr
      rcases List.suffix_cons_iff.mp hr with heq | hr
      · obtain ⟨rfl, rfl⟩ := List.cons.inj heq
        exact (congrArg Taskgroup.parent (group_taskgroupBegin_self (t := t))).trans (h.taskGroup _ hi)
      · exact hgroup _ hi n r hr
    · rw [scope_taskgroupBegin hji] at hr
      exact hgroup j hj n r hr
  · exact (hfields (.inr κ)).1.trans (h.parent κ hκ)
  · exact (h.started j hj hth).trans (hfields j).2.1.ge
  · refine (h.children κ hκ ?_).trans (hfields _).2.1.ge
    exact (congrArg TaskType.undeferred (hfields (.inr κ)).2.2).symm.trans hu

theorem taskgroupEnd (h : Records σ)
    (ha : σ.PermitsWait (σ.team.current p) .taskgroupEnd) :
    Records (σ.step crew ⟨t, p, .wait .taskgroupEnd⟩) := by
  obtain ⟨hi, -, -, e, he, -⟩ := ha
  have hfields := waitFields t (σ.team.current p) .taskgroupEnd (σ.team.shared, σ.team.clock p)
  obtain ⟨rest, hscope⟩ : ∃ rest, σ.scope (σ.team.current p) = e :: rest :=
    List.head?_eq_some_iff.mp he
  have hgroup : (σ.team.shared.task (σ.team.current p)).taskGroup = some e.record := by
    rw [h.taskGroup _ hi, hscope]
    rfl
  have hself : (σ.step crew ⟨t, p, .wait .taskgroupEnd⟩).scope (σ.team.current p) = rest := by
    rw [scope_taskgroupEnd_self, hscope]
    rfl
  refine ⟨fun j hj => ?_, fun j hj n r hr => ?_, fun κ hκ => ?_, fun j hj hth => ?_,
    fun κ hκ hu => ?_⟩
  · by_cases hji : j = σ.team.current p
    · rw [hji, hself]
      refine (congrArg TaskData.taskGroup (task_taskgroupEnd_self hgroup)).trans ?_
      exact h.outer _ hi e rest (by rw [hscope])
    · rw [scope_taskgroupEnd hji]
      exact (congrArg TaskData.taskGroup (task_taskgroupEnd hji)).trans (h.taskGroup j hj)
  · refine (group_taskgroupEnd n.record).1.trans (h.outer j hj n r ?_)
    by_cases hji : j = σ.team.current p
    · rw [hji, hself] at hr
      rw [hji, hscope]
      exact hr.trans (List.suffix_cons _ _)
    · rwa [scope_taskgroupEnd hji] at hr
  · exact (hfields (.inr κ)).1.trans (h.parent κ hκ)
  · exact (h.started j hj hth).trans (hfields j).2.1.ge
  · refine (h.children κ hκ ?_).trans (hfields _).2.1.ge
    exact (congrArg TaskType.undeferred (hfields (.inr κ)).2.2).symm.trans hu

theorem taskCreate (h : Records σ) (htree : Tree σ) {κ : K} {type : TaskType}
    (ha : σ.team.Allowed crew p (.taskCreate κ type)) :
    Records (σ.step crew ⟨t, p, .taskCreate κ type⟩) := by
  obtain ⟨-, hp, hκ, htype⟩ := ha
  have hi := htree.alive_current hp
  have hne := hi.ne_of_created hκ
  have hr := Retains.taskCreate t (σ.team.current p) (.inr κ) htype (σ.team.shared, σ.team.clock p)
  -- the record of the new task, and those of the others
  have hself := hr.task (.inr κ)
  simp only [Shared.modifyTask, Function.update_self] at hself
  have hother : ∀ j, j ≠ .inr κ → (σ.team.shared.task j).Retains
      ((σ.step crew ⟨t, p, .taskCreate κ type⟩).team.shared.task j) := by
    intro j hj
    have hj' := hr.task j
    simp only [Shared.modifyTask, Function.update_of_ne hj] at hj'
    exact hj'
  refine ⟨fun j hj => ?_, fun j hj n r hn => ?_, fun κ' hκ' => ?_, fun j hj hth => ?_,
    fun κ' hκ' hu => ?_⟩
  · by_cases hjκ : j = .inr κ
    · rw [hjκ, scope_taskCreate_self, ← h.taskGroup _ hi]
      exact hself.taskGroup
    · rw [scope_taskCreate hjκ]
      exact (hother j hjκ).taskGroup.trans (h.taskGroup j ((alive_taskCreate hjκ).mp hj))
  · refine (hr.outer n.record).trans ?_
    by_cases hjκ : j = .inr κ
    · rw [hjκ, scope_taskCreate_self] at hn
      exact h.outer _ hi n r hn
    · rw [scope_taskCreate hjκ] at hn
      exact h.outer j ((alive_taskCreate hjκ).mp hj) n r hn
  · by_cases hκκ : κ' = κ
    · rw [hκκ, parent_taskCreate_self]
      exact hself.parent
    · rw [parent_taskCreate hκκ]
      exact (hother _ fun heq => hκκ (Sum.inr.inj heq)).parent.trans
        (h.parent κ' ((created_taskCreate hκκ).symm.trans hκ'))
  · have hjκ : j ≠ .inr κ := by
      rintro rfl
      exact hth (Function.update_self ..)
    rw [thread_taskCreate hjκ] at hth
    exact (h.started j ((alive_taskCreate hjκ).mp hj) hth).trans (hother j hjκ).execution
  · by_cases hκκ : κ' = κ
    · -- the parent has begun itself, and counts the new task
      rw [hκκ, parent_taskCreate_self]
      have hdef : type.undeferred = false := by
        rw [hκκ] at hu
        exact hself.undeferred.symm.trans hu
      have hstarted := h.started _ hi (by rw [htree.thread p]; exact Option.some_ne_none p)
      have hexec := Retains.execution_taskCreate t hne hdef (by simpa [hdef] using htype)
        (σ.team.shared, σ.team.clock p)
      exact (Nat.succ_le_succ hstarted).trans hexec.ge
    · have hcre := (created_taskCreate hκκ).symm.trans hκ'
      have hpar : σ.parent κ' ≠ .inr κ := by
        intro heq
        have hex := htree.parents κ' hcre
        rw [heq, show σ.Exists (.inr κ) ↔ σ.team.created κ = true from Iff.rfl, hκ] at hex
        cases hex
      rw [parent_taskCreate hκκ]
      refine (h.children κ' hcre ?_).trans (hother _ hpar).execution
      exact (undeferred_taskCreate htype hκκ).symm.trans hu

theorem taskSchedule (h : Records σ) {i next : T ⊕ K} {status : TaskStatus} :
    Records (σ.step crew ⟨t, p, .taskSchedule i status next⟩) := by
  have hr := Retains.taskSchedule t i status next (σ.team.shared, σ.team.clock p)
  refine ⟨fun j hj => ?_, fun j hj n r hn => ?_, fun κ hκ => ?_, fun j hj hth => ?_,
    fun κ hκ hu => ?_⟩
  · exact (hr.task j).taskGroup.trans (h.taskGroup j (alive_of_taskSchedule hj))
  · exact (hr.outer n.record).trans (h.outer j (alive_of_taskSchedule hj) n r hn)
  · exact (hr.task (.inr κ)).parent.trans (h.parent κ hκ)
  · by_cases hstart : status.switches = true ∧ next = j
    · obtain ⟨hsw, rfl⟩ := hstart
      exact Retains.execution_taskSchedule t i hsw next (σ.team.shared, σ.team.clock p)
    · refine (h.started j (alive_of_taskSchedule hj) ?_).trans (hr.task j).execution
      cases j with
      | inl q => exact Option.some_ne_none q
      | inr κ => rwa [show (σ.step crew ⟨t, p, .taskSchedule i status next⟩).thread (.inr κ) =
          σ.thread (.inr κ) from if_neg hstart] at hth
  · refine (h.children κ hκ ?_).trans (hr.task _).execution
    exact (hr.task (.inr κ)).undeferred.symm.trans hu

theorem step (h : Records σ) (htree : Tree σ) {a : Label T K G}
    (ha : (machine crew K G).guard σ a) : Records (σ.step crew a) := by
  obtain ⟨t, p, call⟩ := a
  obtain ⟨⟨-, hallowed⟩, hpermits⟩ := ha
  cases call with
  | work o => exact h.withTeam _ rfl rfl (.clock _ (σ.team.clock p) (σ.team.clock p))
  | parallelBegin =>
    exact h.withTeam _ rfl rfl (.other _ (σ.team.clock p) (σ.team.clock p) _ σ.team.shared.heap)
  | implicitTaskBegin => exact h.implicitTaskBegin htree hallowed.2
  | barrierBegin =>
    exact h.withTeam _ rfl rfl (.barrierBegin t (.inl p) (σ.team.shared, σ.team.clock p))
  | barrierReset =>
    exact h.withTeam _ rfl rfl (.other _ (σ.team.clock p) (σ.team.clock p) _ σ.team.shared.heap)
  | barrierEnd pd =>
    exact h.withTeam _ rfl rfl (.syncRegionEnd t pd (.inl p) (σ.team.shared, σ.team.clock p))
  | wait call =>
    have hr := Retains.waitCall t (σ.team.current p) call (σ.team.shared, σ.team.clock p)
    cases call with
    | taskgroupBegin g => exact h.taskgroupBegin hpermits
    | taskgroupEnd => exact h.taskgroupEnd hpermits
    | taskwaitBegin | taskwaitEnd | taskgroupWaitBegin | taskgroupWaitEnd =>
      exact h.withTeam _ rfl rfl (hr (by simp) (by simp))
  | taskCreate κ type => exact h.taskCreate htree hallowed
  | dependences κ deps =>
    exact h.withTeam _ rfl rfl (.dependences t (.inr κ) deps (σ.team.shared, σ.team.clock p))
  | taskSchedule i status next => exact h.taskSchedule

end Records

end

end Tasking

end CritPath
