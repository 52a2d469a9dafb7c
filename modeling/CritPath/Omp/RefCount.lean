import CritPath.Omp.Task
import CritPath.Lib.Runs
import Mathlib.Algebra.BigOperators.Group.List.Basic

/-!
# Reference counts of task records

Every `TaskData` counts itself and its children. `freeTask`, at the completion of
a task, drops a reference; the last one to drop deletes the record and goes on
with the parent. Several such loops run at once, on different threads, and a loop
is two kinds of steps: the atomic decrement and the deletion. Tasks are named by
`K`, a record being in use for one task from `New` to `Delete`; `none` is the
implicit task above them.

A task passes through the phases of `Phase` in their order, and the loops in
flight are exactly those that the phases call for (`Records.due`).
-/

namespace CritPath

open Lib

inductive FreeLoop (K : Type) where
  /-- At `--task->RefCount` of record `i`; `child` is the record that it has just deleted. -/
  | dec (i : Option K) (child : Option K)
  /-- At `task->Delete()`. -/
  | del (i : Option K)
  deriving DecidableEq

def FreeLoop.record {K : Type} : FreeLoop K → Option K
  | .dec i _ => i
  | .del i => i

/-- The life of a record: its task is not complete, drops its own reference, waits for children,
is about to be deleted, has been deleted, and has been given back to its parent. -/
inductive Phase where
  | unborn
  | active
  | dropping
  | waiting
  | dying
  | gone
  | released
  deriving DecidableEq

/-- The records of the tasks below an implicit task. -/
structure Records (K : Type) where
  refCount : Option K → ℤ
  parent : K → Option K
  loops : List (FreeLoop K)
  deleted : Option K → ℕ
  completed : K → Bool
  /-- The tasks created, the last one first, and when each was. -/
  tasks : List K
  birth : K → ℕ
  phase : K → Phase
  children : Option K → List K

/-- The statuses in which `task_schedule` calls `freeTask`. -/
def TaskStatus.frees : TaskStatus → Bool
  | .complete | .cancel | .lateFulfill | .taskwaitComplete => true
  | _ => false

inductive RecordOp (K : Type) where
  /-- `TaskData::New` in `task_create`. -/
  | create (parent : Option K) (κ : K)
  /-- `task_schedule` for its first task. -/
  | schedule (i : Option K) (status : TaskStatus)
  | free (l : FreeLoop K)

def RecordOp.isFree {K : Type} : RecordOp K → Bool
  | .free _ => true
  | _ => false

namespace Records

variable {K : Type}

def start (K : Type) : Records K where
  refCount _ := 1
  parent _ := none
  loops := []
  deleted _ := 0
  completed _ := false
  tasks := []
  birth _ := 0
  phase _ := .unborn
  children _ := []

variable [DecidableEq K]

/-- `Init` of a new record, whose `RefCount` is 1. -/
def create (σ : Records K) (p : Option K) (κ : K) : Records K :=
  let refCount := Function.update σ.refCount (some κ) 1
  { σ with
    refCount := Function.update refCount p (refCount p + 1)
    parent := Function.update σ.parent κ p
    tasks := κ :: σ.tasks
    birth := Function.update σ.birth κ σ.tasks.length
    phase := Function.update σ.phase κ .active
    children := Function.update σ.children p (κ :: σ.children p) }

/-- The call of `freeTask`. -/
def complete (σ : Records K) (κ : K) : Records K :=
  { σ with
    loops := .dec (some κ) none :: σ.loops
    completed := Function.update σ.completed κ true
    phase := Function.update σ.phase κ .dropping }

/-- Record `i` has lost a reference and has `n` left. -/
def phaseAfter (phase : K → Phase) (n : ℤ) (own : Bool) : Option K → K → Phase
  | none => phase
  | some κ =>
    if n = 0 then Function.update phase κ .dying
    else if own then Function.update phase κ .waiting
    else phase

def dec (σ : Records K) (i child : Option K) : Records K :=
  let n := σ.refCount i - 1
  let σ := match child with
    | none => σ
    | some c => { σ with
        phase := Function.update σ.phase c .released
        children := Function.update σ.children i ((σ.children i).erase c) }
  { σ with
    refCount := Function.update σ.refCount i n
    loops := (if n = 0 then [.del i] else []) ++ σ.loops.erase (.dec i child)
    phase := phaseAfter σ.phase n child.isNone i }

/-- `Delete` of a record; the loop goes on with its parent. -/
def del (σ : Records K) (i : Option K) : Records K :=
  let σ := { σ with
    deleted := Function.update σ.deleted i (σ.deleted i + 1)
    loops := σ.loops.erase (.del i) }
  match i with
  | none => σ
  | some κ => { σ with
      loops := .dec (σ.parent κ) (some κ) :: σ.loops
      phase := Function.update σ.phase κ .gone }

def step (σ : Records K) : RecordOp K → Records K
  | .create p κ => σ.create p κ
  | .schedule (some κ) status => if status.frees then σ.complete κ else σ
  | .schedule none _ => σ
  | .free (.dec i child) => σ.dec i child
  | .free (.del i) => σ.del i

def Open (σ : Records K) (κ : K) : Prop := κ ∈ σ.tasks ∧ σ.completed κ = false

/-- Tasks are created once, by a task that is not complete, and complete once; the implicit task
does not complete before them. -/
def Allowed (σ : Records K) : RecordOp K → Prop
  | .create p κ => κ ∉ σ.tasks ∧ ∀ π, p = some π → σ.Open π
  | .schedule (some κ) _ => σ.Open κ
  | .schedule none status => status.frees = false
  | .free l => l ∈ σ.loops

def machine (K : Type) [DecidableEq K] : Machine (Records K) (RecordOp K) where
  step := step
  guard := Allowed

instance (σ : Records K) (κ : K) : Decidable (σ.Open κ) := inferInstanceAs (Decidable (_ ∧ _))

instance (σ : Records K) : ∀ op, Decidable ((machine K).guard σ op)
  | .create none κ =>
    decidable_of_iff (κ ∉ σ.tasks) ⟨fun h => ⟨h, fun _ hp => absurd hp (by simp)⟩, And.left⟩
  | .create (some π) κ =>
    decidable_of_iff (κ ∉ σ.tasks ∧ σ.Open π)
      ⟨fun h => ⟨h.1, fun _ hp => Option.some.inj hp ▸ h.2⟩, fun h => ⟨h.1, h.2 π rfl⟩⟩
  | .schedule (some κ) _ => inferInstanceAs (Decidable (σ.Open κ))
  | .schedule none status => inferInstanceAs (Decidable (status.frees = false))
  | .free l => inferInstanceAs (Decidable (l ∈ σ.loops))

end Records

/-! ## What the phases say -/

def Phase.owns : Phase → Bool
  | .active | .dropping => true
  | _ => false

def Phase.counts : Phase → Bool
  | .active | .dropping | .waiting | .dying => true
  | _ => false

def Phase.settled : Phase → Bool
  | .dying | .gone | .released => true
  | _ => false

def Phase.reclaimed : Phase → Bool
  | .gone | .released => true
  | _ => false

def Phase.steps : Phase → ℕ
  | .unborn | .active | .dropping => 0
  | .waiting | .dying => 1
  | .gone => 2
  | .released => 3

theorem Phase.counts_of_not_settled {ph : Phase} (hborn : ph ≠ .unborn) (h : ¬ ph.settled = true) :
    ph.counts = true := by
  cases ph <;> simp_all [Phase.settled, Phase.counts]

theorem Phase.eq_waiting {ph : Phase} (hborn : ph ≠ .unborn) (h : ¬ ph.settled = true)
    (howns : ¬ ph.owns = true) : ph = .waiting := by
  cases ph <;> simp_all [Phase.settled, Phase.owns]

namespace Records

variable {K : Type}

def dueIn (parent : Option K) (κ : K) : Phase → Option (FreeLoop K)
  | .dropping => some (.dec (some κ) none)
  | .dying => some (.del (some κ))
  | .gone => some (.dec parent (some κ))
  | _ => none

def due (σ : Records K) (κ : K) : Option (FreeLoop K) := dueIn (σ.parent κ) κ (σ.phase κ)

def subject : FreeLoop K → Option K
  | .dec i none => i
  | .dec _ (some c) => some c
  | .del i => i

def own (σ : Records K) : Option K → ℤ
  | none => 1
  | some κ => if (σ.phase κ).owns then 1 else 0

def Counted (σ : Records K) : Option K → Prop
  | none => True
  | some κ => (σ.phase κ).counts = true

/-- `loops` are the loops that are due, each once. -/
structure InFlight (due : K → Option (FreeLoop K)) (loops : List (FreeLoop K)) : Prop where
  nodup : loops.Nodup
  mem : ∀ l, l ∈ loops ↔ ∃ κ, due κ = some l
  subject : ∀ κ l, due κ = some l → subject l = some κ

/-- Loops, deletions and completions are what the phases say, and parents are older. -/
structure Life (σ : Records K) : Prop where
  loops : InFlight σ.due σ.loops
  tasks : σ.tasks.Nodup ∧ ∀ κ, κ ∈ σ.tasks ↔ σ.phase κ ≠ .unborn
  completed : ∀ κ, σ.completed κ = true ↔ σ.phase κ ≠ .unborn ∧ σ.phase κ ≠ .active
  deleted : ∀ κ, σ.deleted (some κ) = if (σ.phase κ).reclaimed then 1 else 0
  root : σ.deleted none = 0
  birth : ∀ κ ∈ σ.tasks, σ.birth κ < σ.tasks.length ∧
    ∀ π, σ.parent κ = some π → π ∈ σ.tasks ∧ σ.birth π < σ.birth κ

/-- A record counts itself and the children that hold a reference. -/
structure Count (σ : Records K) : Prop where
  children : ∀ i, (σ.children i).Nodup ∧
    ∀ c, c ∈ σ.children i ↔ c ∈ σ.tasks ∧ σ.parent c = i ∧ σ.phase c ≠ .released
  refCount : ∀ i, σ.Counted i → σ.refCount i = σ.own i + (σ.children i).length
  waiting : ∀ κ, σ.phase κ = .waiting → σ.children (some κ) ≠ []
  settled : ∀ κ, (σ.phase κ).settled = true → σ.children (some κ) = []

/-- `RefCount` is an `atomic_int`: with fewer than `2 ^ 31 - 1` tasks it does not overflow. -/
theorem Count.refCount_le {σ : Records K} (h : σ.Count) {i : Option K} (hi : σ.Counted i) :
    0 ≤ σ.refCount i ∧ σ.refCount i ≤ σ.tasks.length + 1 := by
  obtain ⟨hnd, hmem⟩ := h.children i
  have hle := (List.subperm_of_subset hnd fun c hc => ((hmem c).mp hc).1).length_le
  have hown : 0 ≤ σ.own i ∧ σ.own i ≤ 1 := by
    unfold own
    split <;> [decide; split <;> decide]
  rw [h.refCount i hi]
  omega

theorem life_start : (start K).Life where
  loops := ⟨List.nodup_nil, by simp [start, due, dueIn], by simp [start, due, dueIn]⟩
  tasks := ⟨List.nodup_nil, by simp [start]⟩
  completed := by simp [start]
  deleted := by simp [start, Phase.reclaimed]
  root := rfl
  birth := by simp [start]

theorem count_start : (start K).Count where
  children := by simp [start]
  refCount i hi := by
    cases i with
    | none => simp [start, own]
    | some κ => simp [start, Counted, Phase.counts] at hi
  waiting := by simp [start]
  settled := by simp [start]

variable {σ σ' : Records K} {κ c : K} {i p : Option K}

theorem Life.parent_ne (h : σ.Life) (hκ : κ ∉ σ.tasks) (hc : c ∈ σ.tasks) :
    σ.parent c ≠ some κ := fun heq => hκ ((h.birth c hc).2 κ heq).1

theorem Count.children_unborn (hn : σ.Count) (h : σ.Life) (hκ : κ ∉ σ.tasks) :
    σ.children (some κ) = [] := by
  refine List.eq_nil_iff_forall_not_mem.mpr fun c hc => ?_
  obtain ⟨hc', hp, -⟩ := ((hn.children (some κ)).2 c).mp hc
  exact h.parent_ne hκ hc' hp

theorem Life.unborn (h : σ.Life) (hκ : κ ∉ σ.tasks) : σ.phase κ = .unborn := by
  by_contra hne
  exact hκ ((h.tasks.2 κ).mpr hne)

theorem Life.active (h : σ.Life) (hκ : σ.Open κ) : σ.phase κ = .active := by
  have hne := (h.tasks.2 κ).mp hκ.1
  have hnot := (h.completed κ).not.mp (by simp [hκ.2])
  by_contra hact
  exact hnot ⟨hne, hact⟩

/-! ## Loops in flight -/

section
variable [DecidableEq K] {due : K → Option (FreeLoop K)} {loops : List (FreeLoop K)}
  {l : FreeLoop K}

theorem InFlight.drop (h : InFlight due loops) (hκ : due κ = some l) :
    InFlight (Function.update due κ none) (loops.erase l) where
  nodup := h.nodup.erase l
  mem m := by
    rw [h.nodup.mem_erase_iff, h.mem]
    constructor
    · rintro ⟨hne, c, hc⟩
      have hcκ : c ≠ κ := by
        rintro rfl
        exact hne (Option.some.inj (hc.symm.trans hκ))
      exact ⟨c, by rwa [Function.update_of_ne hcκ]⟩
    · rintro ⟨c, hc⟩
      have hcκ : c ≠ κ := by
        rintro rfl
        simp at hc
      rw [Function.update_of_ne hcκ] at hc
      refine ⟨?_, c, hc⟩
      rintro rfl
      exact hcκ (Option.some.inj ((h.subject c m hc).symm.trans (h.subject κ m hκ)))
  subject c m hc := by
    by_cases hcκ : c = κ
    · subst hcκ
      simp at hc
    · exact h.subject c m (by rwa [Function.update_of_ne hcκ] at hc)

theorem InFlight.add (h : InFlight due loops) (hκ : due κ = none) (hl : Records.subject l = some κ) :
    InFlight (Function.update due κ (some l)) (l :: loops) where
  nodup := by
    refine List.nodup_cons.mpr ⟨fun hmem => ?_, h.nodup⟩
    obtain ⟨c, hc⟩ := (h.mem l).mp hmem
    obtain rfl : c = κ := Option.some.inj ((h.subject c l hc).symm.trans hl)
    simp [hκ] at hc
  mem m := by
    rw [List.mem_cons, h.mem]
    constructor
    · rintro (rfl | ⟨c, hc⟩)
      · exact ⟨κ, by simp⟩
      · have hcκ : c ≠ κ := by
          rintro rfl
          simp [hκ] at hc
        exact ⟨c, by rwa [Function.update_of_ne hcκ]⟩
    · rintro ⟨c, hc⟩
      by_cases hcκ : c = κ
      · subst hcκ
        exact .inl (by simpa using hc.symm)
      · exact .inr ⟨c, by rwa [Function.update_of_ne hcκ] at hc⟩
  subject c m hc := by
    by_cases hcκ : c = κ
    · subst hcκ
      obtain rfl : l = m := by simpa using hc
      exact hl
    · exact h.subject c m (by rwa [Function.update_of_ne hcκ] at hc)

theorem InFlight.next {m : FreeLoop K} (h : InFlight due loops) (hκ : due κ = some l)
    (hm : Records.subject m = some κ) :
    InFlight (Function.update due κ (some m)) (m :: loops.erase l) := by
  have hnext := (h.drop hκ).add (Function.update_self ..) hm
  rwa [Function.update_idem] at hnext

theorem due_update (σ : Records K) (ph : Phase) (hphase : σ'.phase = Function.update σ.phase κ ph)
    (hparent : σ'.parent = σ.parent) :
    σ'.due = Function.update σ.due κ (dueIn (σ.parent κ) κ ph) := by
  funext c
  unfold Records.due
  rw [hphase, hparent]
  by_cases hc : c = κ
  · subst hc
    simp
  · simp [hc]

end

theorem Life.advance (h : σ.Life) (A : K → Prop) (hloops : InFlight σ'.due σ'.loops)
    (htasks : σ'.tasks = σ.tasks) (hparent : σ'.parent = σ.parent) (hbirth : σ'.birth = σ.birth)
    (hroot : σ'.deleted none = σ.deleted none)
    (hsame : ∀ c, ¬ A c → σ'.phase c = σ.phase c ∧ σ'.completed c = σ.completed c ∧
      σ'.deleted (some c) = σ.deleted (some c))
    (hA : ∀ c, A c → c ∈ σ.tasks ∧ σ'.phase c ≠ .unborn ∧ σ'.phase c ≠ .active ∧
      σ'.completed c = true ∧ σ'.deleted (some c) = if (σ'.phase c).reclaimed then 1 else 0) :
    σ'.Life where
  loops := hloops
  tasks := by
    refine ⟨htasks ▸ h.tasks.1, fun c => ?_⟩
    rw [htasks]
    by_cases hc : A c
    · exact ⟨fun _ => (hA c hc).2.1, fun _ => (hA c hc).1⟩
    · rw [(hsame c hc).1]
      exact h.tasks.2 c
  completed c := by
    by_cases hc : A c
    · obtain ⟨-, h₁, h₂, h₃, -⟩ := hA c hc
      exact ⟨fun _ => ⟨h₁, h₂⟩, fun _ => h₃⟩
    · rw [(hsame c hc).1, (hsame c hc).2.1]
      exact h.completed c
  deleted c := by
    by_cases hc : A c
    · exact (hA c hc).2.2.2.2
    · rw [(hsame c hc).1, (hsame c hc).2.2]
      exact h.deleted c
  root := hroot.trans h.root
  birth := by
    rw [htasks, hbirth, hparent]
    exact h.birth

theorem own_congr (h : ∀ κ, i = some κ → (σ'.phase κ).owns = (σ.phase κ).owns) :
    σ'.own i = σ.own i := by
  cases i with
  | none => rfl
  | some κ => rw [own, own, h κ rfl]

theorem same_of_phase (h : ∀ κ, i = some κ → σ'.phase κ = σ.phase κ) :
    σ'.own i = σ.own i ∧ (σ'.Counted i ↔ σ.Counted i) := by
  refine ⟨own_congr fun κ hκ => by rw [h κ hκ], ?_⟩
  cases i with
  | none => exact Iff.rfl
  | some κ => rw [Counted, Counted, h κ rfl]

theorem Count.advance (hn : σ.Count) (κ : K) (htasks : σ'.tasks = σ.tasks)
    (hparent : σ'.parent = σ.parent) (hchildren : σ'.children = σ.children)
    (hphase : ∀ c, c ≠ κ → σ'.phase c = σ.phase c)
    (hrefCount : ∀ i, i ≠ some κ → σ'.refCount i = σ.refCount i)
    (hreleased : σ.phase κ ≠ .released ∧ σ'.phase κ ≠ .released)
    (hκ : (σ'.phase κ).counts = true →
      σ'.refCount (some κ) = σ'.own (some κ) + (σ.children (some κ)).length)
    (hwaiting : σ'.phase κ = .waiting → σ.children (some κ) ≠ [])
    (hsettled : (σ'.phase κ).settled = true → σ.children (some κ) = []) : σ'.Count where
  children i := by
    rw [hchildren, htasks, hparent]
    refine ⟨(hn.children i).1, fun c => ((hn.children i).2 c).trans ?_⟩
    by_cases hc : c = κ
    · subst hc
      simp [hreleased]
    · rw [hphase c hc]
  refCount i hi := by
    rw [hchildren]
    by_cases hiκ : i = some κ
    · subst hiκ
      exact hκ hi
    · rw [hrefCount i hiκ]
      have hsame := same_of_phase fun c hc => hphase c fun heq => hiκ (heq ▸ hc)
      rw [hsame.1]
      exact hn.refCount i (hsame.2.mp hi)
  waiting c hc := by
    rw [hchildren]
    by_cases hcκ : c = κ
    · subst hcκ
      exact hwaiting hc
    · exact hn.waiting c (by rwa [hphase c hcκ] at hc)
  settled c hc := by
    rw [hchildren]
    by_cases hcκ : c = κ
    · subst hcκ
      exact hsettled hc
    · exact hn.settled c (by rwa [hphase c hcκ] at hc)

theorem Life.loop (h : σ.Life) {l : FreeLoop K} (hl : l ∈ σ.loops) :
    (∃ κ, l = .dec (some κ) none ∧ σ.phase κ = .dropping) ∨
    (∃ κ, l = .del (some κ) ∧ σ.phase κ = .dying) ∨
    ∃ κ, l = .dec (σ.parent κ) (some κ) ∧ σ.phase κ = .gone := by
  obtain ⟨κ, hκ⟩ := (h.loops.mem l).mp hl
  unfold due at hκ
  cases hphase : σ.phase κ <;> simp only [hphase, dueIn, reduceCtorEq, Option.some.injEq] at hκ
  · exact .inl ⟨κ, hκ.symm, hphase⟩
  · exact .inr (.inl ⟨κ, hκ.symm, hphase⟩)
  · exact .inr (.inr ⟨κ, hκ.symm, hphase⟩)

theorem Life.completed_of (h : σ.Life) (hne : σ.phase κ ≠ .unborn ∧ σ.phase κ ≠ .active) :
    κ ∈ σ.tasks ∧ σ.completed κ = true :=
  ⟨(h.tasks.2 κ).mpr hne.1, (h.completed κ).mpr hne⟩

theorem Count.dropping (hn : σ.Count) (hκ : σ.phase κ = .dropping) :
    σ.refCount (some κ) - 1 = (σ.children (some κ)).length := by
  have hcount := hn.refCount (some κ) (by simp [Counted, hκ, Phase.counts])
  simp only [own, hκ, Phase.owns, if_true] at hcount
  omega

variable [DecidableEq K]

/-! ## Creation and completion -/

theorem Life.create (h : σ.Life) (hκ : κ ∉ σ.tasks) (hp : ∀ π, p = some π → σ.Open π) :
    (σ.create p κ).Life := by
  have hunborn := h.unborn hκ
  have hnew : ∀ c ∈ σ.tasks, c ≠ κ := fun c hc => ne_of_mem_of_not_mem hc hκ
  have hdue : (σ.create p κ).due = σ.due := by
    funext c
    by_cases hc : c = κ
    · subst hc
      simp [due, dueIn, Records.create, hunborn]
    · simp [due, Records.create, hc]
  refine ⟨?_, ?_, ?_, ?_, h.root, ?_⟩
  · rw [hdue]
    exact h.loops
  · refine ⟨List.nodup_cons.mpr ⟨hκ, h.tasks.1⟩, fun c => ?_⟩
    by_cases hc : c = κ
    · simp [Records.create, hc]
    · simpa [Records.create, hc] using h.tasks.2 c
  · intro c
    by_cases hc : c = κ
    · have hopen := h.completed κ
      simpa [Records.create, hc, hunborn] using hopen
    · simpa [Records.create, hc] using h.completed c
  · intro c
    by_cases hc : c = κ
    · simpa [Records.create, hc, hunborn, Phase.reclaimed] using h.deleted κ
    · simpa [Records.create, hc] using h.deleted c
  · intro c hc
    simp only [Records.create, List.length_cons]
    rcases List.mem_cons.mp hc with rfl | hold
    · refine ⟨by simp, fun π hπ => ?_⟩
      -- The new task is younger than the one that creates it.
      have hπ' := (hp π (by simpa using hπ)).1
      rw [Function.update_self, Function.update_of_ne (hnew π hπ')]
      exact ⟨List.mem_cons_of_mem _ hπ', (h.birth π hπ').1⟩
    · rw [Function.update_of_ne (hnew c hold), Function.update_of_ne (hnew c hold)]
      obtain ⟨hlt, hparent⟩ := h.birth c hold
      refine ⟨by omega, fun π hπ => ?_⟩
      obtain ⟨hmem, hless⟩ := hparent π hπ
      rw [Function.update_of_ne (hnew π hmem)]
      exact ⟨List.mem_cons_of_mem _ hmem, hless⟩

theorem Count.create (hn : σ.Count) (h : σ.Life) (hκ : κ ∉ σ.tasks)
    (hp : ∀ π, p = some π → σ.Open π) : (σ.create p κ).Count := by
  have hpκ : p ≠ some κ := fun heq => hκ (hp κ heq).1
  have hnone := hn.children_unborn h hκ
  have hself : (σ.create p κ).children (some κ) = [] := by
    simp [Records.create, Function.update_of_ne hpκ.symm, hnone]
  have hphase : ∀ c, c ≠ κ → (σ.create p κ).phase c = σ.phase c := by
    intro c hc
    simp [Records.create, hc]
  have hchildren : ∀ i, i ≠ p → (σ.create p κ).children i = σ.children i := by
    intro i hi
    simp [Records.create, hi]
  have hactive : (σ.create p κ).phase κ = .active := by simp [Records.create]
  -- The parent is active and stays so.
  have hparent : ∀ c, p = some c → (σ.create p κ).phase c = .active := by
    intro c hc
    rw [hphase c fun heq => hpκ (heq ▸ hc)]
    exact h.active (hp c hc)
  refine ⟨?_, ?_, ?_, ?_⟩
  · intro i
    have hmem : ∀ c, c ∈ (σ.create p κ).children i ↔ (c = κ ∧ p = i) ∨ c ∈ σ.children i := by
      intro c
      by_cases hi : i = p
      · subst hi
        simp [Records.create]
      · simp [hchildren i hi, Ne.symm hi]
    have hnot : κ ∉ σ.children i := fun hmem => hκ (((hn.children i).2 κ).mp hmem).1
    constructor
    · by_cases hi : i = p
      · subst hi
        simpa [Records.create] using ⟨hnot, (hn.children i).1⟩
      · rw [hchildren i hi]
        exact (hn.children i).1
    · intro c
      rw [hmem c]
      by_cases hc : c = κ
      · subst hc
        simp [Records.create, hnot]
      · simpa [Records.create, hc] using (hn.children i).2 c
  · intro i hi
    by_cases hiκ : i = some κ
    · subst hiκ
      rw [hself]
      simp [Records.create, own, Phase.owns, Function.update_of_ne hpκ.symm]
    · have hsame := same_of_phase fun c hc => hphase c fun heq => hiκ (heq ▸ hc)
      have hcount := hn.refCount i (hsame.2.mp hi)
      rw [hsame.1]
      by_cases hip : i = p
      · subst hip
        simp [Records.create, Function.update_of_ne hiκ, hcount]
        omega
      · rw [hchildren i hip]
        simpa [Records.create, Function.update_of_ne hip, Function.update_of_ne hiκ] using hcount
  · intro c hc
    have hcκ : c ≠ κ := by
      rintro rfl
      simp [hactive] at hc
    have hcp : some c ≠ p := by
      intro heq
      simp [hparent c heq.symm] at hc
    rw [hchildren _ hcp]
    exact hn.waiting c (by rwa [hphase c hcκ] at hc)
  · intro c hc
    have hcκ : c ≠ κ := by
      rintro rfl
      simp [hactive, Phase.settled] at hc
    have hcp : some c ≠ p := by
      intro heq
      simp [hparent c heq.symm, Phase.settled] at hc
    rw [hchildren _ hcp]
    exact hn.settled c (by rwa [hphase c hcκ] at hc)

theorem Life.complete (h : σ.Life) (hκ : σ.Open κ) : (σ.complete κ).Life := by
  have hactive := h.active hκ
  refine h.advance (· = κ) ?_ rfl rfl rfl rfl ?_ ?_
  · have hdue : (σ.complete κ).due = Function.update σ.due κ (some (.dec (some κ) none)) :=
      due_update σ .dropping rfl rfl
    rw [hdue]
    exact h.loops.add (by simp [due, dueIn, hactive]) rfl
  · intro c hc
    simp [Records.complete, hc]
  · rintro c rfl
    have hdeleted := h.deleted c
    simp only [hactive, Phase.reclaimed] at hdeleted
    simpa [Records.complete, Phase.reclaimed, hκ.1] using hdeleted

theorem Count.complete (hn : σ.Count) (h : σ.Life) (hκ : σ.Open κ) : (σ.complete κ).Count := by
  have hactive := h.active hκ
  have hphase : (σ.complete κ).phase κ = .dropping := by simp [Records.complete]
  refine hn.advance κ rfl rfl rfl ?_ (fun _ _ => rfl) (by simp [hactive, hphase]) ?_
    (by simp [hphase]) (by simp [hphase, Phase.settled])
  · intro c hc
    simp [Records.complete, hc]
  · intro _
    have hcount := hn.refCount (some κ) (by simp [Counted, hactive, Phase.counts])
    simpa [own, hactive, hphase, Phase.owns, Records.complete] using hcount

/-! ## The loop of `freeTask` -/

theorem decOwn_phase (hn : σ.Count) (hκ : σ.phase κ = .dropping) :
    (σ.dec (some κ) none).phase = Function.update σ.phase κ
      (if (σ.children (some κ)).length = 0 then .dying else .waiting) := by
  have hleft := hn.dropping hκ
  simp only [dec, phaseAfter, hleft, Option.isNone_none, if_true, Int.natCast_eq_zero]
  split <;> rfl

theorem Life.decOwn (h : σ.Life) (hn : σ.Count) (hκ : σ.phase κ = .dropping) :
    (σ.dec (some κ) none).Life := by
  have hphase := decOwn_phase hn hκ
  have hleft := hn.dropping hκ
  have hdueκ : σ.due κ = some (.dec (some κ) none) := by simp [due, dueIn, hκ]
  obtain ⟨hmem, hcompleted⟩ := h.completed_of (κ := κ) (by simp [hκ])
  refine h.advance (· = κ) ?_ rfl rfl rfl rfl ?_ ?_
  · have hdue := due_update σ _ hphase rfl
    have hloops : (σ.dec (some κ) none).loops =
        (if (σ.children (some κ)).length = 0 then [.del (some κ)] else []) ++
          σ.loops.erase (.dec (some κ) none) := by
      simp [dec, hleft]
    rw [hdue, hloops]
    split
    · exact h.loops.next hdueκ rfl
    · exact h.loops.drop hdueκ
  · intro c hc
    rw [hphase]
    exact ⟨Function.update_of_ne hc .., rfl, rfl⟩
  · rintro c rfl
    have hdeleted := h.deleted c
    rw [hphase, Function.update_self]
    simp only [hκ, Phase.reclaimed] at hdeleted
    refine ⟨hmem, ?_, ?_, hcompleted, ?_⟩ <;> split <;> simp [dec, Phase.reclaimed, hdeleted]

theorem Count.decOwn (hn : σ.Count) (hκ : σ.phase κ = .dropping) :
    (σ.dec (some κ) none).Count := by
  have hphase := decOwn_phase hn hκ
  have hleft := hn.dropping hκ
  refine hn.advance κ rfl rfl rfl ?_ ?_ ?_ ?_ ?_ ?_
  · intro c hc
    rw [hphase, Function.update_of_ne hc]
  · intro i hi
    simp [dec, hi]
  · rw [hphase, Function.update_self, hκ]
    split <;> simp
  · intro _
    rw [own, hphase, Function.update_self]
    split <;> simp [dec, hleft, Phase.owns]
  · rw [hphase, Function.update_self]
    split <;> simp_all
  · rw [hphase, Function.update_self]
    split <;> simp_all [Phase.settled]

theorem Life.del (h : σ.Life) (hκ : σ.phase κ = .dying) : (σ.del (some κ)).Life := by
  have hdueκ : σ.due κ = some (.del (some κ)) := by simp [due, dueIn, hκ]
  obtain ⟨hmem, hcompleted⟩ := h.completed_of (κ := κ) (by simp [hκ])
  refine h.advance (· = κ) ?_ rfl rfl rfl ?_ ?_ ?_
  · have hdue : (σ.del (some κ)).due =
        Function.update σ.due κ (some (.dec (σ.parent κ) (some κ))) :=
      due_update σ .gone rfl rfl
    rw [hdue]
    exact h.loops.next hdueκ rfl
  · simp [Records.del]
  · intro c hc
    simp [Records.del, hc]
  · rintro c rfl
    have hdeleted := h.deleted c
    simp only [hκ, Phase.reclaimed] at hdeleted
    simp [Records.del, hmem, hcompleted, hdeleted, Phase.reclaimed]

theorem Count.del (hn : σ.Count) (hκ : σ.phase κ = .dying) : (σ.del (some κ)).Count := by
  have hphase : (σ.del (some κ)).phase κ = .gone := by simp [Records.del]
  refine hn.advance κ rfl rfl rfl ?_ (fun _ _ => rfl) (by simp [hκ, hphase])
    (by simp [hphase, Phase.counts]) (by simp [hphase]) ?_
  · intro c hc
    simp [Records.del, hc]
  · intro _
    exact hn.settled κ (by simp [hκ, Phase.settled])

/-- The parent of a deleted record still counts it, and this is what it has left. -/
theorem Count.gone (hn : σ.Count) (h : σ.Life) (hc : σ.phase c = .gone) :
    c ∈ σ.children (σ.parent c) ∧
      σ.refCount (σ.parent c) - 1 =
        σ.own (σ.parent c) + ((σ.children (σ.parent c)).erase c).length := by
  have hmem := (h.completed_of (κ := c) (by simp [hc])).1
  have hchild : c ∈ σ.children (σ.parent c) :=
    ((hn.children _).2 c).mpr ⟨hmem, rfl, by simp [hc]⟩
  have hcounted : σ.Counted (σ.parent c) := by
    cases hp : σ.parent c with
    | none => trivial
    | some π =>
      have hborn := (h.tasks.2 π).mp ((h.birth c hmem).2 π hp).1
      have hsettled := mt (hn.settled π) (hp ▸ List.ne_nil_of_mem hchild)
      exact Phase.counts_of_not_settled hborn hsettled
  refine ⟨hchild, ?_⟩
  have hpos := List.length_pos_of_mem hchild
  rw [hn.refCount _ hcounted, List.length_erase_of_mem hchild]
  omega

def LastOf (σ : Records K) (c π : K) : Prop := σ.parent c = some π ∧ σ.refCount (some π) - 1 = 0

/-- A task whose last reference goes has been waiting for it. -/
theorem LastOf.waiting (hn : σ.Count) (h : σ.Life) (hc : σ.phase c = .gone) {π : K}
    (hlast : σ.LastOf c π) : σ.phase π = .waiting ∧ (σ.children (some π)).erase c = [] := by
  obtain ⟨hparent, hzero⟩ := hlast
  obtain ⟨hchild, hleft⟩ := hn.gone h hc
  have hmem := (h.completed_of (κ := c) (by simp [hc])).1
  have hborn := (h.tasks.2 π).mp ((h.birth c hmem).2 π hparent).1
  rw [hparent] at hleft hchild
  have hsettled := mt (hn.settled π) (List.ne_nil_of_mem hchild)
  rw [hzero, own] at hleft
  have howns : (σ.phase π).owns ≠ true := by
    intro howns
    rw [if_pos howns] at hleft
    omega
  rw [if_neg howns] at hleft
  exact ⟨Phase.eq_waiting hborn hsettled howns, List.length_eq_zero_iff.mp (by omega)⟩

theorem decChild_phase (σ : Records K) (c x : K) :
    (σ.LastOf c x → (σ.dec (σ.parent c) (some c)).phase x = .dying) ∧
    (¬ σ.LastOf c x → (σ.dec (σ.parent c) (some c)).phase x =
      Function.update σ.phase c .released x) := by
  unfold LastOf
  cases hp : σ.parent c with
  | none => simp [dec, phaseAfter]
  | some π =>
    by_cases hx : π = x
    · subst hx
      by_cases hz : σ.refCount (some π) - 1 = 0 <;> simp [dec, phaseAfter, hz]
    · by_cases hz : σ.refCount (some π) - 1 = 0 <;>
        simp [dec, phaseAfter, hz, hx, Function.update_of_ne (Ne.symm hx)]

theorem Life.decChild (h : σ.Life) (hn : σ.Count) (hc : σ.phase c = .gone) :
    (σ.dec (σ.parent c) (some c)).Life := by
  have hphase := decChild_phase σ c
  have hduec : σ.due c = some (.dec (σ.parent c) (some c)) := by simp [due, dueIn, hc]
  obtain ⟨hmem, hcompleted⟩ := h.completed_of (κ := c) (by simp [hc])
  refine h.advance (fun x => x = c ∨ σ.LastOf c x) ?_ rfl rfl rfl rfl ?_ ?_
  · by_cases hlast : ∃ π, σ.LastOf c π
    · -- The loop goes on with the deletion of the parent.
      obtain ⟨π, hπ⟩ := hlast
      have hwaiting := (hπ.waiting hn h hc).1
      have hcπ : π ≠ c := by
        rintro rfl
        simp [hwaiting] at hc
      have hdue : (σ.dec (σ.parent c) (some c)).due =
          Function.update (Function.update σ.due c none) π (some (.del (some π))) := by
        funext x
        by_cases hx : x = π
        · subst hx
          simp [due, (hphase x).1 hπ, dueIn]
        · have hnot : ¬ σ.LastOf c x := fun hx' => hx (Option.some.inj (hx'.1.symm.trans hπ.1))
          rw [Function.update_of_ne hx, due, (hphase x).2 hnot]
          by_cases hxc : x = c
          · subst hxc
            simp [dueIn]
          · rw [Function.update_of_ne hxc, Function.update_of_ne hxc]
            rfl
      have hloops : (σ.dec (σ.parent c) (some c)).loops =
          .del (some π) :: σ.loops.erase (.dec (σ.parent c) (some c)) := by
        simp [dec, hπ.1, hπ.2]
      rw [hdue, hloops]
      refine (h.loops.drop hduec).add ?_ rfl
      rw [Function.update_of_ne hcπ]
      simp [due, dueIn, hwaiting]
    · have hnot : ∀ x, ¬ σ.LastOf c x := fun x hx => hlast ⟨x, hx⟩
      have hdue : (σ.dec (σ.parent c) (some c)).due = Function.update σ.due c none :=
        due_update σ .released (funext fun x => (hphase x).2 (hnot x)) rfl
      have hzero : σ.refCount (σ.parent c) - 1 ≠ 0 := by
        cases hp : σ.parent c with
        | none =>
          have hleft := (hn.gone h hc).2
          rw [hp] at hleft
          simp only [own] at hleft
          omega
        | some π => exact fun hz => hnot π ⟨hp, hz⟩
      have hloops : (σ.dec (σ.parent c) (some c)).loops =
          σ.loops.erase (.dec (σ.parent c) (some c)) := by
        simp [dec, hzero]
      rw [hdue, hloops]
      exact h.loops.drop hduec
  · intro x hx
    obtain ⟨hxc, hlast⟩ := not_or.mp hx
    rw [(hphase x).2 hlast]
    exact ⟨Function.update_of_ne hxc .., rfl, rfl⟩
  · intro x hx
    by_cases hlast : σ.LastOf c x
    · have hwaiting := (hlast.waiting hn h hc).1
      obtain ⟨hmem', hcompleted'⟩ := h.completed_of (κ := x) (by simp [hwaiting])
      have hdeleted := h.deleted x
      simp only [hwaiting, Phase.reclaimed] at hdeleted
      rw [(hphase x).1 hlast]
      exact ⟨hmem', by simp, by simp, hcompleted', hdeleted⟩
    · obtain rfl : x = c := hx.resolve_right hlast
      have hdeleted := h.deleted x
      simp only [hc, Phase.reclaimed] at hdeleted
      rw [(hphase x).2 hlast, Function.update_self]
      exact ⟨hmem, by simp, by simp, hcompleted, hdeleted⟩

/-- The change from `σ` to `σ'` when the parent of `c` drops its reference to `c`. -/
structure Dropped (σ σ' : Records K) (c : K) : Prop where
  tasks : σ'.tasks = σ.tasks
  parent : σ'.parent = σ.parent
  parent_ne : σ.parent c ≠ some c
  released : σ'.phase c = .released
  dying : ∀ x, σ.LastOf c x → σ'.phase x = .dying
  same : ∀ x, x ≠ c → ¬ σ.LastOf c x → σ'.phase x = σ.phase x
  others : ∀ j, j ≠ σ.parent c → σ'.children j = σ.children j ∧ σ'.refCount j = σ.refCount j
  children : σ'.children (σ.parent c) = (σ.children (σ.parent c)).erase c
  refCount : σ'.refCount (σ.parent c) = σ.refCount (σ.parent c) - 1

theorem dropped_decChild (h : σ.Life) (hc : σ.phase c = .gone) :
    σ.Dropped (σ.dec (σ.parent c) (some c)) c := by
  have hphase := decChild_phase σ c
  have hmem := (h.completed_of (κ := c) (by simp [hc])).1
  have hne : σ.parent c ≠ some c := fun heq => Nat.lt_irrefl _ ((h.birth c hmem).2 c heq).2
  refine ⟨rfl, rfl, hne, ?_, fun x => (hphase x).1, ?_, ?_, by simp [dec], by simp [dec]⟩
  · rw [(hphase c).2 fun hlast => hne hlast.1, Function.update_self]
  · intro x hx hlast
    rw [(hphase x).2 hlast, Function.update_of_ne hx]
  · intro j hj
    simp [dec, hj]

section
variable (hd : σ.Dropped σ' c) (hn : σ.Count) (h : σ.Life) (hc : σ.phase c = .gone)
include hd hn h hc

theorem Dropped.mem_children (j : Option K) : (σ'.children j).Nodup ∧
    ∀ x, x ∈ σ'.children j ↔ x ∈ σ'.tasks ∧ σ'.parent x = j ∧ σ'.phase x ≠ .released := by
  rw [hd.tasks, hd.parent]
  -- A task other than `c` is released exactly if it was before.
  have hrel : ∀ x, x ≠ c → (σ'.phase x ≠ .released ↔ σ.phase x ≠ .released) := by
    intro x hx
    by_cases hlast : σ.LastOf c x
    · simp [hd.dying x hlast, (hlast.waiting hn h hc).1]
    · rw [hd.same x hx hlast]
  by_cases hj : j = σ.parent c
  · subst hj
    rw [hd.children]
    refine ⟨(hn.children _).1.erase c, fun x => ?_⟩
    rw [(hn.children _).1.mem_erase_iff, (hn.children _).2 x]
    by_cases hx : x = c
    · subst hx
      simp [hd.released]
    · rw [hrel x hx]
      exact ⟨And.right, fun hx' => ⟨hx, hx'⟩⟩
  · rw [(hd.others j hj).1]
    refine ⟨(hn.children j).1, fun x => ((hn.children j).2 x).trans ?_⟩
    by_cases hx : x = c
    · subst hx
      exact ⟨fun hx' => absurd hx'.2.1.symm hj, fun hx' => absurd hd.released hx'.2.2⟩
    · rw [hrel x hx]

theorem Dropped.refCount_eq (j : Option K) (hj : σ'.Counted j) :
    σ'.refCount j = σ'.own j + (σ'.children j).length := by
  by_cases hjp : j = σ.parent c
  · subst hjp
    have hown : σ'.own (σ.parent c) = σ.own (σ.parent c) := by
      refine own_congr fun π hp => ?_
      by_cases hlast : σ.LastOf c π
      · simp [hd.dying π hlast, (hlast.waiting hn h hc).1, Phase.owns]
      · rw [hd.same π (fun heq => hd.parent_ne (heq ▸ hp)) hlast]
    rw [hd.refCount, hd.children, hown]
    exact (hn.gone h hc).2
  · have hkeep : σ'.own j = σ.own j ∧ (σ'.Counted j ↔ σ.Counted j) := by
      refine same_of_phase fun x hx => ?_
      have hxc : x ≠ c := by
        rintro rfl
        simp [hx, Counted, hd.released, Phase.counts] at hj
      exact hd.same x hxc fun hlast => hjp (hx.trans hlast.1.symm)
    rw [(hd.others j hjp).1, (hd.others j hjp).2, hkeep.1]
    exact hn.refCount j (hkeep.2.mp hj)

theorem Dropped.waiting (x : K) (hx : σ'.phase x = .waiting) : σ'.children (some x) ≠ [] := by
  have hxc : x ≠ c := by
    rintro rfl
    simp [hd.released] at hx
  have hlast : ¬ σ.LastOf c x := by
    intro hlast
    simp [hd.dying x hlast] at hx
  rw [hd.same x hxc hlast] at hx
  by_cases hxp : some x = σ.parent c
  · -- The count of `x` is not zero, and `x` does not count itself any more.
    rw [hxp, hd.children]
    intro hnil
    have hleft := (hn.gone h hc).2
    rw [hnil, ← hxp] at hleft
    refine hlast ⟨hxp.symm, hleft.trans ?_⟩
    simp [own, hx, Phase.owns]
  · rw [(hd.others _ hxp).1]
    exact hn.waiting x hx

theorem Dropped.settled (x : K) (hx : (σ'.phase x).settled = true) :
    σ'.children (some x) = [] := by
  by_cases hxp : some x = σ.parent c
  · rw [hxp, hd.children, ← hxp]
    by_cases hlast : σ.LastOf c x
    · exact (hlast.waiting hn h hc).2
    · rw [hd.same x (fun heq => hd.parent_ne (heq ▸ hxp.symm)) hlast] at hx
      rw [hn.settled x hx]
      rfl
  · rw [(hd.others _ hxp).1]
    by_cases hxc : x = c
    · subst hxc
      exact hn.settled x (by simp [hc, Phase.settled])
    · rw [hd.same x hxc fun hlast => hxp hlast.1.symm] at hx
      exact hn.settled x hx

end

theorem Count.decChild (hn : σ.Count) (h : σ.Life) (hc : σ.phase c = .gone) :
    (σ.dec (σ.parent c) (some c)).Count :=
  have hd := dropped_decChild h hc
  ⟨hd.mem_children hn h hc, hd.refCount_eq hn h hc, hd.waiting hn h hc, hd.settled hn h hc⟩

/-! ## Whole runs -/

structure Inv (σ : Records K) : Prop where
  life : σ.Life
  count : σ.Count

omit [DecidableEq K] in
theorem inv_start : (start K).Inv := ⟨life_start, count_start⟩

theorem Inv.step (h : σ.Inv) {op : RecordOp K} (hop : σ.Allowed op) : (σ.step op).Inv := by
  cases op with
  | create p κ => exact ⟨h.life.create hop.1 hop.2, h.count.create h.life hop.1 hop.2⟩
  | schedule i status =>
    cases i with
    | none => exact h
    | some κ =>
      show (if status.frees then σ.complete κ else σ).Inv
      split
      · exact ⟨h.life.complete hop, h.count.complete h.life hop⟩
      · exact h
  | free l =>
    rcases h.life.loop hop with ⟨κ, rfl, hκ⟩ | ⟨κ, rfl, hκ⟩ | ⟨κ, rfl, hκ⟩
    · exact ⟨h.life.decOwn h.count hκ, h.count.decOwn hκ⟩
    · exact ⟨h.life.del hκ, h.count.del hκ⟩
    · exact ⟨h.life.decChild h.count hκ, h.count.decChild h.life hκ⟩

def total (σ : Records K) : ℕ := (σ.tasks.map fun κ => (σ.phase κ).steps).sum

theorem sum_map_succ {l : List K} {f g : K → ℕ} (hl : l.Nodup) (hκ : κ ∈ l) (hstep : g κ = f κ + 1)
    (hsame : ∀ c, c ≠ κ → g c = f c) : (l.map g).sum = (l.map f).sum + 1 := by
  have hrest : (l.erase κ).map g = (l.erase κ).map f :=
    List.map_congr_left fun c hc => hsame c (hl.mem_erase_iff.mp hc).1
  rw [← List.sum_map_erase g hκ, ← List.sum_map_erase f hκ, hrest, hstep]
  omega

theorem Inv.total_step (h : σ.Inv) {op : RecordOp K} (hop : σ.Allowed op) :
    (σ.step op).total = σ.total + if op.isFree then 1 else 0 := by
  cases op with
  | create p κ =>
    have hsame : σ.tasks.map (fun c => ((σ.create p κ).phase c).steps) =
        σ.tasks.map fun c => (σ.phase c).steps := by
      refine List.map_congr_left fun c hc => ?_
      simp [Records.create, ne_of_mem_of_not_mem hc hop.1]
    have hκ : ((σ.create p κ).phase κ).steps = 0 := by simp [Records.create, Phase.steps]
    show ((κ :: σ.tasks).map fun c => ((σ.create p κ).phase c).steps).sum = _
    rw [List.map_cons, List.sum_cons, hsame, hκ]
    simp [total, RecordOp.isFree]
  | schedule i status =>
    cases i with
    | none => rfl
    | some κ =>
      show (if status.frees then σ.complete κ else σ).total = σ.total
      split
      · have hactive := h.life.active hop
        have hsame : (fun c => ((σ.complete κ).phase c).steps) = fun c => (σ.phase c).steps := by
          funext c
          by_cases hc : c = κ
          · simp [Records.complete, hc, hactive, Phase.steps]
          · simp [Records.complete, hc]
        show (σ.tasks.map fun c => ((σ.complete κ).phase c).steps).sum = _
        rw [hsame]
        rfl
      · rfl
  | free l =>
    rcases h.life.loop hop with ⟨κ, rfl, hκ⟩ | ⟨κ, rfl, hκ⟩ | ⟨κ, rfl, hκ⟩
    · have hphase := decOwn_phase h.count hκ
      refine sum_map_succ h.life.tasks.1 (h.life.completed_of (κ := κ) (by simp [hκ])).1 ?_ ?_
      · show ((σ.dec (some κ) none).phase κ).steps = _
        rw [hphase, Function.update_self, hκ]
        split <;> rfl
      · intro c hc
        show ((σ.dec (some κ) none).phase c).steps = _
        rw [hphase, Function.update_of_ne hc]
    · refine sum_map_succ h.life.tasks.1 (h.life.completed_of (κ := κ) (by simp [hκ])).1 ?_ ?_
      · simp [Records.step, del, hκ, Phase.steps]
      · intro c hc
        simp [Records.step, del, hc]
    · have hphase := decChild_phase σ κ
      refine sum_map_succ h.life.tasks.1 (h.life.completed_of (κ := κ) (by simp [hκ])).1 ?_ ?_
      · show ((σ.dec (σ.parent κ) (some κ)).phase κ).steps = _
        have hlast : ¬ σ.LastOf κ κ := by
          intro hlast
          simp [(hlast.waiting h.count h.life hκ).1] at hκ
        rw [(hphase κ).2 hlast, Function.update_self, hκ]
        rfl
      · intro c hc
        show ((σ.dec (σ.parent κ) (some κ)).phase c).steps = _
        by_cases hlast : σ.LastOf κ c
        · rw [(hphase c).1 hlast, (hlast.waiting h.count h.life hκ).1]
          rfl
        · rw [(hphase c).2 hlast, Function.update_of_ne hc]

theorem total_run {ls : List (RecordOp K)} (h : σ.Inv) (hls : (machine K).Valid σ ls) :
    ((machine K).run σ ls).total = σ.total + ls.countP RecordOp.isFree := by
  induction ls generalizing σ with
  | nil => simp
  | cons op ls ih =>
    have hrest : ((machine K).run (σ.step op) ls).total =
        (σ.step op).total + ls.countP RecordOp.isFree := ih (h.step hls.1) hls.2
    rw [h.total_step hls.1] at hrest
    rw [List.countP_cons]
    show ((machine K).run (σ.step op) ls).total = _
    omega

omit [DecidableEq K] in
theorem total_le (σ : Records K) : σ.total ≤ 3 * σ.tasks.length := by
  unfold total
  induction σ.tasks with
  | nil => simp
  | cons κ ls ih =>
    have hle : (σ.phase κ).steps ≤ 3 := by cases σ.phase κ <;> simp [Phase.steps]
    rw [List.map_cons, List.sum_cons, List.length_cons]
    omega

omit [DecidableEq K] in
theorem Inv.reclaimed (h : σ.Inv) (hκ : 0 < σ.deleted (some κ)) : (σ.phase κ).reclaimed = true := by
  rw [h.life.deleted] at hκ
  by_contra hnot
  simp [hnot] at hκ

omit [DecidableEq K] in
/-- Where a record is deleted its task is complete and its children are deleted. -/
theorem Inv.deleted_after (h : σ.Inv) (hκ : 0 < σ.deleted (some κ)) :
    σ.completed κ = true ∧ ∀ c ∈ σ.tasks, σ.parent c = some κ → 0 < σ.deleted (some c) := by
  have hphase := h.reclaimed hκ
  constructor
  · refine (h.life.completed κ).mpr ?_
    cases hph : σ.phase κ <;> simp_all [Phase.reclaimed]
  · intro c hc hparent
    have hnone : σ.children (some κ) = [] := by
      refine h.count.settled κ ?_
      cases hph : σ.phase κ <;> simp_all [Phase.reclaimed, Phase.settled]
    have hreleased : σ.phase c = .released := by
      by_contra hne
      have hmem := ((h.count.children (some κ)).2 c).mpr ⟨hc, hparent, hne⟩
      simp [hnone] at hmem
    rw [h.life.deleted, hreleased]
    decide

/-- A loop is never at a deleted record. -/
theorem Inv.loop_live (h : σ.Inv) {l : FreeLoop K} (hl : l ∈ σ.loops) :
    σ.deleted l.record = 0 := by
  rcases h.life.loop hl with ⟨κ, rfl, hκ⟩ | ⟨κ, rfl, hκ⟩ | ⟨κ, rfl, hκ⟩
  · simp [FreeLoop.record, h.life.deleted, hκ, Phase.reclaimed]
  · simp [FreeLoop.record, h.life.deleted, hκ, Phase.reclaimed]
  · show σ.deleted (σ.parent κ) = 0
    cases hp : σ.parent κ with
    | none => exact h.life.root
    | some π =>
      by_contra hne
      have hmem := (h.life.completed_of (κ := κ) (by simp [hκ])).1
      have hsettled := h.reclaimed (Nat.pos_of_ne_zero hne)
      have hchild := (h.count.gone h.life hκ).1
      rw [hp, h.count.settled π (by cases hph : σ.phase π <;>
        simp_all [Phase.reclaimed, Phase.settled])] at hchild
      simp at hchild

omit [DecidableEq K] in
/-- Without loops in flight a completed task waits for a younger one. -/
theorem Inv.waits (h : σ.Inv) (hdone : ∀ κ ∈ σ.tasks, σ.completed κ = true) (hidle : σ.loops = [])
    (hκ : κ ∈ σ.tasks) (hnot : σ.phase κ ≠ .released) :
    ∃ c ∈ σ.tasks, σ.phase c ≠ .released ∧ σ.birth κ < σ.birth c := by
  have hdue : σ.due κ = none := by
    refine Option.eq_none_iff_forall_ne_some.mpr fun l hl => ?_
    have hmem := (h.life.loops.mem l).mpr ⟨κ, hl⟩
    simp [hidle] at hmem
  obtain ⟨hborn, hactive⟩ := (h.life.completed κ).mp (hdone κ hκ)
  have hwaiting : σ.phase κ = .waiting := by
    unfold due at hdue
    cases hph : σ.phase κ <;> simp_all [dueIn]
  obtain ⟨c, hc⟩ := List.exists_mem_of_ne_nil _ (h.count.waiting κ hwaiting)
  obtain ⟨hmem, hparent, hne⟩ := ((h.count.children _).2 c).mp hc
  exact ⟨c, hmem, hne, ((h.life.birth c hmem).2 κ hparent).2⟩

omit [DecidableEq K] in
/-- Once all tasks are complete and no loop is in flight, every record is back. -/
theorem Inv.all_released (h : σ.Inv) (hdone : ∀ κ ∈ σ.tasks, σ.completed κ = true)
    (hidle : σ.loops = []) : ∀ κ ∈ σ.tasks, σ.phase κ = .released := by
  -- By induction from the youngest task on: the chain of waiting tasks ends.
  have hyoung : ∀ n κ, κ ∈ σ.tasks → σ.tasks.length - σ.birth κ ≤ n → σ.phase κ = .released := by
    intro n
    induction n with
    | zero =>
      intro κ hκ hn
      have hlt := (h.life.birth κ hκ).1
      omega
    | succ n ih =>
      intro κ hκ hn
      by_contra hnot
      obtain ⟨c, hc, hne, hlt⟩ := h.waits hdone hidle hκ hnot
      have hbirth := (h.life.birth c hc).1
      exact hne (ih c hc (by omega))
  intro κ hκ
  exact hyoung _ κ hκ le_rfl

end Records

/-- Records are deleted at most once, after their task and after the records of its children, and
the record of the implicit task is not deleted; no loop of `freeTask` is at a deleted record. When
all tasks are complete and the loops have ended, every record has been deleted and the implicit task
has its own reference left. The loops end: a run has at most three loop steps for each task. -/
theorem records_reclaimed {K : Type} [DecidableEq K] (ls : List (RecordOp K))
    (hvalid : (Records.machine K).Valid (Records.start K) ls) :
    let σ := (Records.machine K).run (Records.start K) ls
    (∀ κ, σ.deleted (some κ) ≤ 1) ∧ σ.deleted none = 0 ∧
    (∀ κ, 0 < σ.deleted (some κ) →
      σ.completed κ = true ∧ ∀ c ∈ σ.tasks, σ.parent c = some κ → 0 < σ.deleted (some c)) ∧
    (∀ l ∈ σ.loops, σ.deleted l.record = 0) ∧
    ((∀ κ ∈ σ.tasks, σ.completed κ = true) → σ.loops = [] →
      (∀ κ ∈ σ.tasks, σ.deleted (some κ) = 1) ∧ σ.refCount none = 1) ∧
    ls.countP RecordOp.isFree ≤ 3 * σ.tasks.length := by
  intro σ
  have h : σ.Inv :=
    Machine.Along.inv (fun _ _ h hop => h.step hop) hvalid Records.inv_start
  refine ⟨?_, h.life.root, fun κ hκ => h.deleted_after hκ, fun l hl => h.loop_live hl, ?_, ?_⟩
  · intro κ
    rw [h.life.deleted]
    split <;> omega
  · intro hdone hidle
    have hreleased := h.all_released hdone hidle
    constructor
    · intro κ hκ
      rw [h.life.deleted, hreleased κ hκ]
      rfl
    · have hnone : σ.children none = [] := by
        refine List.eq_nil_iff_forall_not_mem.mpr fun c hc => ?_
        obtain ⟨hmem, -, hne⟩ := ((h.count.children none).2 c).mp hc
        exact hne (hreleased c hmem)
      rw [h.count.refCount none trivial, hnone]
      rfl
  · have htotal := Records.total_run Records.inv_start hvalid
    have hzero : (Records.start K).total = 0 := rfl
    have hle := Records.total_le σ
    change σ.total = _ at htotal
    omega

/-- A parent that completes before its child: the child's loop deletes both records. -/
def cascade : List (RecordOp Bool) :=
  [.create none false, .create (some false) true, .schedule none .switch,
    .schedule (some false) .detach, .schedule (some false) .lateFulfill,
    .free (.dec (some false) none), .schedule (some true) .complete, .free (.dec (some true) none),
    .free (.del (some true)), .free (.dec (some false) (some true)), .free (.del (some false)),
    .free (.dec none (some false))]

theorem records_reclaimed_cascade :
    (∀ κ ∈ ((Records.machine Bool).run (Records.start Bool) cascade).tasks,
      ((Records.machine Bool).run (Records.start Bool) cascade).deleted (some κ) = 1) ∧
    ((Records.machine Bool).run (Records.start Bool) cascade).refCount none = 1 :=
  (records_reclaimed cascade (by decide)).2.2.2.2.1 (by decide) (by decide)

end CritPath
