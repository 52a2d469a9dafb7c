import CritPath.Clock.Local
import CritPath.Lib.Greatest
import CritPath.Lib.Runs

/-!
# Task dependences

A parent task keeps a map from variables to `DependencyData`, three sync clocks
for each variable. The `dependences` callback of a sibling task looks its
variables up, so that items on one variable share the clocks. When the task
starts, `acquireDependencies` reads for each item the clocks of the conflicting
dependence types; when it completes, `releaseDependencies` signals the clock of
the item's own type.

`releases` records who released what. A clock holds `0` or the largest value
released to it (`Gathers`), and the clocks an item reads are those that the
conflicting types write (`reads_iff_writes`).
-/

namespace CritPath

open Lib

inductive DependenceType where
  | in_
  | out
  | inout
  | mutexinoutset
  | source
  | sink
  | inoutset
  | outAllMemory
  | inoutAllMemory
  deriving DecidableEq

/-- The clocks of a `DependencyData`. -/
inductive DepClock where
  | in_
  | out
  | inoutset
  deriving DecidableEq

abbrev DependencyData := DepClock → SyncClock

/-- `TaskDependency`: the object whose clocks it points to, and the type. -/
structure TaskDependency where
  data : ℕ
  type : DependenceType

/-- The `DependencyData` objects, by address. -/
abbrev DepHeap := ℕ → DependencyData

/-- `OmpHappensAfter` on clock `k` of object `d`. -/
def DepHeap.happensAfter (running : Bool) (d : ℕ) (k : DepClock) (h : DepHeap × ThreadClock) :
    DepHeap × ThreadClock :=
  let r := (h.1 d k).ompHAfter running h.2
  (Function.update h.1 d (Function.update (h.1 d) k r.1), r.2)

/-- `OmpHappensBefore` on clock `k` of object `d`. -/
def DepHeap.happensBefore (running : Bool) (d : ℕ) (k : DepClock) (tc : ThreadClock)
    (h : DepHeap) : DepHeap :=
  Function.update h d (Function.update (h d) k ((h d k).ompHBefore running tc))

namespace TaskDependency

def annotateBegin (running : Bool) (h : DepHeap × ThreadClock) (dep : TaskDependency) :
    DepHeap × ThreadClock :=
  match dep.type with
  | .out | .inout | .mutexinoutset =>
    let h := DepHeap.happensAfter running dep.data .in_ h
    let h := DepHeap.happensAfter running dep.data .out h
    DepHeap.happensAfter running dep.data .inoutset h
  | .in_ =>
    let h := DepHeap.happensAfter running dep.data .out h
    DepHeap.happensAfter running dep.data .inoutset h
  | .inoutset =>
    let h := DepHeap.happensAfter running dep.data .in_ h
    DepHeap.happensAfter running dep.data .out h
  | _ => h

def annotateEnd (running : Bool) (tc : ThreadClock) (h : DepHeap) (dep : TaskDependency) :
    DepHeap :=
  match dep.type with
  | .out | .inout | .mutexinoutset => h.happensBefore running dep.data .out tc
  | .in_ => h.happensBefore running dep.data .in_ tc
  | .inoutset => h.happensBefore running dep.data .inoutset tc
  | _ => h

end TaskDependency

def acquireDependencies (running : Bool) (deps : List TaskDependency) (h : DepHeap × ThreadClock) :
    DepHeap × ThreadClock :=
  deps.foldl (TaskDependency.annotateBegin running) h

def releaseDependencies (running : Bool) (deps : List TaskDependency) (tc : ThreadClock)
    (h : DepHeap) : DepHeap :=
  deps.foldl (TaskDependency.annotateEnd running tc) h

/-! ## The dependence map -/

section
variable {V : Type} [DecidableEq V]

/-- `DependencyMap->insert({v, nullptr})` and, if inserted, a new `DependencyData`: the map after
it and the address found. Objects are numbered in the order of their creation. -/
def findOrNew (m : List (V × ℕ)) (v : V) : List (V × ℕ) × ℕ :=
  match m.lookup v with
  | some d => (m, d)
  | none => (m ++ [(v, m.length)], m.length)

/-- The loop over `deps` in the `dependences` callback. -/
def addDependences (m : List (V × ℕ)) : List (V × DependenceType) →
    List (V × ℕ) × List TaskDependency
  | [] => (m, [])
  | (v, ty) :: items =>
    let (m, d) := findOrNew m v
    let (m, deps) := addDependences m items
    (m, ⟨d, ty⟩ :: deps)

end

/-! ## Sibling tasks -/

/-- The parent's dependence map and its objects, the tasks' dependences and the threads' clocks.
`releases` is the history of releases with the clocks of the releasing threads. -/
structure Siblings (T V K : Type) where
  now : ℚ
  clock : T → ThreadClock
  dependencyMap : List (V × ℕ)
  heap : DepHeap
  dependencies : K → List TaskDependency
  task : K → SyncClock
  created : K → Bool
  releases : List (K × ThreadClock)

inductive SiblingOp (T K : Type) where
  | work (p : T) (o : LocalOp)
  | dependences (p : T) (κ : K)
  | acquire (p : T) (κ : K)
  | release (p : T) (κ : K)

namespace Siblings

variable {T V K : Type}

def start (T V K : Type) (now : ℚ) : Siblings T V K :=
  ⟨now, fun _ => .new, [], fun _ _ => .fresh, fun _ => [], fun _ => .fresh, fun _ => false, []⟩

variable [DecidableEq T] [DecidableEq V] [DecidableEq K]

/-- The `dependences` callback of task `κ` on thread `p`, whose depend items are `items`. -/
def dependences (t : ℚ) (p : T) (κ : K) (items : List (V × DependenceType))
    (σ : Siblings T V K) : Siblings T V K :=
  if items = [] then σ
  else
    let tc := (σ.clock p).enterState true t .omp t
    let (m, deps) := addDependences σ.dependencyMap items
    { σ with
      dependencyMap := m
      dependencies := Function.update σ.dependencies κ deps
      task := Function.update σ.task κ ((σ.task κ).ompHBefore true tc)
      clock := Function.update σ.clock p (tc.exitState true t t) }

def step (items : K → List (V × DependenceType)) (σ : Siblings T V K) (a : ℚ × SiblingOp T K) :
    Siblings T V K :=
  let σ := { σ with now := a.1 }
  match a.2 with
  | .work p o => { σ with clock := Function.update σ.clock p ((σ.clock p).exec a.1 o) }
  | .dependences p κ =>
    { σ.dependences a.1 p κ (items κ) with created := Function.update σ.created κ true }
  | .acquire p κ =>
    let r := acquireDependencies true (σ.dependencies κ) (σ.heap, σ.clock p)
    { σ with heap := r.1, clock := Function.update σ.clock p r.2 }
  | .release p κ =>
    { σ with
      heap := releaseDependencies true (σ.dependencies κ) (σ.clock p) σ.heap
      releases := (κ, σ.clock p) :: σ.releases }

/-- Time order; a task's dependences come first and once; it acquires before it releases; both
happen in `STATE_OMP`. -/
def Allowed (σ : Siblings T V K) (a : ℚ × SiblingOp T K) : Prop :=
  σ.now ≤ a.1 ∧
  match a.2 with
  | .work _ _ => True
  | .dependences _ κ => σ.created κ = false
  | .acquire p κ =>
    σ.created κ = true ∧ (σ.clock p).getState = .omp ∧ κ ∉ σ.releases.map (·.1)
  | .release p κ => σ.created κ = true ∧ (σ.clock p).getState = .omp

instance : ∀ (σ : Siblings T V K) (a : ℚ × SiblingOp T K), Decidable (σ.Allowed a)
  | _, (_, .work _ _) => inferInstanceAs (Decidable (_ ∧ True))
  | _, (_, .dependences _ _) => inferInstanceAs (Decidable (_ ∧ _))
  | _, (_, .acquire _ _) => inferInstanceAs (Decidable (_ ∧ _))
  | _, (_, .release _ _) => inferInstanceAs (Decidable (_ ∧ _))

def machine (T : Type) {V K : Type} [DecidableEq T] [DecidableEq V] [DecidableEq K]
    (items : K → List (V × DependenceType)) : Machine (Siblings T V K) (ℚ × SiblingOp T K) where
  step := step items
  guard := Allowed

instance (items : K → List (V × DependenceType)) (σ : Siblings T V K) (a : ℚ × SiblingOp T K) :
    Decidable ((machine T items).guard σ a) :=
  inferInstanceAs (Decidable (σ.Allowed a))

end Siblings

/-! ## What one clock holds -/

structure Gathers (s : SyncClock) (A : Set ThreadClock) : Prop where
  max : ∀ x, x ≠ .thread → IsGreatest
    (insert 0 ((fun c : ThreadClock => (c.clocks .useful).get x) '' A)) ((s.clocks .useful).get x)
  unused : s.syncState = .init → A = ∅

/-- The values of `CLOCK_USEFUL` that arcs carry are not negative. -/
def NonnegUseful (c : ThreadClock) : Prop := ∀ x, x ≠ .thread → 0 ≤ (c.clocks .useful).get x

theorem Gathers.fresh : Gathers .fresh ∅ where
  max x _ := by
    have hzero : ((SyncClock.fresh.clocks .useful).get x) = 0 := by cases x <;> rfl
    rw [hzero, Set.image_empty]
    exact ⟨.inl rfl, by rintro _ (rfl | h); exacts [le_refl _, h.elim]⟩
  unused _ := rfl

section
variable {s : SyncClock} {A : Set ThreadClock} {c : ThreadClock}

theorem Gathers.ompHBefore (h : Gathers s A) (hc : NonnegUseful c) (hst : c.getState ≠ .init) :
    Gathers (s.ompHBefore true c) (insert c A) where
  max x hx := by
    rw [Set.image_insert_eq, Set.insert_comm]
    by_cases hs : s.syncState = .init
    · -- the first release copies, and its value is not below the initial `0`
      rw [SyncClock.get_ompHBefore_first hs (by decide), h.unused hs, Set.image_empty]
      refine ⟨.inl rfl, ?_⟩
      rintro _ (rfl | rfl | hv)
      · exact le_refl _
      · exact hc x hx
      · exact hv.elim
    · rw [SyncClock.get_ompHBefore_later hs (by decide) hx]
      exact isGreatest_insert_max (h.max x hx) _
  unused hinit := by
    rw [SyncClock.syncState_ompHBefore] at hinit
    split at hinit
    · exact absurd hinit hst
    · exact absurd hinit ‹_›

theorem Gathers.ompHAfter (h : Gathers s A) (hst : c.getState ≠ .init) :
    Gathers (s.ompHAfter true c).1 A where
  max x hx := by rw [SyncClock.clocks_ompHAfter_fst]; exact h.max x hx
  unused hinit := by
    rw [SyncClock.syncState_ompHAfter] at hinit
    split at hinit
    · exact absurd hinit hst
    · exact absurd hinit ‹_›

end

/-! ## Whole acquires and releases -/

/-- The clocks that an item of this type waits for. -/
def DependenceType.reads : DependenceType → List DepClock
  | .out | .inout | .mutexinoutset => [.in_, .out, .inoutset]
  | .in_ => [.out, .inoutset]
  | .inoutset => [.in_, .out]
  | _ => []

/-- The clocks that an item of this type signals. -/
def DependenceType.writes : DependenceType → List DepClock
  | .out | .inout | .mutexinoutset => [.out]
  | .in_ => [.in_]
  | .inoutset => [.inoutset]
  | _ => []

def readClocks (deps : List TaskDependency) : List (ℕ × DepClock) :=
  deps.flatMap fun dep => dep.type.reads.map (dep.data, ·)

def writtenClocks (deps : List TaskDependency) : List (ℕ × DepClock) :=
  deps.flatMap fun dep => dep.type.writes.map (dep.data, ·)

theorem acquireDependencies_eq (deps : List TaskDependency) (h : DepHeap × ThreadClock) :
    acquireDependencies true deps h =
      (readClocks deps).foldl (fun h dk => DepHeap.happensAfter true dk.1 dk.2 h) h := by
  unfold acquireDependencies readClocks
  rw [List.foldl_flatMap]
  congr 1
  funext h dep
  cases hty : dep.type <;> simp [TaskDependency.annotateBegin, hty, DependenceType.reads]

theorem releaseDependencies_eq (deps : List TaskDependency) (tc : ThreadClock) (h : DepHeap) :
    releaseDependencies true deps tc h =
      (writtenClocks deps).foldl (fun h dk => DepHeap.happensBefore true dk.1 dk.2 tc h) h := by
  unfold releaseDependencies writtenClocks
  rw [List.foldl_flatMap]
  congr 1
  funext h dep
  cases hty : dep.type <;> simp [TaskDependency.annotateEnd, hty, DependenceType.writes]

section
variable {h : DepHeap} {A : ℕ → DepClock → Set ThreadClock} {tc : ThreadClock}

theorem gathers_happensBefore (hA : ∀ d k, Gathers (h d k) (A d k)) (hc : NonnegUseful tc)
    (hst : tc.getState ≠ .init) (d : ℕ) (k : DepClock) (d' : ℕ) (k' : DepClock) :
    Gathers (DepHeap.happensBefore true d k tc h d' k')
      {c | c ∈ A d' k' ∨ (c = tc ∧ (d', k') = (d, k))} := by
  unfold DepHeap.happensBefore
  by_cases hd : d' = d
  · subst hd
    by_cases hk : k' = k
    · subst hk
      have hset : {c | c ∈ A d' k' ∨ (c = tc ∧ (d', k') = (d', k'))} = insert tc (A d' k') := by
        ext c; simp [or_comm]
      rw [hset, Function.update_self, Function.update_self]
      exact (hA d' k').ompHBefore hc hst
    · simpa [hk] using hA d' k'
  · simpa [hd] using hA d' k'

theorem gathers_release (L : List (ℕ × DepClock)) (hA : ∀ d k, Gathers (h d k) (A d k))
    (hc : NonnegUseful tc) (hst : tc.getState ≠ .init) (d : ℕ) (k : DepClock) :
    Gathers (L.foldl (fun h dk => DepHeap.happensBefore true dk.1 dk.2 tc h) h d k)
      {c | c ∈ A d k ∨ (c = tc ∧ (d, k) ∈ L)} := by
  induction L generalizing h A with
  | nil => simpa using hA d k
  | cons dk L ih =>
    have hstep := ih (A := fun d' k' => {c | c ∈ A d' k' ∨ (c = tc ∧ (d', k') = (dk.1, dk.2))})
      (fun d' k' => gathers_happensBefore hA hc hst dk.1 dk.2 d' k')
    have hset : {c | c ∈ A d k ∨ (c = tc ∧ (d, k) ∈ dk :: L)} =
        {c | c ∈ {c | c ∈ A d k ∨ (c = tc ∧ (d, k) = (dk.1, dk.2))} ∨ (c = tc ∧ (d, k) ∈ L)} := by
      ext c
      simp only [Set.mem_ofPred_eq, List.mem_cons, Prod.mk.eta]
      tauto
    rw [hset]
    exact hstep

theorem gathers_happensAfter (hA : ∀ d k, Gathers (h d k) (A d k)) (hst : tc.getState ≠ .init)
    (d : ℕ) (k : DepClock) (d' : ℕ) (k' : DepClock) :
    Gathers ((DepHeap.happensAfter true d k (h, tc)).1 d' k') (A d' k') := by
  unfold DepHeap.happensAfter
  by_cases hd : d' = d
  · subst hd
    by_cases hk : k' = k
    · subst hk; simpa using (hA d' k').ompHAfter hst
    · simpa [hk] using hA d' k'
  · simpa [hd] using hA d' k'

theorem gathers_acquire (L : List (ℕ × DepClock)) (hA : ∀ d k, Gathers (h d k) (A d k))
    (hst : tc.getState ≠ .init) (hc : NonnegUseful tc) :
    let r := L.foldl (fun h dk => DepHeap.happensAfter true dk.1 dk.2 h) (h, tc)
    (∀ d k, Gathers (r.1 d k) (A d k)) ∧ r.2.stack = tc.stack ∧
    ∀ x, x ≠ .thread → IsGreatest (insert ((tc.clocks .useful).get x)
      {v | ∃ dk ∈ L, ∃ c ∈ A dk.1 dk.2, v = (c.clocks .useful).get x})
      ((r.2.clocks .useful).get x) := by
  induction L generalizing h tc with
  | nil =>
    refine ⟨hA, rfl, fun x _ => ⟨.inl rfl, ?_⟩⟩
    rintro _ (rfl | ⟨dk, hdk, -⟩)
    · exact le_refl _
    · cases hdk
  | cons dk L ih =>
    obtain ⟨d, k⟩ := dk
    have hstack : (DepHeap.happensAfter true d k (h, tc)).2.stack = tc.stack :=
      SyncClock.stack_ompHAfter true
    have hval : ∀ x, x ≠ .thread → (((DepHeap.happensAfter true d k (h, tc)).2.clocks
        .useful).get x) = max ((tc.clocks .useful).get x) (((h d k).clocks .useful).get x) :=
      fun x hx => SyncClock.get_ompHAfter (by decide) hx
    have hst' : (DepHeap.happensAfter true d k (h, tc)).2.getState ≠ .init := by
      rw [ThreadClock.getState, hstack]; exact hst
    have hc' : NonnegUseful (DepHeap.happensAfter true d k (h, tc)).2 := fun x hx => by
      rw [hval x hx]; exact (hc x hx).trans (le_max_left _ _)
    obtain ⟨hG, hS, hM⟩ := ih (fun d' k' => gathers_happensAfter hA hst d k d' k') hst' hc'
    refine ⟨hG, hS.trans hstack, fun x hx => ?_⟩
    have hfirst := isGreatest_insert_floor ((hA d k).max x hx) (hc x hx)
    rw [← hval x hx] at hfirst
    have hset : {v | ∃ dk ∈ (d, k) :: L, ∃ c ∈ A dk.1 dk.2, v = (c.clocks .useful).get x} =
        (fun c : ThreadClock => (c.clocks .useful).get x) '' A d k ∪
          {v | ∃ dk ∈ L, ∃ c ∈ A dk.1 dk.2, v = (c.clocks .useful).get x} := by
      ext v
      simp [eq_comm]
    rw [hset]
    exact isGreatest_insert_union hfirst (hM x hx)

end

end CritPath
