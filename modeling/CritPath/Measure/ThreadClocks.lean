import CritPath.Lib.Pool
import CritPath.Measure.Metrics

/-!
# Registration of the thread clocks

A thread's clock is created where it is first needed: by the library constructor,
the OMPT initialisation, `thread_begin`, an MPI call or an OpenMP callback. Two of
these also append it to `thread_clocks`, over which `finishMeasurement` counts. The
clocks in that list are those of the threads that registered, in that order
(`Inv.clocks`), and different threads have different clocks; so a clock is listed
twice iff its thread went through both places (`Inv.nodup`).
-/

namespace CritPath

open Lib

/-- The options that registration depends on. -/
structure LoadOptions where
  enabled : Bool := true
  startWithLibraryConstructor : Bool := false

/-- The library constructor registers the clock of its thread. -/
def LoadOptions.registers (o : LoadOptions) : Bool := o.startWithLibraryConstructor && o.enabled

/-- The clocks of a process; `THREAD_CLOCK` objects are numbered. `loadedBy` and `begun` record
which threads have run the constructor and `thread_begin`. -/
structure Registry (T : Type) where
  threadLocalClock : T → Option ℕ
  made : ℕ
  threadClocks : Option (List ℕ)
  toolStarted : Bool
  initialized : Bool
  loadedBy : Option T
  begun : List T

inductive LoadEvent (T : Type) where
  | onLibraryLoad (th : T)
  | omptStartTool
  | omptInitialize (th : T)
  | threadBegin (th : T)
  | mpiTimer (th : T)
  | ompTimer (th : T)
  deriving DecidableEq

namespace Registry

section
variable {T : Type}

def start (T : Type) : Registry T := ⟨fun _ => none, 0, none, false, false, none, []⟩

def makeList (s : Registry T) : Registry T :=
  { s with threadClocks := some (s.threadClocks.getD []) }

/-- `thread_clocks->push_back(thread_local_clock)`. -/
def pushClock (th : T) (s : Registry T) : Registry T :=
  { s with threadClocks := s.threadClocks.map (· ++ (s.threadLocalClock th).toList) }

variable [DecidableEq T]

/-- `thread_local_clock = new THREAD_CLOCK`. -/
def newClock (th : T) (s : Registry T) : Registry T :=
  { s with
    threadLocalClock := Function.update s.threadLocalClock th (some s.made)
    made := s.made + 1 }

/-- `if (!thread_local_clock) thread_local_clock = new THREAD_CLOCK`. -/
def makeClock (th : T) (s : Registry T) : Registry T :=
  if (s.threadLocalClock th).isNone then s.newClock th else s

def step (o : LoadOptions) (s : Registry T) : LoadEvent T → Registry T
  | .onLibraryLoad th =>
    let s := { s with loadedBy := some th }
    if o.registers then ((s.makeList).makeClock th).pushClock th else s
  | .omptStartTool => if o.enabled then { s.makeList with toolStarted := true } else s
  | .omptInitialize th => { s.makeClock th with initialized := true }
  | .threadBegin th =>
    { (s.makeClock th).pushClock th with begun := s.begun ++ [th] }
  | .mpiTimer th => s.makeClock th
  | .ompTimer th => s.makeClock th

/-- The library is loaded once, callbacks come after the initialisation of the tool that
`ompt_start_tool` has returned, and a thread begins once. -/
def allowed (s : Registry T) : LoadEvent T → Prop
  | .onLibraryLoad _ => s.loadedBy = none
  | .omptStartTool => True
  | .omptInitialize _ => s.toolStarted = true
  | .threadBegin th => s.initialized = true ∧ th ∉ s.begun
  | .mpiTimer _ => True
  | .ompTimer _ => s.initialized = true

instance (s : Registry T) : (e : LoadEvent T) → Decidable (s.allowed e)
  | .onLibraryLoad _ => inferInstanceAs (Decidable (s.loadedBy = none))
  | .omptStartTool | .mpiTimer _ => .isTrue trivial
  | .omptInitialize _ => inferInstanceAs (Decidable (s.toolStarted = true))
  | .threadBegin th => inferInstanceAs (Decidable (s.initialized = true ∧ th ∉ s.begun))
  | .ompTimer _ => inferInstanceAs (Decidable (s.initialized = true))

def machine (T : Type) [DecidableEq T] (o : LoadOptions) : Machine (Registry T) (LoadEvent T) where
  step := step o
  guard := allowed

instance (o : LoadOptions) (s : Registry T) (e : LoadEvent T) :
    Decidable ((machine T o).guard s e) :=
  inferInstanceAs (Decidable (s.allowed e))

end

/-! ## What `finishMeasurement` counts -/

section
variable {T : Type}

def clocks (s : Registry T) : List ℕ := s.threadClocks.getD []

/-- The values `finishMeasurement` reads; `values` are those of the clock objects. -/
def procClocks (s : Registry T) (values : ℕ → ClockType → CpClocks) (own : ClockType → CpClocks)
    (totalRuntimeReal : ℚ) : ProcClocks :=
  ⟨s.clocks.map values, own, totalRuntimeReal⟩

end

end Registry

/-- The fields of `MPI_COUNTS`. -/
inductive MpiCounter where
  | send
  | recv
  | isend
  | irecv
  | coll
  | icoll
  | test
  | wait
  | pers
  | probe

/-- `MPI_COUNTS`; `add` is pointwise. -/
abbrev MpiCounts := MpiCounter → ℕ

def Registry.procCounts {T : Type} (s : Registry T) (counts : ℕ → MpiCounts) (own : MpiCounts) :
    MpiCounts :=
  if s.clocks.length > 0 then s.clocks.foldl (fun sum c => sum + counts c) 0 else own

def LoadEvent.registered {T : Type} (o : LoadOptions) : LoadEvent T → Option T
  | .onLibraryLoad th => if o.registers then some th else none
  | .threadBegin th => some th
  | _ => none

def registrations {T : Type} (o : LoadOptions) (es : List (LoadEvent T)) : List T :=
  es.filterMap (LoadEvent.registered o)

def Registry.clockOf {T : Type} (s : Registry T) (th : T) : ℕ := (s.threadLocalClock th).getD 0

/-- No clock is listed twice; the number of threads, their average useful computation and the
counts of their MPI calls are those of the registered threads, each taken once. -/
structure Registry.EachOnce {T : Type} [DecidableEq T] (s : Registry T) (threads : List T) :
    Prop where
  nodup : s.clocks.Nodup
  numThreads : ∀ values own real, threads ≠ [] →
    (s.procClocks values own real).numThreads = threads.toFinset.card
  average : ∀ values own real, threads ≠ [] →
    (serialBranch (s.procClocks values own real)).avgComputation 0 =
      (∑ th ∈ threads.toFinset, (values (s.clockOf th) .useful).thread) / threads.toFinset.card
  counts : ∀ counts own, threads ≠ [] →
    s.procCounts counts own = ∑ th ∈ threads.toFinset, counts (s.clockOf th)

def Doubled {T : Type} (o : LoadOptions) (es : List (LoadEvent T)) : Prop :=
  o.registers = true ∧ ∃ th, .onLibraryLoad th ∈ es ∧ .threadBegin th ∈ es

section
variable {T : Type} {o : LoadOptions} {es : List (LoadEvent T)}

theorem registrations_concat (e : LoadEvent T) :
    registrations o (es ++ [e]) = registrations o es ++ (e.registered o).toList := by
  rw [registrations, List.filterMap_append]
  congr 1

theorem mem_registrations {th : T} : th ∈ registrations o es ↔
    (o.registers = true ∧ .onLibraryLoad th ∈ es) ∨ .threadBegin th ∈ es := by
  simp only [registrations, List.mem_filterMap]
  constructor
  · rintro ⟨e, he, hth⟩
    cases e with
    | onLibraryLoad p =>
      simp only [LoadEvent.registered] at hth
      split at hth
      · rename_i ho
        cases hth
        exact .inl ⟨ho, he⟩
      · cases hth
    | threadBegin p =>
      cases hth
      exact .inr he
    | omptStartTool => cases hth
    | omptInitialize p => cases hth
    | mpiTimer p => cases hth
    | ompTimer p => cases hth
  · rintro (⟨ho, h⟩ | h)
    · exact ⟨_, h, if_pos ho⟩
    · exact ⟨_, h, rfl⟩

end

/-! ## The invariant -/

namespace Registry

variable {T : Type}

structure Inv (s : Registry T) (regs : List T) : Prop where
  clocks : s.clocks = regs.map s.clockOf
  has : ∀ th ∈ regs, (s.threadLocalClock th).isSome
  lt : ∀ th c, s.threadLocalClock th = some c → c < s.made
  inj : ∀ th th' c, s.threadLocalClock th = some c → s.threadLocalClock th' = some c → th = th'
  list : s.toolStarted = true → s.threadClocks.isSome
  started : s.initialized = true → s.toolStarted = true

theorem inv_start (T : Type) : Inv (start T) [] where
  clocks := rfl
  has _ h := nomatch h
  lt _ _ h := nomatch h
  inj _ _ _ h := nomatch h
  list h := nomatch h
  started h := nomatch h

variable {s : Registry T} {regs : List T} {th : T}

theorem Inv.makeList (h : Inv s regs) : Inv s.makeList regs where
  clocks := h.clocks
  has := h.has
  lt := h.lt
  inj := h.inj
  list _ := rfl
  started := h.started

theorem Inv.pushClock (h : Inv s regs) (hth : (s.threadLocalClock th).isSome)
    (hlist : s.threadClocks.isSome) : Inv (s.pushClock th) (regs ++ [th]) where
  clocks := by
    obtain ⟨c, hc⟩ := Option.isSome_iff_exists.mp hth
    obtain ⟨L, hL⟩ := Option.isSome_iff_exists.mp hlist
    have hof : (s.pushClock th).clockOf = s.clockOf := rfl
    rw [hof, List.map_append, ← h.clocks]
    simp [Registry.clocks, Registry.pushClock, hL, hc, clockOf]
  has p hp := by
    rcases List.mem_append.mp hp with hp | hp
    · exact h.has p hp
    · rw [List.mem_singleton.mp hp]
      exact hth
  lt := h.lt
  inj := h.inj
  list hs := by
    rw [Registry.pushClock, Option.isSome_map]
    exact hlist
  started := h.started

/-- What the state records of the events `H` so far, and when a thread has registered twice. -/
structure Recorded (o : LoadOptions) (s : Registry T) (H : List (LoadEvent T)) : Prop where
  inv : Inv s (registrations o H)
  loadedBy : ∀ th, .onLibraryLoad th ∈ H ↔ s.loadedBy = some th
  begun : ∀ th, .threadBegin th ∈ H ↔ th ∈ s.begun
  nodup : (registrations o H).Nodup ↔ ¬ Doubled o H

theorem recorded_start (o : LoadOptions) : Recorded o (start T) [] where
  inv := inv_start T
  loadedBy th := by simp [start]
  begun th := by simp [start]
  nodup := by simp [registrations, Doubled]

theorem Recorded.doubled_concat {o : LoadOptions} {H : List (LoadEvent T)} (h : Recorded o s H)
    {e : LoadEvent T} (he : s.allowed e) : Doubled o (H ++ [e]) ↔
      Doubled o H ∨ ∃ th, e.registered o = some th ∧ th ∈ registrations o H := by
  simp only [mem_registrations]
  cases e with
  | onLibraryLoad th =>
    have hnone : ∀ p, .onLibraryLoad p ∉ H := by
      intro p hp
      have hloaded : s.loadedBy = none := he
      rw [(h.loadedBy p).mp hp] at hloaded
      cases hloaded
    by_cases ho : o.registers = true
    · simp [Doubled, LoadEvent.registered, ho, hnone]
    · simp [Doubled, LoadEvent.registered, ho]
  | threadBegin th =>
    have hnew : .threadBegin th ∉ H := fun hth => he.2 ((h.begun th).mp hth)
    simp only [Doubled, LoadEvent.registered, List.mem_append, List.mem_singleton, reduceCtorEq,
      or_false, LoadEvent.threadBegin.injEq, Option.some.injEq, exists_eq_left', hnew, and_or_left,
      exists_or, exists_eq_right]
  | omptStartTool => simp [Doubled, LoadEvent.registered]
  | omptInitialize th => simp [Doubled, LoadEvent.registered]
  | mpiTimer th => simp [Doubled, LoadEvent.registered]
  | ompTimer th => simp [Doubled, LoadEvent.registered]

theorem Recorded.nodup_concat {o : LoadOptions} {H : List (LoadEvent T)} (h : Recorded o s H)
    {e : LoadEvent T} (he : s.allowed e) :
    (registrations o (H ++ [e])).Nodup ↔ ¬ Doubled o (H ++ [e]) := by
  rw [h.doubled_concat he, not_or, ← h.nodup, registrations_concat]
  cases e.registered o with
  | none => simp
  | some th =>
    rw [Option.toList_some, List.nodup_append_comm, List.singleton_append, List.nodup_cons]
    simp [and_comm]

variable [DecidableEq T]

theorem Inv.newClock (h : Inv s regs) (hth : s.threadLocalClock th = none) :
    Inv (s.newClock th) regs := by
  have hold : ∀ p ∈ regs, (s.newClock th).threadLocalClock p = s.threadLocalClock p := by
    intro p hp
    refine Function.update_of_ne ?_ _ _
    rintro rfl
    have hsome := h.has p hp
    rw [hth] at hsome
    cases hsome
  refine ⟨?_, fun p hp => ?_, fun p c hp => ?_, fun p q c hp hq => ?_, h.list, h.started⟩
  · refine h.clocks.trans (List.map_congr_left fun p hp => ?_)
    rw [clockOf, clockOf, hold p hp]
  · rw [hold p hp]
    exact h.has p hp
  · show c < s.made + 1
    by_cases hpt : p = th
    · obtain rfl : s.made = c := by simpa [Registry.newClock, hpt] using hp
      exact Nat.lt_succ_self _
    · have hp : s.threadLocalClock p = some c := by simpa [Registry.newClock, hpt] using hp
      exact Nat.lt_succ_of_lt (h.lt p c hp)
  · refine update_inj_of_fresh h.inj (fun p' hp' => ?_) th p q c hp hq
    exact absurd (h.lt p' _ hp') (Nat.lt_irrefl _)

theorem Inv.makeClock (h : Inv s regs) (th : T) : Inv (s.makeClock th) regs := by
  unfold Registry.makeClock
  split
  · rename_i hnone
    exact h.newClock (Option.isNone_iff_eq_none.mp hnone)
  · exact h

theorem isSome_makeClock (s : Registry T) (th : T) :
    ((s.makeClock th).threadLocalClock th).isSome := by
  unfold Registry.makeClock
  split
  · simp [Registry.newClock]
  · rename_i h
    simpa [Option.isSome_iff_ne_none] using h

theorem globals_makeClock (s : Registry T) (th : T) :
    (s.makeClock th).threadClocks = s.threadClocks ∧
      (s.makeClock th).toolStarted = s.toolStarted ∧ (s.makeClock th).loadedBy = s.loadedBy ∧
      (s.makeClock th).begun = s.begun := by
  unfold Registry.makeClock
  split <;> exact ⟨rfl, rfl, rfl, rfl⟩

theorem Inv.step {o : LoadOptions} (h : Inv s regs) {e : LoadEvent T} (he : s.allowed e) :
    Inv (s.step o e) (regs ++ (e.registered o).toList) := by
  cases e with
  | onLibraryLoad th =>
    have h₀ : Inv { s with loadedBy := some th } regs := ⟨h.clocks, h.has, h.lt, h.inj, h.list,
      h.started⟩
    simp only [Registry.step, LoadEvent.registered]
    split
    · refine (h₀.makeList.makeClock th).pushClock (isSome_makeClock ..) ?_
      rw [(globals_makeClock _ th).1]
      rfl
    · simpa using h₀
  | omptStartTool =>
    show Inv _ (regs ++ [])
    rw [List.append_nil]
    simp only [Registry.step]
    split
    · have h₁ := h.makeList
      exact ⟨h₁.clocks, h₁.has, h₁.lt, h₁.inj, fun _ => rfl, fun _ => rfl⟩
    · exact h
  | omptInitialize th =>
    show Inv _ (regs ++ [])
    rw [List.append_nil]
    have h₁ := h.makeClock th
    refine ⟨h₁.clocks, h₁.has, h₁.lt, h₁.inj, h₁.list, fun _ => ?_⟩
    exact (globals_makeClock s th).2.1.trans he
  | threadBegin th =>
    have h₁ := (h.makeClock th).pushClock (isSome_makeClock s th) (by
      rw [(globals_makeClock s th).1]
      exact h.list (h.started he.1))
    exact ⟨h₁.clocks, h₁.has, h₁.lt, h₁.inj, h₁.list, h₁.started⟩
  | mpiTimer th =>
    show Inv _ (regs ++ [])
    rw [List.append_nil]
    exact h.makeClock th
  | ompTimer th =>
    show Inv _ (regs ++ [])
    rw [List.append_nil]
    exact h.makeClock th

theorem loadedBy_step (o : LoadOptions) (s : Registry T) (e : LoadEvent T) :
    (s.step o e).loadedBy = match e with | .onLibraryLoad th => some th | _ => s.loadedBy := by
  cases e with
  | onLibraryLoad th =>
    simp only [Registry.step]
    split
    · exact (globals_makeClock _ th).2.2.1
    · rfl
  | omptStartTool =>
    simp only [Registry.step]
    split <;> rfl
  | omptInitialize th => exact (globals_makeClock s th).2.2.1
  | threadBegin th => exact (globals_makeClock s th).2.2.1
  | mpiTimer th => exact (globals_makeClock s th).2.2.1
  | ompTimer th => exact (globals_makeClock s th).2.2.1

theorem begun_step (o : LoadOptions) (s : Registry T) (e : LoadEvent T) :
    (s.step o e).begun = match e with | .threadBegin th => s.begun ++ [th] | _ => s.begun := by
  cases e with
  | onLibraryLoad th =>
    simp only [Registry.step]
    split
    · exact (globals_makeClock _ th).2.2.2
    · rfl
  | omptStartTool =>
    simp only [Registry.step]
    split <;> rfl
  | omptInitialize th => exact (globals_makeClock s th).2.2.2
  | threadBegin th => rfl
  | mpiTimer th => exact (globals_makeClock s th).2.2.2
  | ompTimer th => exact (globals_makeClock s th).2.2.2

theorem Recorded.step {o : LoadOptions} {H : List (LoadEvent T)} (h : Recorded o s H)
    {e : LoadEvent T} (he : s.allowed e) : Recorded o (s.step o e) (H ++ [e]) where
  inv := by
    rw [registrations_concat]
    exact h.inv.step he
  loadedBy th := by
    rw [List.mem_append, List.mem_singleton, h.loadedBy, loadedBy_step]
    cases e with
    | onLibraryLoad p =>
      have hnone : s.loadedBy = none := he
      simp [hnone, eq_comm]
    | _ => simp
  begun th := by
    rw [List.mem_append, List.mem_singleton, h.begun, begun_step]
    cases e with
    | threadBegin p => simp
    | _ => simp
  nodup := h.nodup_concat he

theorem Recorded.run {o : LoadOptions} {H es : List (LoadEvent T)} (h : Recorded o s H)
    (hes : (machine T o).Valid s es) : Recorded o ((machine T o).run s es) (H ++ es) := by
  induction es generalizing s H with
  | nil => simpa using h
  | cons e es ih =>
    have hrest := ih (h.step hes.1) hes.2
    rwa [List.append_assoc] at hrest

/-! ## The counts -/

omit [DecidableEq T] in
theorem Inv.clockOf_inj (h : Inv s regs) {p q : T} (hp : p ∈ regs) (hq : q ∈ regs)
    (heq : s.clockOf p = s.clockOf q) : p = q := by
  obtain ⟨c, hc⟩ := Option.isSome_iff_exists.mp (h.has p hp)
  obtain ⟨c', hc'⟩ := Option.isSome_iff_exists.mp (h.has q hq)
  simp only [clockOf, hc, hc', Option.getD_some] at heq
  exact h.inj p q c hc (heq ▸ hc')

theorem Inv.eachOnce (h : Inv s regs) (hnodup : regs.Nodup) : s.EachOnce regs := by
  have hlen : s.clocks.length = regs.length := by rw [h.clocks, List.length_map]
  have hpos : regs ≠ [] → 0 < s.clocks.length := fun hne => by
    rw [hlen]
    exact List.length_pos_iff.mpr hne
  have hnum : ∀ values own real, regs ≠ [] →
      (s.procClocks values own real).numThreads = regs.toFinset.card := by
    intro values own real hne
    rw [ProcClocks.numThreads, procClocks, List.length_map, if_pos (hpos hne), hlen,
      List.toFinset_card_of_nodup hnodup]
  refine ⟨?_, hnum, fun values own real hne => ?_, fun counts own hne => ?_⟩
  · rw [h.clocks]
    exact hnodup.map_on fun p hp q hq => h.clockOf_inj hp hq
  · have hthreads : (s.procClocks values own real).threads = s.clocks.map values := by
      rw [ProcClocks.threads, procClocks, List.length_map, if_pos (hpos hne)]
    show (s.procClocks values own real).threadSums.avg0 / _ = _
    rw [hnum values own real hne, ProcClocks.avg0_eq, hthreads, h.clocks,
      List.sum_toFinset _ hnodup]
    simp only [List.map_map, Function.comp_def]
  · rw [procCounts, if_pos (hpos hne), List.sum_toFinset _ hnodup, List.sum_eq_foldl,
      List.foldl_map, h.clocks, List.foldl_map]

end Registry

/-- In a run each thread is counted once in every state iff it is not the case that the library
constructor registers the clock of the thread that loads the library and that thread begins as an
OpenMP thread as well, in either order. -/
theorem eachOnce_iff_not_doubled {T : Type} [DecidableEq T] (o : LoadOptions)
    (es : List (LoadEvent T)) (hes : (Registry.machine T o).Valid (.start T) es) :
    (∀ pre, pre <+: es →
      ((Registry.machine T o).run (.start T) pre).EachOnce (registrations o pre)) ↔
    ¬ (o.startWithLibraryConstructor = true ∧ o.enabled = true ∧
      ∃ th, .onLibraryLoad th ∈ es ∧ .threadBegin th ∈ es) := by
  have hrec : ∀ pre, pre <+: es →
      Registry.Recorded o ((Registry.machine T o).run (.start T) pre) pre := by
    rintro pre ⟨suf, rfl⟩
    exact (Registry.recorded_start o).run ((Machine.along_append pre suf).mp hes).1
  have hdoubled : Doubled o es ↔ o.startWithLibraryConstructor = true ∧ o.enabled = true ∧
      ∃ th, .onLibraryLoad th ∈ es ∧ .threadBegin th ∈ es := by
    rw [Doubled, LoadOptions.registers, Bool.and_eq_true, and_assoc]
  rw [← hdoubled]
  constructor
  · intro h
    have hend := hrec es List.prefix_rfl
    have hclocks := (h es List.prefix_rfl).nodup
    rw [hend.inv.clocks] at hclocks
    exact hend.nodup.mp (List.Nodup.of_map _ hclocks)
  · intro h pre hpre
    have hat := hrec pre hpre
    refine hat.inv.eachOnce (hat.nodup.mpr ?_)
    rintro ⟨ho, th, hload, hbegin⟩
    exact h ⟨ho, th, hpre.subset hload, hpre.subset hbegin⟩

def constructorThenOmp : List (LoadEvent ℕ) :=
  [.onLibraryLoad 0, .omptStartTool, .omptInitialize 0, .threadBegin 0, .threadBegin 1,
   .mpiTimer 0]

/-- Without the option two threads are counted. -/
theorem eachOnce_iff_not_doubled_default :
    ((Registry.machine ℕ {}).run (.start ℕ) constructorThenOmp).EachOnce
      (registrations {} constructorThenOmp) :=
  (eachOnce_iff_not_doubled {} constructorThenOmp (by decide +kernel)).mpr
    (fun h => nomatch h.1) constructorThenOmp List.prefix_rfl

/-- With the option the clock of thread 0 is listed twice: three threads are counted. -/
theorem constructor_counts_main_twice :
    (Registry.machine ℕ ⟨true, true⟩).Valid (.start ℕ) constructorThenOmp ∧
    ((Registry.machine ℕ ⟨true, true⟩).run (.start ℕ) constructorThenOmp).clocks = [0, 0, 1] ∧
    (((Registry.machine ℕ ⟨true, true⟩).run (.start ℕ) constructorThenOmp).procClocks
      (fun _ _ => {}) (fun _ => {}) 0).numThreads = 3 ∧
    (registrations ⟨true, true⟩ constructorThenOmp).toFinset.card = 2 := by
  decide +kernel

end CritPath
