import CritPath.Containers.CompactHashMap
import CritPath.Omp.Depend
import Mathlib.Data.List.Forall2
import Mathlib.Data.List.Induction

/-!
# Runs of sibling tasks

The invariant of a run: the dependence map gives different variables different
objects, a created task's dependences point to the objects of its items'
variables, every clock holds what the released tasks with such an item passed
on, and no thread's value is negative. It says exactly what an acquire merges
(`acquireDependencies_exact`).
-/

namespace CritPath

open Lib Containers

section
variable {V : Type} [DecidableEq V]

/-! ## The dependence map -/

/-- Addresses are in range and different variables have different ones. -/
structure MapOk (m : List (V × ℕ)) : Prop where
  lt : ∀ {v d}, m.lookup v = some d → d < m.length
  inj : ∀ {v w d}, m.lookup v = some d → m.lookup w = some d → v = w

/-- The map as a `CompactHashMap` has it. -/
def contentsOf (m : List (V × ℕ)) : Contents V (Option ℕ) := m.map fun e => (e.1, some e.2)

theorem lookup_eq_getElem? (m : List (V × ℕ)) (v : V) :
    m.lookup v = m[(contentsOf m).position v]?.map Prod.snd := by
  induction m with
  | nil => rfl
  | cons e m ih =>
    obtain ⟨w, d⟩ := e
    by_cases h : v = w
    · subst h
      simp [contentsOf, Contents.position, List.findIdx_cons]
    · have hne : ¬ w = v := fun he => h he.symm
      have hbeq : (v == w) = false := beq_eq_false_iff_ne.mpr h
      rw [List.lookup_cons, hbeq]
      simpa [contentsOf, Contents.position, List.findIdx_cons, hne] using ih

/-- `insert({v, nullptr})`, and a new object for a new entry, is what `findOrNew` says. -/
theorem findOrNew_represents {hash : V → ℕ} {map : CompactHashMap V (Option ℕ)}
    {m : List (V × ℕ)} (h : map.Represents hash (contentsOf m)) (v : V) :
    ∃ pos added map', map.insert hash v none = some ((pos, added), map') ∧
      (if added then map'.assign pos (some m.length) else map').Represents hash
        (contentsOf (findOrNew m v).1) ∧
      (contentsOf (findOrNew m v).1)[pos]? = some (v, some (findOrNew m v).2) := by
  have hlength : (contentsOf m).length = m.length := List.length_map _
  by_cases hpos : (contentsOf m).position v < (contentsOf m).length
  · obtain ⟨x, hx⟩ := Contents.key_at_position hpos
    obtain ⟨e, he, hex⟩ : ∃ e, m[(contentsOf m).position v]? = some e ∧ (e.1, some e.2) = (v, x) := by
      rw [contentsOf, List.getElem?_map] at hx
      exact Option.map_eq_some_iff.mp hx
    have hfound : findOrNew m v = (m, e.2) := by
      rw [findOrNew, lookup_eq_getElem?, he]
      rfl
    refine ⟨_, false, map, h.insert_present hpos none, ?_⟩
    have hvalue : x = some e.2 := (congrArg Prod.snd hex).symm
    rw [hfound]
    exact ⟨h, hvalue ▸ hx⟩
  · have hnew : findOrNew m v = (m ++ [(v, m.length)], m.length) := by
      rw [findOrNew, lookup_eq_getElem?, List.getElem?_eq_none (by omega)]
      rfl
    refine ⟨_, true, _, h.insert_absent hpos none, ?_⟩
    have hcontents : contentsOf (m ++ [(v, m.length)]) = contentsOf m ++ [(v, some m.length)] :=
      List.map_append
    rw [hnew, hcontents]
    exact ⟨h.emplace_assign hpos none _, by simp⟩

/-- Dependence `dep` was made for item `it`. -/
def PointsTo (m : List (V × ℕ)) (it : V × DependenceType) (dep : TaskDependency) : Prop :=
  m.lookup it.1 = some dep.data ∧ dep.type = it.2

theorem lookup_snoc (m : List (V × ℕ)) (v w : V) (d : ℕ) :
    (m ++ [(v, d)]).lookup w = (m.lookup w).or (if w = v then some d else none) := by
  rw [List.lookup_append]
  congr 1
  by_cases h : w = v
  · simp [h]
  · have hwv : (w == v) = false := beq_eq_false_iff_ne.mpr h
    simp [List.lookup_cons, h, hwv]

theorem findOrNew_spec {m : List (V × ℕ)} (hm : MapOk m) (v : V) :
    MapOk (findOrNew m v).1 ∧ (findOrNew m v).1.lookup v = some (findOrNew m v).2 ∧
      ∀ {w d}, m.lookup w = some d → (findOrNew m v).1.lookup w = some d := by
  unfold findOrNew
  cases hv : m.lookup v with
  | some d => exact ⟨hm, hv, fun h => h⟩
  | none =>
    have hcases : ∀ {w d}, (m ++ [(v, m.length)]).lookup w = some d →
        m.lookup w = some d ∨ (w = v ∧ d = m.length) := by
      intro w d h
      rw [lookup_snoc] at h
      cases hw : m.lookup w with
      | some d' => rw [hw] at h; exact .inl h
      | none =>
        rw [hw] at h
        split at h
        · exact .inr ⟨‹_›, by simpa [eq_comm] using h⟩
        · cases h
    simp only
    refine ⟨⟨fun h => ?_, fun h h' => ?_⟩, ?_, fun h => ?_⟩
    · rw [List.length_append, List.length_singleton]
      rcases hcases h with h | ⟨-, rfl⟩
      · have := hm.lt h
        omega
      · omega
    · -- a new address is none of the old ones
      rcases hcases h with hv' | ⟨hv', hd⟩ <;> rcases hcases h' with hw' | ⟨hw', hd'⟩
      · exact hm.inj hv' hw'
      · have := hm.lt hv'
        omega
      · have := hm.lt hw'
        omega
      · rw [hv', hw']
    · simp [lookup_snoc, hv]
    · simp [lookup_snoc, h]

theorem addDependences_spec {m : List (V × ℕ)} (hm : MapOk m) (items : List (V × DependenceType)) :
    MapOk (addDependences m items).1 ∧
      (∀ {w d}, m.lookup w = some d → (addDependences m items).1.lookup w = some d) ∧
      List.Forall₂ (PointsTo (addDependences m items).1) items (addDependences m items).2 := by
  induction items generalizing m with
  | nil => exact ⟨hm, fun h => h, .nil⟩
  | cons it items ih =>
    obtain ⟨v, ty⟩ := it
    obtain ⟨hm₁, hv, hkeep⟩ := findOrNew_spec hm v
    obtain ⟨hm₂, hkeep₂, hall⟩ := ih hm₁
    exact ⟨hm₂, fun h => hkeep₂ (hkeep h), .cons ⟨hkeep₂ hv, rfl⟩ hall⟩

end

/-! ## Conflicts -/

def trackedTypes : List DependenceType := [.in_, .out, .inout, .mutexinoutset, .inoutset]

/-- Two tasks conflict: they name a common variable with types that are neither both `in` nor both
`inoutset`. -/
def Conflict {V : Type} (xs ys : List (V × DependenceType)) : Prop :=
  ∃ v tx ty, (v, tx) ∈ xs ∧ (v, ty) ∈ ys ∧ ¬ (tx = .in_ ∧ ty = .in_) ∧
    ¬ (tx = .inoutset ∧ ty = .inoutset)

/-- An item waits for the clocks that the conflicting types signal. -/
theorem reads_iff_writes {tx ty : DependenceType} (hx : tx ∈ trackedTypes) (hy : ty ∈ trackedTypes) :
    (∃ k ∈ tx.writes, k ∈ ty.reads) ↔
      ¬ (tx = .in_ ∧ ty = .in_) ∧ ¬ (tx = .inoutset ∧ ty = .inoutset) := by
  revert hx hy
  cases tx <;> cases ty <;> decide

theorem mem_readClocks {deps : List TaskDependency} {d : ℕ} {k : DepClock} :
    (d, k) ∈ readClocks deps ↔ ∃ dep ∈ deps, dep.data = d ∧ k ∈ dep.type.reads := by
  simp [readClocks, and_comm, and_left_comm]

theorem mem_writtenClocks {deps : List TaskDependency} {d : ℕ} {k : DepClock} :
    (d, k) ∈ writtenClocks deps ↔ ∃ dep ∈ deps, dep.data = d ∧ k ∈ dep.type.writes := by
  simp [writtenClocks, and_comm, and_left_comm]

section
variable {V : Type} [DecidableEq V]

theorem PointsTo.exists_dep {m : List (V × ℕ)} {items : List (V × DependenceType)}
    {deps : List TaskDependency} (h : List.Forall₂ (PointsTo m) items deps)
    {it : V × DependenceType} (hit : it ∈ items) : ∃ dep ∈ deps, PointsTo m it dep := by
  induction h with
  | nil => cases hit
  | cons hp _ ih =>
    rcases List.mem_cons.mp hit with rfl | hit
    · exact ⟨_, List.mem_cons_self .., hp⟩
    · obtain ⟨dep, hdep, hp⟩ := ih hit
      exact ⟨dep, List.mem_cons_of_mem _ hdep, hp⟩

theorem PointsTo.exists_item {m : List (V × ℕ)} {items : List (V × DependenceType)}
    {deps : List TaskDependency} (h : List.Forall₂ (PointsTo m) items deps)
    {dep : TaskDependency} (hdep : dep ∈ deps) : ∃ it ∈ items, PointsTo m it dep := by
  induction h with
  | nil => cases hdep
  | cons hp _ ih =>
    rcases List.mem_cons.mp hdep with rfl | hdep
    · exact ⟨_, List.mem_cons_self .., hp⟩
    · obtain ⟨it, hit, hp⟩ := ih hdep
      exact ⟨it, List.mem_cons_of_mem _ hit, hp⟩

/-- Some clock is written by the one task and read by the other exactly when they conflict. -/
theorem shared_clock_iff {m : List (V × ℕ)} (hm : MapOk m) {xs ys : List (V × DependenceType)}
    {dx dy : List TaskDependency} (hx : List.Forall₂ (PointsTo m) xs dx)
    (hy : List.Forall₂ (PointsTo m) ys dy) (htx : ∀ it ∈ xs, it.2 ∈ trackedTypes)
    (hty : ∀ it ∈ ys, it.2 ∈ trackedTypes) :
    (∃ dk, dk ∈ writtenClocks dx ∧ dk ∈ readClocks dy) ↔ Conflict xs ys := by
  constructor
  · rintro ⟨⟨d, k⟩, hw, hr⟩
    obtain ⟨ex, hex, rfl, hkx⟩ := mem_writtenClocks.mp hw
    obtain ⟨ey, hey, hd, hky⟩ := mem_readClocks.mp hr
    obtain ⟨⟨v, tx⟩, hitx, hlx, hex'⟩ := PointsTo.exists_item hx hex
    obtain ⟨⟨w, ty⟩, hity, hly, hey'⟩ := PointsTo.exists_item hy hey
    -- one object, so one variable
    obtain rfl : v = w := hm.inj hlx (by rw [hly, hd])
    simp only at hex' hey'
    rw [hex'] at hkx
    rw [hey'] at hky
    exact ⟨v, tx, ty, hitx, hity, (reads_iff_writes (htx _ hitx) (hty _ hity)).mp ⟨k, hkx, hky⟩⟩
  · rintro ⟨v, tx, ty, hitx, hity, hconf⟩
    obtain ⟨k, hkx, hky⟩ := (reads_iff_writes (htx _ hitx) (hty _ hity)).mpr hconf
    obtain ⟨ex, hex, hlx, hex'⟩ := PointsTo.exists_dep hx hitx
    obtain ⟨ey, hey, hly, hey'⟩ := PointsTo.exists_dep hy hity
    have hd : ey.data = ex.data := Option.some.inj (hly.symm.trans hlx)
    refine ⟨(ex.data, k), mem_writtenClocks.mpr ⟨ex, hex, rfl, ?_⟩,
      mem_readClocks.mpr ⟨ey, hey, hd, ?_⟩⟩
    · rw [hex']; exact hkx
    · rw [hey']; exact hky

end

/-! ## The invariant -/

namespace Siblings

variable {T V K : Type} {items : K → List (V × DependenceType)} {σ : Siblings T V K}

/-- The clocks that were released to clock `k` of object `d`. -/
def releasedTo (σ : Siblings T V K) (d : ℕ) (k : DepClock) : Set ThreadClock :=
  {c | ∃ κ, (κ, c) ∈ σ.releases ∧ (d, k) ∈ writtenClocks (σ.dependencies κ)}

variable [DecidableEq V]

structure Inv (items : K → List (V × DependenceType)) (σ : Siblings T V K) : Prop where
  nonneg : ∀ p x, x ≠ .thread → 0 ≤ (σ.clock p).elapsed .useful x σ.now
  map : MapOk σ.dependencyMap
  pointsTo : ∀ κ, σ.created κ = true →
    List.Forall₂ (PointsTo σ.dependencyMap) (items κ) (σ.dependencies κ)
  uncreated : ∀ κ, σ.created κ = false → σ.dependencies κ = [] ∧ ∀ c, (κ, c) ∉ σ.releases
  gathers : ∀ d k, Gathers (σ.heap d k) (σ.releasedTo d k)

theorem Inv.start (now : ℚ) : Inv items (start T V K now) where
  nonneg _ _ _ := (ThreadClock.elapsed_new ..).ge
  map := ⟨fun {_ _} h => (Option.some_ne_none _ h.symm).elim,
    fun {_ _ _} h => (Option.some_ne_none _ h.symm).elim⟩
  pointsTo κ h := by cases h
  uncreated κ _ := ⟨rfl, fun _ h => by cases h⟩
  gathers d k := by
    have hset : (Siblings.start T V K now).releasedTo d k = ∅ := by
      ext c; simp [releasedTo, Siblings.start]
    rw [hset]
    exact Gathers.fresh

theorem Inv.tick (h : Inv items σ) {t : ℚ} (ht : σ.now ≤ t) : Inv items { σ with now := t } where
  nonneg p x hx := (h.nonneg p x hx).trans (ThreadClock.elapsed_mono _ _ _ ht)
  map := h.map
  pointsTo := h.pointsTo
  uncreated := h.uncreated
  gathers := h.gathers

theorem Inv.nonnegUseful (h : Inv items σ) {p : T} (hp : (σ.clock p).getState = .omp) :
    NonnegUseful (σ.clock p) := fun x hx => by
  have := h.nonneg p x hx
  rwa [ThreadClock.elapsed_of_stopped (by rw [hp]; rfl)] at this

theorem Inv.setClock [DecidableEq T] (h : Inv items σ) {p : T} {c : ThreadClock}
    (hc : ∀ x, x ≠ .thread → (σ.clock p).elapsed .useful x σ.now ≤ c.elapsed .useful x σ.now) :
    Inv items { σ with clock := Function.update σ.clock p c } where
  nonneg q x hx := by
    by_cases hq : q = p
    · subst hq
      simp only [Function.update_self]
      exact (h.nonneg q x hx).trans (hc x hx)
    · simp only [Function.update_of_ne hq]
      exact h.nonneg q x hx
  map := h.map
  pointsTo := h.pointsTo
  uncreated := h.uncreated
  gathers := h.gathers

theorem Inv.acquire [DecidableEq T] (h : Inv items σ) {p : T} (hp : (σ.clock p).getState = .omp) (κ : K) :
    let r := acquireDependencies true (σ.dependencies κ) (σ.heap, σ.clock p)
    Inv items { σ with heap := r.1, clock := Function.update σ.clock p r.2 } := by
  have hst : (σ.clock p).getState ≠ .init := by rw [hp]; decide
  obtain ⟨hG, hS, hM⟩ := gathers_acquire (readClocks (σ.dependencies κ)) h.gathers hst
    (h.nonnegUseful hp)
  simp only [acquireDependencies_eq]
  have hgrow := h.setClock (p := p) (c := ((readClocks (σ.dependencies κ)).foldl
    (fun h dk => DepHeap.happensAfter true dk.1 dk.2 h) (σ.heap, σ.clock p)).2) fun x hx => by
      simp only [ThreadClock.elapsed, ThreadClock.getState, hS]
      have := (hM x hx).2 (.inl rfl)
      linarith
  exact ⟨hgrow.nonneg, hgrow.map, hgrow.pointsTo, hgrow.uncreated, hG⟩

theorem Inv.release (h : Inv items σ) {p : T} {κ : K} (hκ : σ.created κ = true)
    (hp : (σ.clock p).getState = .omp) :
    Inv items { σ with
      heap := releaseDependencies true (σ.dependencies κ) (σ.clock p) σ.heap
      releases := (κ, σ.clock p) :: σ.releases } := by
  have hst : (σ.clock p).getState ≠ .init := by rw [hp]; decide
  refine ⟨h.nonneg, h.map, h.pointsTo, fun κ' hκ' => ⟨(h.uncreated κ' hκ').1, fun c hc => ?_⟩,
    fun d k => ?_⟩
  · rcases List.mem_cons.mp hc with heq | hc
    · obtain ⟨rfl, -⟩ := Prod.mk.injEq .. ▸ heq
      rw [hκ] at hκ'
      cases hκ'
    · exact (h.uncreated κ' hκ').2 c hc
  · have hrel := gathers_release (writtenClocks (σ.dependencies κ)) h.gathers (h.nonnegUseful hp)
      hst d k
    rw [← releaseDependencies_eq] at hrel
    convert hrel using 1
    ext c
    simp only [releasedTo, Set.mem_ofPred_eq, List.mem_cons, Prod.mk.injEq]
    constructor
    · rintro ⟨κ', ⟨rfl, rfl⟩ | hmem, hw⟩
      · exact .inr ⟨rfl, hw⟩
      · exact .inl ⟨κ', hmem, hw⟩
    · rintro (⟨κ', hmem, hw⟩ | ⟨rfl, hw⟩)
      · exact ⟨κ', .inr hmem, hw⟩
      · exact ⟨κ, .inl ⟨rfl, rfl⟩, hw⟩

variable [DecidableEq K]

/-- A task gets its dependences. No task has released to the clocks of the new ones. -/
theorem Inv.addDependences (h : Inv items σ) {κ : K} (hκ : σ.created κ = false) :
    Inv items { σ with
      dependencyMap := (CritPath.addDependences σ.dependencyMap (items κ)).1
      dependencies := Function.update σ.dependencies κ
        (CritPath.addDependences σ.dependencyMap (items κ)).2
      created := Function.update σ.created κ true } := by
  obtain ⟨hmap, hkeep, hall⟩ := addDependences_spec h.map (items κ)
  refine ⟨h.nonneg, hmap, fun κ' hκ' => ?_, fun κ' hκ' => ?_, fun d k => ?_⟩
  · by_cases he : κ' = κ
    · subst he
      simp only [Function.update_self]
      exact hall
    · simp only [Function.update_of_ne he] at hκ' ⊢
      exact (h.pointsTo κ' hκ').imp fun it dep hp => ⟨hkeep hp.1, hp.2⟩
  · have he : κ' ≠ κ := by
      rintro rfl
      simp at hκ'
    simp only [Function.update_of_ne he] at hκ' ⊢
    exact h.uncreated κ' hκ'
  · convert h.gathers d k using 1
    ext c
    simp only [releasedTo, Set.mem_ofPred_eq]
    refine exists_congr fun κ' => and_congr_right fun hrel => ?_
    have he : κ' ≠ κ := by
      rintro rfl
      exact (h.uncreated κ' hκ).2 c hrel
    rw [Function.update_of_ne he]

variable [DecidableEq T]

theorem Inv.dependences (h : Inv items σ) {κ : K} (hκ : σ.created κ = false) (p : T) :
    Inv items { σ.dependences σ.now p κ (items κ) with
      created := Function.update σ.created κ true } := by
  unfold Siblings.dependences
  split
  · -- no items: the callback does nothing
    rename_i hnil
    have := h.addDependences hκ
    rw [hnil] at this
    have hdeps : Function.update σ.dependencies κ [] = σ.dependencies := by
      rw [← (h.uncreated κ hκ).1, Function.update_eq_self]
    simpa only [CritPath.addDependences, hdeps] using this
  · have h' := h.addDependences hκ
    refine ⟨fun q x hx => ?_, h'.map, h'.pointsTo, h'.uncreated, h'.gathers⟩
    have := (h.setClock (p := p)
      (c := ((σ.clock p).enterState true σ.now .omp σ.now).exitState true σ.now σ.now) fun x _ => by
        rw [ThreadClock.elapsed_exitState, ThreadClock.elapsed_enterState]).nonneg q x hx
    exact this

theorem Inv.step (h : Inv items σ) {a : ℚ × SiblingOp T K} (ha : σ.Allowed a) :
    Inv items (σ.step items a) := by
  obtain ⟨t, op⟩ := a
  obtain ⟨ht, hop⟩ := ha
  have h' := h.tick ht
  cases op with
  | work p o => exact h'.setClock fun x hx => ThreadClock.le_elapsed_exec _ o hx t
  | dependences p κ => exact h'.dependences hop p
  | acquire p κ => exact h'.acquire hop.2.1 κ
  | release p κ => exact h'.release hop.1 hop.2

theorem inv_run (now : ℚ) {as : List (ℚ × SiblingOp T K)}
    (h : (machine T items).Valid (.start T V K now) as) :
    Inv items ((machine T items).run (.start T V K now) as) :=
  h.inv (fun _ _ hi ha => hi.step ha) (.start now)

/-- The history records the releases of the run. -/
theorem mem_releases_iff (items : K → List (V × DependenceType)) (now : ℚ)
    (as : List (ℚ × SiblingOp T K)) (κ : K) (c : ThreadClock) :
    (κ, c) ∈ ((machine T items).run (.start T V K now) as).releases ↔
      ∃ pre t q post, as = pre ++ (t, .release q κ) :: post ∧
        c = ((machine T items).run (.start T V K now) pre).clock q := by
  induction as using List.reverseRecOn with
  | nil => simp [Siblings.start]
  | append_singleton as a ih =>
    have hstep : (κ, c) ∈ ((machine T items).run (.start T V K now) (as ++ [a])).releases ↔
        (κ, c) ∈ ((machine T items).run (.start T V K now) as).releases ∨
        ∃ q, a.2 = .release q κ ∧ c = ((machine T items).run (.start T V K now) as).clock q := by
      rw [Machine.run_concat]
      obtain ⟨t, op⟩ := a
      cases op with
      | work p o => simp [machine, step]
      | dependences p κ' =>
        simp only [machine, step, Siblings.dependences]
        split <;> simp
      | acquire p κ' => simp [machine, step]
      | release p κ' =>
        simp only [machine, step, List.mem_cons, Prod.mk.injEq, SiblingOp.release.injEq]
        constructor
        · rintro (⟨rfl, rfl⟩ | h)
          · exact .inr ⟨p, ⟨rfl, rfl⟩, rfl⟩
          · exact .inl h
        · rintro (h | ⟨q, ⟨rfl, rfl⟩, rfl⟩)
          · exact .inr h
          · exact .inl ⟨rfl, rfl⟩
    rw [hstep, ih]
    constructor
    · rintro (⟨pre, t, q, post, rfl, hc⟩ | ⟨q, ha, hc⟩)
      · exact ⟨pre, t, q, post ++ [a], by simp, hc⟩
      · exact ⟨as, a.1, q, [], by simp [← ha], hc⟩
    · rintro ⟨pre, t, q, post, heq, hc⟩
      rcases List.eq_nil_or_concat post with rfl | ⟨post, b, rfl⟩
      · obtain ⟨rfl, ha⟩ := List.append_inj' heq rfl
        simp only [List.cons.injEq, and_true] at ha
        exact .inr ⟨q, by rw [ha], hc⟩
      · rw [List.concat_eq_append, ← List.cons_append, ← List.append_assoc] at heq
        obtain ⟨rfl, -⟩ := List.append_inj' heq rfl
        exact .inl ⟨pre, t, q, post, rfl, hc⟩

end Siblings

/-- After a task's acquire, the thread's `CLOCK_USEFUL` is the largest of its value before and of
the values that the threads had which released a conflicting sibling earlier. -/
theorem acquireDependencies_exact {T V K : Type} [DecidableEq T] [DecidableEq V] [DecidableEq K]
    (items : K → List (V × DependenceType)) (htypes : ∀ κ, ∀ it ∈ items κ, it.2 ∈ trackedTypes)
    (now t : ℚ) (as : List (ℚ × SiblingOp T K)) (p : T) (κ : K)
    (hvalid : (Siblings.machine T items).Valid (.start T V K now) (as ++ [(t, .acquire p κ)]))
    (x : Comp) (hx : x ≠ .thread) :
    IsGreatest
      (insert (((((Siblings.machine T items).run (.start T V K now) as).clock p).clocks
          .useful).get x)
        {v | ∃ pre u q κ' post, as = pre ++ (u, .release q κ') :: post ∧
          Conflict (items κ') (items κ) ∧
          v = (((((Siblings.machine T items).run (.start T V K now) pre).clock q).clocks
            .useful).get x)})
      (((((Siblings.machine T items).run (.start T V K now)
        (as ++ [(t, .acquire p κ)])).clock p).clocks .useful).get x) := by
  obtain ⟨hpre, hlast⟩ := (Machine.along_append _ _).mp hvalid
  obtain ⟨-, hcreated, hp, -⟩ := hlast.1
  have hinv := Siblings.inv_run now hpre
  obtain ⟨σ, hσ⟩ : ∃ σ, σ = (Siblings.machine T items).run (.start T V K now) as := ⟨_, rfl⟩
  rw [← hσ] at hcreated hp hinv
  obtain ⟨-, -, hM⟩ := gathers_acquire (readClocks (σ.dependencies κ)) hinv.gathers
    (by rw [hp]; decide) (hinv.nonnegUseful hp)
  -- the values read are those of the conflicting siblings
  have hset : {v | ∃ dk ∈ readClocks (σ.dependencies κ), ∃ c ∈ σ.releasedTo dk.1 dk.2,
        v = (c.clocks .useful).get x} =
      {v | ∃ pre u q κ' post, as = pre ++ (u, .release q κ') :: post ∧
        Conflict (items κ') (items κ) ∧
        v = (((((Siblings.machine T items).run (.start T V K now) pre).clock q).clocks
          .useful).get x)} := by
    have hshared : ∀ κ' c, (κ', c) ∈ σ.releases →
        ((∃ dk, dk ∈ writtenClocks (σ.dependencies κ') ∧ dk ∈ readClocks (σ.dependencies κ)) ↔
          Conflict (items κ') (items κ)) := by
      intro κ' c hrel
      have hc' : σ.created κ' = true := by
        cases hk : σ.created κ' with
        | true => rfl
        | false => exact absurd hrel ((hinv.uncreated κ' hk).2 c)
      exact shared_clock_iff hinv.map (hinv.pointsTo κ' hc') (hinv.pointsTo κ hcreated) (htypes κ')
        (htypes κ)
    ext v
    constructor
    · rintro ⟨dk, hdk, c, ⟨κ', hrel, hw⟩, rfl⟩
      have hconf := (hshared κ' c hrel).mp ⟨dk, hw, hdk⟩
      rw [hσ] at hrel
      obtain ⟨pre, u, q, post, hsplit, rfl⟩ := (Siblings.mem_releases_iff items now as κ' c).mp hrel
      exact ⟨pre, u, q, κ', post, hsplit, hconf, rfl⟩
    · rintro ⟨pre, u, q, κ', post, hsplit, hconf, rfl⟩
      have hrel := (Siblings.mem_releases_iff items now as κ' _).mpr ⟨pre, u, q, post, hsplit, rfl⟩
      rw [← hσ] at hrel
      obtain ⟨dk, hw, hdk⟩ := (hshared κ' _ hrel).mpr hconf
      exact ⟨dk, hdk, _, ⟨κ', hrel, hw⟩, rfl⟩
  have hval : ((Siblings.machine T items).run (.start T V K now) (as ++ [(t, .acquire p κ)])).clock
      p = (acquireDependencies true (σ.dependencies κ) (σ.heap, σ.clock p)).2 := by
    rw [Machine.run_concat, ← hσ]
    simp [Siblings.machine, Siblings.step]
  rw [hval, acquireDependencies_eq, ← hset, ← hσ]
  exact hM x hx

def writerReader (κ : Bool) : List (Bool × DependenceType) := [(false, if κ then .in_ else .out)]

def writerRun : List (ℚ × SiblingOp Bool Bool) :=
  [(1, .work false (.enterState .omp)), (1, .work true (.enterState .omp)),
   (1, .dependences false false), (1, .dependences false true), (2, .acquire false false),
   (2, .work false (.enterState .useful)), (5, .work false .exitState), (5, .release false false)]

/-- The reader starts on the other thread after 3 units of useful work. -/
theorem acquireDependencies_exact_writerReader :
    (((((Siblings.machine Bool writerReader).run (.start Bool Bool Bool 0)
      (writerRun ++ [(6, .acquire true true)])).clock true).clocks .useful).get .critical) = 3 ∧
    IsGreatest
      (insert (((((Siblings.machine Bool writerReader).run (.start Bool Bool Bool 0)
          writerRun).clock true).clocks .useful).get .critical)
        {v | ∃ pre u q κ' post, writerRun = pre ++ (u, .release q κ') :: post ∧
          Conflict (writerReader κ') (writerReader true) ∧
          v = (((((Siblings.machine Bool writerReader).run (.start Bool Bool Bool 0) pre).clock
            q).clocks .useful).get .critical)})
      (((((Siblings.machine Bool writerReader).run (.start Bool Bool Bool 0)
        (writerRun ++ [(6, .acquire true true)])).clock true).clocks .useful).get .critical) :=
  ⟨by decide +kernel, acquireDependencies_exact writerReader (by decide) 0 6 writerRun true true
    (by decide +kernel) .critical (by decide)⟩

end CritPath
