import CritPath.Clock.System
import CritPath.Lib.LongestPath
import Mathlib.Data.Fintype.Basic

/-!
# Critical clocks are longest paths

A chain follows threads and arcs: it stays on a thread while time passes, and
it goes from an `OmpHBefore` of one thread on a sync clock to an `OmpHAfter` of
another one on it, with no reset in between. On a thread it gains the time
spent in states in which clock `i` runs; an arc made in state `q` gains the
time between its ends if `i` runs in `q`.

The clocks do not follow chains. They keep offsets (the accumulated time minus
the start time while a clock runs) and take maxima of offsets. That is the same
as long as all arcs on a sync clock between two resets are made in one state,
and this state is not `STATE_INIT`, with which a sync clock marks that it holds
nothing (`SyncInv`).
-/

namespace CritPath

open Lib

section
variable {T S : Type} (es : List (Event T S))

/-- Event `k` of the run is the call `op`. -/
def OpAt (k : ℕ) (op : Op T S) : Prop := es[k]?.map (·.op) = some op

/-- Event `k` is an arc between thread `th` and sync clock `s`. -/
def ArcAt (s : S) (k : ℕ) (th : T) : Prop :=
  OpAt es k (.ompHBefore s th) ∨ OpAt es k (.ompHAfter s th)

/-- No reset of `s` strictly between events `j` and `k`. -/
def NoReset (s : S) (j k : ℕ) : Prop := ∀ m, j < m → m < k → ¬ OpAt es m (.ompCReset s)

/-- Event `j` is an `OmpHBefore` of thread `a` that `s` still holds before event `k`. -/
def Held (s : S) (k j : ℕ) (a : T) : Prop :=
  OpAt es j (.ompHBefore s a) ∧ j < k ∧ NoReset es s j k

variable [DecidableEq T] [DecidableEq S]

instance (k : ℕ) (op : Op T S) : Decidable (OpAt es k op) :=
  inferInstanceAs (Decidable (_ = _))

instance (s : S) (k : ℕ) (th : T) : Decidable (ArcAt es s k th) :=
  inferInstanceAs (Decidable (_ ∨ _))

instance (s : S) (j k : ℕ) : Decidable (NoReset es s j k) :=
  decidable_of_iff (∀ m < k, j < m → ¬ OpAt es m (.ompCReset s))
    ⟨fun h m h₁ h₂ => h m h₂ h₁, fun h m h₂ h₁ => h m h₁ h₂⟩

instance (s : S) (k j : ℕ) (a : T) : Decidable (Held es s k j a) :=
  inferInstanceAs (Decidable (_ ∧ _))

/-- Time order, arcs made in one state between two resets, and no `OmpHAfter` before the first
`OmpHBefore`. -/
structure Disciplined : Prop where
  sorted : es.Pairwise (·.time ≤ ·.time)
  agree : ∀ {s j k a b}, j < k → NoReset es s j k → ArcAt es s j a → ArcAt es s k b →
    stateAt es j a = stateAt es k b
  preceded : ∀ {s k b}, OpAt es k (.ompHAfter s b) → ∃ j a, Held es s k j a

/-- The chains of a run as paths: instant `k` is the one after the first `k` events. -/
def chains (i : ClockType) : Diagram T ℚ where
  gain k th := runTerm (stateAt es k th) i (timeAt es (k + 1) - timeAt es k)
  arc j a k b c := ∃ s j' k', j = j' + 1 ∧ k = k' + 1 ∧ Held es s k' j' a ∧
    OpAt es k' (.ompHAfter s b) ∧ c = runTerm (stateAt es j' a) i (timeAt es k - timeAt es j)
  arc_lt := by
    rintro _ _ _ _ _ ⟨s, j, k, rfl, rfl, ⟨-, hlt, -⟩, -⟩
    omega

/-- Some chain of weight `w` ends at thread `th` at time `t`, at or after the last event. -/
def ChainTo (i : ClockType) (th : T) (t w : ℚ) : Prop :=
  ∃ x, (chains es i).Path es.length th x ∧
    w = x + runTerm (stateAt es es.length th) i (t - timeAt es es.length)

end

section
variable {T S : Type} {es : List (Event T S)} {s : S} {k j : ℕ} {a : T} {e : Event T S}

theorem opAt_of_some (h : es[k]? = some e) (op : Op T S) : OpAt es k op ↔ e.op = op := by
  simp [OpAt, h]

theorem not_opAt_of_none (h : es[k]? = none) (op : Op T S) : ¬ OpAt es k op := by
  simp [OpAt, h]

theorem OpAt.lt {op : Op T S} (h : OpAt es k op) : k < es.length := by
  by_contra hk
  exact not_opAt_of_none (List.getElem?_eq_none (not_lt.mp hk)) op h

theorem ArcAt.lt (h : ArcAt es s k a) : k < es.length := h.elim OpAt.lt OpAt.lt

theorem not_held_zero : ¬ Held es s 0 j a := fun h => absurd h.2.1 (Nat.not_lt_zero j)

theorem held_succ : Held es s (k + 1) j a ↔
    (Held es s k j a ∧ ¬ OpAt es k (.ompCReset s)) ∨ (j = k ∧ OpAt es k (.ompHBefore s a)) := by
  constructor
  · rintro ⟨hop, hlt, hno⟩
    rcases Nat.lt_succ_iff_lt_or_eq.mp hlt with hjk | rfl
    · exact .inl ⟨⟨hop, hjk, fun m h₁ h₂ => hno m h₁ (by omega)⟩, hno k hjk (by omega)⟩
    · exact .inr ⟨rfl, hop⟩
  · rintro (⟨⟨hop, hlt, hno⟩, hk⟩ | ⟨rfl, hop⟩)
    · refine ⟨hop, by omega, fun m h₁ h₂ => ?_⟩
      rcases Nat.lt_succ_iff_lt_or_eq.mp h₂ with h | rfl
      · exact hno m h₁ h
      · exact hk
    · exact ⟨hop, by omega, fun m h₁ h₂ => by omega⟩

variable [DecidableEq T] [DecidableEq S]

theorem Disciplined.of_lt (hs : es.Pairwise (·.time ≤ ·.time))
    (hagree : ∀ k < es.length, ∀ j < k, ∀ s a b, NoReset es s j k ∧ ArcAt es s j a ∧
      ArcAt es s k b → stateAt es j a = stateAt es k b)
    (hprec : ∀ k < es.length, ∀ s b, OpAt es k (.ompHAfter s b) → ∃ j < k, ∃ a, Held es s k j a) :
    Disciplined es where
  sorted := hs
  agree hlt hno hj hk := hagree _ hk.lt _ hlt _ _ _ ⟨hno, hj, hk⟩
  preceded hk := by
    obtain ⟨j, -, a, h⟩ := hprec _ hk.lt _ _ hk
    exact ⟨j, a, h⟩

def stored (es : List (Event T S)) (i : ClockType) (j : ℕ) (a : T) : ℚ :=
  (((after es j).thread a).clocks i).critical

/-- A sync clock is marked unused and holds nothing, or it stores the largest of the values it
holds, all of them stored in its state. -/
def SyncInv (es : List (Event T S)) (i : ClockType) (s : S) (k : ℕ) : Prop :=
  (((after es k).sync s).syncState = .init ∧ ∀ j a, ¬ Held es s k j a) ∨
  (((after es k).sync s).syncState ≠ .init ∧
    (∀ j a, Held es s k j a → stateAt es j a = ((after es k).sync s).syncState) ∧
    IsGreatest {v | ∃ j a, Held es s k j a ∧ v = stored es i j a}
      (((after es k).sync s).clocks i).critical)

variable {i : ClockType}

theorem SyncInv.zero : SyncInv es i s 0 := .inl ⟨rfl, fun _ _ => not_held_zero⟩

theorem SyncInv.keep (h : SyncInv es i s k)
    (hclocks : ((after es (k + 1)).sync s).clocks = ((after es k).sync s).clocks)
    (hstate : ((after es (k + 1)).sync s).syncState = ((after es k).sync s).syncState)
    (hheld : ∀ j a, Held es s (k + 1) j a ↔ Held es s k j a) : SyncInv es i s (k + 1) := by
  unfold SyncInv
  simp only [hclocks, hstate, hheld]
  exact h

theorem SyncInv.ompHBefore (hd : Disciplined es) (hi : i ≠ .ogpu) (h : SyncInv es i s k)
    (he : es[k]? = some e) (hop : e.op = .ompHBefore s a) (hinit : stateAt es k a ≠ .init) :
    SyncInv es i s (k + 1) := by
  have hat : OpAt es k (.ompHBefore s a) := (opAt_of_some he _).mpr hop
  have hsync : (after es (k + 1)).sync s = ((after es k).sync s).ompHBefore true
      ((after es k).thread a) := by
    rw [after_succ he]; simp [Sys.step, hop]
  have hheld : ∀ j b, Held es s (k + 1) j b ↔ Held es s k j b ∨ (j = k ∧ b = a) := by
    intro j b
    rw [held_succ]
    simp [opAt_of_some he, hop, eq_comm]
  rcases h with ⟨hst, hnone⟩ | ⟨hst, hall, hmax⟩
  · -- the first arc since the last reset copies the thread's clocks
    have hst' : ((after es (k + 1)).sync s).syncState = stateAt es k a := by
      rw [hsync, SyncClock.syncState_ompHBefore, if_pos hst]; rfl
    have hval : (((after es (k + 1)).sync s).clocks i).critical = stored es i k a := by
      rw [hsync, SyncClock.get_ompHBefore_first hst hi]; rfl
    refine .inr ⟨by rw [hst']; exact hinit, fun j b hb => ?_, ?_⟩
    · rcases (hheld j b).mp hb with hb | ⟨rfl, rfl⟩
      · exact absurd hb (hnone j b)
      · exact hst'.symm
    · rw [hval]
      refine ⟨⟨k, a, (hheld k a).mpr (.inr ⟨rfl, rfl⟩), rfl⟩, ?_⟩
      rintro _ ⟨j, b, hb, rfl⟩
      rcases (hheld j b).mp hb with hb | ⟨rfl, rfl⟩
      · exact absurd hb (hnone j b)
      · exact le_refl _
  · -- a later one takes the maximum; its state is the one of the arcs held
    have hst' : ((after es (k + 1)).sync s).syncState = ((after es k).sync s).syncState := by
      rw [hsync, SyncClock.syncState_ompHBefore, if_neg hst]
    have hval : (((after es (k + 1)).sync s).clocks i).critical =
        max (((after es k).sync s).clocks i).critical (stored es i k a) := by
      rw [hsync]
      exact SyncClock.get_ompHBefore_later (x := .critical) hst hi (by decide)
    obtain ⟨j₀, a₀, hheld₀, hv₀⟩ := hmax.1
    have hsame : stateAt es k a = ((after es k).sync s).syncState := by
      rw [← hd.agree hheld₀.2.1 hheld₀.2.2 (.inl hheld₀.1) (.inl hat)]
      exact hall j₀ a₀ hheld₀
    refine .inr ⟨by rw [hst']; exact hst, fun j b hb => ?_, ?_⟩
    · rw [hst']
      rcases (hheld j b).mp hb with hb | ⟨rfl, rfl⟩
      · exact hall j b hb
      · exact hsame
    · rw [hval]
      constructor
      · rcases max_choice (((after es k).sync s).clocks i).critical (stored es i k a) with hc | hc
        · rw [hc]; exact ⟨j₀, a₀, (hheld j₀ a₀).mpr (.inl hheld₀), hv₀⟩
        · rw [hc]; exact ⟨k, a, (hheld k a).mpr (.inr ⟨rfl, rfl⟩), rfl⟩
      · rintro _ ⟨j, b, hb, rfl⟩
        rcases (hheld j b).mp hb with hb | ⟨rfl, rfl⟩
        · exact (hmax.2 ⟨j, b, hb, rfl⟩).trans (le_max_left _ _)
        · exact le_max_right _ _

theorem SyncInv.succ (hd : Disciplined es) (hi : i ≠ .ogpu)
    (hinit : ∀ a, ArcAt es s k a → stateAt es k a ≠ .init) (h : SyncInv es i s k) :
    SyncInv es i s (k + 1) := by
  cases he : es[k]? with
  | none =>
    have hsync := congrArg (fun σ : Sys T S => σ.sync s) (after_succ_of_none he)
    refine h.keep (congrArg (·.clocks) hsync) (congrArg (·.syncState) hsync) fun j a => ?_
    simp [held_succ, not_opAt_of_none he]
  | some e =>
    by_cases hb : ∃ a, e.op = .ompHBefore s a
    · obtain ⟨a, hop⟩ := hb
      exact h.ompHBefore hd hi he hop (hinit a (.inl ((opAt_of_some he _).mpr hop)))
    by_cases hr : e.op = .ompCReset s
    · -- a reset empties the clock
      refine .inl ⟨?_, fun j a hh => ?_⟩
      · rw [after_succ he]; simp [Sys.step, hr]
      · rcases held_succ.mp hh with ⟨-, hno⟩ | ⟨-, hop⟩
        · exact hno ((opAt_of_some he _).mpr hr)
        · exact hb ⟨a, (opAt_of_some he _).mp hop⟩
    have hheld : ∀ j a, Held es s (k + 1) j a ↔ Held es s k j a := by
      intro j a
      have hba : e.op ≠ .ompHBefore s a := fun hop => hb ⟨a, hop⟩
      simp [held_succ, opAt_of_some he, hr, hba]
    by_cases ha : ∃ a, e.op = .ompHAfter s a
    · -- something is held, so the state is set and stays
      obtain ⟨a, hop⟩ := ha
      have hsync : (after es (k + 1)).sync s = (((after es k).sync s).ompHAfter true
          ((after es k).thread a)).1 := by
        rw [after_succ he]; simp [Sys.step, hop]
      have hst : ((after es k).sync s).syncState ≠ .init := by
        obtain ⟨j, b, hj⟩ := hd.preceded ((opAt_of_some he _).mpr hop)
        rcases h with ⟨-, hnone⟩ | ⟨hst, -⟩
        · exact absurd hj (hnone j b)
        · exact hst
      refine h.keep (by rw [hsync, SyncClock.clocks_ompHAfter_fst]) ?_ hheld
      rw [hsync, SyncClock.syncState_ompHAfter, if_neg hst]
    · have hsync : (after es (k + 1)).sync s = (after es k).sync s := by
        rw [after_succ he]
        exact Sys.sync_step (fun a hop => hb ⟨a, hop⟩) (fun a hop => ha ⟨a, hop⟩) hr
      exact h.keep (by rw [hsync]) (by rw [hsync]) hheld

theorem syncInv (hd : Disciplined es) (hi : i ≠ .ogpu)
    (hinit : ∀ k a, ArcAt es s k a → stateAt es k a ≠ .init) (k : ℕ) : SyncInv es i s k := by
  induction k with
  | zero => exact .zero
  | succ k ih => exact ih.succ hd hi (hinit k)

/-! ## The recursion -/

def value (es : List (Event T S)) (i : ClockType) (k : ℕ) (th : T) : ℚ :=
  ((after es k).thread th).elapsed i .critical (timeAt es k)

theorem value_succ_ompHBefore (h : OpAt es j (.ompHBefore s a)) :
    value es i (j + 1) a =
      stored es i j a + runTerm (stateAt es j a) i (timeAt es (j + 1)) := by
  cases he : es[j]? with
  | none => exact absurd h (not_opAt_of_none he _)
  | some e =>
    have hop := (opAt_of_some he _).mp h
    have hth : (after es (j + 1)).thread a = (after es j).thread a := by
      rw [after_succ he]; simp [Sys.step, hop]
    unfold value ThreadClock.elapsed
    rw [hth]
    rfl

/-- An arc brings what its sync clock stored, at the time of the `OmpHAfter`. -/
theorem value_add_cost {t : ℚ} (h : OpAt es j (.ompHBefore s a)) :
    value es i (j + 1) a + runTerm (stateAt es j a) i (t - timeAt es (j + 1)) =
      stored es i j a + runTerm (stateAt es j a) i t := by
  rw [value_succ_ompHBefore h, runTerm_sub]; ring

theorem gain_nonneg (hd : Disciplined es) (k : ℕ) (th : T) : 0 ≤ (chains es i).gain k th := by
  by_cases hk : k = 0
  · subst hk
    show 0 ≤ runTerm .init i (timeAt es 1 - timeAt es 0)
    rw [runTerm_init]
  · exact runTerm_nonneg _ _ (sub_nonneg.mpr (timeAt_le_succ hd.sorted hk))

theorem value_later (k : ℕ) (th : T) (t : ℚ) : ((after es k).thread th).elapsed i .critical t =
    value es i k th + runTerm (stateAt es k th) i (t - timeAt es k) :=
  ThreadClock.elapsed_later ..

theorem incoming_of_not_ompHAfter {th : T} (h : ∀ s, ¬ OpAt es k (.ompHAfter s th)) :
    IsGreatest ((chains es i).incoming (value es i) k th)
      (value es i k th + (chains es i).gain k th) := by
  refine ⟨.inl rfl, ?_⟩
  rintro _ (rfl | ⟨_, _, _, ⟨s, j', k', -, hk, -, hop, -⟩, -⟩)
  · exact le_refl _
  · obtain rfl : k = k' := by omega
    exact absurd hop (h s)

/-- An arc into the thread: the sync clock's value is the best that arcs bring. -/
theorem incoming_of_ompHAfter {th : T} (hd : Disciplined es) (hinv : SyncInv es i s k)
    (he : es[k]? = some e) (hop : e.op = .ompHAfter s th) :
    IsGreatest ((chains es i).incoming (value es i) k th)
      (max (value es i k th + (chains es i).gain k th)
        ((((after es k).sync s).clocks i).critical + runTerm (stateAt es k th) i e.time)) := by
  have hat : OpAt es k (.ompHAfter s th) := (opAt_of_some he _).mpr hop
  obtain ⟨hst, hall, hmax⟩ : _ ∧ _ ∧ _ := by
    obtain ⟨j, b, hj⟩ := hd.preceded hat
    exact hinv.resolve_left fun h => h.2 j b hj
  have hstate : ∀ {j a}, Held es s k j a → stateAt es j a = stateAt es k th := fun hh =>
    hd.agree hh.2.1 hh.2.2 (.inl hh.1) (.inr hat)
  constructor
  · rcases max_choice (value es i k th + (chains es i).gain k th)
        ((((after es k).sync s).clocks i).critical + runTerm (stateAt es k th) i e.time) with hc | hc
    · rw [hc]; exact .inl rfl
    · obtain ⟨j, a, hh, hv⟩ := hmax.1
      refine .inr ⟨j + 1, a, _, ⟨s, j, k, rfl, rfl, hh, hat, rfl⟩, ?_⟩
      rw [hc, value_add_cost hh.1, timeAt_succ he, hv, hstate hh]
  · rintro _ (rfl | ⟨_, a, _, ⟨s', j, k', rfl, hk, hh, hop', rfl⟩, rfl⟩)
    · exact le_max_left _ _
    · obtain rfl : k = k' := by omega
      have hs : s' = s := by
        have := (opAt_of_some he _).mp hop'
        rw [hop] at this
        cases this
        rfl
      subst hs
      rw [value_add_cost hh.1, timeAt_succ he, hstate hh]
      have := hmax.2 ⟨j, a, hh, rfl⟩
      exact le_max_of_le_right (by linarith)

/-- The clocks obey the recursion of longest paths. -/
theorem bellman (hd : Disciplined es) (hi : i ≠ .ogpu)
    (hinit : ∀ s k a, ArcAt es s k a → stateAt es k a ≠ .init) :
    (chains es i).Bellman (value es i) where
  gain_nonneg := gain_nonneg hd
  zero _ := ThreadClock.elapsed_new ..
  succ k th := by
    cases he : es[k]? with
    | none =>
      have hval : value es i (k + 1) th = value es i k th + (chains es i).gain k th := by
        simp only [value, after_succ_of_none he, chains, timeAt_succ_of_none he, sub_self]
        simp [runTerm]
      rw [hval]
      exact incoming_of_not_ompHAfter fun s => not_opAt_of_none he _
    | some e =>
      have hbefore : ((after es k).thread th).elapsed i .critical e.time =
          value es i k th + (chains es i).gain k th := by
        rw [value_later, ← timeAt_succ he]; rfl
      have hval : value es i (k + 1) th =
          (((after es k).step true e).thread th).elapsed i .critical e.time := by
        unfold value; rw [after_succ he, timeAt_succ he]
      rw [hval]
      by_cases ha : ∃ s, e.op = .ompHAfter s th
      · obtain ⟨s, hop⟩ := ha
        rw [Sys.elapsed_step_ompHAfter hi (by decide) hop, hbefore]
        exact incoming_of_ompHAfter hd (syncInv hd hi (hinit s) k) he hop
      · have hne : ∀ s, e.op ≠ .ompHAfter s th := fun s hop => ha ⟨s, hop⟩
        rw [Sys.elapsed_step hne, hbefore]
        exact incoming_of_not_ompHAfter fun s => by rw [opAt_of_some he]; exact hne s

end

/-- In a disciplined run without arcs in `STATE_INIT`, the critical component of a clock, with the
running time added, is the weight of the heaviest chain that ends at the thread. -/
theorem critical_isGreatest_chain {T S : Type} [DecidableEq T] [DecidableEq S]
    (es : List (Event T S)) (hd : Disciplined es)
    (hinit : ∀ s k a, ArcAt es s k a → stateAt es k a ≠ .init) (i : ClockType) (hi : i ≠ .ogpu)
    (th : T) (t : ℚ) :
    IsGreatest {w | ChainTo es i th t w}
      ((((after es es.length).thread th).clocks i).critical +
        if State ((after es es.length).thread th).getState i then t else 0) := by
  have hgr := (bellman hd hi hinit).isGreatest_path es.length th
  have hval : (((after es es.length).thread th).clocks i).critical +
      (if State ((after es es.length).thread th).getState i then t else 0) =
      value es i es.length th +
        runTerm (stateAt es es.length th) i (t - timeAt es es.length) := value_later ..
  rw [hval]
  refine ⟨⟨_, hgr.1, rfl⟩, ?_⟩
  rintro _ ⟨x, hx, rfl⟩
  have := hgr.2 hx
  linarith

def handover : List (Event Bool Bool) :=
  [⟨1, .enterState false .useful⟩, ⟨3, .enterState false .omp⟩, ⟨3, .enterState true .omp⟩,
   ⟨3, .ompHBefore false false⟩, ⟨4, .ompHAfter false true⟩, ⟨4, .exitState true⟩,
   ⟨4, .enterState true .useful⟩]

theorem critical_isGreatest_chain_handover :
    IsGreatest {w | ChainTo handover .useful true 6 w} 4 := by
  have h := critical_isGreatest_chain handover
    (.of_lt (by decide +kernel) (by decide +kernel) (by decide +kernel))
    (fun s k a hk => (by decide +kernel : ∀ k < 7, ∀ s a, ArcAt handover s k a →
      stateAt handover k a ≠ .init) k hk.lt s a hk)
    .useful (by decide) true 6
  have hval : (((after handover handover.length).thread true).clocks .useful).critical +
      (if State ((after handover handover.length).thread true).getState .useful then 6 else 0) =
      4 := by decide +kernel
  rwa [hval] at h

/-- Two threads work for 2 and 1 units, go back to `STATE_INIT` and signal there; then the second
one waits. -/
def initArcs : List (Event Bool Bool) :=
  [⟨1, .enterState false .useful⟩, ⟨1, .enterState true .useful⟩, ⟨2, .exitState true⟩,
   ⟨3, .exitState false⟩, ⟨4, .ompHBefore false false⟩, ⟨5, .ompHBefore false true⟩,
   ⟨6, .ompHAfter false true⟩]

/-- Arcs in `STATE_INIT` leave the sync clock marked unused, so the second one copies over the
first one and the chain of weight 2 through it is lost. -/
theorem initArcs_loses_chain : Disciplined initArcs ∧
    ¬ IsGreatest {w | ChainTo initArcs .useful true 6 w}
      ((((after initArcs initArcs.length).thread true).clocks .useful).critical +
        if State ((after initArcs initArcs.length).thread true).getState .useful then 6 else 0) := by
  refine ⟨.of_lt (by decide +kernel) (by decide +kernel) (by decide +kernel), fun h => ?_⟩
  have hchain : ChainTo initArcs .useful true 6 2 := by
    have hpath : (chains initArcs .useful).Path 7 true
        (0 + (chains initArcs .useful).gain 1 false + (chains initArcs .useful).gain 2 false +
          (chains initArcs .useful).gain 3 false + (chains initArcs .useful).gain 4 false + 0) :=
      .arc (.segment (.segment (.segment (.segment (.start 1 false)))))
        ⟨false, 4, 6, rfl, rfl, by decide +kernel, by decide +kernel, by decide +kernel⟩
    exact ⟨_, hpath, by decide +kernel⟩
  have hle := h.2 hchain
  have hlt : (((after initArcs initArcs.length).thread true).clocks .useful).critical +
      (if State ((after initArcs initArcs.length).thread true).getState .useful then 6 else 0) <
      2 := by decide +kernel
  exact absurd hle (not_le.mpr hlt)

end CritPath
