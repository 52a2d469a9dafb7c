import CritPath.Lib.LongestPath
import CritPath.Mpi.CallRuns

/-!
# The critical path over all ranks

A chain follows ranks and communications. On a rank it gains the time between
two calls. From a call that starts a rank's part in an operation it can go to
the end of a call that completes another rank's part, if the operation carries
values from the first rank to the second one: from a send to the completion of
its receive, from everyone to everyone, from the root to everyone, from everyone
to the root. This is read off the calls of the application; what the wrappers
post, load and merge in them is not part of the definition.
-/

namespace CritPath.Exchange

open Lib

namespace Run

section
variable {R H O : Type} [DecidableEq R] (E : Run R H O)

/-- When rank `r` last entered or left a call before step `k`. -/
def lastCall (r : R) : ℕ → ℚ
  | 0 => E.t₀ r
  | k + 1 =>
    match E.steps[k]? with
    | some (.enter q t _) | some (.exit q t) => if q = r then t else lastCall r k
    | _ => lastCall r k

/-- The useful time that rank `r` gains in step `k`: the time since its last call. -/
def usefulGain (k : ℕ) (r : R) : ℚ :=
  match E.steps[k]? with
  | some (.enter q t _) => if q = r then t - E.lastCall r k else 0
  | _ => 0

variable [DecidableEq H]

/-- The chains of a run: instant `k` is the one after the first `k` steps. -/
def chains : Diagram R ℚ where
  gain := E.usefulGain
  arc j a k b c := ∃ i m o, j = i + 1 ∧ k = m + 1 ∧ i < m ∧ (a, o) ∈ E.startsAt i ∧
    E.CompletesAt m b o ∧ a ∈ (E.transfer o).sources ∧ c = 0
  arc_lt := by
    rintro _ _ _ _ _ ⟨i, m, o, rfl, rfl, hlt, -⟩
    exact Nat.succ_lt_succ hlt

variable [DecidableEq O]

/-- The value with which rank `r` entered the call that it is in, or the one it has outside. -/
def entryAt (k : ℕ) (r : R) : ℚ :=
  match E.callAt r k with
  | some (i, _) => E.valueAt (i + 1) r
  | none => E.valueAt k r

end

section
variable {R H O : Type} [DecidableEq R] [DecidableEq H] [DecidableEq O] {E : Run R H O}
variable {k : ℕ} {r a : R} {o : Option O} (hv : E.Valid)
include hv

/-! ## The recursion -/

theorem lastCall_eq (k : ℕ) (r : R) : E.lastCall r k = (E.ranksAt k).now r := by
  induction k with
  | zero => rfl
  | succ k ih =>
    have hstep := stepAt hv k
    rw [lastCall]
    generalize E.ranksAt k = w at ih hstep
    generalize E.ranksAt (k + 1) = w₁ at hstep ⊢
    generalize E.steps[k]? = l at hstep
    cases hstep with
    | none => exact ih
    | enter q t c hin ht hfit => simp [Ranks.enter, Function.update_apply, ih, eq_comm]
    | exit q t htodo hin hfin => simp [Ranks.exit, Function.update_apply, ih, eq_comm]
    | exec q p rest w' htodo he =>
      rw [ih, ← he.frame.1]
      rfl

omit hv in
theorem entryAt_of_startsAt {i : ℕ} (hs : (a, o) ∈ E.startsAt i) :
    E.entryAt (i + 1) a = E.valueAt (i + 1) a := by
  obtain ⟨t, c, hl, -⟩ := enter_of_startsAt hs
  simp [entryAt, callAt, hl]

omit hv in
theorem incoming_of_not_completesAt (h : ∀ o, ¬ E.CompletesAt k r o)
    (hval : E.entryAt (k + 1) r = E.entryAt k r + E.usefulGain k r) :
    IsGreatest (E.chains.incoming E.entryAt k r) (E.entryAt (k + 1) r) := by
  rw [hval]
  refine ⟨.inl rfl, ?_⟩
  rintro _ (rfl | ⟨j, a, c, ⟨i, m, o, -, hk, -, -, hc, -⟩, -⟩)
  · exact le_refl _
  · obtain rfl : k = m := by omega
    exact absurd hc (h o)

/-- The links to the end of a call come from where its parts have taken their values. -/
theorem links_eq_brought (honce : E.StartsOnce) {t : ℚ} (hl : E.steps[k]? = some (.exit r t))
    {i : ℕ} {c : PbCall R H O} {done : List (Part H (Option O))}
    (hcall : E.callAt r k = some (i, c)) (hd : E.InCall k r i c done)
    (hdone : c.parts E.kind r ((E.ranksAt i).request r) = done) :
    {y | ∃ j a c, E.chains.arc j a (k + 1) r c ∧ y = E.entryAt j a + c} =
      E.brought (done.filterMap (taken E.transfer r)) := by
  ext y
  constructor
  · rintro ⟨_, a, _, ⟨j, m, o, rfl, hk, -, hs, hc, ha, rfl⟩, rfl⟩
    obtain rfl : k = m := by omega
    obtain ⟨_, i', c', -, hcall', ho⟩ := (completesAt_iff hv).mp hc
    rw [hcall] at hcall'
    cases hcall'
    rw [hdone] at ho
    exact ⟨o, ho, a, ha, j, hs, by rw [entryAt_of_startsAt hs, add_zero]⟩
  · rintro ⟨o, ho, a, ha, j, hs, rfl⟩
    have hj := ((tracked hv honce k a).sent_of_startsAt honce hs (hd.arrived o ho a ha)).1
    refine ⟨j + 1, a, 0, ⟨j, k, o, rfl, rfl, hj, hs, ?_, ha, rfl⟩, ?_⟩
    · exact (completesAt_iff hv).mpr ⟨t, i, c, hl, hcall, hdone ▸ ho⟩
    · rw [entryAt_of_startsAt hs, add_zero]

theorem incoming_of_exit (honce : E.StartsOnce) {t : ℚ} (hl : E.steps[k]? = some (.exit r t))
    (htodo : (E.ranksAt k).todo r = [])
    (hval : E.valueAt (k + 1) r = E.valueAt k r) :
    IsGreatest (E.chains.incoming E.entryAt k r) (E.entryAt (k + 1) r) := by
  have hgain : E.usefulGain k r = 0 := by simp [usefulGain, hl]
  have hleft : E.entryAt (k + 1) r = E.valueAt (k + 1) r := by simp [entryAt, callAt, hl]
  cases hcall : E.callAt r k with
  | none =>
    -- the end of `MPI_Init`
    refine incoming_of_not_completesAt (fun o ho => ?_) ?_
    · obtain ⟨_, i, c, -, hc, -⟩ := (completesAt_iff hv).mp ho
      rw [hcall] at hc
      cases hc
    · rw [hleft, hval, hgain, add_zero, entryAt, hcall]
  | some x =>
    obtain ⟨i, c⟩ := x
    obtain ⟨done, hd⟩ := (tracked hv honce k r).inCall i c hcall
    have hdone : c.parts E.kind r ((E.ranksAt i).request r) = done := by
      rw [hd.parts, htodo, List.append_nil]
    have hentry : E.entryAt k r = E.valueAt (i + 1) r := by rw [entryAt, hcall]
    unfold Diagram.incoming
    rw [links_eq_brought hv honce hl hcall hd hdone, hentry, hleft, hval]
    show IsGreatest (insert (_ + E.usefulGain k r) _) _
    rw [hgain, add_zero]
    exact hd.greatest

theorem usefulGain_nonneg (k : ℕ) (r : R) : 0 ≤ E.usefulGain k r := by
  have hstep := stepAt hv k
  unfold usefulGain
  rw [lastCall_eq hv]
  generalize E.ranksAt (k + 1) = w₁ at hstep
  generalize E.steps[k]? = l at hstep
  cases hstep with
  | enter q t c hin ht hfit =>
    show 0 ≤ if q = r then _ else _
    split
    · rename_i hq
      subst hq
      linarith
    · exact le_refl _
  | _ => exact le_refl _

omit hv [DecidableEq O] in
theorem not_completesAt (hne : ∀ t, E.steps[k]? ≠ some (.exit r t)) (o : Option O) :
    ¬ E.CompletesAt k r o :=
  fun ⟨t, _, _, hl, _⟩ => hne t hl

/-- The steps of the other ranks. -/
theorem incoming_of_ne (hr : ∀ l, E.steps[k]? = some l → l.rank ≠ r) :
    IsGreatest (E.chains.incoming E.entryAt k r) (E.entryAt (k + 1) r) := by
  obtain ⟨hcall, -, -, -, hval, -⟩ := keeps hv hr
  have hgain : E.usefulGain k r = 0 := by
    unfold usefulGain
    split
    · rename_i q t c hl
      exact if_neg (hr _ hl)
    · rfl
  refine incoming_of_not_completesAt (not_completesAt fun t hl => hr _ hl rfl) ?_
  rw [hgain, add_zero, entryAt, entryAt, hcall, hval]

theorem bellman (honce : E.StartsOnce) : E.chains.Bellman E.entryAt where
  gain_nonneg := usefulGain_nonneg hv
  zero r := by
    show (Ranks.start E.t₀ : Ranks R H O).value r = 0
    unfold Ranks.value Ranks.start
    rw [ThreadClock.elapsed_enterState, ThreadClock.elapsed_enterState, ThreadClock.elapsed_new]
  succ k r := by
    have hw := wf_ranksAt hv k
    have htr := tracked hv honce k r
    have hstep := stepAt hv k
    generalize hw₁ : E.ranksAt (k + 1) = w₁ at hstep
    generalize hl : E.steps[k]? = l at hstep
    cases hstep with
    | none => exact incoming_of_ne hv (by simp [hl])
    | enter q t c hin ht hfit =>
      by_cases hq : q = r
      · subst hq
        refine incoming_of_not_completesAt (not_completesAt (by simp [hl])) ?_
        have hleft : E.entryAt (k + 1) q = E.valueAt (k + 1) q := by simp [entryAt, callAt, hl]
        rw [hleft, entryAt, htr.outside hin, usefulGain, hl]
        simp only [valueAt, hw₁, if_pos, lastCall_eq hv]
        exact hw.stacked.value_enter hin ..
      · exact incoming_of_ne hv (by simpa [hl, PbLabel.rank] using hq)
    | exit q t htodo hin hfin =>
      by_cases hq : q = r
      · subst hq
        refine incoming_of_exit hv honce hl htodo ?_
        simp only [valueAt, hw₁]
        exact hw.stacked.value_exit hin t
      · exact incoming_of_ne hv (by simpa [hl, PbLabel.rank] using hq)
    | exec q p rest w' htodo he =>
      by_cases hq : q = r
      · subst hq
        refine incoming_of_not_completesAt (not_completesAt (by simp [hl])) ?_
        have hcall : E.callAt q (k + 1) = E.callAt q k := by simp [callAt, hl]
        have hgain : E.usefulGain k q = 0 := by simp [usefulGain, hl]
        obtain ⟨i, c, hc⟩ := htr.entered htodo
        rw [hgain, add_zero, entryAt, entryAt, hcall, hc]
      · exact incoming_of_ne hv (by simpa [hl, PbLabel.rank] using hq)

theorem valueAt_le_succ (k : ℕ) (r : R) : E.valueAt k r ≤ E.valueAt (k + 1) r := by
  have hw := wf_ranksAt hv k
  have hstep := stepAt hv k
  unfold valueAt
  generalize E.ranksAt k = w at hw hstep
  generalize E.ranksAt (k + 1) = w₁ at hstep
  generalize E.steps[k]? = l at hstep
  cases hstep with
  | none => exact le_refl _
  | enter q t c hin ht hfit =>
    by_cases hq : r = q
    · subst hq
      rw [hw.stacked.value_enter hin]
      linarith
    · exact (value_enter_of_ne hq ..).ge
  | exec q p rest w' htodo he =>
    show w.value r ≤ w'.value r
    by_cases hq : r = q
    · subst hq
      exact he.value_le hw.stacked (hw.inMpi htodo) (hw.stale r)
    · exact ((he.of_ne hq).1).ge
  | exit q t htodo hin hfin =>
    by_cases hq : r = q
    · subst hq
      exact (hw.stacked.value_exit hin t).ge
    · exact (value_exit_of_ne hq t).ge

theorem valueAt_mono (r : R) : Monotone fun k => E.valueAt k r :=
  monotone_nat_of_le_succ fun k => valueAt_le_succ hv k r

theorem entryAt_le (honce : E.StartsOnce) (k : ℕ) (r : R) : E.entryAt k r ≤ E.valueAt k r := by
  unfold entryAt
  split
  · rename_i i c hc
    obtain ⟨done, hd⟩ := (tracked hv honce k r).inCall i c hc
    exact hd.greatest.2 (.inl rfl)
  · exact le_refl _

/-! ## `MPI_Finalize` -/

/-- In `MPI_Finalize` a rank has a value with which some rank has entered it. -/
theorem valueAt_mem_brought (honce : E.StartsOnce) (hr : r ∈ E.world)
    (hsome : ((E.ranksAt k).sent none r).isSome) : E.valueAt k r ∈ E.brought [none] := by
  obtain ⟨v, hsv⟩ := Option.isSome_iff_exists.mp hsome
  obtain ⟨i, -, hs, -, hlast⟩ := (tracked hv honce k r).sent none v hsv
  obtain ⟨c, hc⟩ := hlast rfl
  obtain ⟨done, hd⟩ := (tracked hv honce k r).inCall i c hc
  have hfin := isFinalize_of_startsAt hc hs
  rcases hd.greatest.1 with heq | ⟨o, ho, hrest⟩
  · exact ⟨none, List.mem_cons_self, r, hr, i, hs, heq⟩
  · have ho' : o ∈ (c.parts E.kind r ((E.ranksAt i).request r)).filterMap (taken E.transfer r) := by
      rw [hd.parts, List.filterMap_append]
      exact List.mem_append_left _ ho
    cases c with
    | finalize h => exact ⟨o, ho', hrest⟩
    | _ => cases hfin

/-- A rank that has the result of `MPI_Finalize` has the greatest of these values. -/
theorem isGreatest_finalize (honce : E.StartsOnce) (hworld : ∀ q, q ∈ E.world)
    (hfin : (E.ranksAt k).finalized r = true) (htodo : (E.ranksAt k).todo r = []) :
    IsGreatest (E.brought [none]) (E.valueAt k r) ∧
      ∀ q, ((E.ranksAt k).sent none q).isSome := by
  have htr := tracked hv honce k r
  cases hc : E.callAt r k with
  | none =>
    rw [(htr.idle hc).2] at hfin
    cases hfin
  | some x =>
    obtain ⟨i, c⟩ := x
    obtain ⟨done, hd⟩ := htr.inCall i c hc
    rw [hd.finalized] at hfin
    have hparts := hd.parts
    rw [htodo, List.append_nil] at hparts
    subst hparts
    cases c with
    | finalize h =>
      have hall : ∀ q, ((E.ranksAt k).sent none q).isSome :=
        fun q => hd.arrived none List.mem_cons_self q (hworld q)
      exact ⟨⟨valueAt_mem_brought hv honce (hworld r) (hall r), fun x hx => hd.greatest.2 (.inr hx)⟩,
        hall⟩
    | _ => cases hfin

end

end Run

/-- In every run in which a rank starts its part in an operation once: when a call returns, the
`CLOCK_USEFUL.critical` of its rank is the useful time along the longest chain that ends there, and
the values for the operations that the rank has started have been handed in. After the merge in
`MPI_Finalize` it is, on every rank, the useful time along the longest chain of the run. -/
theorem critical_isGreatest_globalChain {R H O : Type} [DecidableEq R] [DecidableEq H]
    [DecidableEq O] (E : Run R H O) (hworld : ∀ r, r ∈ E.world) (hv : E.Valid)
    (honce : E.StartsOnce) :
    (∀ k r t, E.steps[k]? = some (.exit r t) →
      IsGreatest {x | E.chains.Path (k + 1) r x}
        (((E.ranksAt k).clock r).clocks .useful).critical ∧
      ∀ i < k, ∀ o, (r, o) ∈ E.startsAt i → ((E.ranksAt k).sent o r).isSome) ∧
    ∀ k r, (E.ranksAt k).finalized r = true → (E.ranksAt k).todo r = [] →
      IsGreatest {x | ∃ j ≤ k, ∃ q, E.chains.Path j q x}
        (((E.ranksAt k).clock r).clocks .useful).critical := by
  have hb := Run.bellman hv honce
  refine ⟨fun k r t hl => ⟨?_, fun i hi o hs => ?_⟩, fun k r hfin htodo => ?_⟩
  · have hok : (E.ranksAt k).Allowed E.kind E.world (.exit r t) := hv.getElem hl
    have hw := (Run.wf_ranksAt hv k).stacked
    have hval : E.entryAt (k + 1) r = (((E.ranksAt k).clock r).clocks .useful).critical := by
      rw [Run.entryAt, show E.callAt r (k + 1) = none by simp [Run.callAt, hl], ← hw.value hok.2.1]
      show (E.ranksAt (k + 1)).value r = _
      rw [Run.ranksAt_succ hl]
      exact hw.value_exit hok.2.1 t
    rw [← hval]
    exact hb.isGreatest_path (k + 1) r
  · have hok : (E.ranksAt (k + 1)).inMpi r = false := by
      rw [Run.ranksAt_succ hl]
      simp [Ranks.step, Ranks.exit]
    have htr := Run.tracked hv honce (k + 1) r
    rcases htr.handed o i (hi.trans k.lt_succ_self) hs with hsome | ⟨c, hc⟩
    · rw [Run.ranksAt_succ hl] at hsome
      exact hsome
    · rw [htr.outside hok] at hc
      cases hc
  · obtain ⟨hgr, hall⟩ := Run.isGreatest_finalize hv honce hworld hfin htodo
    have hw := Run.wf_ranksAt hv k
    rw [← hw.stacked.value (hw.last r hfin)]
    constructor
    · obtain ⟨o, ho, a, -, j, hs, hx⟩ := hgr.1
      obtain rfl : o = none := by simpa using ho
      have hj := ((Run.tracked hv honce k a).sent_of_startsAt honce hs (hall a)).1
      refine ⟨j + 1, hj, a, ?_⟩
      show E.chains.Path (j + 1) a (E.valueAt k r)
      rw [hx, ← Run.entryAt_of_startsAt hs]
      exact hb.path_val (j + 1) a
    · rintro x ⟨j, hj, q, hp⟩
      calc x ≤ E.entryAt j q := hb.path_le hp
        _ ≤ E.valueAt j q := Run.entryAt_le hv honce j q
        _ ≤ E.valueAt k q := Run.valueAt_mono hv q hj
        _ ≤ E.valueAt k r := hgr.2 (Run.valueAt_mem_brought hv honce (hworld q) (hall q))

def messageThenReduce : Bool → Transfer Bool
  | false => .message false true
  | true => .reduce false [false, true]

/-- Rank `false` works for 3 and sends; rank `true` works for 1, receives, works for 2 and starts a
persistent reduction; rank `false` takes its result and works for 2. -/
def reduceToRoot : Run Bool Bool Bool where
  kind := messageThenReduce
  world := [false, true]
  t₀ _ := 0
  steps := [.exit false 0, .exit true 0,
   .enter false 3 (.send false false), .exec false, .exit false 3,
   .enter true 1 (.irecv false false false), .exec true, .exit true 1,
   .enter true 1 (.complete [false]), .exec true, .exit true 4,
   .enter true 6 (.collInit true (.reduce false [false, true])), .exit true 6,
   .enter true 6 (.start true true), .exec true, .exit true 6,
   .enter false 4 (.collInit true (.reduce false [false, true])), .exit false 4,
   .enter false 4 (.start true true), .exec false, .exit false 4,
   .enter false 4 (.complete [true]), .exec false, .exit false 5,
   .enter false 7 (.finalize false), .exec false,
   .enter true 7 (.finalize false), .exec true, .exec true, .exec false]

theorem critical_isGreatest_globalChain_reduceToRoot :
    IsGreatest {x | reduceToRoot.chains.Path 11 true x} 3 ∧
      IsGreatest {x | ∃ j ≤ 30, ∃ q, reduceToRoot.chains.Path j q x} 7 := by
  have h := critical_isGreatest_globalChain reduceToRoot (by decide) (by decide +kernel)
    (by decide +kernel)
  have h₁ := (h.1 10 true 4 (by decide +kernel)).1
  have h₂ := h.2 30 false (by decide +kernel) (by decide +kernel)
  have hval₁ : (((reduceToRoot.ranksAt 10).clock true).clocks .useful).critical = 3 := by
    decide +kernel
  have hval₂ : (((reduceToRoot.ranksAt 30).clock false).clocks .useful).critical = 7 := by
    decide +kernel
  rw [hval₁] at h₁
  rw [hval₂] at h₂
  exact ⟨h₁, h₂⟩

end CritPath.Exchange
