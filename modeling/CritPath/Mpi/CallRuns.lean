import CritPath.Mpi.CallLinks
import Mathlib.Data.List.Pairwise

/-!
# Runs of calls

A run of the ranks, and what the calls of the application in it start and
complete. What a rank has handed in for an operation is the value with which it
entered the call (`Tracked.sent`), and at the end of a call its value is the
greatest of that value and of those that the completed operations have brought
(`InCall.greatest`).
-/

namespace CritPath.Exchange

open Lib

def PbLabel.rank {R H O : Type} : PbLabel R H O → R
  | .enter r _ _ | .exec r | .exit r _ => r

section
variable {R H O : Type} [DecidableEq R] [DecidableEq H] [DecidableEq O]

/-- A step of the run, with what the rank that takes it does. -/
inductive StepAt (kind : O → Transfer R) (world : List R) (w : Ranks R H O) :
    Option (PbLabel R H O) → Ranks R H O → Prop where
  | none : StepAt kind world w none w
  | enter (r : R) (t : ℚ) (c : PbCall R H O) (hin : w.inMpi r = false) (ht : w.now r ≤ t)
    (hfit : w.Fits kind r c) : StepAt kind world w (some (.enter r t c)) (w.enter kind r t c)
  | exec (r : R) (p : Part H (Option O)) (rest : List (Part H (Option O))) (w' : Ranks R H O)
    (htodo : w.todo r = p :: rest) (he : Effect (transferOf kind world) r w p w') :
    StepAt kind world w (some (.exec r)) (w'.advance r rest)
  | exit (r : R) (t : ℚ) (htodo : w.todo r = []) (hin : w.inMpi r = true)
    (hfin : w.finalized r = false) :
    StepAt kind world w (some (.exit r t)) (w.exit r t)

end

/-- A run of the ranks in `world`, from `MPI_Init` at their times `t₀` on. -/
structure Run (R H O : Type) where
  kind : O → Transfer R
  world : List R
  t₀ : R → ℚ
  steps : List (PbLabel R H O)

namespace Run

section
variable {R H O : Type} (E : Run R H O)

def transfer : Option O → Transfer R := transferOf E.kind E.world

variable [DecidableEq R]

/-- The call that rank `r` is in before step `k`, with the step in which it entered it. -/
def callAt (r : R) : ℕ → Option (ℕ × PbCall R H O)
  | 0 => none
  | k + 1 =>
    match E.steps[k]? with
    | some (.enter q _ c) => if q = r then some (k, c) else callAt r k
    | some (.exit q _) => if q = r then none else callAt r k
    | _ => callAt r k

variable [DecidableEq H]

/-- The requests of rank `r` before step `k`. -/
def handlesAt (r : R) : ℕ → H → Option (Handle O)
  | 0 => fun _ => none
  | k + 1 =>
    match E.steps[k]? with
    | some (.enter q _ c) => if q = r then c.handles (handlesAt r k) else handlesAt r k
    | _ => handlesAt r k

/-- The parts that a rank starts in step `k` and in which it hands in values. -/
def startsAt (k : ℕ) : List (R × Option O) :=
  match E.steps[k]? with
  | some (.enter a _ c) =>
    ((c.starts (E.handlesAt a k)).filterMap (handsIn E.transfer a)).map (a, ·)
  | _ => []

/-- Rank `b` leaves a call in step `k` that completes its part in `o` and brings it values. -/
def CompletesAt (k : ℕ) (b : R) (o : Option O) : Prop :=
  ∃ t i c, E.steps[k]? = some (.exit b t) ∧ E.callAt b k = some (i, c) ∧
    o ∈ (c.completes (E.handlesAt b i)).filterMap (getsOut E.transfer b)

/-- A rank starts its part in an operation once. -/
def StartsOnce : Prop := ((List.range E.steps.length).flatMap E.startsAt).Nodup

variable [DecidableEq O]

instance : Decidable E.StartsOnce := inferInstanceAs (Decidable (List.Nodup _))

def Valid : Prop := (machine H E.kind E.world).Valid (.start E.t₀) E.steps

instance : Decidable E.Valid :=
  inferInstanceAs (Decidable ((machine H E.kind E.world).Valid (.start E.t₀) E.steps))

def ranksAt (k : ℕ) : Ranks R H O := (machine H E.kind E.world).after (.start E.t₀) E.steps k

def valueAt (k : ℕ) (r : R) : ℚ := (E.ranksAt k).value r

end

section
variable {R H O : Type} [DecidableEq R] [DecidableEq H] [DecidableEq O] {E : Run R H O}
variable {k : ℕ} {r a : R} {o : Option O}

theorem ranksAt_succ {l : PbLabel R H O} (h : E.steps[k]? = some l) :
    E.ranksAt (k + 1) = (E.ranksAt k).step E.kind E.world l :=
  Machine.after_succ h

theorem ranksAt_succ_of_none (h : E.steps[k]? = none) : E.ranksAt (k + 1) = E.ranksAt k :=
  Machine.after_succ_of_none h

section
variable (hv : E.Valid)
include hv

theorem wf_ranksAt (k : ℕ) : (E.ranksAt k).Wf E.kind E.world :=
  Machine.Along.inv_after (fun _ _ h hl => h.step hl) hv (.start E.t₀) k

theorem stepAt (k : ℕ) :
    StepAt E.kind E.world (E.ranksAt k) E.steps[k]? (E.ranksAt (k + 1)) := by
  cases hl : E.steps[k]? with
  | none =>
    rw [ranksAt_succ_of_none hl]
    exact .none
  | some l =>
    have hok : (E.ranksAt k).Allowed E.kind E.world l := hv.getElem hl
    rw [ranksAt_succ hl]
    cases l with
    | enter r t c => exact .enter r t c hok.2.1 hok.2.2.1 hok.2.2.2
    | exit r t => exact .exit r t hok.1 hok.2.1 hok.2.2.1
    | exec r =>
      obtain ⟨p, rest, w', htodo, he, heq⟩ := exec_effect ((wf_ranksAt hv k).parts r) hok
      have hex := StepAt.exec r p rest w' htodo he
      rw [← heq] at hex
      exact hex

end

/-! ## Calls and their parts -/

omit [DecidableEq H] [DecidableEq O] in
theorem callAt_eq {i : ℕ} {c : PbCall R H O} (h : E.callAt r k = some (i, c)) :
    i < k ∧ ∃ t, E.steps[i]? = some (.enter r t c) := by
  induction k with
  | zero => cases h
  | succ k ih =>
    have ih' : E.callAt r k = some (i, c) → i < k + 1 ∧ ∃ t, E.steps[i]? = some (.enter r t c) :=
      fun h => ⟨(ih h).1.trans k.lt_succ_self, (ih h).2⟩
    unfold callAt at h
    split at h
    · rename_i q t c' hl
      split at h
      · rename_i hq
        cases h
        exact ⟨Nat.lt_succ_self _, t, hq ▸ hl⟩
      · exact ih' h
    · split at h
      · cases h
      · exact ih' h
    · exact ih' h

omit [DecidableEq O] in
theorem enter_of_startsAt (h : (a, o) ∈ E.startsAt k) : ∃ t c, E.steps[k]? = some (.enter a t c) ∧
    o ∈ (c.starts (E.handlesAt a k)).filterMap (handsIn E.transfer a) := by
  unfold startsAt at h
  split at h
  · rename_i q t c hl
    obtain ⟨o', ho, heq⟩ := List.mem_map.mp h
    cases heq
    exact ⟨t, c, hl, ho⟩
  · cases h

omit [DecidableEq O] in
theorem isFinalize_of_startsAt {i : ℕ} {c : PbCall R H O} (hc : E.callAt r k = some (i, c))
    (hs : (r, none) ∈ E.startsAt i) : c.isFinalize = true := by
  obtain ⟨-, t, hi⟩ := callAt_eq hc
  obtain ⟨t', c', hi', ho⟩ := enter_of_startsAt hs
  rw [hi] at hi'
  cases hi'
  exact isFinalize_of_starts ho

omit [DecidableEq O] in
theorem StartsOnce.eq (h : E.StartsOnce) {i j : ℕ} (hi : (a, o) ∈ E.startsAt i)
    (hj : (a, o) ∈ E.startsAt j) : i = j := by
  have hlt : ∀ {i : ℕ}, (a, o) ∈ E.startsAt i → i ∈ List.range E.steps.length := by
    intro i hi
    obtain ⟨t, c, hl, -⟩ := enter_of_startsAt hi
    exact List.mem_range.mpr (List.getElem?_eq_some_iff.mp hl).1
  by_contra hne
  have : Std.Symm (Function.onFun List.Disjoint E.startsAt) := ⟨fun _ _ h _ hb ha => h ha hb⟩
  exact (List.nodup_flatMap.mp h).2.forall (hlt hi) (hlt hj) hne hi hj

section
variable (hv : E.Valid)
include hv

/-- The wrappers keep the requests that the application has. -/
theorem handlesAt_eq (k : ℕ) (r : R) : E.handlesAt r k =
    fun h => ((E.ranksAt k).request r h).map Request.handle := by
  induction k with
  | zero => rfl
  | succ k ih =>
    have hstep := stepAt hv k
    rw [handlesAt]
    generalize E.ranksAt k = w at ih hstep
    generalize E.ranksAt (k + 1) = w₁ at hstep ⊢
    generalize E.steps[k]? = l at hstep
    cases hstep with
    | none => exact ih
    | enter q t c hin ht hfit =>
      by_cases hq : q = r
      · subst hq
        simp only [if_pos, ih, handles_requests E.kind q, Ranks.enter, Function.update_self]
      · simpa [hq, Ranks.enter, Ne.symm hq] using ih
    | exit q t htodo hin hfin => exact ih
    | exec q p rest w' htodo he =>
      obtain ⟨-, -, -, -, hreq, -⟩ := he.frame
      rw [← hreq] at ih
      exact ih

theorem parts_eq {t : ℚ} {c : PbCall R H O} (hl : E.steps[k]? = some (.enter r t c)) :
    (c.parts E.kind r ((E.ranksAt k).request r)).filterMap (given E.transfer r) =
      (c.starts (E.handlesAt r k)).filterMap (handsIn E.transfer r) ∧
    (c.parts E.kind r ((E.ranksAt k).request r)).filterMap (taken E.transfer r) =
      (c.completes (E.handlesAt r k)).filterMap (getsOut E.transfer r) := by
  have hok : (E.ranksAt k).Allowed E.kind E.world (.enter r t c) := hv.getElem hl
  have hreq := (wf_ranksAt hv k).requests r
  rw [handlesAt_eq hv]
  exact ⟨given_parts hok.2.2.2 hreq, taken_parts hok.2.2.2 hreq⟩

/-- The parts that the application starts are those for which the wrappers hand in values. -/
theorem mem_startsAt : (a, o) ∈ E.startsAt k ↔
    ∃ t c, E.steps[k]? = some (.enter a t c) ∧
      o ∈ (c.parts E.kind a ((E.ranksAt k).request a)).filterMap (given E.transfer a) := by
  constructor
  · intro h
    obtain ⟨t, c, hl, ho⟩ := enter_of_startsAt h
    exact ⟨t, c, hl, (parts_eq hv hl).1 ▸ ho⟩
  · rintro ⟨t, c, hl, ho⟩
    rw [(parts_eq hv hl).1] at ho
    rw [startsAt, hl]
    exact List.mem_map_of_mem ho

/-- The parts that the application completes are those from which the wrappers get values. -/
theorem completesAt_iff : E.CompletesAt k r o ↔
    ∃ t i c, E.steps[k]? = some (.exit r t) ∧ E.callAt r k = some (i, c) ∧
      o ∈ (c.parts E.kind r ((E.ranksAt i).request r)).filterMap (taken E.transfer r) := by
  refine exists_congr fun t => exists_congr fun i => exists_congr fun c =>
    and_congr_right fun _ => and_congr_right fun hc => ?_
  obtain ⟨-, t', hi⟩ := callAt_eq hc
  rw [(parts_eq hv hi).2]

end

/-! ## What a call brings -/

/-- The values that operations `os` carry, from the ranks that start them. -/
def brought (E : Run R H O) (os : List (Option O)) : Set ℚ :=
  {x | ∃ o ∈ os, ∃ a ∈ (E.transfer o).sources, ∃ j, (a, o) ∈ E.startsAt j ∧
    x = E.valueAt (j + 1) a}

theorem brought_nil : E.brought [] = ∅ := by
  simp [brought]

theorem brought_append (os os' : List (Option O)) :
    E.brought (os ++ os') = E.brought os ∪ E.brought os' := by
  ext x
  simp only [brought, List.mem_append, or_and_right, exists_or]
  rfl

/-- Rank `r` is in call `c` since step `i` and has executed the parts `done` of it. -/
structure InCall (E : Run R H O) (k : ℕ) (r : R) (i : ℕ) (c : PbCall R H O)
    (done : List (Part H (Option O))) : Prop where
  inMpi : (E.ranksAt k).inMpi r = true
  finalized : (E.ranksAt k).finalized r = c.isFinalize
  parts : c.parts E.kind r ((E.ranksAt i).request r) = done ++ (E.ranksAt k).todo r
  greatest : IsGreatest
    (insert (E.valueAt (i + 1) r) (E.brought (done.filterMap (taken E.transfer r))))
    (E.valueAt k r)
  arrived : ∀ o ∈ done.filterMap (taken E.transfer r), ∀ a ∈ (E.transfer o).sources,
    ((E.ranksAt k).sent o a).isSome
  handed : ∀ o ∈ done.filterMap (given E.transfer r), ((E.ranksAt k).sent o r).isSome

/-- What rank `r` has done before step `k`. -/
structure Tracked (E : Run R H O) (k : ℕ) (r : R) : Prop where
  idle : E.callAt r k = none → (E.ranksAt k).todo r = [] ∧ (E.ranksAt k).finalized r = false
  inCall : ∀ i c, E.callAt r k = some (i, c) → ∃ done, E.InCall k r i c done
  /-- What was handed in is the value with which the rank entered the call; it does not return from
  `MPI_Finalize`. -/
  sent : ∀ o v, (E.ranksAt k).sent o r = some v →
    ∃ i < k, (r, o) ∈ E.startsAt i ∧ v.useful = E.valueAt (i + 1) r ∧
      (o = none → ∃ c, E.callAt r k = some (i, c))
  handed : ∀ o, ∀ i < k, (r, o) ∈ E.startsAt i →
    ((E.ranksAt k).sent o r).isSome ∨ ∃ c, E.callAt r k = some (i, c)

theorem Tracked.outside (h : E.Tracked k r) (hin : (E.ranksAt k).inMpi r = false) :
    E.callAt r k = none := by
  by_contra hne
  obtain ⟨⟨i, c⟩, hc⟩ := Option.ne_none_iff_exists'.mp hne
  obtain ⟨done, hd⟩ := h.inCall i c hc
  rw [hd.inMpi] at hin
  cases hin

theorem Tracked.entered (h : E.Tracked k r) {p : Part H (Option O)}
    {rest : List (Part H (Option O))} (htodo : (E.ranksAt k).todo r = p :: rest) :
    ∃ i c, E.callAt r k = some (i, c) := by
  cases hc : E.callAt r k with
  | none =>
    rw [(h.idle hc).1] at htodo
    cases htodo
  | some x => exact ⟨x.1, x.2, rfl⟩

theorem InCall.frame {i : ℕ} {c : PbCall R H O} {done : List (Part H (Option O))}
    (h : E.InCall k r i c done) (hin : (E.ranksAt (k + 1)).inMpi r = (E.ranksAt k).inMpi r)
    (hfin : (E.ranksAt (k + 1)).finalized r = (E.ranksAt k).finalized r)
    (htodo : (E.ranksAt (k + 1)).todo r = (E.ranksAt k).todo r)
    (hval : E.valueAt (k + 1) r = E.valueAt k r)
    (hsent : ∀ o a, ((E.ranksAt k).sent o a).isSome → ((E.ranksAt (k + 1)).sent o a).isSome) :
    E.InCall (k + 1) r i c done where
  inMpi := hin.trans h.inMpi
  finalized := hfin.trans h.finalized
  parts := htodo ▸ h.parts
  greatest := hval ▸ h.greatest
  arrived o ho a ha := hsent o a (h.arrived o ho a ha)
  handed o ho := hsent o r (h.handed o ho)

/-- The value that a rank has handed in is that of its only start. -/
theorem Tracked.sent_of_startsAt (h : E.Tracked k a) (honce : E.StartsOnce) {j : ℕ}
    (hj : (a, o) ∈ E.startsAt j) (hsome : ((E.ranksAt k).sent o a).isSome) :
    j < k ∧ ∃ v, (E.ranksAt k).sent o a = some v ∧ v.useful = E.valueAt (j + 1) a := by
  obtain ⟨v, hsv⟩ := Option.isSome_iff_exists.mp hsome
  obtain ⟨i, hi, hs, hval, -⟩ := h.sent o v hsv
  obtain rfl := honce.eq hs hj
  exact ⟨hi, v, hsv, hval⟩

/-- The result of an operation is made of the values that its starts carry. -/
theorem isGreatest_brought (honce : E.StartsOnce) {uc : IpcData} (h : ∀ a, E.Tracked k a)
    (hres : (E.transfer o).result ((E.ranksAt k).sent o) = some uc) :
    IsGreatest (E.brought [o]) uc.useful := by
  obtain ⟨hall, hgr⟩ := isGreatest_result hres
  have hset : E.brought [o] = {x | ∃ a ∈ (E.transfer o).sources,
      ∃ v, (E.ranksAt k).sent o a = some v ∧ x = v.useful} := by
    ext x
    constructor
    · rintro ⟨o', ho', a, ha, j, hj, rfl⟩
      obtain rfl : o' = o := by simpa using ho'
      obtain ⟨-, v, hsv, hval⟩ := (h a).sent_of_startsAt honce hj (hall a ha)
      exact ⟨a, ha, v, hsv, hval.symm⟩
    · rintro ⟨a, ha, v, hsv, rfl⟩
      obtain ⟨i, -, hs, hval, -⟩ := (h a).sent o v hsv
      exact ⟨o, List.mem_cons_self, a, ha, i, hs, hval⟩
  rw [hset]
  exact hgr

section
variable (hv : E.Valid)
include hv

theorem sent_mono (a : R) (h : ((E.ranksAt k).sent o a).isSome) :
    ((E.ranksAt (k + 1)).sent o a).isSome := by
  have hstep := stepAt hv k
  generalize E.ranksAt k = w at h hstep
  generalize E.ranksAt (k + 1) = w₁ at hstep ⊢
  generalize E.steps[k]? = l at hstep
  cases hstep with
  | exec q p rest w' htodo he =>
    show (w'.sent o a).isSome
    by_cases hq : a = q
    · subst hq
      rcases he.given o with ⟨-, hs⟩ | ⟨-, hs⟩
      · rw [hs]
        rfl
      · rw [hs]
        exact h
    · rw [(he.of_ne hq).2.2]
      exact h
  | _ => exact h

theorem InCall.exec {i : ℕ} {c : PbCall R H O} {done rest : List (Part H (Option O))}
    {p : Part H (Option O)} {w' : Ranks R H O} (honce : E.StartsOnce) (h : ∀ a, E.Tracked k a)
    (hc : E.InCall k r i c done) (htodo : (E.ranksAt k).todo r = p :: rest)
    (he : Effect E.transfer r (E.ranksAt k) p w')
    (hw₁ : E.ranksAt (k + 1) = w'.advance r rest) : E.InCall (k + 1) r i c (done ++ [p]) := by
  have hw := wf_ranksAt hv k
  obtain ⟨-, hin, hfin, -⟩ := he.frame
  have hval : E.valueAt (k + 1) r = w'.value r := by
    unfold valueAt
    rw [hw₁]
    rfl
  have htaken := he.taken hw.stacked hc.inMpi (hw.stale r)
  refine ⟨?_, ?_, ?_, ?_, ?_, ?_⟩
  · rw [hw₁]
    exact (congrFun hin r).trans hc.inMpi
  · rw [hw₁]
    exact (congrFun hfin r).trans hc.finalized
  · rw [hc.parts, htodo, hw₁]
    simp [Ranks.advance]
  · rw [List.filterMap_append, brought_append, hval]
    refine isGreatest_insert_union hc.greatest ?_
    rcases htaken with ⟨o, uc, hp, hres, hv'⟩ | ⟨hp, hv'⟩
    · rw [hv', max_comm, show [p].filterMap (taken E.transfer r) = [o] by simp [hp]]
      exact isGreatest_insert_max (isGreatest_brought honce h hres) _
    · rw [hv', show [p].filterMap (taken E.transfer r) = [] by simp [hp], brought_nil]
      simp [valueAt]
  · intro o ho a ha
    refine sent_mono hv a ?_
    rw [List.filterMap_append, List.mem_append] at ho
    rcases ho with ho | ho
    · exact hc.arrived o ho a ha
    · rcases htaken with ⟨o', uc, hp, hres, -⟩ | ⟨hp, -⟩
      · obtain rfl : o = o' := by simpa [hp] using ho
        exact (isGreatest_result hres).1 a ha
      · simp [hp] at ho
  · intro o ho
    rw [List.filterMap_append, List.mem_append] at ho
    rcases ho with ho | ho
    · exact sent_mono hv r (hc.handed o ho)
    · rw [hw₁]
      rcases he.given o with ⟨-, hs⟩ | ⟨hno, -⟩
      · show (w'.sent o r).isSome
        rw [hs]
        rfl
      · exact absurd (by simpa using ho) hno

/-- A value is handed in before the call takes one: it is the value at the entry of the call. -/
theorem InCall.value_eq {i : ℕ} {c : PbCall R H O} {done rest : List (Part H (Option O))}
    {p : Part H (Option O)} (hc : E.InCall k r i c done) (hcall : E.callAt r k = some (i, c))
    (htodo : (E.ranksAt k).todo r = p :: rest) (hp : given E.transfer r p = some o) :
    (r, o) ∈ E.startsAt i ∧ E.valueAt k r = E.valueAt (i + 1) r := by
  obtain ⟨-, t, hi⟩ := callAt_eq hcall
  have hparts := hc.parts
  rw [htodo] at hparts
  constructor
  · refine (mem_startsAt hv).mpr ⟨t, c, hi, List.mem_filterMap.mpr ⟨p, ?_, hp⟩⟩
    rw [hparts]
    simp
  · have hpair : (done ++ p :: rest).Pairwise fun p q =>
        taken E.transfer r p = none ∨ given E.transfer r q = none := by
      rw [← hparts]
      exact pairwise_parts ((wf_ranksAt hv i).requests r)
    have hnone : done.filterMap (taken E.transfer r) = [] := by
      refine List.filterMap_eq_nil_iff.mpr fun q hq => ?_
      rcases (List.pairwise_append.mp hpair).2.2 q hq p List.mem_cons_self with h | h
      · exact h
      · rw [hp] at h
        cases h
    have hgr := hc.greatest
    rw [hnone, brought_nil] at hgr
    rcases hgr.1 with h | h
    · exact h
    · cases h

/-- A step keeps what belongs to another rank. -/
theorem keeps (hr : ∀ l, E.steps[k]? = some l → l.rank ≠ r) :
    E.callAt r (k + 1) = E.callAt r k ∧
    (E.ranksAt (k + 1)).inMpi r = (E.ranksAt k).inMpi r ∧
    (E.ranksAt (k + 1)).finalized r = (E.ranksAt k).finalized r ∧
    (E.ranksAt (k + 1)).todo r = (E.ranksAt k).todo r ∧
    E.valueAt (k + 1) r = E.valueAt k r ∧
    ∀ o, (E.ranksAt (k + 1)).sent o r = (E.ranksAt k).sent o r := by
  have hstep := stepAt hv k
  rw [callAt]
  unfold valueAt
  generalize E.ranksAt k = w at hstep
  generalize E.ranksAt (k + 1) = w₁ at hstep
  generalize E.steps[k]? = l at hstep hr
  cases hstep with
  | none => exact ⟨rfl, rfl, rfl, rfl, rfl, fun _ => rfl⟩
  | enter q t c hin ht hfit =>
    have hq : q ≠ r := hr _ rfl
    exact ⟨if_neg hq, by simp [Ranks.enter, hq.symm], by simp [Ranks.enter, hq.symm],
      by simp [Ranks.enter, hq.symm], value_enter_of_ne hq.symm .., fun _ => rfl⟩
  | exit q t htodo hin hfin =>
    have hq : q ≠ r := hr _ rfl
    exact ⟨if_neg hq, by simp [Ranks.exit, hq.symm], rfl, rfl, value_exit_of_ne hq.symm t,
      fun _ => rfl⟩
  | exec q p rest w' htodo he =>
    have hq : r ≠ q := (hr _ rfl).symm
    obtain ⟨-, hin, hfin, htodo', -⟩ := he.frame
    obtain ⟨hval, -, hsent⟩ := he.of_ne hq
    exact ⟨rfl, congrFun hin r, congrFun hfin r, by simp [Ranks.advance, hq, htodo'], hval, hsent⟩

omit hv [DecidableEq O] in
theorem lt_of_startsAt {i : ℕ} (h : i < k + 1) (hs : (r, o) ∈ E.startsAt i)
    (hl : ∀ t c, E.steps[k]? ≠ some (.enter r t c)) : i < k := by
  refine lt_of_le_of_ne (Nat.lt_succ_iff.mp h) ?_
  rintro rfl
  obtain ⟨t, c, hi, -⟩ := enter_of_startsAt hs
  exact hl t c hi

theorem Tracked.of_other (h : E.Tracked k r) (hr : ∀ l, E.steps[k]? = some l → l.rank ≠ r) :
    E.Tracked (k + 1) r := by
  obtain ⟨hcall, hin, hfin, htodo, hval, hsent⟩ := keeps hv hr
  refine ⟨?_, ?_, ?_, ?_⟩
  · rw [hcall, htodo, hfin]
    exact h.idle
  · rw [hcall]
    intro i c hc
    obtain ⟨done, hd⟩ := h.inCall i c hc
    exact ⟨done, hd.frame hin hfin htodo hval fun o a => sent_mono hv a⟩
  · intro o v hs
    rw [hsent] at hs
    obtain ⟨i, hi, hrest⟩ := h.sent o v hs
    exact ⟨i, hi.trans k.lt_succ_self, by rwa [hcall]⟩
  · intro o i hi hs
    rw [hcall, hsent]
    exact h.handed o i (lt_of_startsAt hi hs fun t c hl => hr _ hl rfl) hs

omit hv in
theorem Tracked.enter {t : ℚ} {c : PbCall R H O} (h : E.Tracked k r)
    (hl : E.steps[k]? = some (.enter r t c)) (hin : (E.ranksAt k).inMpi r = false) :
    E.Tracked (k + 1) r := by
  have hw₁ := ranksAt_succ hl
  have hcall : E.callAt r (k + 1) = some (k, c) := by simp [callAt, hl]
  have hout : ∀ {i}, ¬ ∃ c, E.callAt r k = some (i, c) := by
    rintro i ⟨c, hc⟩
    rw [h.outside hin] at hc
    cases hc
  have hsent : ∀ o, (E.ranksAt (k + 1)).sent o r = (E.ranksAt k).sent o r := by
    intro o
    rw [hw₁]
    rfl
  refine ⟨fun hn => ?_, fun i c' hc => ?_, fun o v hs => ?_, fun o i hi hs => ?_⟩
  · rw [hcall] at hn
    cases hn
  · rw [hcall] at hc
    cases hc
    refine ⟨[], ?_, ?_, ?_, ?_, by simp, by simp⟩
    · simp [hw₁, Ranks.step, Ranks.enter]
    · simp [hw₁, Ranks.step, Ranks.enter]
    · simp [hw₁, Ranks.step, Ranks.enter]
    · simp [brought_nil]
  · rw [hsent] at hs
    obtain ⟨i, hi, hs, hval, hfin⟩ := h.sent o v hs
    exact ⟨i, hi.trans k.lt_succ_self, hs, hval, fun ho => (hout (hfin ho)).elim⟩
  · rw [hsent, hcall]
    rcases Nat.lt_succ_iff_lt_or_eq.mp hi with hlt | rfl
    · exact (h.handed o i hlt hs).imp_right fun hc => (hout hc).elim
    · exact .inr ⟨c, rfl⟩

theorem Tracked.exit {t : ℚ} (h : E.Tracked k r) (hl : E.steps[k]? = some (.exit r t))
    (htodo : (E.ranksAt k).todo r = []) (hfin : (E.ranksAt k).finalized r = false) :
    E.Tracked (k + 1) r := by
  have hw₁ := ranksAt_succ hl
  have hcall : E.callAt r (k + 1) = none := by simp [callAt, hl]
  have hsent : ∀ o, (E.ranksAt (k + 1)).sent o r = (E.ranksAt k).sent o r := by
    intro o
    rw [hw₁]
    rfl
  refine ⟨fun _ => ?_, fun i c' hc => ?_, fun o v hs => ?_, fun o i hi hs => .inl ?_⟩
  · rw [hw₁]
    exact ⟨htodo, hfin⟩
  · rw [hcall] at hc
    cases hc
  · rw [hsent] at hs
    obtain ⟨i, hi, hs, hval, hlast⟩ := h.sent o v hs
    refine ⟨i, hi.trans k.lt_succ_self, hs, hval, ?_⟩
    rintro rfl
    obtain ⟨c, hc⟩ := hlast rfl
    obtain ⟨done, hd⟩ := h.inCall i c hc
    rw [hd.finalized, isFinalize_of_startsAt hc hs] at hfin
    cases hfin
  · rw [hsent]
    rcases h.handed o i (lt_of_startsAt hi hs (by simp [hl])) hs with hsome | ⟨c, hc⟩
    · exact hsome
    · -- all parts of the call are done
      obtain ⟨done, hd⟩ := h.inCall i c hc
      obtain ⟨-, t', hi'⟩ := callAt_eq hc
      obtain ⟨t'', c', hi'', ho⟩ := (mem_startsAt hv).mp hs
      rw [hi'] at hi''
      cases hi''
      rw [hd.parts, htodo, List.append_nil] at ho
      exact hd.handed o ho

theorem Tracked.exec {p : Part H (Option O)} {rest : List (Part H (Option O))} {w' : Ranks R H O}
    (honce : E.StartsOnce) (h : ∀ a, E.Tracked k a) (hl : E.steps[k]? = some (.exec r))
    (htodo : (E.ranksAt k).todo r = p :: rest) (he : Effect E.transfer r (E.ranksAt k) p w')
    (hw₁ : E.ranksAt (k + 1) = w'.advance r rest) : E.Tracked (k + 1) r := by
  have hw := wf_ranksAt hv k
  have hcall : E.callAt r (k + 1) = E.callAt r k := by simp [callAt, hl]
  have hsent : ∀ o, (E.ranksAt (k + 1)).sent o r = w'.sent o r := by
    intro o
    rw [hw₁]
    rfl
  obtain ⟨i, c, hc⟩ := (h r).entered htodo
  obtain ⟨done, hd⟩ := (h r).inCall i c hc
  refine ⟨fun hn => ?_, fun i' c' hc' => ?_, fun o v hs => ?_, fun o j hj hs => ?_⟩
  · rw [hcall, hc] at hn
    cases hn
  · rw [hcall, hc] at hc'
    cases hc'
    exact ⟨done ++ [p], hd.exec hv honce h htodo he hw₁⟩
  · rw [hsent] at hs
    rcases he.given o with ⟨hp, hs'⟩ | ⟨-, hs'⟩
    · rw [hs'] at hs
      cases hs
      obtain ⟨hstart, hval⟩ := hd.value_eq hv hc htodo hp
      refine ⟨i, (callAt_eq hc).1.trans k.lt_succ_self, hstart, ?_, fun _ => ⟨c, hcall.trans hc⟩⟩
      rw [← hval]
      exact (hw.stacked.value hd.inMpi).symm
    · rw [hs'] at hs
      obtain ⟨j, hj, hrest⟩ := (h r).sent o v hs
      exact ⟨j, hj.trans k.lt_succ_self, by rwa [hcall]⟩
  · rw [hcall]
    exact ((h r).handed o j (lt_of_startsAt hj hs (by simp [hl])) hs).imp_left (sent_mono hv r)

theorem tracked (honce : E.StartsOnce) (k : ℕ) (r : R) : E.Tracked k r := by
  induction k generalizing r with
  | zero =>
    refine ⟨fun _ => ⟨rfl, rfl⟩, fun _ _ h => ?_, fun _ _ h => ?_, fun _ _ h => ?_⟩
    · cases h
    · cases h
    · exact absurd h (Nat.not_lt_zero _)
  | succ k ih =>
    have hstep := stepAt hv k
    generalize hw₁ : E.ranksAt (k + 1) = w₁ at hstep
    generalize hl : E.steps[k]? = l at hstep
    have hother : (∀ l', l = some l' → l'.rank ≠ r) → E.Tracked (k + 1) r :=
      fun hr => (ih r).of_other hv (by rwa [hl])
    cases hstep with
    | none => exact hother (by simp)
    | enter q t c hin ht hfit =>
      by_cases hq : q = r
      · subst hq
        exact (ih q).enter hl hin
      · exact hother (by simpa [PbLabel.rank] using hq)
    | exit q t htodo hin hfin =>
      by_cases hq : q = r
      · subst hq
        exact (ih q).exit hv hl htodo hfin
      · exact hother (by simpa [PbLabel.rank] using hq)
    | exec q p rest w' htodo he =>
      by_cases hq : q = r
      · subst hq
        exact Tracked.exec hv honce ih hl htodo he hw₁
      · exact hother (by simpa [PbLabel.rank] using hq)

end

end

end Run

end CritPath.Exchange
