import CritPath.Clock.Local
import CritPath.Lib.Greatest
import CritPath.Mpi.Exchange

/-!
# Loads and merges follow the transfers

Every piggyback class loads the clock exactly where the library reads the
buffer and merges exactly where the library writes it (`parts_ok`,
`newRequest_ok`), for each role in each kind of operation. `Ranks.Wf` collects
this with the shape of the clock stacks and with what stale buffers hold.
-/

namespace CritPath

open Lib

/-! ## Results -/

/-- The result is there when all sources have handed in values, and then it is the largest. -/
theorem isGreatest_gather {R : Type} {sent : R → Option IpcData} {r : R} {rs : List R}
    {uc : IpcData} (h : gather sent r rs = some uc) :
    (∀ q ∈ r :: rs, (sent q).isSome) ∧
      IsGreatest {x | ∃ q ∈ r :: rs, ∃ v, sent q = some v ∧ x = v.useful} uc.useful := by
  induction rs generalizing r uc with
  | nil =>
    have hr : sent r = some uc := h
    refine ⟨by simp [hr], ⟨r, by simp, uc, hr, rfl⟩, ?_⟩
    rintro _ ⟨q, hq, v, hv, rfl⟩
    obtain rfl : q = r := by simpa using hq
    rw [hr] at hv
    cases hv
    exact le_refl _
  | cons q rs ih =>
    unfold gather at h
    split at h
    · rename_i a b ha hb
      cases h
      obtain ⟨hall, hmax⟩ := ih hb
      refine ⟨?_, ?_⟩
      · intro p hp
        rcases List.mem_cons.mp hp with rfl | hp
        · simp [ha]
        · exact hall p hp
      · have hins : {x | ∃ p ∈ r :: q :: rs, ∃ v, sent p = some v ∧ x = v.useful} =
            insert a.useful {x | ∃ p ∈ q :: rs, ∃ v, sent p = some v ∧ x = v.useful} := by
          ext x
          constructor
          · rintro ⟨p, hp, v, hv, rfl⟩
            rcases List.mem_cons.mp hp with rfl | hp
            · rw [ha] at hv
              cases hv
              exact .inl rfl
            · exact .inr ⟨p, hp, v, hv, rfl⟩
          · rintro (rfl | ⟨p, hp, v, hv, rfl⟩)
            · exact ⟨r, List.mem_cons_self, a, ha, rfl⟩
            · exact ⟨p, List.mem_cons_of_mem _ hp, v, hv, rfl⟩
        rw [hins]
        show IsGreatest _ (max a.useful b.useful)
        rw [max_comm]
        exact isGreatest_insert_max hmax _
    · cases h

theorem isGreatest_result {R : Type} {sent : R → Option IpcData} {x : Transfer R} {uc : IpcData}
    (h : x.result sent = some uc) :
    (∀ q ∈ x.sources, (sent q).isSome) ∧
      IsGreatest {v | ∃ q ∈ x.sources, ∃ a, sent q = some a ∧ v = a.useful} uc.useful := by
  unfold Transfer.result at h
  split at h
  · cases h
  · rename_i r rs hrs
    rw [hrs]
    exact isGreatest_gather h

theorem useful_mpiHappensAfter (c : ThreadClock) (uc : IpcData) :
    ((c.mpiHappensAfter true uc).clocks .useful).critical =
      max (c.clocks .useful).critical uc.useful :=
  updateMaximum_eq ..

namespace Exchange

/-! ## The classes -/

section
variable {R H O : Type} [DecidableEq R] {transfer : Option O → Transfer R} {r : R}

/-- A part loads where the library reads and merges where the library writes. -/
def PartOk (transfer : Option O → Transfer R) (r : R) : Part H (Option O) → Prop
  | .load _ | .merge _ => True
  | .post role load _ o => load = (transfer o).gives r role
  | .wait role merge _ o => merge = (transfer o).takes r role

/-- What a request with buffer in `H` makes of its operations. -/
structure RequestOk (H : Type) (transfer : Option O → Transfer R) (r : R)
    (d : Request R (Option O)) : Prop where
  own : d.current ≠ some none
  complete : ∀ h : H, ∀ p ∈ d.complete h, PartOk transfer r p
  restart : d.persistent = true → ∀ o, (transfer o).Joins r d.role →
    (d.transfer = none ∨ d.transfer = some (transfer o)) → ∀ h : H,
      (∀ p ∈ d.start h o, PartOk transfer r p) ∧
      ∀ p ∈ Request.complete { d with current := some o } h, PartOk transfer r p
  /-- Only a receive with a wildcard is started without a callback. -/
  posts : d.persistent = true → d.startCallback = none → d.role = .receiver

theorem gives_sender {x : Transfer R} (h : x.Joins r .sender) : x.gives r .sender = true := by
  cases x <;> first | rfl | exact h.elim

theorem takes_sender (x : Transfer R) : x.takes r .sender = false := by cases x <;> rfl

theorem gives_receiver (x : Transfer R) : x.gives r .receiver = false := by cases x <;> rfl

theorem takes_receiver {x : Transfer R} (h : x.Joins r .receiver) : x.takes r .receiver = true := by
  cases x <;> first | rfl | exact h.elim

/-- The callback merges iff the operation takes a value, and does not post a value too late. -/
def CompletionFits (transfer : Option O → Transfer R) (r : R) (role : Role)
    (cb : CompletionCallback) (o : Option O) : Prop :=
  (cb = .completePBWC → (transfer o).gives r role = false) ∧
  (transfer o).takes r role = decide (cb ≠ .completePBnoHB ∧ cb ≠ .completePersPBnoHB)

theorem complete_ok {d : Request R (Option O)} {h : H} {p : Part H (Option O)}
    (hp : p ∈ d.complete h)
    (hcur : ∀ o, d.current = some o →
      CompletionFits transfer r d.role d.completionCallback o) : PartOk transfer r p := by
  obtain ⟨role, x, pers, st, cb, cur⟩ := d
  cases cur with
  | none => cases cb <;> simp_all [Request.complete, PartOk]
  | some o =>
    obtain ⟨hg, ht⟩ := hcur o rfl
    cases cb <;> simp_all [Request.complete, PartOk]
    rcases hp with rfl | rfl
    · exact hg.symm
    · exact ht.symm

theorem RequestOk.single {d : Request R (Option O)} {o : O} (hcur : d.current = some (some o))
    (hpers : d.persistent = false)
    (hcb : CompletionFits transfer r d.role d.completionCallback (some o)) :
    RequestOk H transfer r d := by
  refine ⟨by simp [hcur], fun h p hp => complete_ok hp fun o' ho' => ?_, by simp [hpers],
    by simp [hpers]⟩
  obtain rfl : some o = o' := Option.some.inj (hcur.symm.trans ho')
  exact hcb

theorem RequestOk.persistent {d : Request R (Option O)} (hcur : d.current = none)
    (hposts : d.startCallback = none → d.role = .receiver)
    (hstart : ∀ o, (transfer o).Joins r d.role →
      (d.transfer = none ∨ d.transfer = some (transfer o)) →
      (∀ h : H, ∀ p ∈ d.start h o, PartOk transfer r p) ∧
        CompletionFits transfer r d.role d.completionCallback o) : RequestOk H transfer r d := by
  refine ⟨by simp [hcur], fun h p hp => complete_ok hp fun o ho => ?_, fun _ o hjoin htr h => ?_,
    fun _ => hposts⟩
  · rw [hcur] at ho
    cases ho
  · obtain ⟨hparts, hcb⟩ := hstart o hjoin htr
    refine ⟨hparts h, fun p hp => complete_ok hp fun o' ho' => ?_⟩
    obtain rfl : o = o' := Option.some.inj ho'
    exact hcb

theorem collPB_ok {x : Transfer R} {h : H} {o : Option O} (hx : transfer o = x) :
    ∀ p ∈ collPB x r h o, PartOk transfer r p := by
  subst hx
  cases hk : transfer o <;>
    simp [collPB, mpiCollAllreducePB, mpiCollBcastPB, mpiCollReducePB, PartOk, hk,
      Transfer.gives, Transfer.takes, eq_comm]

theorem icollPB_ok {x : Transfer R} {h : H} {o : Option O} (hx : transfer o = x) :
    ∀ p ∈ (icollPB x r h o).1, PartOk transfer r p := by
  subst hx
  cases hk : transfer o <;>
    simp [icollPB, mpiIcollAllreducePB, mpiIcollBcastPB, mpiIcollReducePB, PartOk, hk,
      Transfer.gives, eq_comm]

/-- It completes without a merge exactly where the library leaves no result. -/
theorem takes_icollPB {x : Transfer R} (hx : x.Joins r .member) (h : H) (o : Option O) :
    x.takes r .member = decide ((icollPB x r h o).2 ≠ .completePBnoHB ∧
      (icollPB x r h o).2 ≠ .completePersPBnoHB) ∧ (icollPB x r h o).2 ≠ .completePBWC := by
  cases x with
  | message a b => exact hx.elim
  | allreduce ms => simp [icollPB, mpiIcollAllreducePB, Transfer.takes]
  | bcast root ms => simp [icollPB, mpiIcollBcastPB, Transfer.takes]
  | reduce root ms =>
    by_cases hr : r = root
    · subst hr
      simp [icollPB, mpiIcollReducePB, Transfer.takes]
    · simp [icollPB, mpiIcollReducePB, Transfer.takes, hr, Ne.symm hr]

theorem takes_collInitPB {x : Transfer R} (hx : x.Joins r .member) :
    x.takes r .member = decide ((collInitPB x r).2 ≠ .completePBnoHB ∧
      (collInitPB x r).2 ≠ .completePersPBnoHB) ∧ (collInitPB x r).2 ≠ .completePBWC := by
  cases x with
  | message a b => exact hx.elim
  | allreduce ms => simp [collInitPB, mpiCollAllreduceInitPB, Transfer.takes]
  | bcast root ms => simp [collInitPB, mpiCollBcastInitPB, Transfer.takes]
  | reduce root ms =>
    by_cases hr : r = root
    · subst hr
      simp [collInitPB, mpiCollReduceInitPB, Transfer.takes]
    · simp [collInitPB, mpiCollReduceInitPB, Transfer.takes, hr, Ne.symm hr]

theorem gives_collInitPB {x : Transfer R} (hx : x.Joins r .member) :
    x.gives r .member = decide ((collInitPB x r).1 = .startPersPBHB) := by
  cases x with
  | message a b => exact hx.elim
  | allreduce ms => rfl
  | bcast root ms =>
    by_cases hr : r = root
    · subst hr
      simp [collInitPB, mpiCollBcastInitPB, Transfer.gives]
    · simp [collInitPB, mpiCollBcastInitPB, Transfer.gives, hr, Ne.symm hr]
  | reduce root ms => rfl

/-- One buffer for both directions: it is loaded for the send, and the receive overwrites it. -/
theorem sendrecvReplace_ok {s p : Option (Option O)} {h : H}
    (hs : ∀ o ∈ s, (transfer o).Joins r .sender) :
    ∀ q ∈ sendrecvReplace h s p, PartOk transfer r q := by
  rcases s with _ | s <;> rcases p with _ | p <;>
    simp [sendrecvReplace, PartOk, gives_receiver]
  all_goals exact gives_sender (hs s rfl)

theorem mpiSendrecvPB_ok {s p : Option (Option O)} {h : H}
    (hs : ∀ o ∈ s, (transfer o).Joins r .sender) (hp : ∀ o ∈ p, (transfer o).Joins r .receiver) :
    ∀ q ∈ mpiSendrecvPB h s p, PartOk transfer r q := by
  intro q hq
  rcases List.mem_append.mp hq with hq | hq
  · exact sendrecvReplace_ok hs q hq
  · rcases p with _ | p
    · rcases s with _ | s
      · cases hq
      · obtain rfl : q = _ := by simpa using hq
        exact (takes_sender _).symm
    · obtain rfl : q = .wait .receiver true h p := by
        rcases s with _ | s <;> simpa using hq
      exact (takes_receiver (hp p rfl)).symm

/-! ## The calls -/

variable {kind : O → Transfer R} {world : List R}

section
variable {w : Ranks R H O} {c : PbCall R H O}

theorem mem_parts_start {h : H} {o : O} {p : Part H (Option O)}
    (hp : p ∈ (PbCall.start h o).parts kind r (w.request r)) :
    ∃ d, w.request r h = some d ∧ p ∈ d.start h (some o) := by
  cases hd : w.request r h with
  | none => simp [PbCall.parts, hd] at hp
  | some d => exact ⟨d, rfl, by simpa [PbCall.parts, hd] using hp⟩

theorem mem_parts_complete {hs : List H} {p : Part H (Option O)}
    (hp : p ∈ (PbCall.complete hs).parts kind r (w.request r)) :
    ∃ h d, w.request r h = some d ∧ p ∈ d.complete h := by
  obtain ⟨h, -, hp⟩ := List.mem_flatMap.mp hp
  cases hd : w.request r h with
  | none => simp [hd] at hp
  | some d => exact ⟨h, d, hd, by simpa [hd] using hp⟩

theorem parts_ok (hfit : w.Fits kind r c)
    (hreq : ∀ h d, w.request r h = some d → RequestOk H (transferOf kind world) r d) :
    ∀ p ∈ c.parts kind r (w.request r), PartOk (transferOf kind world) r p := by
  have hmap : ∀ {role : Role} {s : Option O}, (∀ o ∈ s, (kind o).Joins r role) →
      ∀ o ∈ s.map some, (transferOf kind world o).Joins r role := by
    rintro role (_ | s) hs o ho
    · cases ho
    · obtain rfl : o = some s := by simpa [eq_comm] using ho
      exact hs s rfl
  cases c with
  | other => exact fun _ hp => absurd hp List.not_mem_nil
  | collInit h x => exact fun _ hp => absurd hp List.not_mem_nil
  | sendInit h dest => exact fun _ hp => absurd hp List.not_mem_nil
  | recvInit h source => exact fun _ hp => absurd hp List.not_mem_nil
  | coll h o => exact collPB_ok rfl
  | icoll h o => exact icollPB_ok rfl
  | send h o =>
    intro p hp
    obtain rfl : p = _ := by simpa [PbCall.parts, mpiSendPB] using hp
    exact (gives_sender (x := kind o) hfit).symm
  | recv h o =>
    intro p hp
    rcases List.mem_cons.mp hp with rfl | hp
    · exact (gives_receiver (kind o)).symm
    · obtain rfl : p = _ := by simpa using hp
      exact (takes_receiver (x := kind o) hfit).symm
  | isend h o =>
    intro p hp
    obtain rfl : p = _ := by simpa [PbCall.parts, mpiIsendPB] using hp
    exact (gives_sender (x := kind o) hfit).symm
  | irecv wildcard h o =>
    intro p hp
    cases wildcard with
    | true => cases hp
    | false =>
      obtain rfl : p = _ := by simpa [PbCall.parts, mpiIrecvPB] using hp
      exact (gives_receiver (kind o)).symm
  | sendrecv h s p => exact mpiSendrecvPB_ok (hmap hfit.1) (hmap hfit.2)
  | isendrecv h s p => exact sendrecvReplace_ok (hmap hfit.1)
  | start h o =>
    intro p hp
    have hst : Ranks.Startable r (kind o) (w.request r h) := hfit
    obtain ⟨d, hd, hp⟩ := mem_parts_start hp
    rw [hd] at hst
    obtain ⟨hpers, -, hjoin, htr⟩ := hst
    exact ((hreq h d hd).restart hpers (some o) hjoin htr h).1 p hp
  | complete hs =>
    intro p hp
    obtain ⟨h, d, hd, hp⟩ := mem_parts_complete hp
    exact (hreq h d hd).complete h p hp
  | finalize h =>
    intro p hp
    rcases List.mem_cons.mp hp with rfl | hp
    · rfl
    · obtain rfl : p = _ := by simpa using hp
      rfl

theorem newRequest_ok (hfit : w.Fits kind r c) {h : H} {d : Request R (Option O)}
    (hd : c.newRequest kind r = some (h, d)) : RequestOk H (transferOf kind world) r d := by
  cases c with
  | icoll h o =>
    obtain ⟨-, rfl⟩ : _ ∧ _ := by simpa [PbCall.newRequest] using hd
    obtain ⟨ht, hwc⟩ := takes_icollPB (x := kind o) hfit h (some o)
    exact .single rfl rfl ⟨fun heq => absurd heq hwc, ht⟩
  | collInit h x =>
    obtain ⟨-, rfl⟩ : _ ∧ _ := by simpa [PbCall.newRequest] using hd
    obtain ⟨ht, hwc⟩ := takes_collInitPB (x := x) hfit
    refine .persistent rfl (by rintro ⟨⟩) ?_
    rintro o hjoin (⟨⟨⟩⟩ | ⟨hx⟩)
    have hx : x = transferOf kind world o := by simpa using hx
    refine ⟨fun h' p hp => ?_, fun heq => absurd heq hwc, by rw [← hx]; exact ht⟩
    have hg := gives_collInitPB (x := x) hfit
    cases hcb : (collInitPB x r).1 with
    | startPersPBHB =>
      obtain rfl : p = _ := by simpa [Request.start, hcb] using hp
      show true = _
      rw [← hx, hg, hcb]
      rfl
    | startPersPBnoHB =>
      obtain rfl : p = _ := by simpa [Request.start, hcb] using hp
      show false = _
      rw [← hx, hg, hcb]
      rfl
  | isend h o =>
    obtain ⟨-, rfl⟩ : _ ∧ _ := by simpa [PbCall.newRequest] using hd
    exact .single rfl rfl ⟨by rintro ⟨⟩, takes_sender (kind o)⟩
  | irecv wildcard h o =>
    obtain ⟨-, rfl⟩ : _ ∧ _ := by simpa [PbCall.newRequest] using hd
    refine .single rfl rfl ⟨fun _ => gives_receiver (kind o), ?_⟩
    cases wildcard <;> exact takes_receiver (x := kind o) hfit
  | sendInit h dest =>
    obtain ⟨-, rfl⟩ : _ ∧ _ := by simpa [PbCall.newRequest] using hd
    refine .persistent rfl (by rintro ⟨⟩) fun o hjoin _ =>
      ⟨fun h' p hp => ?_, by rintro ⟨⟩, takes_sender _⟩
    obtain rfl : p = _ := by simpa [Request.start, mpiSendInitPB] using hp
    exact (gives_sender hjoin).symm
  | recvInit h source =>
    obtain ⟨-, rfl⟩ : _ ∧ _ := by simpa [PbCall.newRequest] using hd
    refine .persistent rfl (fun _ => rfl) fun o hjoin _ =>
      ⟨fun h' p hp => ?_, fun _ => gives_receiver _, ?_⟩
    · cases source with
      | none => simp [Request.start, mpiRecvInitPB] at hp
      | some s =>
        obtain rfl : p = _ := by simpa [Request.start, mpiRecvInitPB] using hp
        exact (gives_receiver _).symm
    · cases source <;> exact takes_receiver hjoin
  | isendrecv h s p =>
    rcases p with _ | p
    · rcases s with _ | s
      · cases hd
      · obtain ⟨-, rfl⟩ : _ ∧ _ := by simpa [PbCall.newRequest] using hd
        exact .single rfl rfl ⟨by rintro ⟨⟩, takes_sender (kind s)⟩
    · obtain ⟨-, rfl⟩ : _ ∧ _ := by simpa [PbCall.newRequest] using hd
      exact .single rfl rfl ⟨by rintro ⟨⟩, takes_receiver (x := kind p) (hfit.2 p rfl)⟩
  | other => cases hd
  | coll h o => cases hd
  | send h o => cases hd
  | recv h o => cases hd
  | sendrecv h s p => cases hd
  | start h o => cases hd
  | complete hs => cases hd
  | finalize h => cases hd

variable [DecidableEq H]

theorem requests_ok (hfit : w.Fits kind r c)
    (hreq : ∀ h d, w.request r h = some d → RequestOk H (transferOf kind world) r d) (h : H)
    (d : Request R (Option O)) (hd : c.requests kind r (w.request r) h = some d) :
    RequestOk H (transferOf kind world) r d := by
  unfold PbCall.requests at hd
  split at hd
  · rename_i h' o
    by_cases hh : h = h'
    · subst hh
      rw [Function.update_self] at hd
      obtain ⟨d₀, hd₀, rfl⟩ := Option.map_eq_some_iff.mp hd
      have hst : Ranks.Startable r (kind o) (w.request r h) := hfit
      rw [hd₀] at hst
      obtain ⟨hpers, -, hjoin, htr⟩ := hst
      have hok := hreq h d₀ hd₀
      exact ⟨by simp, fun h' => (hok.restart hpers (some o) hjoin htr h').2, hok.restart,
        hok.posts⟩
    · rw [Function.update_of_ne hh] at hd
      exact hreq h d hd
  · split at hd
    · obtain ⟨d₀, hd₀, hd⟩ := Option.bind_eq_some_iff.mp hd
      split at hd
      · cases hd
        have hok := hreq h d₀ hd₀
        exact ⟨by simp, fun h' p hp => complete_ok hp (by rintro _ ⟨⟩), hok.restart, hok.posts⟩
      · cases hd
    · exact hreq h d hd
  · cases hnew : c.newRequest kind r with
    | none =>
      simp only [hnew] at hd
      exact hreq h d hd
    | some hd' =>
      simp only [hnew] at hd
      by_cases hh : h = hd'.1
      · subst hh
        rw [Function.update_self] at hd
        cases hd
        exact newRequest_ok hfit hnew
      · rw [Function.update_of_ne hh] at hd
        exact hreq h d hd

end

end

/-! ## What a part does -/

theorem stack_merge {R H O : Type} [DecidableEq R] (w : Ranks R H O) (r : R) (h : H) (q : R) :
    ((w.merge r h).clock q).stack = (w.clock q).stack := by
  by_cases hq : q = r
  · subst hq
    simp [Ranks.merge]
  · simp [Ranks.merge, hq]

section
variable {R H O : Type} [DecidableEq R] [DecidableEq H] [DecidableEq O]

/-- The effect of a part that is as it should be, on a rank that needs not wait. -/
inductive Effect (transfer : Option O → Transfer R) (r : R) (w : Ranks R H O) :
    Part H (Option O) → Ranks R H O → Prop where
  | load (h : H) : Effect transfer r w (.load h) (w.load r h)
  | give {role : Role} (h : H) (o : Option O) (hg : (transfer o).gives r role = true) :
    Effect transfer r w (.post role true h o)
      { w.load r h with
        sent := Function.update w.sent o
          (Function.update (w.sent o) r (some (w.clock r).mpiHappensBefore)) }
  | post {role : Role} (h : H) (o : Option O) (hg : (transfer o).gives r role = false) :
    Effect transfer r w (.post role false h o) w
  | take {role : Role} (h : H) (o : Option O) (ht : (transfer o).takes r role = true)
    (uc : IpcData) (hr : (transfer o).result (w.sent o) = some uc) :
    Effect transfer r w (.wait role true h o) ((w.setBuf r h uc).merge r h)
  | wait {role : Role} (h : H) (o : Option O) (ht : (transfer o).takes r role = false) :
    Effect transfer r w (.wait role false h o) w
  | merge (h : H) : Effect transfer r w (.merge h) (w.merge r h)

variable {transfer : Option O → Transfer R} {r : R} {w : Ranks R H O}

theorem exec_effect (hok : ∀ p ∈ w.todo r, PartOk transfer r p)
    (hready : w.Ready transfer r = true) :
    ∃ p rest w', w.todo r = p :: rest ∧ Effect transfer r w p w' ∧
      w.exec transfer r = w'.advance r rest := by
  unfold Ranks.Ready at hready
  unfold Ranks.exec
  cases htodo : w.todo r with
  | nil => simp [htodo] at hready
  | cons p rest =>
    have hp : PartOk transfer r p := hok p (by simp [htodo])
    refine ⟨p, rest, ?_⟩
    cases p with
    | load h => exact ⟨_, rfl, .load h, rfl⟩
    | merge h => exact ⟨_, rfl, .merge h, rfl⟩
    | post role load h o =>
      obtain rfl : load = (transfer o).gives r role := hp
      cases hg : (transfer o).gives r role with
      | false => exact ⟨w, rfl, .post h o hg, by simp [Ranks.handIn, hg]⟩
      | true =>
        refine ⟨_, rfl, .give h o hg, ?_⟩
        simp [Ranks.handIn, hg, Ranks.load, Ranks.setBuf]
    | wait role merge h o =>
      obtain rfl : merge = (transfer o).takes r role := hp
      cases ht : (transfer o).takes r role with
      | false => exact ⟨w, rfl, .wait h o ht, by simp [Ranks.handOut, ht]⟩
      | true =>
        cases hr : (transfer o).result (w.sent o) with
        | none => simp [htodo, Ranks.handOut, ht, hr] at hready
        | some uc => exact ⟨_, rfl, .take h o ht uc hr, by simp [Ranks.handOut, ht, hr]⟩

theorem Effect.frame {p : Part H (Option O)} {w' : Ranks R H O} (h : Effect transfer r w p w') :
    w'.now = w.now ∧ w'.inMpi = w.inMpi ∧ w'.finalized = w.finalized ∧ w'.todo = w.todo ∧
      w'.request = w.request ∧ ∀ q, (w'.clock q).stack = (w.clock q).stack := by
  cases h with
  | take h o ht uc hr => exact ⟨rfl, rfl, rfl, rfl, rfl, stack_merge (w.setBuf r h uc) r h⟩
  | merge h => exact ⟨rfl, rfl, rfl, rfl, rfl, stack_merge w r h⟩
  | _ => exact ⟨rfl, rfl, rfl, rfl, rfl, fun _ => rfl⟩

end

/-! ## Values -/

section
variable {R H O : Type}

/-- What `CLOCK_USEFUL.critical` of rank `r` stands for when it last entered or left a call. -/
def Ranks.value (w : Ranks R H O) (r : R) : ℚ := (w.clock r).elapsed .useful .critical (w.now r)

def Stacked (w : Ranks R H O) : Prop :=
  ∀ r, (w.clock r).stack = if w.inMpi r then [.mpi, .useful, .init] else [.useful, .init]

variable {w : Ranks R H O} {r : R}

theorem Stacked.of_stack {w' : Ranks R H O} (h : Stacked w)
    (hst : ∀ q, (w'.clock q).stack = (w.clock q).stack) (hin : w'.inMpi = w.inMpi) :
    Stacked w' := by
  intro q
  rw [hst, hin]
  exact h q

theorem Stacked.getState (h : Stacked w) :
    (w.clock r).getState = if w.inMpi r then .mpi else .useful := by
  unfold ThreadClock.getState
  rw [h r]
  split <;> rfl

theorem Stacked.elapsed (h : Stacked w) (hr : w.inMpi r = true) (t : ℚ) :
    (w.clock r).elapsed .useful .critical t = ((w.clock r).clocks .useful).critical := by
  have hs : (w.clock r).getState = .mpi := by rw [h.getState, if_pos hr]
  exact ThreadClock.elapsed_of_stopped (by rw [hs]; rfl) .critical t

theorem Stacked.value (h : Stacked w) (hr : w.inMpi r = true) :
    w.value r = ((w.clock r).clocks .useful).critical :=
  h.elapsed hr _

theorem Stacked.elapsed_useful (h : Stacked w) (hr : w.inMpi r = false) (t : ℚ) :
    (w.clock r).elapsed .useful .critical t = w.value r + (t - w.now r) := by
  have hs : (w.clock r).getState = .useful := by rw [h.getState, hr]; rfl
  unfold Ranks.value
  rw [ThreadClock.elapsed_later _ _ _ (w.now r) t, hs]
  rfl

theorem value_congr {w' : Ranks R H O} {q : R} (hclock : w'.clock q = w.clock q)
    (hnow : w'.now q = w.now q) : w'.value q = w.value q := by
  unfold Ranks.value
  rw [hclock, hnow]

variable [DecidableEq R]

theorem Stacked.value_merge (h : Stacked w) (hr : w.inMpi r = true) (h' : H) :
    (w.merge r h').value r = max (w.value r) (w.buf r h').useful := by
  have hs : Stacked (w.merge r h') := h.of_stack (stack_merge w r h') rfl
  rw [hs.value hr, h.value hr]
  simp only [Ranks.merge, Function.update_self]
  exact useful_mpiHappensAfter ..

variable [DecidableEq H]

theorem Stacked.value_take (h : Stacked w) (hr : w.inMpi r = true) (b : H) (uc : IpcData) :
    ((w.setBuf r b uc).merge r b).value r = max (w.value r) uc.useful := by
  have hs : Stacked (w.setBuf r b uc) := h
  have hv : (w.setBuf r b uc).value r = w.value r := rfl
  rw [hs.value_merge hr, hv]
  simp [Ranks.setBuf]

omit [DecidableEq H] in
theorem value_exit_of_ne {q : R} (hq : q ≠ r) (t : ℚ) : (w.exit r t).value q = w.value q :=
  value_congr (by simp [Ranks.exit, hq]) (by simp [Ranks.exit, hq])

theorem value_enter_of_ne {q : R} (hq : q ≠ r) (kind : O → Transfer R) (t : ℚ)
    (c : PbCall R H O) : (w.enter kind r t c).value q = w.value q :=
  value_congr (by simp [Ranks.enter, hq]) (by simp [Ranks.enter, hq])

theorem Stacked.value_enter (h : Stacked w) (hr : w.inMpi r = false) (kind : O → Transfer R) (t : ℚ)
    (c : PbCall R H O) : (w.enter kind r t c).value r = w.value r + (t - w.now r) := by
  rw [← h.elapsed_useful hr]
  simp only [Ranks.value, Ranks.enter, Function.update_self]
  exact ThreadClock.elapsed_enterState ..

omit [DecidableEq H] in
theorem Stacked.value_exit (h : Stacked w) (hr : w.inMpi r = true) (t : ℚ) :
    (w.exit r t).value r = w.value r := by
  rw [h.value hr, ← h.elapsed hr t]
  simp only [Ranks.value, Ranks.exit, Function.update_self]
  exact ThreadClock.elapsed_exitState ..

end

/-! ## The invariant -/

section
variable {R H O : Type} [DecidableEq R]

structure Ranks.Wf (kind : O → Transfer R) (world : List R) (w : Ranks R H O) : Prop where
  stacked : Stacked w
  idle : ∀ r, w.inMpi r = false → w.todo r = []
  parts : ∀ r, ∀ p ∈ w.todo r, PartOk (transferOf kind world) r p
  requests : ∀ r h d, w.request r h = some d → RequestOk H (transferOf kind world) r d
  last : ∀ r, w.finalized r = true → w.inMpi r = true
  stale : ∀ r h, (w.buf r h).useful ≤ w.value r

variable {kind : O → Transfer R} {world : List R}

theorem Ranks.Wf.start (t₀ : R → ℚ) : (Ranks.start t₀ : Ranks R H O).Wf kind world where
  stacked r := by simp [Ranks.start, ThreadClock.new]
  idle _ h := by cases h
  parts _ _ hp := by cases hp
  requests _ _ _ h := by cases h
  last _ h := by cases h
  stale r h := by
    unfold Ranks.value Ranks.start
    rw [ThreadClock.elapsed_enterState, ThreadClock.elapsed_enterState, ThreadClock.elapsed_new]

variable {w : Ranks R H O} {r : R} {t : ℚ}

theorem Ranks.Wf.inMpi (h : w.Wf kind world) {p : Part H (Option O)}
    {rest : List (Part H (Option O))}
    (htodo : w.todo r = p :: rest) : w.inMpi r = true := by
  by_contra hin
  rw [h.idle r (by simpa using hin)] at htodo
  cases htodo

theorem Ranks.Wf.exit (h : w.Wf kind world) (htodo : w.todo r = []) (hin : w.inMpi r = true)
    (hfin : w.finalized r = false) : (w.exit r t).Wf kind world where
  stacked q := by
    by_cases hq : q = r
    · subst hq
      simp [Ranks.exit, ThreadClock.stack_exitState, h.stacked.getState, h.stacked q, hin]
    · simpa [Ranks.exit, hq] using h.stacked q
  idle q hq := by
    by_cases hqr : q = r
    · subst hqr
      exact htodo
    · exact h.idle q (by simpa [Ranks.exit, hqr] using hq)
  parts := h.parts
  requests := h.requests
  last q hq := by
    have hqr : q ≠ r := by
      rintro rfl
      exact absurd (hfin.symm.trans hq) (by decide)
    simpa [Ranks.exit, hqr] using h.last q hq
  stale q b := by
    by_cases hq : q = r
    · subst hq
      rw [h.stacked.value_exit hin]
      exact h.stale q b
    · rw [value_exit_of_ne hq]
      exact h.stale q b

variable [DecidableEq H]

theorem Ranks.Wf.enter {c : PbCall R H O} (h : w.Wf kind world) (hin : w.inMpi r = false)
    (ht : w.now r ≤ t) (hfit : w.Fits kind r c) :
    (w.enter kind r t c).Wf kind world where
  stacked q := by
    by_cases hq : q = r
    · subst hq
      simp [Ranks.enter, h.stacked q, hin]
    · simpa [Ranks.enter, hq] using h.stacked q
  idle q hq := by
    have hqr : q ≠ r := by
      rintro rfl
      simp [Ranks.enter] at hq
    simpa [Ranks.enter, hqr] using h.idle q (by simpa [Ranks.enter, hqr] using hq)
  parts q p hp := by
    by_cases hq : q = r
    · subst hq
      exact parts_ok hfit (h.requests q) p (by simpa [Ranks.enter] using hp)
    · exact h.parts q p (by simpa [Ranks.enter, hq] using hp)
  requests q b d hd := by
    by_cases hq : q = r
    · subst hq
      exact requests_ok hfit (h.requests q) b d (by simpa [Ranks.enter] using hd)
    · exact h.requests q b d (by simpa [Ranks.enter, hq] using hd)
  last q hq := by
    by_cases hqr : q = r
    · subst hqr
      simp [Ranks.enter]
    · simpa [Ranks.enter, hqr] using h.last q (by simpa [Ranks.enter, hqr] using hq)
  stale q b := by
    by_cases hq : q = r
    · subst hq
      rw [h.stacked.value_enter hin]
      have := h.stale q b
      show (w.buf q b).useful ≤ _
      linarith
    · rw [value_enter_of_ne hq]
      exact h.stale q b

theorem buf_load (h : H) (b : H) :
    ((w.load r h).buf r b).useful = if b = h then ((w.clock r).clocks .useful).critical
      else (w.buf r b).useful := by
  by_cases hb : b = h
  · subst hb
    simp [Ranks.load, Ranks.setBuf, ThreadClock.mpiHappensBefore]
  · simp [Ranks.load, Ranks.setBuf, hb]

variable [DecidableEq O] {transfer : Option O → Transfer R} {p : Part H (Option O)}
  {w' : Ranks R H O}

theorem Effect.of_ne {q : R} (h : Effect transfer r w p w') (hq : q ≠ r) :
    w'.value q = w.value q ∧ w'.buf q = w.buf q ∧ ∀ o, w'.sent o q = w.sent o q := by
  cases h with
  | load h => exact ⟨rfl, by simp [Ranks.load, Ranks.setBuf, hq], fun _ => rfl⟩
  | give h o hg =>
    refine ⟨rfl, by simp [Ranks.load, Ranks.setBuf, hq], fun o' => ?_⟩
    by_cases ho : o' = o
    · subst ho
      simp [hq]
    · simp [ho]
  | post h o hg => exact ⟨rfl, rfl, fun _ => rfl⟩
  | take h o ht uc hr =>
    refine ⟨value_congr ?_ rfl, ?_, fun _ => rfl⟩
    · simp [Ranks.merge, Ranks.setBuf, hq]
    · simp [Ranks.merge, Ranks.setBuf, hq]
  | wait h o ht => exact ⟨rfl, rfl, fun _ => rfl⟩
  | merge h => exact ⟨value_congr (by simp [Ranks.merge, hq]) rfl, rfl, fun _ => rfl⟩

theorem Effect.value (hw : Stacked w) (hin : w.inMpi r = true)
    (hst : ∀ b, (w.buf r b).useful ≤ w.value r) (h : Effect transfer r w p w') :
    (∃ role b o uc, p = .wait role true b o ∧ (transfer o).takes r role = true ∧
      (transfer o).result (w.sent o) = some uc ∧ w'.value r = max (w.value r) uc.useful) ∨
    (w'.value r = w.value r ∧
      ∀ role merge b o, p = .wait role merge b o → (transfer o).takes r role = false) := by
  cases h with
  | take b o ht uc hr => exact .inl ⟨_, b, o, uc, rfl, ht, hr, hw.value_take hin b uc⟩
  | wait b o ht =>
    refine .inr ⟨rfl, fun _ _ _ _ heq => ?_⟩
    cases heq
    exact ht
  | merge b =>
    refine .inr ⟨?_, fun _ _ _ _ heq => by cases heq⟩
    rw [hw.value_merge hin]
    exact max_eq_left (hst b)
  | _ => exact .inr ⟨rfl, fun _ _ _ _ heq => by cases heq⟩

theorem Effect.value_le (hw : Stacked w) (hin : w.inMpi r = true)
    (hst : ∀ b, (w.buf r b).useful ≤ w.value r) (h : Effect transfer r w p w') :
    w.value r ≤ w'.value r := by
  rcases h.value hw hin hst with ⟨_, _, _, uc, -, -, -, hv⟩ | ⟨hv, -⟩
  · rw [hv]
    exact le_max_left _ _
  · exact hv.ge

theorem Effect.stale (hw : Stacked w) (hin : w.inMpi r = true) (h : Effect transfer r w p w')
    (hst : ∀ b, (w.buf r b).useful ≤ w.value r) (b : H) : (w'.buf r b).useful ≤ w'.value r := by
  have hload : ∀ h, ((w.load r h).buf r b).useful ≤ w.value r := by
    intro h
    rw [buf_load]
    split
    · exact (hw.value hin).ge
    · exact hst b
  cases h with
  | load h => exact hload h
  | give h o hg => exact hload h
  | post h o hg => exact hst b
  | take h o ht uc hr =>
    rw [hw.value_take hin]
    by_cases hb : b = h
    · subst hb
      have hbuf : ((w.setBuf r b uc).merge r b).buf r b = uc := by
        simp [Ranks.merge, Ranks.setBuf]
      rw [hbuf]
      exact le_max_right _ _
    · refine le_max_of_le_left ?_
      have hbuf : ((w.setBuf r h uc).merge r h).buf r b = w.buf r b := by
        simp [Ranks.merge, Ranks.setBuf, hb]
      rw [hbuf]
      exact hst b
  | wait h o ht => exact hst b
  | merge h =>
    rw [hw.value_merge hin]
    exact le_max_of_le_left (hst b)

theorem Ranks.Wf.effect (h : w.Wf kind world) {rest : List (Part H (Option O))}
    (htodo : w.todo r = p :: rest) (he : Effect (transferOf kind world) r w p w') :
    (w'.advance r rest).Wf kind world := by
  obtain ⟨hnow, hinMpi, hfin, htodo', hreq, hstack⟩ := he.frame
  have hin := h.inMpi htodo
  have hsub : ∀ q, ∀ p ∈ (w'.advance r rest).todo q, p ∈ w.todo q := by
    intro q p' hp
    by_cases hq : q = r
    · subst hq
      rw [htodo]
      exact List.mem_cons_of_mem _ (by simpa [Ranks.advance] using hp)
    · rw [← htodo']
      simpa [Ranks.advance, hq] using hp
  refine ⟨?_, ?_, fun q p hp => h.parts q p (hsub q p hp), ?_, ?_, ?_⟩
  · exact h.stacked.of_stack hstack hinMpi
  · intro q hq
    have hq' : w.inMpi q = false := by rw [← hinMpi]; exact hq
    have hqr : q ≠ r := by
      rintro rfl
      exact absurd (hin.symm.trans hq') (by decide)
    have := h.idle q hq'
    rw [← htodo'] at this
    simpa [Ranks.advance, hqr] using this
  · intro q b d hd
    exact h.requests q b d (by rw [← hreq]; exact hd)
  · intro q hq
    show w'.inMpi q = true
    rw [hinMpi]
    exact h.last q (by rw [← hfin]; exact hq)
  · intro q b
    show (w'.buf q b).useful ≤ w'.value q
    by_cases hq : q = r
    · subst hq
      exact he.stale h.stacked hin (h.stale q) b
    · obtain ⟨hv, hb, -⟩ := he.of_ne hq
      rw [hv, hb]
      exact h.stale q b

theorem Ranks.Wf.step {l : PbLabel R H O} (h : w.Wf kind world) (hl : w.Allowed kind world l) :
    (w.step kind world l).Wf kind world := by
  cases l with
  | enter r t c =>
    obtain ⟨-, hin, ht, hfit⟩ := hl
    exact h.enter hin ht hfit
  | exec r =>
    obtain ⟨p, rest, w', htodo, he, heq⟩ := exec_effect (h.parts r) hl
    show (w.exec (transferOf kind world) r).Wf kind world
    rw [heq]
    exact h.effect htodo he
  | exit r t =>
    obtain ⟨htodo, hin, hfin, -⟩ := hl
    exact h.exit htodo hin hfin

end

end Exchange

end CritPath
