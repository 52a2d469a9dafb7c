import CritPath.Clock.Ipc
import CritPath.Tracking.Buffers

/-!
# Matched probes

A matched probe posts the piggyback receive into a pooled object (`mpiMprobePB`).
`MPI_Mrecv` copies that object to its stack and waits on the copied requests
(`mpiRecvPB` for a message), while the receive still writes the pooled one;
`MPI_Imrecv` hands the object over to its request (`mpiIrecvPB` for a message). The
piggyback arrives at any time after the probe, and the tool is running throughout.
-/

namespace CritPath.Tracking

open Lib

/-- A matched probe with the arguments `src` and `tag` and the `source` and `stag` of its status;
from `MPI_PROC_NULL` there is no message. Left out is `MPI_PROC_NULL` with `MPI_ANY_TAG` and
`MPI_STATUS_IGNORE`, where the destructor reads a status that is not there. -/
structure Probe (E : Setting) where
  src : ℤ
  tag : ℤ
  source : ℤ
  stag : ℤ
  comm : ℕ
  matched : src = E.procNull ∧ source = E.procNull ∨
    src ≠ E.procNull ∧ source ≠ E.procNull ∧ (src = E.anySource ∧ source ≠ E.anySource ∨
      src ≠ E.anySource ∧ source = src) ∧ (tag = E.anyTag ∧ stag ≠ E.anyTag ∨
      tag ≠ E.anyTag ∧ stag = tag)
  piggyback : IpcData
  /-- What another receive of a piggyback would get on a communicator, if it ends. -/
  next : ℕ → Option IpcData

/-- The call that receives the message. -/
inductive Receiver where
  | mrecv
  /-- With what the constructor leaves in the members `tag` and `cData`, if that is a `CommData`. -/
  | imrecv (tag : ℤ) (cData : Option ℕ)
  deriving DecidableEq

inductive Phase where
  | pooled
  | probed
  /-- After the constructor of the receive. -/
  | begun
  | requested
  | done
  /-- An access through a pointer that was never set. -/
  | fault
  /-- A receive that never ends. -/
  | blocked
  deriving DecidableEq

abbrev MatchedData := RequestData (Option PbReq) PbCallback IpcData

structure Matched where
  phase : Phase := .pooled
  /-- The object of the message and the request. -/
  data : MatchedData
  /-- `rData` of `mpiRecvPB`. -/
  rData : MatchedData
  arrived : Bool := false
  merged : List IpcData := []
  deriving DecidableEq

inductive MatchOp where
  /-- The end of `MPI_Mprobe`, or of `MPI_Improbe` with a message. -/
  | probe
  | arrive
  | begin
  | finish
  | complete
  deriving DecidableEq

namespace Matched

variable {E : Setting} (P : Probe E) (r : Receiver)

/-- An object from the pool, with what its last owner left, and the memory of `rData`. -/
def start (memory : MatchedData) (stack : IpcData) : Matched :=
  { data := memory.fini none, rData := .new none stack }

/-- The source and the tag in the destructor of `mpiMprobePB`. -/
def resolved : ℤ × ℤ :=
  if P.src = E.anySource ∨ P.tag = E.anyTag then (P.source, P.stag) else (P.src, P.tag)

def mpiMprobePB (σ : Matched) : Matched :=
  { σ with
    phase := .probed
    data := { σ.data.init σ.data.handle false with
      kind := .mprobe, remote := (resolved P).1, tag := (resolved P).2, comm := some P.comm
      pbReqs := (some ⟨0, false⟩, none) }
    arrived := (resolved P).1 = E.procNull }

def mpiHappensAfter (values : IpcData) (σ : Matched) : Matched :=
  { σ with merged := values :: σ.merged, phase := .done }

def mpiRecvPB (σ : Matched) : Matched :=
  { σ with phase := .begun, rData := σ.data, data := σ.data.fini none }

def mpiRecvPBEnd (σ : Matched) : Matched :=
  match E.peer σ.rData.remote σ.rData.tag with
  | .procNull => { σ with phase := .done }
  -- `uc` and `cData` are not set.
  | .wildcard => { σ with phase := .fault }
  | .specific => σ.mpiHappensAfter σ.rData.values

def mpiIrecvPBEnd (tag : ℤ) (cData : Option ℕ) (σ : Matched) : Matched :=
  let data :=
    match E.peer σ.data.remote tag with
    | .procNull => σ.data
    | .wildcard =>
      { σ.data with
        kind := .irecv, tag := tag, comm := cData, completionCallback := some (.complete .completePBWC) }
    | .specific =>
      { σ.data with
        completionCallback := some (.complete .completePBHB), cancelCallback := some .cancelPB }
  { σ with phase := .requested, data := data.init none false }

/-- `completePBWC`, on the communicator in the object. -/
def completePBWC (σ : Matched) : Matched :=
  match σ.data.comm with
  | none => { σ with phase := .fault }
  | some comm =>
    match P.next comm with
    | none => { σ with phase := .blocked }
    | some values => σ.mpiHappensAfter values

/-- `RequestData::fini` with a status. -/
def completeRequest (σ : Matched) : Matched :=
  let τ :=
    match σ.data.completionCallback with
    | some (.complete .completePBWC) => σ.completePBWC P
    | some (.complete .completePBHB) => σ.mpiHappensAfter σ.data.values
    | _ => { σ with phase := .done }
  { τ with data := τ.data.fini none }

def step (σ : Matched) : MatchOp → Matched
  | .probe => σ.mpiMprobePB P
  | .arrive => { σ with arrived := true, data := { σ.data with values := P.piggyback } }
  | .begin =>
    match r with
    | .mrecv => σ.mpiRecvPB
    | .imrecv _ _ => { σ with phase := .begun }
  | .finish =>
    match r with
    | .mrecv => mpiRecvPBEnd (E := E) σ
    | .imrecv tag cData => mpiIrecvPBEnd (E := E) tag cData σ
  | .complete => σ.completeRequest P

/-- The calls come in their order; the destructor of `mpiRecvPB` and `completePBHB` wait for the
piggyback. -/
def Allowed (σ : Matched) : MatchOp → Prop
  | .probe => σ.phase = .pooled
  | .arrive => σ.phase ≠ .pooled ∧ σ.arrived = false
  | .begin => σ.phase = .probed
  | .finish => σ.phase = .begun ∧
      (r = .mrecv → E.peer σ.rData.remote σ.rData.tag = .specific → σ.arrived = true)
  | .complete => σ.phase = .requested ∧
      (σ.data.completionCallback = some (.complete .completePBHB) → σ.arrived = true)

instance (σ : Matched) : ∀ l, Decidable (Allowed (E := E) r σ l)
  | .probe | .begin => inferInstanceAs (Decidable (_ = _))
  | .arrive => inferInstanceAs (Decidable (_ ∧ _))
  | .finish | .complete => inferInstanceAs (Decidable (_ ∧ (_ → _)))

def machine : Machine Matched MatchOp where
  step := step P r
  guard := Allowed (E := E) r

/-- The receive, or the completion of its request, has ended one way or the other. -/
def Ended (σ : Matched) : Prop := σ.phase = .done ∨ σ.phase = .fault ∨ σ.phase = .blocked

instance (σ : Matched) (l : MatchOp) : Decidable ((machine P r).guard σ l) :=
  inferInstanceAs (Decidable (Allowed (E := E) r σ l))

instance (σ : Matched) : Decidable σ.Ended := inferInstanceAs (Decidable (_ ∨ _))

/-- The piggyback of the message has been merged, once and nothing else. -/
def Merged (σ : Matched) : Prop :=
  σ.phase = .done ∧ σ.merged = if P.source = E.procNull then [] else [P.piggyback]

/-- There is no message, or `MPI_Mrecv` finds the values of the piggyback in the object, and
`MPI_Imrecv` no `MPI_ANY_TAG` in its member `tag`, or the receive that follows gets equal values. -/
def Timely (memory : MatchedData) (ops : List MatchOp) : Receiver → Prop
  | .mrecv =>
    P.source = E.procNull ∨ .arrive ∈ ops.takeWhile (· ≠ .begin) ∨ memory.values = P.piggyback
  | .imrecv tag cData =>
    P.source = E.procNull ∨ tag ≠ E.anyTag ∨ ∃ comm ∈ cData, P.next comm = some P.piggyback

variable {P r} {σ : Matched}

/-- A receive that has not ended waits for nothing but the piggyback. -/
theorem exists_allowed (h : ¬ σ.Ended) : ∃ l, Allowed (E := E) r σ l := by
  cases hphase : σ.phase with
  | pooled => exact ⟨.probe, hphase⟩
  | probed => exact ⟨.begin, hphase⟩
  | begun =>
    cases harrived : σ.arrived with
    | false => exact ⟨.arrive, by simp [hphase], harrived⟩
    | true => exact ⟨.finish, hphase, fun _ _ => harrived⟩
  | requested =>
    cases harrived : σ.arrived with
    | false => exact ⟨.arrive, by simp [hphase], harrived⟩
    | true => exact ⟨.complete, hphase, fun _ => harrived⟩
  | done => exact absurd (.inl hphase) h
  | fault => exact absurd (.inr (.inl hphase)) h
  | blocked => exact absurd (.inr (.inr hphase)) h

/-! ## The probe -/

theorem fst_resolved (P : Probe E) : (resolved P).1 = P.source := by
  unfold resolved
  split
  case isTrue => rfl
  case isFalse hw =>
    obtain ⟨hsrc, hsource⟩ | ⟨-, -, ⟨hany, -⟩ | ⟨-, hsource⟩, -⟩ := P.matched
    · exact hsrc.trans hsource.symm
    · exact absurd (.inl hany) hw
    · exact hsource.symm

/-- The object of a message has no wildcards. -/
theorem peer_resolved (P : Probe E) : E.peer (resolved P).1 (resolved P).2 =
    if P.source = E.procNull then .procNull else .specific := by
  rw [fst_resolved]
  unfold Setting.peer
  split
  case isTrue => rfl
  case isFalse hnull =>
    obtain ⟨-, hsource⟩ | ⟨-, -, hsrc, htag⟩ := P.matched
    · exact absurd hsource hnull
    have hany : P.source ≠ E.anySource := by
      rcases hsrc with ⟨-, h⟩ | ⟨h, he⟩
      · exact h
      · exact he ▸ h
    have htags : (resolved P).2 ≠ E.anyTag := by
      unfold resolved
      split
      case isTrue =>
        rcases htag with ⟨-, h⟩ | ⟨h, he⟩
        · exact h
        · exact he ▸ h
      case isFalse hw => exact fun he => hw (.inr he)
    rw [if_neg (not_or.mpr ⟨hany, htags⟩)]

/-- What is merged for a message without wildcards. -/
def outcome (p : Peer) (values : IpcData) : List IpcData :=
  if p = .specific then [values] else []

/-! ## `MPI_Mrecv` -/

/-- From the constructor of `mpiRecvPB` on, which has copied `values`. -/
def Copied (E : Setting) (p : Peer) (values : IpcData) (σ : Matched) : Prop :=
  σ.phase = .begun ∧ σ.merged = [] ∧ E.peer σ.rData.remote σ.rData.tag = p ∧
      σ.rData.values = values ∨
    σ.phase = .done ∧ σ.merged = outcome p values

theorem Copied.step {p : Peer} {values : IpcData} (hp : p ≠ .wildcard) {l : MatchOp}
    (h : σ.Copied E p values) (hg : Allowed (E := E) .mrecv σ l) :
    (step P .mrecv σ l).Copied E p values := by
  rcases h with ⟨hphase, hmerged, hpeer, hvalues⟩ | ⟨hphase, hmerged⟩
  · cases l with
    | probe => exact nomatch hphase.symm.trans hg
    | arrive => exact .inl ⟨hphase, hmerged, hpeer, hvalues⟩
    | begin => exact nomatch hphase.symm.trans hg
    | finish =>
      refine .inr ?_
      cases p with
      | procNull => simp only [Matched.step, mpiRecvPBEnd, hpeer, hmerged, outcome]; trivial
      | wildcard => exact absurd rfl hp
      | specific =>
        simp only [Matched.step, mpiRecvPBEnd, hpeer, hmerged, hvalues, mpiHappensAfter, outcome]
        trivial
    | complete => exact nomatch hphase.symm.trans hg.1
  · cases l with
    | probe => exact nomatch hphase.symm.trans hg
    | arrive => exact .inr ⟨hphase, hmerged⟩
    | begin => exact nomatch hphase.symm.trans hg
    | finish => exact nomatch hphase.symm.trans hg.1
    | complete => exact nomatch hphase.symm.trans hg.1

theorem Copied.ended {p : Peer} {values : IpcData} (h : σ.Copied E p values) (he : σ.Ended) :
    σ.phase = .done ∧ σ.merged = outcome p values := by
  rcases h with ⟨hphase, -⟩ | h
  · rcases he with he | he | he <;> exact nomatch hphase.symm.trans he
  · exact h

/-- `MPI_Mrecv` merges what is in the object when its constructor runs. -/
theorem mrecv_run {p : Peer} (hp : p ≠ .wildcard) (ops : List MatchOp)
    (hphase : σ.phase = .probed) (hmerged : σ.merged = [])
    (hpeer : E.peer σ.data.remote σ.data.tag = p) (hv : (machine P .mrecv).Valid σ ops)
    (he : ((machine P .mrecv).run σ ops).Ended) :
    ((machine P .mrecv).run σ ops).phase = .done ∧
      ((machine P .mrecv).run σ ops).merged = outcome p
        (if .arrive ∈ ops.takeWhile (· ≠ .begin) then P.piggyback else σ.data.values) := by
  induction ops generalizing σ with
  | nil => rcases he with he | he | he <;> exact nomatch hphase.symm.trans he
  | cons l ops ih =>
    obtain ⟨hg, hv⟩ := hv
    cases l with
    | probe => exact nomatch hphase.symm.trans hg
    | arrive =>
      obtain ⟨hdone, hm⟩ := ih (σ := (machine P .mrecv).step σ .arrive) hphase hmerged hpeer hv he
      refine ⟨hdone, hm.trans ?_⟩
      simp [machine, Matched.step]
    | begin =>
      have hcopied : ((machine P .mrecv).step σ .begin).Copied E p σ.data.values :=
        .inl ⟨rfl, hmerged, hpeer, rfl⟩
      have hrun := hv.inv (I := fun σ' => σ'.Copied E p σ.data.values)
        (fun _ _ h hg => h.step hp hg) hcopied
      simpa using hrun.ended he
    | finish => exact nomatch hphase.symm.trans hg.1
    | complete => exact nomatch hphase.symm.trans hg.1

/-! ## `MPI_Imrecv` -/

/-- How `MPI_Imrecv` and the completion of its request end. -/
def imrecvResult (P : Probe E) (tag : ℤ) (cData : Option ℕ) : Phase × List IpcData :=
  match E.peer P.source tag with
  | .procNull => (.done, [])
  | .specific => (.done, [P.piggyback])
  | .wildcard =>
    match cData with
    | none => (.fault, [])
    | some comm =>
      match P.next comm with
      | none => (.blocked, [])
      | some values => (.done, [values])

/-- The callback in the request, and the communicator for it. -/
def HandedOver (P : Probe E) (tag : ℤ) (cData : Option ℕ) (d : MatchedData) : Prop :=
  match E.peer P.source tag with
  | .procNull => d.completionCallback = none
  | .specific => d.completionCallback = some (.complete .completePBHB)
  | .wildcard => d.completionCallback = some (.complete .completePBWC) ∧ d.comm = cData

/-- The object holds the piggyback once that has arrived. -/
def Holds (P : Probe E) (σ : Matched) : Prop :=
  σ.arrived = true → P.source ≠ E.procNull → σ.data.values = P.piggyback

def Handed (P : Probe E) (tag : ℤ) (cData : Option ℕ) (σ : Matched) : Prop :=
  match σ.phase with
  | .pooled => False
  | .probed | .begun =>
    σ.merged = [] ∧ σ.data.remote = P.source ∧ σ.data.completionCallback = none ∧ σ.Holds P
  | .requested => σ.merged = [] ∧ HandedOver P tag cData σ.data ∧ σ.Holds P
  | .done | .fault | .blocked => (σ.phase, σ.merged) = imrecvResult P tag cData

theorem ne_procNull_of_specific {source tag : ℤ} (h : E.peer source tag = .specific) :
    source ≠ E.procNull := by
  rintro rfl
  simp [Setting.peer] at h

section
variable {tag : ℤ} {cData : Option ℕ}

theorem handed_finish (hmerged : σ.merged = []) (hremote : σ.data.remote = P.source)
    (hcompletion : σ.data.completionCallback = none) (hholds : σ.Holds P) :
    (mpiIrecvPBEnd (E := E) tag cData σ).Handed P tag cData := by
  refine ⟨hmerged, ?_, ?_⟩
  · unfold HandedOver mpiIrecvPBEnd
    rw [hremote]
    cases E.peer P.source tag with
    | procNull => exact hcompletion
    | wildcard => exact ⟨rfl, rfl⟩
    | specific => rfl
  · unfold Holds mpiIrecvPBEnd
    cases E.peer σ.data.remote tag <;> exact hholds

theorem handed_complete (hmerged : σ.merged = []) (hover : HandedOver P tag cData σ.data)
    (hholds : σ.Holds P)
    (hwait : σ.data.completionCallback = some (.complete .completePBHB) → σ.arrived = true) :
    ((σ.completeRequest P).phase, (σ.completeRequest P).merged) = imrecvResult P tag cData := by
  unfold HandedOver at hover
  unfold imrecvResult completeRequest
  cases hp : E.peer P.source tag with
  | procNull =>
    simp only [hp] at hover
    simp only [hover, hmerged]
  | specific =>
    simp only [hp] at hover
    simp only [hover, mpiHappensAfter, hmerged, hholds (hwait hover) (ne_procNull_of_specific hp)]
  | wildcard =>
    simp only [hp] at hover
    simp only [hover.1, completePBWC, hover.2]
    cases cData with
    | none => simp only [hmerged]
    | some comm =>
      cases hn : P.next comm with
      | none => simp only [hn, hmerged]
      | some values => simp only [hn, mpiHappensAfter, hmerged]

/-- The object is in use; how it ends is fixed by the peer. -/
theorem ended_imrecvResult (P : Probe E) (tag : ℤ) (cData : Option ℕ) :
    (imrecvResult P tag cData).1 = .done ∨ (imrecvResult P tag cData).1 = .fault ∨
      (imrecvResult P tag cData).1 = .blocked := by
  unfold imrecvResult
  split
  · exact .inl rfl
  · exact .inl rfl
  · split
    · exact .inr (.inl rfl)
    · split
      · exact .inr (.inr rfl)
      · exact .inl rfl

theorem handed_of_result (h : (σ.phase, σ.merged) = imrecvResult P tag cData) :
    σ.Handed P tag cData := by
  have he := ended_imrecvResult P tag cData
  rw [← h] at he
  unfold Handed
  rcases he with he | he | he <;> (dsimp only at he; rw [he] at h ⊢; exact h)

theorem result_of_handed (h : σ.Handed P tag cData) (he : σ.Ended) :
    (σ.phase, σ.merged) = imrecvResult P tag cData := by
  unfold Handed at h
  rcases he with he | he | he <;> (rw [he] at h ⊢; exact h)

theorem Handed.step {l : MatchOp} (h : σ.Handed P tag cData)
    (hg : Allowed (E := E) (.imrecv tag cData) σ l) :
    (step P (.imrecv tag cData) σ l).Handed P tag cData := by
  cases l with
  | probe =>
    have hphase : σ.phase = .pooled := hg
    simp only [Handed, hphase] at h
  | arrive =>
    unfold Handed at h ⊢
    simp only [Matched.step]
    cases hphase : σ.phase with
    | pooled => simp only [hphase] at h
    | probed | begun =>
      simp only [hphase] at h
      exact ⟨h.1, h.2.1, h.2.2.1, fun _ _ => rfl⟩
    | requested =>
      simp only [hphase] at h
      exact ⟨h.1, h.2.1, fun _ _ => rfl⟩
    | done | fault | blocked =>
      simp only [hphase] at h
      exact h
  | begin =>
    have hphase : σ.phase = .probed := hg
    simp only [Handed, hphase] at h
    exact h
  | finish =>
    simp only [Handed, hg.1] at h
    obtain ⟨hmerged, hremote, hcompletion, hholds⟩ := h
    exact handed_finish hmerged hremote hcompletion hholds
  | complete =>
    simp only [Handed, hg.1] at h
    obtain ⟨hmerged, hover, hholds⟩ := h
    exact handed_of_result (handed_complete hmerged hover hholds hg.2)

/-- The result is the one that is wanted if the member `tag` is no wildcard, or by chance. -/
theorem imrecvResult_iff (P : Probe E) (tag : ℤ) (cData : Option ℕ) :
    imrecvResult P tag cData =
        (.done, if P.source = E.procNull then [] else [P.piggyback]) ↔
      P.source = E.procNull ∨ tag ≠ E.anyTag ∨
        ∃ comm ∈ cData, P.next comm = some P.piggyback := by
  by_cases hnull : P.source = E.procNull
  · simp [imrecvResult, Setting.peer, hnull]
  have hany : P.source ≠ E.anySource := by
    obtain ⟨-, hsource⟩ | ⟨-, -, ⟨-, h⟩ | ⟨h, he⟩, -⟩ := P.matched
    · exact absurd hsource hnull
    · exact h
    · exact he ▸ h
  by_cases htag : tag = E.anyTag
  · cases cData with
    | none => simp [imrecvResult, Setting.peer, hnull, htag]
    | some comm => cases hn : P.next comm <;> simp [imrecvResult, Setting.peer, hnull, htag, hn]
  · simp [imrecvResult, Setting.peer, hnull, hany, htag]

end

end Matched

open Matched in
/-- A matched receive merges the piggyback of its message exactly if `MPI_Mrecv` finds it in the
object of the message, and `MPI_Imrecv` no wildcard in a member that was never set. -/
theorem matched_receive_merges_iff (E : Setting) (P : Probe E) (r : Receiver)
    (memory : MatchedData) (stack : IpcData) (ops : List MatchOp)
    (hv : (machine P r).Valid (start memory stack) ops)
    (he : ((machine P r).run (start memory stack) ops).Ended) :
    ((machine P r).run (start memory stack) ops).Merged P ↔ Timely P memory ops r := by
  -- The first step is the probe.
  cases ops with
  | nil => rcases he with he | he | he <;> cases he
  | cons l ops =>
    obtain ⟨hg, hv⟩ := hv
    cases l with
    | arrive => exact absurd rfl hg.1
    | begin => cases hg
    | finish => cases hg.1
    | complete => cases hg.1
    | probe =>
      cases r with
      | mrecv =>
        have hp := peer_resolved P
        have hw : (if P.source = E.procNull then Peer.procNull else .specific) ≠ .wildcard := by
          split <;> exact Peer.noConfusion
        obtain ⟨hdone, hmerged⟩ := mrecv_run hw ops rfl rfl hp hv he
        have hvalues : ((machine P .mrecv).step (start memory stack) .probe).data.values =
            memory.values := rfl
        have hearly : MatchOp.arrive ∈ (MatchOp.probe :: ops).takeWhile (· ≠ .begin) ↔
            .arrive ∈ ops.takeWhile (· ≠ .begin) := by simp
        rw [hvalues] at hmerged
        rw [Merged, Timely, Machine.run_cons, hdone, hmerged, hearly]
        by_cases hnull : P.source = E.procNull
        · simp [hnull, outcome]
        rw [if_neg hnull, if_neg hnull, outcome, if_pos rfl]
        by_cases harrive : MatchOp.arrive ∈ ops.takeWhile (· ≠ .begin)
        · rw [if_pos harrive]
          exact ⟨fun _ => .inr (.inl harrive), fun _ => ⟨rfl, rfl⟩⟩
        · rw [if_neg harrive]
          constructor
          · exact fun h => .inr (.inr (List.singleton_inj.mp h.2))
          · rintro (h | h | h)
            · exact absurd h hnull
            · exact absurd h harrive
            · exact ⟨rfl, congrArg (fun v => [v]) h⟩
      | imrecv tag cData =>
        have hfirst : ((machine P (.imrecv tag cData)).step (start memory stack) .probe).Handed P tag
            cData :=
          ⟨rfl, fst_resolved P, rfl, fun harrived hnull => by
            simp [machine, step, mpiMprobePB, fst_resolved, hnull] at harrived⟩
        have hlast := hv.inv (I := fun σ => σ.Handed P tag cData) (fun _ _ h hg => h.step hg) hfirst
        have hresult := result_of_handed hlast he
        rw [Merged, Timely, ← imrecvResult_iff, ← hresult, Prod.mk.injEq]
        rfl

def probedMessage : Probe twoDatas where
  src := -2
  tag := -1
  source := 0
  stag := 5
  comm := 0
  matched := by decide
  piggyback := { useful := 7, ompi := 7, oomp := 7 }
  next _ := none

/-- `MPI_Mrecv` after the piggyback, and `MPI_Imrecv` before it with a member `tag` of 0. -/
theorem matched_receive_merges_iff_probedMessage :
    ((Matched.machine probedMessage .mrecv).run (.start (.new none {}) {})
        [.probe, .arrive, .begin, .finish]).Merged probedMessage ∧
      ((Matched.machine probedMessage (.imrecv 0 none)).run (.start (.new none {}) {})
        [.probe, .begin, .finish, .arrive, .complete]).Merged probedMessage :=
  ⟨(matched_receive_merges_iff twoDatas probedMessage .mrecv (.new none {}) {} _ (by decide +kernel)
      (by decide +kernel)).mpr (.inr (.inl (by decide))),
    (matched_receive_merges_iff twoDatas probedMessage (.imrecv 0 none) (.new none {}) {} _
      (by decide +kernel) (by decide +kernel)).mpr (.inr (.inl (by decide)))⟩

/-- `MPI_Mrecv` merges what the object held before, and `MPI_Imrecv` reads a communicator that was
never set. -/
theorem late_piggyback_not_merged :
    ((Matched.machine probedMessage .mrecv).Valid (.start (.new none {}) {})
        [.probe, .begin, .arrive, .finish] ∧
      ((Matched.machine probedMessage .mrecv).run (.start (.new none {}) {})
        [.probe, .begin, .arrive, .finish]).merged = [{}]) ∧
    (Matched.machine probedMessage (.imrecv (-1) none)).Valid (.start (.new none {}) {})
        [.probe, .begin, .finish, .arrive, .complete] ∧
      ((Matched.machine probedMessage (.imrecv (-1) none)).run (.start (.new none {}) {})
        [.probe, .begin, .finish, .arrive, .complete]).phase = .fault := by
  decide +kernel

end CritPath.Tracking
