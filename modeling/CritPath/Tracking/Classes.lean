import CritPath.Mpi.Exchange
import CritPath.Tracking.Blocking
import CritPath.Tracking.MatchedProbe
import CritPath.Tracking.Rounds

/-!
# The piggyback classes in the models

The classes are modelled for the messages (`CritPath.Mpi.Piggyback`), for the values
that they carry (`CritPath.Mpi.Exchange`) and for their objects: those of requests
(`CritPath.Tracking.Buffers`, `CritPath.Tracking.Rounds`), of messages
(`CritPath.Tracking.MatchedProbe`) and of blocking calls (`CritPath.Tracking.Blocking`).
The models agree on the callbacks that a request gets, and on the calls that load,
post, wait for and merge values.
-/

namespace CritPath.Tracking

section
variable {R C G : Type}

/-- What the classes test of a receive. -/
def peerOf : Option (Pattern R C G) → Peer
  | none => .procNull
  | some p => if p.wildcard then .wildcard else .specific

theorem recv_callbacks (o : OpName R) (recv : Option (Pattern R C G)) :
    (CritPath.mpiIrecvPB o recv).completionCallback = (mpiIrecvPB (peerOf recv)).callback ∧
      (CritPath.mpiRecvInitPB recv).startCallback = (mpiRecvInitPB (peerOf recv)).start ∧
      (CritPath.mpiRecvInitPB recv).completionCallback = (mpiRecvInitPB (peerOf recv)).callback := by
  cases recv with
  | none => exact ⟨rfl, rfl, rfl⟩
  | some p =>
    cases h : p.wildcard <;>
      simp [CritPath.mpiIrecvPB, CritPath.mpiRecvInitPB, mpiIrecvPB, mpiRecvInitPB, peerOf, h]

theorem exchange_recv_callbacks {H O : Type} (p : Pattern R C G) (h : H) (o : O) :
    some (Exchange.mpiIrecvPB p.wildcard h o).2 = (mpiIrecvPB (peerOf (some p))).callback ∧
      (Exchange.mpiRecvInitPB p.wildcard).1 = (mpiRecvInitPB (peerOf (some p))).start ∧
      some (Exchange.mpiRecvInitPB p.wildcard).2 =
        (mpiRecvInitPB (peerOf (some p))).callback := by
  cases hw : p.wildcard <;> simp [Exchange.mpiIrecvPB, Exchange.mpiRecvInitPB, mpiIrecvPB,
    mpiRecvInitPB, peerOf, hw]

theorem send_callbacks (E : Setting) (o : OpName R) {send : Option (Channel R C G)} {dest : ℤ}
    (h : send = none ↔ dest = E.procNull) :
    (CritPath.mpiIsendPB o send).completionCallback = (mpiIsendPB E dest).callback ∧
      (CritPath.mpiSendInitPB send).startCallback = (mpiSendInitPB E dest).start ∧
      (CritPath.mpiSendInitPB send).completionCallback = (mpiSendInitPB E dest).callback := by
  unfold mpiIsendPB mpiSendInitPB
  split
  · rw [h.mpr ‹_›]
    exact ⟨rfl, rfl, rfl⟩
  · obtain ⟨ch, rfl⟩ := Option.ne_none_iff_exists'.mp fun hs => ‹¬ _› (h.mp hs)
    exact ⟨rfl, rfl, rfl⟩

end

section
variable {R H O : Type} [DecidableEq R]

def nbCall (r : R) : Transfer R → Option NbCall
  | .allreduce _ => some .iallreduce
  | .bcast _ _ => some .ibcast
  | .reduce root _ => some (.ireduce (r = root))
  | .message _ _ => none

def initCall (r : R) : Transfer R → Option InitCall
  | .allreduce _ => some .allreduce
  | .bcast root _ => some (.bcast (r = root))
  | .reduce root _ => some (.reduce (r = root))
  | .message _ _ => none

theorem icoll_callback (E : Setting) (r : R) (x : Transfer R) (h : H) (o : O) :
    ∀ c ∈ nbCall r x, some (Exchange.icollPB x r h o).2 = (c.pb E).callback.or (c.pb E).early ∧
      (Exchange.icollPB x r h o).1 = [.post .member (c.loads E (x.gives r .member)) h o] ∧
      c.receives E = x.takes r .member := by
  rintro c hc
  cases x with
  | message a b => cases hc
  | allreduce ms =>
    cases hc
    exact ⟨rfl, rfl, rfl⟩
  | bcast root ms =>
    cases hc
    refine ⟨rfl, ?_, rfl⟩
    show [Part.post _ (decide (root = r)) h o] = [.post _ (decide (r = root)) h o]
    simp only [eq_comm]
  | reduce root ms =>
    cases hc
    by_cases hr : root = r
    all_goals
      simp [Exchange.icollPB, Exchange.mpiIcollReducePB, NbCall.pb, mpiIcollReducePB, NbCall.loads,
        NbCall.receives, Transfer.takes, @eq_comm _ r root, hr]

theorem collInit_callbacks (E : Setting) (r : R) (x : Transfer R) :
    ∀ c ∈ initCall r x, some (Exchange.collInitPB x r).1 = (c.pb E).start ∧
      some (Exchange.collInitPB x r).2 = (c.pb E).callback ∧ c.receives = x.takes r .member := by
  rintro c hc
  cases x with
  | message a b => cases hc
  | allreduce ms =>
    cases hc
    exact ⟨rfl, rfl, rfl⟩
  | bcast root ms | reduce root ms =>
    cases hc
    by_cases hr : root = r
    all_goals
      simp [Exchange.collInitPB, Exchange.mpiCollBcastInitPB, Exchange.mpiCollReduceInitPB,
        InitCall.pb, mpiCollBcastInitPB, mpiCollReduceInitPB, InitCall.receives, Transfer.takes,
        @eq_comm _ r root, hr]

end

/-! ## Blocking calls -/

section
variable {H O : Type} (E : Setting)

/-- What a part of the exchange does with its `RequestData`. -/
def accesses : Part H O → List PbAccess
  | .load _ => [.load]
  | .post _ load _ _ => BlockingCall.mpiCollPB load
  | .wait _ merge _ _ => BlockingCall.mpiCollPBEnd merge
  | .merge _ => [.merge]

def blockingCall (r : ℤ) : Transfer ℤ → Option BlockingCall
  | .allreduce _ => some .allreduce
  | .bcast root _ => some (.bcast root r)
  | .reduce root _ => some (.reduce root r)
  | .message _ _ => none

theorem coll_accesses (r : ℤ) (x : Transfer ℤ) (h : H) (o : O) :
    ∀ c ∈ blockingCall r x,
      (Exchange.collPB x r h o).flatMap accesses = c.construct E ++ c.destruct E := by
  rintro c hc
  cases x <;> cases hc
  case allreduce => rfl
  case bcast root ms | reduce root ms =>
    exact congrArg (_ ++ ·) (List.append_nil _)

theorem mpiRecvPB_eq (src tag : ℤ) : BlockingCall.mpiRecvPB E src tag =
    if E.peer src tag = .specific then [.post] else [] := by
  unfold BlockingCall.mpiRecvPB Setting.peer
  split_ifs <;> simp_all

theorem mpiRecvPBEnd_eq (src tag : ℤ) : BlockingCall.mpiRecvPBEnd E src tag =
    match E.peer src tag with
    | .procNull => []
    | .wildcard => [.recv, .merge]
    | .specific => [.waitall, .merge] := by
  unfold BlockingCall.mpiRecvPBEnd Setting.peer
  split_ifs <;> rfl

theorem recv_accesses {src tag : ℤ} (hspecific : E.peer src tag = .specific) (h : H) (o : O) :
    (Exchange.mpiRecvPB h o).flatMap accesses =
      BlockingCall.mpiRecvPB E src tag ++ BlockingCall.mpiRecvPBEnd E src tag := by
  rw [mpiRecvPB_eq, mpiRecvPBEnd_eq, hspecific]
  rfl

theorem merge_mem_recvEnd_iff {R C G : Type} {recv : Option (Pattern R C G)} {src tag : ℤ}
    (hpeer : peerOf recv = E.peer src tag) (o : OpName R) :
    .merge o ∈ CritPath.mpiRecvPBEnd o recv ↔ .merge ∈ BlockingCall.mpiRecvPBEnd E src tag := by
  rw [mpiRecvPBEnd_eq, ← hpeer]
  cases recv with
  | none => simp [CritPath.mpiRecvPBEnd, peerOf]
  | some p => cases h : p.wildcard <;> simp [CritPath.mpiRecvPBEnd, peerOf, h]

/-- `mpiIrecvPB` for a message sets the callbacks of its class. -/
theorem imrecv_callbacks (σ : Matched) (tag : ℤ) (cData : Option ℕ) :
    (Matched.mpiIrecvPBEnd (E := E) tag cData σ).data.completionCallback =
      ((mpiImrecvPB (E.peer σ.data.remote tag)).callback.map .complete <|>
        σ.data.completionCallback) := by
  unfold Matched.mpiIrecvPBEnd mpiImrecvPB mpiIrecvPB
  cases E.peer σ.data.remote tag <;> rfl

end

end CritPath.Tracking
