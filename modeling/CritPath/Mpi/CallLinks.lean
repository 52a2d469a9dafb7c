import CritPath.Mpi.ExchangeInv

/-!
# The communications of a call

Which operations a call of the application starts and completes is read off the
call and the calls before it, whatever the wrappers do in it. The wrappers
agree with it: a call hands in values for the operations it starts
(`mem_given_parts`), takes values from those it completes
(`mem_taken_parts`), and hands in before it takes (`pairwise_parts`).
-/

namespace CritPath.Exchange

section
variable {R H O : Type}

/-- A request as the application knows it: how the rank takes part, and in which operation. -/
structure Handle (O : Type) where
  role : Role
  persistent : Bool
  current : Option O

/-- The operations in which the call starts a part of its rank, with `f` its requests; `none` stands
for the end of the run. -/
def PbCall.starts (f : H → Option (Handle O)) : PbCall R H O → List (Role × Option O)
  | .coll _ o | .icoll _ o => [(.member, some o)]
  | .send _ o | .isend _ o => [(.sender, some o)]
  | .recv _ o | .irecv _ _ o => [(.receiver, some o)]
  | .sendrecv _ s p | .isendrecv _ s p =>
    (s.map fun o => (.sender, some o)).toList ++ (p.map fun o => (.receiver, some o)).toList
  | .start h o => ((f h).map fun d => (d.role, some o)).toList
  | .finalize _ => [(.member, none)]
  | .other | .collInit _ _ | .sendInit _ _ | .recvInit _ _ | .complete _ => []

/-- The operations in which the part of the rank is complete when the call returns. -/
def PbCall.completes (f : H → Option (Handle O)) : PbCall R H O → List (Role × Option O)
  | .coll _ o => [(.member, some o)]
  | .send _ o => [(.sender, some o)]
  | .recv _ o => [(.receiver, some o)]
  | .sendrecv _ s p =>
    (s.map fun o => (.sender, some o)).toList ++ (p.map fun o => (.receiver, some o)).toList
  | .complete hs => hs.flatMap fun h =>
      ((f h).bind fun d => d.current.map fun o => (d.role, some o)).toList
  | .finalize _ => [(.member, none)]
  | .other | .icoll _ _ | .collInit _ _ | .isend _ _ | .irecv _ _ _ | .sendInit _ _
  | .recvInit _ _ | .isendrecv _ _ _ | .start _ _ => []

/-- The requests of the rank after the call. The request of `MPI_Isendrecv` stands for the receive,
if it has one: no value comes with the end of a send. -/
def PbCall.handles [DecidableEq H] (f : H → Option (Handle O)) :
    PbCall R H O → H → Option (Handle O)
  | .icoll h o => Function.update f h (some ⟨.member, false, some o⟩)
  | .isend h o | .isendrecv h (some o) none =>
    Function.update f h (some ⟨.sender, false, some o⟩)
  | .irecv _ h o | .isendrecv h _ (some o) =>
    Function.update f h (some ⟨.receiver, false, some o⟩)
  | .collInit h _ => Function.update f h (some ⟨.member, true, none⟩)
  | .sendInit h _ => Function.update f h (some ⟨.sender, true, none⟩)
  | .recvInit h _ => Function.update f h (some ⟨.receiver, true, none⟩)
  | .start h o => Function.update f h ((f h).map fun d => { d with current := some o })
  | .complete hs => fun h =>
    if h ∈ hs then
      (f h).bind fun d => if d.persistent then some { d with current := none } else none
    else f h
  | _ => f

end

section
variable {R H O : Type} [DecidableEq R] {kind : O → Transfer R} {world : List R} {r : R}

def Request.handle (d : Request R (Option O)) : Handle O := ⟨d.role, d.persistent, d.current.join⟩

theorem handles_requests [DecidableEq H] (kind : O → Transfer R) (r : R) (c : PbCall R H O)
    (f : H → Option (Request R (Option O))) :
    c.handles (fun h => (f h).map Request.handle) =
      fun h => (c.requests kind r f h).map Request.handle := by
  have hnew : ∀ (h : H) (d : Request R (Option O)) (e : Handle O), d.handle = e →
      Function.update (fun h => (f h).map Request.handle) h (some e) =
        fun b => (Function.update f h (some d) b).map Request.handle := by
    rintro h d _ rfl
    funext b
    by_cases hb : b = h
    · subst hb
      simp
    · simp [hb]
  cases c with
  | start h o =>
    funext b
    by_cases hb : b = h
    · subst hb
      cases hd : f b <;> simp [PbCall.handles, PbCall.requests, hd, Request.handle]
    · simp [PbCall.handles, PbCall.requests, hb]
  | complete hs =>
    funext b
    by_cases hb : b ∈ hs
    · cases hd : f b with
      | none => simp [PbCall.handles, PbCall.requests, hd]
      | some d =>
        cases hpers : d.persistent <;>
          simp [PbCall.handles, PbCall.requests, hb, hd, Request.handle, hpers]
    · simp [PbCall.handles, PbCall.requests, hb]
  | isendrecv h s p =>
    rcases s with _ | s <;> rcases p with _ | p
    · rfl
    all_goals exact hnew _ _ _ rfl
  | icoll h o | collInit h x | isend h o | irecv wildcard h o | sendInit h dest
  | recvInit h source => exact hnew _ _ _ rfl
  | _ => rfl

variable (transfer : Option O → Transfer R)

/-- The operation, if `r` hands in values for it in this role. -/
def handsIn (r : R) (x : Role × Option O) : Option (Option O) :=
  if (transfer x.2).gives r x.1 then some x.2 else none

/-- The operation, if `r` gets values from it in this role. -/
def getsOut (r : R) (x : Role × Option O) : Option (Option O) :=
  if (transfer x.2).takes r x.1 then some x.2 else none

/-- The operation for which a part of a wrapper hands in values. -/
def given (r : R) : Part H (Option O) → Option (Option O)
  | .post role _ _ o => handsIn transfer r (role, o)
  | _ => none

/-- The operation from which a part of a wrapper gets values. -/
def taken (r : R) : Part H (Option O) → Option (Option O)
  | .wait role _ _ o => getsOut transfer r (role, o)
  | _ => none

variable {transfer}

theorem handsIn_receiver (o : Option O) : handsIn transfer r (.receiver, o) = none := by
  simp [handsIn, gives_receiver]

theorem getsOut_sender (o : Option O) : getsOut transfer r (.sender, o) = none := by
  simp [getsOut, takes_sender]

/-- The last operation is started by `MPI_Finalize`. -/
theorem isFinalize_of_starts {c : PbCall R H O} {f : H → Option (Handle O)}
    (h : none ∈ (c.starts f).filterMap (handsIn transfer r)) : c.isFinalize = true := by
  obtain ⟨x, hx, ho⟩ := List.mem_filterMap.mp h
  obtain ⟨-, ho⟩ : _ ∧ x.2 = none := by simpa [handsIn] using ho
  cases c with
  | finalize b => rfl
  | _ => simp_all [PbCall.starts] <;> grind

section
variable {d : Request R (Option O)} {o : O} {h : H}

theorem taken_start (o : Option O) : (d.start h o).filterMap (taken transfer r) = [] := by
  unfold Request.start
  split <;> rfl

theorem taken_complete (hown : d.current ≠ some none) :
    (d.complete h).filterMap (taken transfer r) =
      (d.current.join.map fun o => (d.role, some o)).toList.filterMap (getsOut transfer r) := by
  unfold Request.complete
  rcases hcur : d.current with _ | _ | o
  · cases d.completionCallback <;> rfl
  · exact absurd hcur hown
  · cases d.completionCallback <;> rfl

theorem given_complete (hok : ∀ p ∈ d.complete h, PartOk transfer r p)
    {p : Part H (Option O)} (hp : p ∈ d.complete h) : given transfer r p = none := by
  revert p
  unfold Request.complete at hok ⊢
  split <;> simp_all [given, PartOk, handsIn]

theorem given_start (hposts : d.startCallback = none → d.role = .receiver) :
    (d.start h (some o)).filterMap (given transfer r) =
      [(d.role, some o)].filterMap (handsIn transfer r) := by
  unfold Request.start
  cases hcb : d.startCallback with
  | none => simp [hposts hcb, handsIn_receiver]
  | some cb => cases cb <;> rfl

end

section
variable {w : Ranks R H O} {c : PbCall R H O}
  (hfit : w.Fits kind r c)
  (hreq : ∀ h d, w.request r h = some d → RequestOk H (transferOf kind world) r d)
include hfit hreq

/-- A call gets values from the operations that it completes. -/
theorem taken_parts :
    (c.parts kind r (w.request r)).filterMap (taken (transferOf kind world) r) =
      (c.completes fun h => (w.request r h).map Request.handle).filterMap
        (getsOut (transferOf kind world) r) := by
  cases c with
  | coll h o =>
    have hf : (kind o).Joins r .member := hfit
    simp only [PbCall.parts]
    cases hk : kind o with
    | message a b => simp [hk, Transfer.Joins] at hf
    | _ => rfl
  | icoll h o =>
    simp only [PbCall.parts]
    cases kind o <;> rfl
  | irecv wildcard h o => cases wildcard <;> rfl
  | send h o =>
    simp [PbCall.parts, PbCall.completes, mpiSendPB, List.filterMap_cons, taken, getsOut_sender]
  | sendrecv h s p =>
    rcases s with _ | s <;> rcases p with _ | p <;>
      simp [PbCall.parts, PbCall.completes, mpiSendrecvPB, sendrecvReplace, List.filterMap_cons,
        taken, getsOut_sender]
  | isendrecv h s p => rcases s with _ | s <;> rcases p with _ | p <;> rfl
  | start h o =>
    simp only [PbCall.parts]
    cases hd : w.request r h with
    | none => rfl
    | some d => exact taken_start (some o)
  | complete hs =>
    simp only [PbCall.parts, PbCall.completes, List.filterMap_flatMap]
    refine congrArg hs.flatMap ?_
    funext h
    cases hd : w.request r h with
    | none => rfl
    | some d => exact taken_complete (hreq h d hd).own
  | _ => rfl

theorem given_parts :
    (c.parts kind r (w.request r)).filterMap (given (transferOf kind world) r) =
      (c.starts fun h => (w.request r h).map Request.handle).filterMap
        (handsIn (transferOf kind world) r) := by
  cases c with
  | coll h o | icoll h o =>
    have hf : (kind o).Joins r .member := hfit
    simp only [PbCall.parts]
    cases hk : kind o with
    | message a b => simp [hk, Transfer.Joins] at hf
    | _ => rfl
  | irecv wildcard h o =>
    cases wildcard <;>
      simp [PbCall.parts, PbCall.starts, mpiIrecvPB, given, handsIn_receiver]
  | sendrecv h s p | isendrecv h s p => rcases s with _ | s <;> rcases p with _ | p <;> rfl
  | start h o =>
    simp only [PbCall.parts, PbCall.starts]
    cases hd : w.request r h with
    | none => rfl
    | some d =>
      have hst : Ranks.Startable r (kind o) (w.request r h) := hfit
      rw [hd] at hst
      exact given_start ((hreq h d hd).posts hst.1)
  | complete hs =>
    rw [List.filterMap_eq_nil_iff.mpr ?_]
    · rfl
    · intro p hp
      obtain ⟨h, d, hd, hp⟩ := mem_parts_complete hp
      exact given_complete ((hreq h d hd).complete h) hp
  | _ => rfl

omit hfit in
/-- A call hands in its values before it takes any. -/
theorem pairwise_parts : (c.parts kind r (w.request r)).Pairwise fun p q =>
    taken (transferOf kind world) r p = none ∨ given (transferOf kind world) r q = none := by
  cases c with
  | complete hs =>
    refine List.pairwise_of_forall_mem_list fun p _ q hq => .inr ?_
    obtain ⟨h, d, hd, hq⟩ := mem_parts_complete hq
    exact given_complete ((hreq h d hd).complete h) hq
  | start h o =>
    refine List.pairwise_of_forall_mem_list fun p hp q _ => .inl ?_
    obtain ⟨d, -, hp⟩ := mem_parts_start hp
    exact List.filterMap_eq_nil_iff.mp (taken_start (some o)) p hp
  | coll h o =>
    simp only [PbCall.parts]
    cases kind o <;>
      simp [collPB, mpiCollAllreducePB, mpiCollBcastPB, mpiCollReducePB, taken]
  | icoll h o =>
    simp only [PbCall.parts]
    cases kind o <;> simp [icollPB, mpiIcollAllreducePB, mpiIcollBcastPB, mpiIcollReducePB]
  | irecv wildcard h o => cases wildcard <;> simp [PbCall.parts, mpiIrecvPB]
  | sendrecv h s p =>
    rcases s with _ | s <;> rcases p with _ | p <;>
      simp [PbCall.parts, mpiSendrecvPB, sendrecvReplace, taken]
  | isendrecv h s p =>
    rcases s with _ | s <;> rcases p with _ | p <;> simp [PbCall.parts, sendrecvReplace, taken]
  | _ => simp [PbCall.parts, mpiSendPB, mpiRecvPB, mpiIsendPB, mpiFinalize, taken]

end

section
variable [DecidableEq H] [DecidableEq O] {transfer : Option O → Transfer R} {w w' : Ranks R H O}
  {p : Part H (Option O)}

theorem Effect.given (h : Effect transfer r w p w') (o : Option O) :
    (given transfer r p = some o ∧ w'.sent o r = some (w.clock r).mpiHappensBefore) ∨
    (given transfer r p ≠ some o ∧ w'.sent o r = w.sent o r) := by
  cases h with
  | give b o' hg =>
    by_cases ho : o = o'
    · subst ho
      exact .inl ⟨by simp [Exchange.given, handsIn, hg], by simp⟩
    · exact .inr ⟨by simp [Exchange.given, handsIn, hg, Ne.symm ho], by simp [ho]⟩
  | post b o' hg => exact .inr ⟨by simp [Exchange.given, handsIn, hg], rfl⟩
  | _ => exact .inr ⟨by simp [Exchange.given], rfl⟩

theorem Effect.taken (hw : Stacked w) (hin : w.inMpi r = true)
    (hst : ∀ b, (w.buf r b).useful ≤ w.value r) (h : Effect transfer r w p w') :
    (∃ o uc, taken transfer r p = some o ∧ (transfer o).result (w.sent o) = some uc ∧
      w'.value r = max (w.value r) uc.useful) ∨
    (taken transfer r p = none ∧ w'.value r = w.value r) := by
  rcases h.value hw hin hst with ⟨role, b, o, uc, rfl, ht, hres, hv⟩ | ⟨hv, hno⟩
  · exact .inl ⟨o, uc, by simp [Exchange.taken, getsOut, ht], hres, hv⟩
  · refine .inr ⟨?_, hv⟩
    cases p with
    | wait role merge b o => simp [Exchange.taken, getsOut, hno role merge b o rfl]
    | _ => rfl

end

end

end CritPath.Exchange
