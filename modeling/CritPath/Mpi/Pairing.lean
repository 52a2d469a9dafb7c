import CritPath.Mpi.Lockstep

/-!
# Which piggyback a receive gets

Without wildcards every step is orderly, so the piggyback receive of an
application receive meets the piggyback of the message that the application
receive has met. With wildcards this holds in runs with orderly steps; a wildcard
receive that is still open when a specific one is posted breaks it.
-/

namespace CritPath

open Lib

section
variable {R C G : Type}

/-! ## Programs without wildcards -/

/-- The act neither receives with a wildcard nor reads a status. -/
def Act.specific : Act R C G → Bool
  | .post _ _ p _ => p.all (!·.wildcard)
  | .await _ _ | .merge _ => true
  | .recvStatus _ | .fault => false

def MpiLabel.Specific : MpiLabel R C G → Prop
  | .call _ c => c.wildcard = false
  | _ => True

instance : ∀ a : MpiLabel R C G, Decidable a.Specific
  | .call _ c => inferInstanceAs (Decidable (c.wildcard = false))
  | .exec _ | .deliver _ _ => .isTrue trivial

theorem MpiLabel.Specific.plain {a : MpiLabel R C G} (h : a.Specific) : a.Plain := by
  cases a with
  | call r c => exact fun _ => h
  | exec r => trivial
  | deliver dup ch => trivial

structure RequestData.Specific (d : RequestData R C G) : Prop where
  recv : d.recv.all (!·.wildcard) = true
  callback : d.completionCallback ≠ some .completePBWC

structure World.Specific (w : World R C G) : Prop where
  recvs : ∀ q ∈ w.app.recvs, q.1.wildcard = false
  todo : ∀ r, ∀ a ∈ w.todo r, a.specific = true
  requests : ∀ h d, w.requests h = some d → d.Specific

section
variable {s : Option (Channel R C G)} {p : Option (Pattern R C G)} {o : OpName R}

theorem specific_postPB (hp : p.all (!·.wildcard) = true) :
    ∀ a ∈ postPB o s p, a.specific = true := by
  intro a ha
  unfold postPB at ha
  split at ha
  · cases ha
  · obtain rfl := List.mem_singleton.mp ha
    exact hp

theorem mpiRecvPB_eq (hp : p.all (!·.wildcard) = true) : mpiRecvPB o p = postPB o none p := by
  cases p with
  | none => rfl
  | some q => simp_all [mpiRecvPB, postPB]

theorem mpiRecvPBEnd_eq (hp : p.all (!·.wildcard) = true) :
    mpiRecvPBEnd o p = mpiSendrecvPBEnd o p := by
  cases p with
  | none => rfl
  | some q => simp_all [mpiRecvPBEnd, mpiSendrecvPBEnd]

theorem specific_mpiSendrecvPBEnd : ∀ a ∈ mpiSendrecvPBEnd o p, a.specific = true := by
  intro a ha
  unfold mpiSendrecvPBEnd at ha
  split at ha
  · simp only [List.mem_cons, List.not_mem_nil, or_false] at ha
    rcases ha with rfl | rfl <;> rfl
  · cases ha

theorem specific_call (hp : p.all (!·.wildcard) = true) {rest : List (Act R C G)}
    (hrest : ∀ a ∈ rest, a.specific = true) :
    ∀ a ∈ postPB o s p ++ .post false s p o :: rest, a.specific = true := by
  intro a ha
  rcases List.mem_append.mp ha with ha | ha
  · exact specific_postPB hp a ha
  · rcases List.mem_cons.mp ha with rfl | ha
    · exact hp
    · exact hrest a ha

theorem specific_wait : ∀ a ∈ (if p.isSome then [.await false o] else []) ++ mpiSendrecvPBEnd o p,
    a.specific = true := by
  intro a ha
  rcases List.mem_append.mp ha with ha | ha
  · split at ha
    · obtain rfl := List.mem_singleton.mp ha
      rfl
    · cases ha
  · exact specific_mpiSendrecvPBEnd a ha

theorem specific_recvFrom (r : R) (comm : C) {src : Source R} {tag : Option G}
    (hw : (src matches .any || tag.isNone) = false) :
    (recvFrom r comm src tag).all (!·.wildcard) = true := by
  cases h : recvFrom r comm src tag with
  | none => rfl
  | some q => simpa using (recvFrom_specific hw h).2

theorem RequestData.Specific.start {d : RequestData R C G} (h : d.Specific) :
    ∀ a ∈ d.start o ++ [.post false d.send d.recv o], a.specific = true := by
  intro a ha
  rcases List.mem_append.mp ha with ha | ha
  · unfold RequestData.start at ha
    split at ha
    · obtain rfl := List.mem_singleton.mp ha
      exact h.recv
    · obtain rfl := List.mem_singleton.mp ha
      exact h.recv
    · cases ha
  · obtain rfl := List.mem_singleton.mp ha
    exact h.recv

theorem RequestData.Specific.complete {d : RequestData R C G} (h : d.Specific) {ignore : Bool} :
    ∀ a ∈ d.complete ignore o, a.specific = true := by
  intro a ha
  unfold RequestData.complete at ha
  split at ha
  · next hcb => exact absurd hcb h.callback
  · simp only [List.mem_cons, List.not_mem_nil, or_false] at ha
    rcases ha with rfl | rfl <;> rfl
  · simp only [List.mem_cons, List.not_mem_nil, or_false] at ha
    rcases ha with rfl | rfl <;> rfl
  all_goals cases ha

end

namespace World.Specific

theorem start : World.Specific ({} : World R C G) :=
  ⟨by simp, by simp, fun h d hd => by cases hd⟩

variable {w w' : World R C G} {r : R} {acts : List (Act R C G)}

theorem completion (h : w.Specific) {ignore : Bool} {hs : List (OpName R)} :
    ∀ a ∈ w.completion ignore hs, a.specific = true := by
  intro a ha
  rcases List.mem_append.mp ha with ha | ha
  · obtain ⟨d, -, ha⟩ := List.mem_flatMap.mp ha
    unfold RequestData.wait at ha
    split at ha
    · obtain rfl := List.mem_singleton.mp ha
      rfl
    · cases ha
  · obtain ⟨⟨d, o⟩, hd, ha⟩ := List.mem_flatMap.mp ha
    obtain ⟨k, -, hd, -⟩ := World.mem_active.mp hd
    exact (h.requests k d hd).complete a ha

variable [DecidableEq R]

theorem advance (h : w.Specific) (hacts : ∀ a ∈ acts, a.specific = true) :
    (w.advance r acts).Specific where
  recvs := h.recvs
  todo r' := by
    rcases eq_or_ne r' r with rfl | hne
    · rwa [todo_advance_self]
    · rw [todo_advance_of_ne hne]
      exact h.todo r'
  requests := h.requests

theorem issue (h : w.Specific) (hacts : ∀ a ∈ acts, a.specific = true) :
    (w.issue r acts).Specific :=
  { h.advance (r := r) hacts with }

theorem register (h : w.Specific) {k : OpName R} {d : RequestData R C G} (hd : d.Specific) :
    (w.register k d).Specific where
  recvs := h.recvs
  todo := h.todo
  requests k' e he := by
    rcases eq_or_ne k' k with rfl | hne
    · simp only [World.register, Function.update_self] at he
      exact Option.some.inj he ▸ hd
    · simp only [World.register, Function.update_of_ne hne] at he
      exact h.requests k' e he

theorem release (h : w.Specific) (hs : List (OpName R)) : (w.release hs).Specific where
  recvs := h.recvs
  todo := h.todo
  requests k e he := by
    rcases World.requests_release he with ⟨-, hk⟩ | ⟨e', hk, rfl⟩
    · exact h.requests k e hk
    · exact ⟨(h.requests k e' hk).recv, (h.requests k e' hk).callback⟩

theorem call (h : w.Specific) {c : MpiCall R C G} (hc : c.wildcard = false) :
    (w.call r c).Specific := by
  cases c with
  | send comm dest tag => exact h.issue (specific_call rfl (by simp))
  | recv comm src tag =>
    have hp := specific_recvFrom r comm hc
    simp only [World.call]
    rw [mpiRecvPB_eq hp, mpiRecvPBEnd_eq hp]
    exact h.issue (specific_call hp specific_wait)
  | sendrecv comm dest sendtag src recvtag =>
    exact h.issue (specific_call (specific_recvFrom r comm hc) specific_wait)
  | isend comm dest tag =>
    refine (h.issue (specific_call rfl (by simp))).register ⟨rfl, ?_⟩
    cases sendTo r comm dest tag <;> simp [mpiIsendPB]
  | irecv comm src tag =>
    have hp := specific_recvFrom r comm hc
    simp only [World.call]
    rw [mpiRecvPB_eq hp]
    refine (h.issue (specific_call hp (by simp))).register ⟨hp, ?_⟩
    cases hq : recvFrom r comm src tag with
    | none => simp [mpiIrecvPB]
    | some q => simp [mpiIrecvPB, (recvFrom_specific hc hq).2]
  | isendrecv comm dest sendtag src recvtag =>
    have hp := specific_recvFrom r comm hc
    refine (h.issue (specific_call hp (by simp))).register ⟨hp, ?_⟩
    cases recvFrom r comm src recvtag <;> simp [mpiIsendrecvPB]
  | sendInit comm dest tag =>
    refine (h.issue (by simp)).register ⟨rfl, ?_⟩
    cases sendTo r comm dest tag <;> simp [mpiSendInitPB]
  | recvInit comm src tag =>
    refine (h.issue (by simp)).register ⟨specific_recvFrom r comm hc, ?_⟩
    cases hq : recvFrom r comm src tag with
    | none => simp [mpiRecvInitPB]
    | some q => simp [mpiRecvInitPB, (recvFrom_specific hc hq).2]
  | start k =>
    simp only [World.call]
    split
    · next d hd =>
      have hd' := h.requests k d hd
      exact (h.issue hd'.start).register ⟨hd'.recv, hd'.callback⟩
    · exact h
  | complete hs ignore => exact (h.release hs).issue h.completion

theorem exec (h : w.Specific) (hexec : w.Exec r w') : w'.Specific := by
  have htail : ∀ {a rest}, w.todo r = a :: rest → ∀ b ∈ rest, b.specific = true :=
    fun htodo b hb => h.todo r b (htodo ▸ List.mem_cons_of_mem _ hb)
  cases hexec with
  | idle => exact h
  | @post dup s p o rest htodo =>
    have hp : p.all (!·.wildcard) = true :=
      h.todo r (.post dup s p o) (htodo ▸ List.mem_cons_self)
    have hadvance := h.advance (r := r) (htail htodo)
    cases dup with
    | true => exact { hadvance with }
    | false =>
      refine { hadvance with recvs := fun q hq => ?_ }
      cases p with
      | none => cases s <;> exact h.recvs q hq
      | some q' =>
        have hq : q ∈ w.app.recvs ++ [(q', o)] := by cases s <;> exact hq
        rcases List.mem_append.mp hq with hq | hq
        · exact h.recvs q hq
        · obtain rfl := List.mem_singleton.mp hq
          simpa using hp
  | await htodo hfilled => exact h.advance (htail htodo)
  | recvStatus htodo hstatus => exact { h.advance (r := r) (htail htodo) with }
  | merge htodo hmsg => exact { h.advance (r := r) (htail htodo) with }
  | fault htodo =>
    have hnil : (w.advance r []).Specific := h.advance (by simp)
    exact { hnil with }

variable [DecidableEq C] [DecidableEq G]

theorem step (h : w.Specific) {a : MpiLabel R C G} (ha : a.Specific) : (w.step a).Specific := by
  cases a with
  | call r c => exact h.call ha
  | exec r => exact h.exec (World.exec_spec w r)
  | deliver dup ch =>
    cases dup with
    | true => exact { h with }
    | false =>
      refine { h with recvs := fun q hq => h.recvs q ?_ }
      rwa [World.step, Net.recvs_deliver] at hq

/-- A receive that has taken a message of `ch` is a receive for `ch` with a piggyback. -/
theorem mem_recvsOn_dup (h : w.Specific) (hN : Named w) (hL : Lockstep w) {μ ρ : OpName R}
    (hp : (μ, ρ) ∈ w.app.pairs) {ch : Channel R C G} (hμ : μ ∈ w.app.sendsOn ch) :
    ρ ∈ w.dup.recvsOn Pattern.accepts ch := by
  obtain ⟨c, hμ', hρ⟩ := hN.app.mem μ ρ hp
  obtain rfl := hN.app.channel_eq hμ hμ'
  obtain ⟨q, hq, hacc⟩ := Net.mem_recvsOn.mp hρ
  exact (hL.shadow ch).posted q ρ hq (h.recvs _ hq) hacc

theorem orderly (h : w.Specific) (hN : Named w) (hL : Lockstep w) (a : MpiLabel R C G) :
    Orderly w a := by
  cases a with
  | call r c =>
    cases c with
    | complete hs ignore => exact fun k _ d hd hwc => absurd hwc (h.requests k d hd).callback
    | _ => trivial
  | deliver dup ch => trivial
  | exec r =>
    show Orderly.Next w (w.todo r)
    have htodo := h.todo r
    unfold Orderly.Next
    split
    · next s p o rest heq =>
      intro ch _
      refine ⟨fun q hq hw => ?_, fun q hq hμ => h.mem_recvsOn_dup hN hL hq hμ⟩
      simp [h.recvs q hq] at hw
    · next o rest heq => cases htodo (.recvStatus o) (heq ▸ List.mem_cons_self)
    · next rest heq => cases htodo .fault (heq ▸ List.mem_cons_self)
    · trivial

end World.Specific

variable [DecidableEq R] [DecidableEq C] [DecidableEq G]

/-- The piggybacks of matched operations match. -/
structure Paired (w : World R C G) : Prop where
  /-- A receive gets the piggyback of its message, -/
  message : ∀ μ μ' ρ, (μ, ρ) ∈ w.app.pairs → (μ', ρ) ∈ w.dup.pairs → μ' = μ
  /-- the piggyback of a message goes to its receive, -/
  receive : ∀ μ ρ ρ', (μ, ρ) ∈ w.app.pairs → (μ, ρ') ∈ w.dup.pairs → ρ' = ρ
  /-- the two meet as soon as the library has delivered enough on their channel, -/
  meet : ∀ μ ρ, (μ, ρ) ∈ w.app.pairs →
    ∃ ch k, (μ, ρ) ∈ ((Net.deliver Pattern.accepts ch)^[k] w.dup).pairs
  /-- and that is what is merged. -/
  merged : ∀ μ ρ, (ρ, μ) ∈ w.merged → (μ, ρ) ∈ w.app.pairs ∧ (μ, ρ) ∈ w.dup.pairs

/-- In programs without wildcards every receive gets the piggyback that was sent with its message,
and no piggyback of a received message is left over. -/
theorem paired_of_specific (ls : List (MpiLabel R C G))
    (hvalid : (mpiMachine R C G).Valid {} ls) (hspecific : ∀ a ∈ ls, a.Specific) :
    Paired ((mpiMachine R C G).run {} ls) := by
  obtain ⟨hN, hL, hS⟩ := (Machine.along_and.mpr ⟨hvalid, Machine.along_of_forall _ hspecific⟩).inv
    (I := fun w => Named w ∧ Lockstep w ∧ w.Specific)
    (fun w a ⟨hN, hL, hS⟩ ⟨ha, hsp⟩ => ⟨hN.step ha hsp.plain,
      hL.step hN ha hsp.plain (hS.orderly hN hL a), hS.step hsp⟩)
    ⟨.start, .start, .start⟩
  refine ⟨fun μ μ' ρ hp hp' => ?_, fun μ ρ ρ' hp hp' => ?_, fun μ ρ hp => ?_, fun μ ρ hm => ?_⟩
  · have hpair := Net.pair_of_shadow hL.shadow hN.app hN.dup hp' (Net.filled_iff.mpr ⟨μ, hp⟩)
    exact hN.app.message_eq hpair hp
  · exact Net.receive_eq_shadow hL.shadow hN.app hN.dup hp hp'
  · obtain ⟨ch, hμ, -⟩ := hN.app.mem μ ρ hp
    obtain ⟨k, hk⟩ := (hL.shadow ch).pair_of_deliveries hN.app hN.dup hp
      (hS.mem_recvsOn_dup hN hL hp hμ)
    exact ⟨ch, k, hk⟩
  · exact ⟨hL.merged _ hm, hN.merged _ hm⟩

end

def toTrue : Channel Bool Unit Unit := ⟨(), false, true, ()⟩

def specificRun : List (MpiLabel Bool Unit Unit) :=
  [.call true (.recvInit () (.rank false) (some ())), .call true (.start (true, 0)), .exec true,
   .exec true, .call true (.recv () (.rank false) (some ())), .exec true, .exec true,
   .call false (.isend () (some true) ()), .exec false, .exec false,
   .call false (.send () (some true) ()), .exec false, .exec false,
   .deliver false toTrue, .deliver false toTrue, .deliver true toTrue, .deliver true toTrue,
   .exec true, .exec true, .exec true]

theorem paired_of_specific_persistent :
    Paired ((mpiMachine Bool Unit Unit).run {} specificRun) ∧
      ((mpiMachine Bool Unit Unit).run {} specificRun).merged = [((true, 2), (false, 1))] :=
  ⟨paired_of_specific specificRun (by decide +kernel) (by decide +kernel), by decide +kernel⟩

/-! ## Programs with wildcards -/

/-- The act completes receive `o` with a merge, or its rank goes no further. -/
def Act.settles {R C G : Type} (o : OpName R) (a : Act R C G) : Prop := a = .merge o ∨ a = .fault

section
variable {R C G : Type} [DecidableEq R] {w w' : World R C G} {r : R} {o : OpName R}

namespace World

/-- The receive is posted or will be. -/
def Receives (w : World R C G) (o : OpName R) : Prop :=
  (∃ p, (p, o) ∈ w.app.recvs) ∨ ∃ s p, .post false s (some p) o ∈ w.todo o.1

def Pending (w : World R C G) (o : OpName R) : Prop :=
  ∃ h d, w.requests h = some d ∧ d.current = some o ∧ d.recv.isSome = true

/-- A receive whose completion is over has been merged. -/
structure Settled (w : World R C G) : Prop where
  keys : ∀ h d, w.requests h = some d → h.2 < w.next h.1
  merged : ∀ o, w.Receives o →
    w.Pending o ∨ (∃ a ∈ w.todo o.1, a.settles o) ∨ ∃ μ, (o, μ) ∈ w.merged

namespace Settled

omit [DecidableEq R] in
theorem start : Settled ({} : World R C G) :=
  ⟨fun _ _ h => (by cases h), fun _ h => (by simp [Receives] at h)⟩

theorem key_lt (h : w.Settled) {k : OpName R} {d : RequestData R C G} (hd : w.requests k = some d) :
    k.2 < Function.update w.next r (w.next r + 1) k.1 := by
  refine Nat.lt_of_lt_of_le (h.keys k d hd) ?_
  rw [Function.update_apply]
  split <;> simp_all

theorem call_of (h : w.Settled) (htodo : w.todo r = []) {acts : List (Act R C G)}
    (happ : w'.app = w.app) (hmerged : w'.merged = w.merged)
    (htodo' : w'.todo = Function.update w.todo r acts)
    (hkeys : ∀ k d, w'.requests k = some d → k.2 < w'.next k.1)
    (hpending : ∀ o, w.Pending o → w'.Pending o ∨ o.1 = r ∧ ∃ a ∈ acts, a.settles o)
    (hnew : ∀ s p o, .post false s (some p) o ∈ acts → w'.Pending o ∨ ∃ a ∈ acts, a.settles o) :
    w'.Settled := by
  refine ⟨hkeys, fun o ho => ?_⟩
  rw [Receives, happ, htodo'] at ho
  rw [hmerged, htodo']
  by_cases hr : o.1 = r
  · subst hr
    rw [Function.update_self] at ho ⊢
    rcases ho with ho | ⟨s, p, ho⟩
    · rcases h.merged o (.inl ho) with hp | ⟨a, ha, -⟩ | hm
      · exact (hpending o hp).imp_right fun ha => .inl ha.2
      · rw [htodo] at ha
        cases ha
      · exact .inr (.inr hm)
    · exact (hnew s p o ho).imp_right .inl
  · rw [Function.update_of_ne hr] at ho ⊢
    refine (h.merged o ho).imp_left fun hp => ?_
    exact (hpending o hp).resolve_right fun ha => hr ha.1

theorem issue (h : w.Settled) (htodo : w.todo r = []) {acts : List (Act R C G)}
    (hnew : ∀ s p o, .post false s (some p) o ∈ acts → ∃ a ∈ acts, a.settles o) :
    (w.issue r acts).Settled :=
  h.call_of htodo rfl rfl rfl (fun _ _ hd => h.key_lt hd) (fun _ hp => .inl hp) fun s p o ho =>
    .inr (hnew s p o ho)

theorem register (h : w.Settled) (htodo : w.todo r = []) {acts : List (Act R C G)} {k : OpName R}
    {d : RequestData R C G} (hk : k.2 < (w.issue r acts).next k.1)
    (hfree : ∀ e, w.requests k = some e → e.current = none)
    (hnew : ∀ s p o, .post false s (some p) o ∈ acts →
      d.current = some o ∧ some p = d.recv) :
    ((w.issue r acts).register k d).Settled := by
  refine h.call_of htodo rfl rfl rfl (fun k' e he => ?_) (fun o hp => .inl ?_) fun s p o ho =>
    .inl ⟨k, d, by simp [World.register], (hnew s p o ho).1, by simp [← (hnew s p o ho).2]⟩
  · simp only [World.register, Function.update_apply] at he
    split at he
    · subst_vars
      exact hk
    · exact h.key_lt he
  · obtain ⟨k', e, he, hcur, hrecv⟩ := hp
    have hne : k' ≠ k := by
      rintro rfl
      rw [hfree e he] at hcur
      cases hcur
    exact ⟨k', e, by simpa [World.register, World.issue, hne] using he, hcur, hrecv⟩

theorem register_new (h : w.Settled) (htodo : w.todo r = []) {acts : List (Act R C G)}
    {d : RequestData R C G}
    (hnew : ∀ s p o, .post false s (some p) o ∈ acts →
      d.current = some o ∧ some p = d.recv) :
    ((w.issue r acts).register (r, w.next r) d).Settled :=
  h.register htodo (by simp [World.issue])
    (fun e he => absurd (h.keys _ e he) (Nat.lt_irrefl _)) hnew

theorem release (h : w.Settled) (hreq : ∀ k d, w.requests k = some d → d.Ok k.1)
    (hcur : ∀ k d o, w.requests k = some d → d.current = some o → o.1 = k.1)
    (htodo : w.todo r = []) {hs : List (OpName R)} (hown : ∀ k ∈ hs, k.1 = r) (ignore : Bool) :
    ((w.release hs).issue r (w.completion ignore hs)).Settled := by
  refine h.call_of htodo rfl rfl rfl (fun k d hd => ?_) (fun o hp => ?_) fun s p o ho => ?_
  · rcases World.requests_release hd with ⟨-, hd⟩ | ⟨e, he, -⟩
    · exact h.key_lt hd
    · exact h.key_lt he
  · obtain ⟨k, d, hd, ho, hrecv⟩ := hp
    by_cases hk : k ∈ hs
    · -- the callback of a request that receives merges
      refine .inr ⟨(hcur k d o hd ho).trans (hown k hk), ?_⟩
      have hcomplete : ∃ a ∈ d.complete ignore o, a.settles o := by
        rcases (hreq k d hd).merges.mp hrecv with hcb | hcb | hcb <;>
          cases ignore <;> simp [RequestData.complete, hcb, Act.settles]
      obtain ⟨a, ha, hsettles⟩ := hcomplete
      exact ⟨a, List.mem_append_right _ (List.mem_flatMap.mpr
        ⟨(d, o), World.mem_active.mpr ⟨k, hk, hd, ho⟩, ha⟩), hsettles⟩
    · exact .inl ⟨k, d, by simpa [World.issue, World.release, hk] using hd, ho, hrecv⟩
  · cases World.isPost_completion ho

variable [DecidableEq C] [DecidableEq G]

theorem call (h : w.Settled) (hN : Named w) {c : MpiCall R C G} (ha : w.Allowed (.call r c)) :
    (w.call r c).Settled := by
  obtain ⟨htodo, -, harg⟩ := ha
  cases c with
  | send comm dest tag =>
    refine h.issue htodo fun s p o ho => ?_
    cases hs : sendTo r comm dest tag <;> simp [mpiSendPB, postPB, hs] at ho
  | recv comm src tag =>
    refine h.issue htodo fun s p o ho => ?_
    cases hp : recvFrom r comm src tag with
    | none => simp [mpiRecvPB, mpiRecvPBEnd, hp] at ho
    | some q =>
      by_cases hw : q.wildcard = true <;>
        simp_all [mpiRecvPB, mpiRecvPBEnd, Act.settles]
  | sendrecv comm dest sendtag src recvtag =>
    refine h.issue htodo fun s p o ho => ?_
    cases hp : recvFrom r comm src recvtag <;>
      simp_all [mpiSendrecvPB, mpiSendrecvPBEnd, postPB, Act.settles]
  | isend comm dest tag =>
    refine h.register_new htodo fun s p o ho => ?_
    cases hs : sendTo r comm dest tag <;> simp [postPB, hs] at ho
  | irecv comm src tag =>
    refine h.register_new htodo fun s p o ho => ?_
    cases hp : recvFrom r comm src tag with
    | none => simp [mpiRecvPB, hp] at ho
    | some q => by_cases hw : q.wildcard = true <;> simp_all [mpiRecvPB, mpiIrecvPB]
  | isendrecv comm dest sendtag src recvtag =>
    refine h.register_new htodo fun s p o ho => ?_
    simp only [postPB] at ho
    split at ho <;> simp_all [mpiIsendrecvPB]
  | sendInit comm dest tag => exact h.register_new htodo (by simp)
  | recvInit comm src tag => exact h.register_new htodo (by simp)
  | start k =>
    obtain ⟨hk, hany⟩ := harg
    obtain ⟨d, hd, hcur⟩ : ∃ d, w.requests k = some d ∧ d.current = none := by
      cases hd : w.requests k with
      | none => simp [hd] at hany
      | some d => exact ⟨d, rfl, by simp_all⟩
    simp only [World.call, hd]
    refine h.register htodo (h.key_lt hd) (fun e he => ?_) fun s p o ho => ?_
    · rw [hd] at he
      exact Option.some.inj he ▸ hcur
    · unfold RequestData.start at ho
      split at ho <;> simp_all
  | complete hs ignore =>
    exact h.release hN.requests (fun k d o hd ho => (hN.current k d o hd ho).1) htodo harg.2.1 ignore

/-- The first act is done; if it settles a receive, that one has been merged. -/
theorem pop (h : w.Settled) (hN : Named w) {a : Act R C G} {rest : List (Act R C G)}
    (htodo : w.todo r = a :: rest) (hrequests : w'.requests = w.requests) (hnext : w'.next = w.next)
    (htodo' : w'.todo = Function.update w.todo r rest)
    (hmerged : ∀ q ∈ w.merged, q ∈ w'.merged)
    (hrecvs : ∀ q ∈ w'.app.recvs, q ∈ w.app.recvs ∨ ∃ s, a = .post false s (some q.1) q.2)
    (ha : ∀ o, a.settles o → ∃ μ, (o, μ) ∈ w'.merged) : w'.Settled := by
  refine ⟨by rw [hrequests, hnext]; exact h.keys, fun o ho => ?_⟩
  have hold : w.Receives o := by
    rcases ho with ⟨p, hp⟩ | ⟨s, p, hp⟩
    · rcases hrecvs _ hp with hp | ⟨s, rfl⟩
      · exact .inl ⟨p, hp⟩
      · have hmem : (false, o) ∈ names (w.todo r) :=
          mem_names_of_post (htodo ▸ List.mem_cons_self)
        refine .inr ⟨s, p, ?_⟩
        rw [show o.1 = r from (hN.fresh r _ hmem).1, htodo]
        exact List.mem_cons_self
    · refine .inr ⟨s, p, ?_⟩
      rw [htodo'] at hp
      by_cases hr : o.1 = r
      · rw [hr, Function.update_self] at hp
        rw [hr, htodo]
        exact List.mem_cons_of_mem _ hp
      · rwa [Function.update_of_ne hr] at hp
  rcases h.merged o hold with hp | ⟨b, hb, hsettles⟩ | ⟨μ, hm⟩
  · exact .inl (by rwa [Pending, hrequests])
  · by_cases hr : o.1 = r
    · rw [hr, htodo] at hb
      rcases List.mem_cons.mp hb with rfl | hb
      · exact .inr (.inr (ha o hsettles))
      · exact .inr (.inl ⟨b, by rwa [htodo', hr, Function.update_self], hsettles⟩)
    · exact .inr (.inl ⟨b, by rwa [htodo', Function.update_of_ne hr], hsettles⟩)
  · exact .inr (.inr ⟨μ, hmerged _ hm⟩)

theorem exec (h : w.Settled) (hN : Named w) (hord : Orderly.Next w (w.todo r))
    (hexec : w.Exec r w') : w'.Settled := by
  cases hexec with
  | idle => exact h
  | @post dup s p o rest htodo =>
    refine h.pop hN htodo ?_ ?_ ?_ ?_ (fun q hq => ?_) (fun o' ho' => by simp [Act.settles] at ho')
    · cases dup <;> rfl
    · cases dup <;> rfl
    · cases dup <;> rfl
    · cases dup <;> exact fun q hq => hq
    · cases dup with
      | true => exact .inl hq
      | false =>
        cases p with
        | none => cases s <;> exact .inl hq
        | some p =>
          have hq : q ∈ w.app.recvs ++ [(p, o)] := by cases s <;> exact hq
          rcases List.mem_append.mp hq with hq | hq
          · exact .inl hq
          · obtain rfl := List.mem_singleton.mp hq
            exact .inr ⟨s, rfl⟩
  | await htodo hfilled =>
    exact h.pop hN htodo rfl rfl rfl (fun q hq => hq) (fun q hq => .inl hq)
      fun o' ho' => by simp [Act.settles] at ho'
  | recvStatus htodo hstatus =>
    exact h.pop hN htodo rfl rfl rfl (fun q hq => hq) (fun q hq => .inl hq)
      fun o' ho' => by simp [Act.settles] at ho'
  | @merge o rest μ htodo hmsg =>
    refine h.pop hN htodo rfl rfl rfl (fun q hq => List.mem_cons_of_mem _ hq) (fun q hq => .inl hq)
      fun o' ho' => ⟨μ, ?_⟩
    obtain rfl : o = o' := by simpa [Act.settles] using ho'
    exact List.mem_cons_self
  | fault htodo =>
    rw [htodo] at hord
    exact hord.elim

theorem step (h : w.Settled) (hN : Named w) {a : MpiLabel R C G}
    (ha : (mpiMachine R C G).guard w a) (hord : Orderly w a) :
    ((mpiMachine R C G).step w a).Settled := by
  cases a with
  | call r c => exact h.call hN ha
  | exec r => exact h.exec hN hord (World.exec_spec w r)
  | deliver dup ch =>
    refine ⟨by cases dup <;> exact h.keys, fun o ho => ?_⟩
    cases dup with
    | true => exact h.merged o ho
    | false =>
      refine h.merged o (ho.imp_left fun ⟨p, hp⟩ => ⟨p, ?_⟩)
      simpa [mpiMachine, World.step] using hp

end Settled

end World

end

end CritPath
