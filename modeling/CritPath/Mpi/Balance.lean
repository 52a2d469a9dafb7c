import CritPath.Mpi.Calls
import Mathlib.Algebra.GroupWithZero.Nat

/-!
# Piggybacks in builds without `PMPI_Isendrecv_replace`

The piggyback of `MPI_Sendrecv` is one `PMPI_Isendrecv_replace`. Where the library
does not have it (`HAVE_ISRR` is not defined) the macro of the wrapper is empty, and
the messages of these calls come without piggybacks on their side, whatever the
other side does. Such a library does not have `MPI_Isendrecv` either.

Both sides of the library are counted together: `Measure` is a number that grows by
`f s p` with each operation that sends on `s` and receives on `p`.
-/

namespace CritPath

open Lib

section
variable {R C G : Type} [DecidableEq R]

namespace World

/-- `MPI_Sendrecv` and `MPI_Sendrecv_replace` with an empty `mpiSendrecvPBMacro`. -/
def bareSendrecv (r : R) (send : Option (Channel R C G)) (recv : Option (Pattern R C G))
    (w : World R C G) : World R C G :=
  let o := (r, w.next r)
  w.issue r (.post false send recv o :: if recv.isSome then [.await false o] else [])

/-- A call in a build with or without `HAVE_ISRR`. -/
def callIn (isrr : Bool) (r : R) (c : MpiCall R C G) (w : World R C G) : World R C G :=
  match isrr, c with
  | false, .sendrecv comm dest sendtag src recvtag =>
    w.bareSendrecv r (sendTo r comm dest sendtag) (recvFrom r comm src recvtag)
  | _, c => w.call r c

variable [DecidableEq C] [DecidableEq G]

def stepIn (isrr : Bool) (w : World R C G) : MpiLabel R C G → World R C G
  | .call r c => w.callIn isrr r c
  | l => w.step l

/-- Whether the library has the call. -/
def HasCall (isrr : Bool) : MpiLabel R C G → Prop
  | .call _ (.isendrecv _ _ _ _ _) => isrr = true
  | _ => True

end World

instance (isrr : Bool) : ∀ l : MpiLabel R C G, Decidable (World.HasCall isrr l)
  | .call _ (.isendrecv _ _ _ _ _) => inferInstanceAs (Decidable (isrr = true))
  | .call _ (.send _ _ _) | .call _ (.recv _ _ _) | .call _ (.sendrecv _ _ _ _ _)
  | .call _ (.isend _ _ _) | .call _ (.irecv _ _ _) | .call _ (.sendInit _ _ _)
  | .call _ (.recvInit _ _ _) | .call _ (.start _) | .call _ (.complete _ _)
  | .exec _ | .deliver _ _ => inferInstanceAs (Decidable True)

def buildMachine (isrr : Bool) (R C G : Type) [DecidableEq R] [DecidableEq C] [DecidableEq G] :
    Machine (World R C G) (MpiLabel R C G) where
  step := World.stepIn isrr
  guard w l := w.Allowed l ∧ World.HasCall isrr l

variable [DecidableEq C] [DecidableEq G]

instance (isrr : Bool) (w : World R C G) (l : MpiLabel R C G) :
    Decidable ((buildMachine isrr R C G).guard w l) :=
  inferInstanceAs (Decidable (w.Allowed l ∧ World.HasCall isrr l))

theorem step_buildMachine_true (w : World R C G) (l : MpiLabel R C G) :
    (buildMachine true R C G).step w l = (mpiMachine R C G).step w l := by
  cases l <;> rfl

/-! ## Counting posts -/

/-- What an operation that posts the given send and receive adds to one of the two sides. -/
abbrev Weight (R C G : Type) := Option (Channel R C G) → Option (Pattern R C G) → ℕ

/-- What an act adds. -/
def Act.weight (f : Weight R C G) (dup : Bool) : Act R C G → ℕ
  | .post d s p _ => if d = dup then f s p else 0
  | _ => 0

def tally (f : Weight R C G) (dup : Bool) (acts : List (Act R C G)) : ℕ :=
  (acts.map (Act.weight f dup)).sum

def MpiLabel.wildcard : MpiLabel R C G → Bool
  | .call _ c => c.wildcard
  | _ => false

/-- What a call adds that has no piggyback in a build without `HAVE_ISRR`. -/
def MpiLabel.combined (f : Weight R C G) : MpiLabel R C G → ℕ
  | .call r (.sendrecv comm dest sendtag src recvtag) =>
    f (sendTo r comm dest sendtag) (recvFrom r comm src recvtag)
  | _ => 0

def combined (f : Weight R C G) (ops : List (MpiLabel R C G)) : ℕ :=
  (ops.map (MpiLabel.combined f)).sum

/-- A number `g` of a side that only operations of rank `q` add to. -/
structure Measure (q : R) (f : Weight R C G) (g : MpiNet R C G → ℕ) : Prop where
  none : f none none = 0
  elsewhere : ∀ r s p, r ≠ q → (∀ ch, s = some ch → ch.source = r) →
    (∀ pat, p = some pat → pat.dest = r) → f s p = 0
  empty : g {} = 0
  post : ∀ s p o N, g (postOn s p o N) = g N + f s p
  deliver : ∀ ch N, g (N.deliver Pattern.accepts ch) = g N

def sendsTo (ch : Channel R C G) (s : Option (Channel R C G)) (_ : Option (Pattern R C G)) : ℕ :=
  if s = some ch then 1 else 0

def recvsFrom (ch : Channel R C G) (_ : Option (Channel R C G)) (p : Option (Pattern R C G)) : ℕ :=
  if p.any (Pattern.accepts · ch) then 1 else 0

theorem measure_sends (ch : Channel R C G) :
    Measure ch.source (sendsTo ch) fun N => (N.sendsOn ch).length where
  none := rfl
  elsewhere r s p hr hs _ := by
    unfold sendsTo
    rw [if_neg]
    exact fun h => hr (hs ch h).symm
  empty := rfl
  post s p o N := by
    cases s with
    | none => cases p <;> simp [postOn, sendsTo]
    | some ch' =>
      by_cases h : ch' = ch
      · cases p <;> simp [postOn, sendsTo, h, Net.sendsOn_send]
      · cases p <;> simp [postOn, sendsTo, h, Net.sendsOn_send]
  deliver ch' N := by simp [Net.sendsOn]

theorem measure_recvs (ch : Channel R C G) :
    Measure ch.dest (recvsFrom ch) fun N => (N.recvsOn Pattern.accepts ch).length where
  none := rfl
  elsewhere r s p hr _ hp := by
    cases p with
    | none => rfl
    | some pat =>
      unfold recvsFrom
      rw [if_neg]
      intro h
      simp only [Option.any_some, Pattern.accepts, decide_eq_true_eq] at h
      exact hr ((hp pat rfl).symm.trans h.2.1)
  empty := rfl
  post s p o N := by
    cases p with
    | none => cases s <;> simp [postOn, recvsFrom]
    | some pat =>
      by_cases h : pat.accepts ch = true
      · cases s <;> simp [postOn, recvsFrom, h, Net.recvsOn_recv]
      · cases s <;> simp [postOn, recvsFrom, h, Net.recvsOn_recv]
  deliver ch' N := by simp [Net.recvsOn]

/-! ## Calls without wildcards -/

section
variable {q r : R} {f : Weight R C G}
  {g : MpiNet R C G → ℕ} {dup : Bool} {s : Option (Channel R C G)} {p : Option (Pattern R C G)}
  {o : OpName R} {acts rest : List (Act R C G)}

omit [DecidableEq R] [DecidableEq C] [DecidableEq G]

theorem tally_cons (a : Act R C G) : tally f dup (a :: rest) = a.weight f dup + tally f dup rest :=
  List.sum_cons

theorem tally_append : tally f dup (acts ++ rest) = tally f dup acts + tally f dup rest := by
  simp [tally]

theorem tally_eq_zero (h : ∀ a ∈ acts, a.isPost = false) : tally f dup acts = 0 := by
  induction acts with
  | nil => rfl
  | cons a acts ih =>
    rw [tally_cons, ih fun b hb => h b (List.mem_cons_of_mem a hb)]
    have ha := h a List.mem_cons_self
    cases a with
    | post => cases ha
    | _ => rfl

/-- No wait for a status and no access to one. -/
def Act.Quiet (a : Act R C G) : Prop := a ≠ .fault ∧ ∀ o, a ≠ .recvStatus o

theorem quiet_post : (Act.post dup s p o : Act R C G).Quiet :=
  ⟨fun h => (nomatch h), fun _ h => (nomatch h)⟩

/-- What a rank does for a call whose operations come with piggybacks. -/
structure Level (q : R) (f : Weight R C G) (r : R) (acts : List (Act R C G)) : Prop where
  even : tally f true acts = tally f false acts
  elsewhere : r ≠ q → ∀ dup, tally f dup acts = 0
  quiet : ∀ a ∈ acts, a.Quiet

/-- What a rank waits for and merges. -/
def Waiting (acts : List (Act R C G)) : Prop := ∀ a ∈ acts, a.isPost = false ∧ a.Quiet

theorem Waiting.level (h : Waiting acts) : Level q f r acts where
  even := (tally_eq_zero fun a ha => (h a ha).1).trans (tally_eq_zero fun a ha => (h a ha).1).symm
  elsewhere _ _ := tally_eq_zero fun a ha => (h a ha).1
  quiet a ha := (h a ha).2

theorem waiting_wait (h : ∀ a ∈ acts, (∃ d o, a = .await d o) ∨ ∃ o, a = .merge o) :
    Waiting acts := by
  intro a ha
  rcases h a ha with ⟨d, o, rfl⟩ | ⟨o, rfl⟩
  · exact ⟨rfl, fun h => (nomatch h), fun _ h => (nomatch h)⟩
  · exact ⟨rfl, fun h => (nomatch h), fun _ h => (nomatch h)⟩

/-- The piggyback of an operation, which an operation with `MPI_PROC_NULL` only may not have. -/
def Covers (pb : List (Act R C G)) (s : Option (Channel R C G)) (p : Option (Pattern R C G))
    (o : OpName R) : Prop :=
  pb = [.post true s p o] ∨ pb = [] ∧ s = none ∧ p = none

theorem covers_postPB : Covers (postPB o s p) s p o := by
  unfold postPB
  split
  case isTrue h =>
    obtain ⟨hs, hp⟩ := Bool.and_eq_true_iff.mp h
    exact .inr ⟨rfl, Option.isNone_iff_eq_none.mp hs, Option.isNone_iff_eq_none.mp hp⟩
  case isFalse => exact .inl rfl

variable [DecidableEq R] [DecidableEq C] [DecidableEq G] in
theorem Measure.level (M : Measure q f g) {pb : List (Act R C G)} (hpb : Covers pb s p o)
    (hs : ∀ ch, s = some ch → ch.source = r) (hp : ∀ pat, p = some pat → pat.dest = r)
    (hrest : Waiting rest) : Level q f r (pb ++ .post false s p o :: rest) := by
  have hweight : ∀ dup, tally f dup pb = if dup then f s p else 0 := by
    intro dup
    rcases hpb with rfl | ⟨rfl, rfl, rfl⟩
    · cases dup <;> simp [tally, Act.weight]
    · cases dup <;> simp [tally, M.none]
  have htally : ∀ dup, tally f dup (pb ++ .post false s p o :: rest) = f s p := by
    intro dup
    rw [tally_append, tally_cons, hweight, tally_eq_zero fun a ha => (hrest a ha).1]
    cases dup <;> simp [Act.weight]
  refine ⟨(htally true).trans (htally false).symm, fun hr dup => ?_, fun a ha => ?_⟩
  · rw [htally, M.elsewhere r s p hr hs hp]
  · rcases List.mem_append.mp ha with ha | ha
    · rcases hpb with rfl | ⟨rfl, -⟩
      · obtain rfl := List.mem_singleton.mp ha
        exact quiet_post
      · cases ha
    · rcases List.mem_cons.mp ha with rfl | ha
      · exact quiet_post
      · exact (hrest a ha).2

theorem covers_mpiRecvPB (hp : ∀ pat, p = some pat → pat.wildcard = false) :
    Covers (mpiRecvPB o p) none p o := by
  cases p with
  | none => exact .inr ⟨rfl, rfl, rfl⟩
  | some pat => exact .inl (by simp [mpiRecvPB, hp pat rfl])

theorem waiting_nil : Waiting ([] : List (Act R C G)) := fun _ ha => absurd ha List.not_mem_nil

theorem waiting_received : Waiting [Act.await (R := R) (C := C) (G := G) false o, .await true o,
    .merge o] := by
  refine waiting_wait fun a ha => ?_
  simp only [List.mem_cons, List.not_mem_nil, or_false] at ha
  rcases ha with rfl | rfl | rfl
  · exact .inl ⟨_, _, rfl⟩
  · exact .inl ⟨_, _, rfl⟩
  · exact .inr ⟨_, rfl⟩

theorem mpiRecvPBEnd_waiting (hp : ∀ pat, p = some pat → pat.wildcard = false) :
    Waiting ((if p.isSome then [Act.await false o] else []) ++ mpiRecvPBEnd o p) := by
  cases p with
  | none => exact waiting_nil
  | some pat => simpa [mpiRecvPBEnd, hp pat rfl] using waiting_received

theorem mpiSendrecvPBEnd_waiting :
    Waiting ((if p.isSome then [Act.await false o] else []) ++
      (mpiSendrecvPBEnd o p : List (Act R C G))) := by
  cases p with
  | none => exact waiting_nil
  | some pat => exact waiting_received

/-- What the wrappers put into a request without wildcards. -/
structure RequestData.Plain (r : R) (d : RequestData R C G) : Prop extends d.Ok r where
  specific : ∀ pat, d.recv = some pat → pat.wildcard = false
  status : d.completionCallback ≠ some .completePBWC

namespace RequestData.Plain

theorem mpiIsendPB (hs : ∀ ch, s = some ch → ch.source = r) : (mpiIsendPB o s).Plain r where
  toOk := .mpiIsendPB hs
  specific _ h := by cases h
  status h := by cases s <;> simp [CritPath.mpiIsendPB] at h

theorem mpiIrecvPB (hp : ∀ pat, p = some pat → pat.dest = r ∧ pat.wildcard = false) :
    (mpiIrecvPB o p).Plain r where
  toOk := .mpiIrecvPB fun pat h => (hp pat h).1
  specific pat h := (hp pat h).2
  status h := by
    cases p with
    | none => simp [CritPath.mpiIrecvPB] at h
    | some pat => simp [CritPath.mpiIrecvPB, (hp pat rfl).2] at h

theorem mpiIsendrecvPB (hs : ∀ ch, s = some ch → ch.source = r)
    (hp : ∀ pat, p = some pat → pat.dest = r ∧ pat.wildcard = false) :
    (mpiIsendrecvPB o s p).Plain r where
  toOk := .mpiIsendrecvPB hs fun pat h => (hp pat h).1
  specific pat h := (hp pat h).2
  status h := by cases p <;> simp [CritPath.mpiIsendrecvPB] at h

theorem mpiSendInitPB (hs : ∀ ch, s = some ch → ch.source = r) : (mpiSendInitPB s).Plain r where
  toOk := .mpiSendInitPB hs
  specific _ h := by cases h
  status h := by cases s <;> simp [CritPath.mpiSendInitPB] at h

theorem mpiRecvInitPB (hp : ∀ pat, p = some pat → pat.dest = r ∧ pat.wildcard = false) :
    (mpiRecvInitPB p).Plain r where
  toOk := .mpiRecvInitPB fun pat h => (hp pat h).1
  specific pat h := (hp pat h).2
  status h := by
    cases p with
    | none => simp [CritPath.mpiRecvInitPB] at h
    | some pat => simp [CritPath.mpiRecvInitPB, (hp pat rfl).2] at h

end RequestData.Plain

theorem RequestData.Plain.covers_start {d : RequestData R C G} (hd : d.Plain r)
    (hpers : d.persistent = true) : Covers (d.start o) d.send d.recv o := by
  cases hstart : d.startCallback with
  | some cb => exact .inl (by cases cb <;> simp [RequestData.start, hstart])
  | none =>
    obtain ⟨hsend, hrecv⟩ := hd.silent hstart hpers
    refine .inr ⟨by simp [RequestData.start, hstart], hsend, ?_⟩
    cases hr : d.recv with
    | none => rfl
    | some pat => exact absurd ((hrecv pat hr).symm.trans (hd.specific pat hr)) (by decide)

end

/-! ## Runs -/

section
variable {q r : R} {f : Weight R C G}
  {g : MpiNet R C G → ℕ} {w : World R C G} {k : ℕ} {acts : List (Act R C G)}

namespace World

/-- Both sides have been given the same but for `k`, counting what rank `q` is about to post. -/
structure Counts (q : R) (f : Weight R C G)
    (g : MpiNet R C G → ℕ) (k : ℕ) (w : World R C G) : Prop where
  counts : g w.dup + tally f true (w.todo q) + k = g w.app + tally f false (w.todo q)
  elsewhere : ∀ r, r ≠ q → ∀ dup, tally f dup (w.todo r) = 0
  quiet : ∀ r, ∀ a ∈ w.todo r, a.Quiet
  requests : ∀ h d, w.requests h = some d → d.Plain h.1

namespace Counts

omit [DecidableEq C] [DecidableEq G]

theorem issueGap (h : w.Counts q f g k) (htodo : w.todo r = []) {m : ℕ}
    (heven : tally f true acts + m = tally f false acts)
    (helse : r ≠ q → m = 0 ∧ ∀ dup, tally f dup acts = 0) (hquiet : ∀ a ∈ acts, a.Quiet) :
    (w.issue r acts).Counts q f g (m + k) where
  counts := by
    have hc := h.counts
    by_cases hr : q = r
    · subst hr
      simp only [World.issue, Function.update_self]
      rw [htodo] at hc
      simp only [tally, List.map_nil, List.sum_nil] at hc heven ⊢
      omega
    · rw [(helse (Ne.symm hr)).1, Nat.zero_add]
      simpa only [World.issue, Function.update_of_ne hr] using hc
  elsewhere r' hr' dup := by
    by_cases hr : r' = r
    · subst hr
      simpa only [World.issue, Function.update_self] using (helse hr').2 dup
    · simpa only [World.issue, Function.update_of_ne hr] using h.elsewhere r' hr' dup
  quiet r' := by
    by_cases hr : r' = r
    · subst hr
      simpa only [World.issue, Function.update_self] using hquiet
    · simpa only [World.issue, Function.update_of_ne hr] using h.quiet r'
  requests := h.requests

theorem issue (h : w.Counts q f g k) (htodo : w.todo r = []) (ha : Level q f r acts) :
    (w.issue r acts).Counts q f g k := by
  have hgap := h.issueGap htodo (m := 0) ha.even (fun hr => ⟨rfl, ha.elsewhere hr⟩) ha.quiet
  rwa [Nat.zero_add] at hgap

theorem register (h : w.Counts q f g k) {n : OpName R} {d : RequestData R C G} (hd : d.Plain n.1) :
    (w.register n d).Counts q f g k where
  counts := h.counts
  elsewhere := h.elsewhere
  quiet := h.quiet
  requests n' d' hd' := by
    by_cases hn : n' = n
    · subst hn
      simp only [World.register, Function.update_self, Option.some.injEq] at hd'
      exact hd' ▸ hd
    · simp only [World.register, Function.update_of_ne hn] at hd'
      exact h.requests n' d' hd'

theorem release (h : w.Counts q f g k) (hs : List (OpName R)) : (w.release hs).Counts q f g k where
  counts := h.counts
  elsewhere := h.elsewhere
  quiet := h.quiet
  requests n d hd := by
    rcases requests_release hd with ⟨-, hd⟩ | ⟨e, he, rfl⟩
    · exact h.requests n d hd
    · have hplain := h.requests n e he
      exact ⟨hplain.setCurrent none, hplain.specific, hplain.status⟩

theorem advance (h : w.Counts q f g k) {a : Act R C G} {rest : List (Act R C G)}
    (htodo : w.todo r = a :: rest) (ha : ∀ dup, a.weight f dup = 0) :
    (w.advance r rest).Counts q f g k := by
  have htally : ∀ dup, tally f dup rest = tally f dup (w.todo r) := fun dup => by
    rw [htodo, tally_cons, ha, Nat.zero_add]
  have hsame : ∀ r' dup, tally f dup ((w.advance r rest).todo r') = tally f dup (w.todo r') := by
    intro r' dup
    by_cases hr : r' = r
    · subst hr
      rw [todo_advance_self, htally]
    · rw [todo_advance_of_ne hr]
  refine ⟨?_, fun r' hr' dup => ?_, fun r' => ?_, h.requests⟩
  · rw [hsame, hsame]
    exact h.counts
  · rw [hsame]
    exact h.elsewhere r' hr' dup
  · by_cases hr : r' = r
    · subst hr
      rw [todo_advance_self]
      exact fun b hb => h.quiet r' b (htodo ▸ List.mem_cons_of_mem a hb)
    · rw [todo_advance_of_ne hr]
      exact h.quiet r'

variable [DecidableEq C] [DecidableEq G] in
theorem post (M : Measure q f g) (h : w.Counts q f g k) {dup : Bool} {s : Option (Channel R C G)}
    {p : Option (Pattern R C G)} {o : OpName R} {rest : List (Act R C G)}
    (htodo : w.todo r = .post dup s p o :: rest) :
    ((w.post dup s p o).advance r rest).Counts q f g k := by
  have hweight : ∀ d, tally f d (w.todo r) = (if dup = d then f s p else 0) + tally f d rest :=
    fun d => by rw [htodo, tally_cons]; rfl
  have hdup : g (w.post dup s p o).dup = g w.dup + if dup then f s p else 0 := by
    cases dup
    · rfl
    · exact M.post s p o w.dup
  have happ : g (w.post dup s p o).app = g w.app + if dup then 0 else f s p := by
    cases dup
    · exact M.post s p o w.app
    · rfl
  have htodo' : ∀ r', r' ≠ r → ((w.post dup s p o).advance r rest).todo r' = w.todo r' := by
    intro r' hr
    rw [todo_advance_of_ne hr]
    cases dup <;> rfl
  have hreq : ((w.post dup s p o).advance r rest).requests = w.requests := by cases dup <;> rfl
  refine ⟨?_, fun r' hr' d => ?_, fun r' => ?_, hreq ▸ h.requests⟩
  · have hc := h.counts
    by_cases hr : q = r
    · subst hr
      rw [hweight, hweight] at hc
      rw [todo_advance_self]
      change g (w.post dup s p o).dup + _ + _ = g (w.post dup s p o).app + _
      rw [hdup, happ]
      cases dup <;> simp at hc ⊢ <;> omega
    · -- Another rank posts nothing that counts.
      have hzero : f s p = 0 := by
        have := hweight dup
        rw [h.elsewhere r (Ne.symm hr) dup, if_pos rfl] at this
        omega
      rw [htodo' q hr]
      change g (w.post dup s p o).dup + _ + _ = g (w.post dup s p o).app + _
      rw [hdup, happ, hzero]
      simpa using hc
  · by_cases hr : r' = r
    · subst hr
      have := hweight d
      rw [h.elsewhere r' hr' d] at this
      rw [todo_advance_self]
      omega
    · rw [htodo' r' hr]
      exact h.elsewhere r' hr' d
  · by_cases hr : r' = r
    · subst hr
      rw [todo_advance_self]
      exact fun b hb => h.quiet r' b (htodo ▸ List.mem_cons_of_mem _ hb)
    · rw [htodo' r' hr]
      exact h.quiet r'

variable [DecidableEq C] [DecidableEq G] in
theorem exec (M : Measure q f g) (h : w.Counts q f g k) (r : R) : (w.exec r).Counts q f g k := by
  have hexec := exec_spec w r
  generalize w.exec r = w' at hexec ⊢
  cases hexec with
  | idle => exact h
  | post htodo => exact h.post M htodo
  | await htodo _ => exact h.advance htodo fun _ => rfl
  | recvStatus htodo _ => exact absurd rfl ((h.quiet r _ (htodo ▸ List.mem_cons_self)).2 _)
  | merge htodo _ =>
    obtain ⟨hc, he, hq, hr⟩ := h.advance htodo fun _ => rfl
    exact ⟨hc, he, hq, hr⟩
  | fault htodo => exact absurd rfl (h.quiet r _ (htodo ▸ List.mem_cons_self)).1

omit [DecidableEq R] in
theorem waiting_completion (h : w.Counts q f g k) (ignore : Bool) (hs : List (OpName R)) :
    Waiting (w.completion ignore hs) := by
  refine waiting_wait fun a ha => ?_
  simp only [completion, List.mem_append, List.mem_flatMap] at ha
  rcases ha with ⟨⟨d, o⟩, -, ha⟩ | ⟨⟨d, o⟩, hd, ha⟩
  · by_cases hr : d.recv.isSome = true
    · simp only [RequestData.wait, hr, if_true, List.mem_singleton] at ha
      exact .inl ⟨_, _, ha⟩
    · simp [RequestData.wait, hr] at ha
  · obtain ⟨n, -, hn, -⟩ := mem_active.mp hd
    have hstatus := (h.requests n d hn).status
    obtain hcb | ⟨cb, hcb⟩ := Option.eq_none_or_eq_some d.completionCallback
    · simp [RequestData.complete, hcb] at ha
    · cases cb with
      | completePBWC => exact absurd hcb hstatus
      | completePBHB | completePersPBHB =>
        simp only [RequestData.complete, hcb, List.mem_cons, List.not_mem_nil, or_false] at ha
        rcases ha with rfl | rfl
        · exact .inl ⟨_, _, rfl⟩
        · exact .inr ⟨_, rfl⟩
      | completePBnoHB | completePersPBnoHB => simp [RequestData.complete, hcb] at ha

variable [DecidableEq C] [DecidableEq G] in
theorem call (M : Measure q f g) (h : w.Counts q f g k) {c : MpiCall R C G}
    (hallowed : w.Allowed (.call r c)) (hc : c.wildcard = false) : (w.call r c).Counts q f g k := by
  obtain ⟨htodo, -, harg⟩ := hallowed
  have hnone : ∀ ch : Channel R C G, (none : Option (Channel R C G)) = some ch → ch.source = r :=
    fun _ h => (nomatch h)
  have hnull : ∀ p : Pattern R C G, (none : Option (Pattern R C G)) = some p → p.dest = r :=
    fun _ h => (nomatch h)
  have hsend : ∀ {comm : C} {dest : Option R} {tag : G} (ch : Channel R C G),
      sendTo r comm dest tag = some ch → ch.source = r := fun _ => sendTo_source
  cases c with
  | send comm dest tag => exact h.issue htodo (M.level covers_postPB hsend hnull waiting_nil)
  | recv comm src tag =>
    have hp : ∀ p, recvFrom r comm src tag = some p → p.dest = r ∧ p.wildcard = false :=
      fun _ => recvFrom_specific hc
    exact h.issue htodo (M.level (covers_mpiRecvPB fun p he => (hp p he).2) hnone
      (fun p he => (hp p he).1) (mpiRecvPBEnd_waiting fun p he => (hp p he).2))
  | sendrecv comm dest sendtag src recvtag =>
    exact h.issue htodo
      (M.level covers_postPB hsend (fun _ => recvFrom_dest) mpiSendrecvPBEnd_waiting)
  | isend comm dest tag =>
    exact (h.issue htodo (M.level covers_postPB hsend hnull waiting_nil)).register (.mpiIsendPB hsend)
  | irecv comm src tag =>
    have hp : ∀ p, recvFrom r comm src tag = some p → p.dest = r ∧ p.wildcard = false :=
      fun _ => recvFrom_specific hc
    exact (h.issue htodo (M.level (covers_mpiRecvPB fun p he => (hp p he).2) hnone
      (fun p he => (hp p he).1) waiting_nil)).register (.mpiIrecvPB hp)
  | isendrecv comm dest sendtag src recvtag =>
    exact (h.issue htodo
      (M.level covers_postPB hsend (fun _ => recvFrom_dest) waiting_nil)).register
      (.mpiIsendrecvPB hsend fun _ => recvFrom_specific hc)
  | sendInit comm dest tag =>
    exact (h.issue htodo waiting_nil.level).register (.mpiSendInitPB hsend)
  | recvInit comm src tag =>
    exact (h.issue htodo waiting_nil.level).register (.mpiRecvInitPB fun _ => recvFrom_specific hc)
  | start n =>
    obtain ⟨rfl, hany⟩ := harg
    simp only [World.call]
    cases hd : w.requests n with
    | none => exact h
    | some d =>
      have hplain := h.requests n d hd
      have hpers : d.persistent = true := by
        rw [hd, Option.any_some, Bool.and_eq_true_iff] at hany
        exact hany.1
      refine Counts.register (h.issue htodo
        (M.level (hplain.covers_start hpers) hplain.send hplain.recv waiting_nil)) ?_
      exact ⟨hplain.setCurrent _, hplain.specific, hplain.status⟩
  | complete hs ignore => exact (h.issue htodo (h.waiting_completion ignore hs).level).release hs

variable [DecidableEq C] [DecidableEq G] in
theorem bareSendrecv (M : Measure q f g) (h : w.Counts q f g k) (htodo : w.todo r = [])
    {s : Option (Channel R C G)} {p : Option (Pattern R C G)}
    (hs : ∀ ch, s = some ch → ch.source = r) (hp : ∀ pat, p = some pat → pat.dest = r) :
    (w.bareSendrecv r s p).Counts q f g (f s p + k) := by
  have hwaiting : Waiting (if p.isSome then [Act.await (R := R) (C := C) (G := G) false (r, w.next r)]
      else []) := by
    refine waiting_wait fun a ha => .inl ?_
    split at ha
    · exact ⟨_, _, List.mem_singleton.mp ha⟩
    · cases ha
  have hzero : ∀ dup, tally f dup (if p.isSome then
      [Act.await (R := R) (C := C) (G := G) false (r, w.next r)] else []) = 0 :=
    fun dup => tally_eq_zero fun a ha => (hwaiting a ha).1
  refine h.issueGap htodo ?_ (fun hr => ⟨M.elsewhere r s p hr hs hp, fun dup => ?_⟩) fun a ha => ?_
  · rw [tally_cons, tally_cons, hzero, hzero]
    simp [Act.weight]
  · rw [tally_cons, hzero, Act.weight, M.elsewhere r s p hr hs hp]
    simp
  · rcases List.mem_cons.mp ha with rfl | ha
    · exact quiet_post
    · exact (hwaiting a ha).2

end Counts

theorem Counts.stepIn (M : Measure q f g) (isrr : Bool) (h : w.Counts q f g k)
    {l : MpiLabel R C G} (hg : w.Allowed l) (hl : l.wildcard = false) :
    (w.stepIn isrr l).Counts q f g ((if isrr then 0 else l.combined f) + k) := by
  cases l with
  | call r c =>
    have hcall := h.call M hg hl
    cases isrr with
    | true =>
      rw [if_pos rfl, Nat.zero_add]
      exact hcall
    | false =>
      cases c with
      | sendrecv comm dest sendtag src recvtag =>
        exact h.bareSendrecv M hg.1 (fun _ => sendTo_source) fun _ => recvFrom_dest
      | _ =>
        simp only [Bool.false_eq_true, if_false, MpiLabel.combined, Nat.zero_add]
        exact hcall
  | exec r =>
    simp only [MpiLabel.combined, ite_self, Nat.zero_add]
    exact h.exec M r
  | deliver dup ch =>
    simp only [MpiLabel.combined, ite_self, Nat.zero_add]
    obtain ⟨hc, he, hq, hr⟩ := h
    cases dup
    · exact ⟨by simpa [World.stepIn, World.step, M.deliver] using hc, he, hq, hr⟩
    · exact ⟨by simpa [World.stepIn, World.step, M.deliver] using hc, he, hq, hr⟩

end World

theorem counts_run (M : Measure q f g) (isrr : Bool) {ops : List (MpiLabel R C G)}
    (h : w.Counts q f g k) (hv : (buildMachine isrr R C G).Valid w ops)
    (hops : ∀ l ∈ ops, l.wildcard = false) :
    ((buildMachine isrr R C G).run w ops).Counts q f g
      ((if isrr then 0 else combined f ops) + k) := by
  induction ops generalizing w k with
  | nil =>
    rw [combined, List.map_nil, List.sum_nil, ite_self, Nat.zero_add]
    exact h
  | cons l ops ih =>
    obtain ⟨hg, hv⟩ := hv
    have hstep := h.stepIn M isrr hg.1 (hops l List.mem_cons_self)
    have hrun := ih hstep hv fun l' hl' => hops l' (List.mem_cons_of_mem l hl')
    have hsum : (if isrr then 0 else combined f (l :: ops)) + k =
        (if isrr then 0 else combined f ops) + ((if isrr then 0 else l.combined f) + k) := by
      cases isrr
      · simp only [combined, List.map_cons, List.sum_cons, Bool.false_eq_true, if_false]
        omega
      · simp
    rw [hsum]
    exact hrun

def Posted (w : World R C G) : Prop := ∀ r, ∀ a ∈ w.todo r, a.isPost = false

/-- The piggybacks of a run, up to those of calls that have none. -/
theorem piggybacks_eq (M : Measure q f g) (isrr : Bool) {ops : List (MpiLabel R C G)}
    (hv : (buildMachine isrr R C G).Valid {} ops) (hops : ∀ l ∈ ops, l.wildcard = false)
    (hposted : Posted ((buildMachine isrr R C G).run {} ops)) :
    g ((buildMachine isrr R C G).run {} ops).dup + (if isrr then 0 else combined f ops) =
      g ((buildMachine isrr R C G).run {} ops).app := by
  have hstart : ({} : World R C G).Counts q f g 0 :=
    ⟨rfl, fun _ _ _ => rfl, fun _ _ ha => absurd ha List.not_mem_nil, fun _ _ hd => (nomatch hd)⟩
  have hc := (counts_run M isrr hstart hv hops).counts
  rw [tally_eq_zero (hposted q), tally_eq_zero (hposted q)] at hc
  exact hc

end

/-- On the channel there are as many sends as receives. -/
def BalancedOn (ch : Channel R C G) (N : MpiNet R C G) : Prop :=
  (N.sendsOn ch).length = (N.recvsOn Pattern.accepts ch).length

instance (ch : Channel R C G) (N : MpiNet R C G) : Decidable (BalancedOn ch N) :=
  inferInstanceAs (Decidable (_ = _))

/-- Piggybacks balance on a channel where the messages do, exactly if as many messages were sent
there by combined calls as received by them, or those calls have piggybacks. -/
theorem piggybacks_balance_iff (isrr : Bool) (ops : List (MpiLabel R C G))
    (hv : (buildMachine isrr R C G).Valid {} ops) (hops : ∀ l ∈ ops, l.wildcard = false)
    (hposted : Posted ((buildMachine isrr R C G).run {} ops)) (ch : Channel R C G)
    (happ : BalancedOn ch ((buildMachine isrr R C G).run {} ops).app) :
    BalancedOn ch ((buildMachine isrr R C G).run {} ops).dup ↔
      isrr = true ∨ combined (sendsTo ch) ops = combined (recvsFrom ch) ops := by
  have hsends := piggybacks_eq (measure_sends ch) isrr hv hops hposted
  have hrecvs := piggybacks_eq (measure_recvs ch) isrr hv hops hposted
  unfold BalancedOn at happ ⊢
  cases isrr with
  | true =>
    simp only [if_true, Nat.add_zero, true_or, iff_true] at hsends hrecvs ⊢
    omega
  | false =>
    simp only [Bool.false_eq_true, if_false, false_or] at hsends hrecvs ⊢
    omega

end

instance {C G : Type} (w : World Bool C G) : Decidable (Posted w) :=
  inferInstanceAs (Decidable (∀ r : Bool, ∀ a ∈ w.todo r, a.isPost = false))

def exchangeBoth : List (MpiLabel Bool Unit Unit) :=
  [.call false (.sendrecv () (some true) () (.rank true) (some ())), .exec false,
    .call true (.sendrecv () (some false) () (.rank false) (some ())), .exec true,
    .deliver false ⟨(), false, true, ()⟩, .deliver false ⟨(), true, false, ()⟩, .exec false,
    .exec true, .call false (.isend () (some true) ()), .exec false, .exec false,
    .call true (.recv () (.rank false) (some ())), .exec true, .exec true]

theorem piggybacks_balance_iff_exchangeBoth :
    BalancedOn ⟨(), false, true, ()⟩ ((buildMachine false Bool Unit Unit).run {} exchangeBoth).dup :=
  (piggybacks_balance_iff false exchangeBoth (by decide +kernel) (by decide +kernel)
    (by decide +kernel) ⟨(), false, true, ()⟩ (by decide +kernel)).mpr (.inr (by decide +kernel))

/-- One side uses `MPI_Sendrecv`, the other one `MPI_Send` and `MPI_Recv`. -/
def exchangeMixed : List (MpiLabel Bool Unit Unit) :=
  [.call false (.sendrecv () (some true) () (.rank true) (some ())), .exec false,
    .call true (.send () (some false) ()), .exec true, .exec true,
    .call true (.recv () (.rank false) (some ())), .exec true, .exec true,
    .deliver false ⟨(), false, true, ()⟩, .deliver false ⟨(), true, false, ()⟩, .exec true]

/-- The messages are received, and `MPI_Recv` waits for a piggyback that is not sent. -/
theorem exchangeMixed_unbalanced :
    (buildMachine false Bool Unit Unit).Valid {} exchangeMixed ∧
      (∀ l ∈ exchangeMixed, l.wildcard = false) ∧
      Posted ((buildMachine false Bool Unit Unit).run {} exchangeMixed) ∧
      BalancedOn ⟨(), false, true, ()⟩
        ((buildMachine false Bool Unit Unit).run {} exchangeMixed).app ∧
      ¬ BalancedOn ⟨(), false, true, ()⟩
        ((buildMachine false Bool Unit Unit).run {} exchangeMixed).dup ∧
      ((buildMachine false Bool Unit Unit).run {} exchangeMixed).todo true =
        [.await true (true, 1), .merge (true, 1)] := by
  decide +kernel

end CritPath
