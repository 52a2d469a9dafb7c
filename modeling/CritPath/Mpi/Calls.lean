import CritPath.Mpi.Piggyback

/-!
# The calls of a rank, act by act

What is left of a call at any time (`Todo`) and how calls of every kind start
(`Opening`): the piggyback is posted right before its operation, a wildcard
receive posts none, and merges come after the application's receive has
completed. `Exec` and `Calls` say once what a step of a rank can do.
-/

namespace CritPath

open Lib

section
variable {R C G : Type}

def Act.posts : Act R C G → Option (Bool × OpName R)
  | .post dup _ _ o => some (dup, o)
  | .recvStatus o => some (true, o)
  | _ => none

def Act.isPost : Act R C G → Bool
  | .post _ _ _ _ => true
  | _ => false

/-- What is left of a call of rank `r`: nothing to post, the piggyback and then the operation, the
operation, or a wildcard receive. -/
inductive Todo (r : R) : List (Act R C G) → Prop where
  | calm {l} (hl : ∀ a ∈ l, a.isPost = false) : Todo r l
  | paired {s p o rest} (hs : ∀ ch, s = some ch → ch.source = r)
      (hp : ∀ q, p = some q → q.dest = r ∧ q.wildcard = false)
      (hrest : ∀ a ∈ rest, a.isPost = false) :
      Todo r (.post true s p o :: .post false s p o :: rest)
  | single {s p o rest} (hs : ∀ ch, s = some ch → ch.source = r)
      (hp : ∀ q, p = some q → q.dest = r ∧ q.wildcard = false)
      (hrest : ∀ a ∈ rest, a.isPost = false) : Todo r (.post false s p o :: rest)
  | wild {q o rest} (hq : q.dest = r ∧ q.wildcard = true) (hrest : ∀ a ∈ rest, a.isPost = false) :
      Todo r (.post false none (some q) o :: rest)

theorem Todo.tail {r : R} {a : Act R C G} {rest : List (Act R C G)} (h : Todo r (a :: rest)) :
    Todo r rest := by
  cases h with
  | calm hl => exact .calm fun b hb => hl b (List.mem_cons_of_mem a hb)
  | paired hs hp hrest => exact .single hs hp hrest
  | single hs hp hrest => exact .calm hrest
  | wild hq hrest => exact .calm hrest

theorem Todo.calm_tail {r : R} {a : Act R C G} {rest : List (Act R C G)} (h : Todo r (a :: rest))
    (ha : a.isPost = false) : ∀ b ∈ rest, b.isPost = false := by
  cases h with
  | calm hl => exact fun b hb => hl b (List.mem_cons_of_mem a hb)
  | paired hs hp hrest => cases ha
  | single hs hp hrest => cases ha
  | wild hq hrest => cases ha

theorem Todo.specific_tail {r : R} {a : Act R C G} {rest : List (Act R C G)}
    (h : Todo r (a :: rest)) {q : Pattern R C G} {o : OpName R} {l : List (Act R C G)}
    (hrest : rest = .post false none (some q) o :: l) : q.wildcard = false := by
  have hpost : Act.isPost (.post false none (some q) o : Act R C G) ≠ false := by simp [Act.isPost]
  subst hrest
  cases h with
  | calm hl => exact absurd (hl _ (List.mem_cons_of_mem _ List.mem_cons_self)) hpost
  | paired hs hp hrest => exact (hp q rfl).2
  | single hs hp hrest => exact absurd (hrest _ List.mem_cons_self) hpost
  | wild hq hrest => exact absurd (hrest _ List.mem_cons_self) hpost

def names (l : List (Act R C G)) : List (Bool × OpName R) := l.filterMap Act.posts

theorem names_append (l k : List (Act R C G)) : names (l ++ k) = names l ++ names k :=
  List.filterMap_append

theorem names_cons_some {a : Act R C G} {q : Bool × OpName R} (ha : a.posts = some q)
    (l : List (Act R C G)) : names (a :: l) = q :: names l :=
  List.filterMap_cons_some ha

theorem mem_names_of_post {l : List (Act R C G)} {dup : Bool} {s : Option (Channel R C G)}
    {p : Option (Pattern R C G)} {o : OpName R} (h : .post dup s p o ∈ l) : (dup, o) ∈ names l :=
  List.mem_filterMap.mpr ⟨_, h, rfl⟩

theorem names_sublist_cons (a : Act R C G) (l : List (Act R C G)) :
    (names l).Sublist (names (a :: l)) :=
  (List.sublist_cons_self a l).filterMap _

/-- Every merge stands after the wait for the application's receive, or that one has completed. -/
def Awaits [DecidableEq R] (N : MpiNet R C G) (l : List (Act R C G)) : Prop :=
  ∀ l₁ o l₂, l = l₁ ++ .merge o :: l₂ → .await false o ∈ l₁ ∨ N.filled o = true

namespace Awaits

variable [DecidableEq R] {N N' : MpiNet R C G} {a : Act R C G} {l k : List (Act R C G)}

theorem mono (h : Awaits N l) (hN : ∀ o, N.filled o = true → N'.filled o = true) : Awaits N' l :=
  fun l₁ o l₂ heq => (h l₁ o l₂ heq).imp id (hN o)

theorem tail (h : Awaits N (a :: l)) (ha : ∀ o, a = .await false o → N.filled o = true) :
    Awaits N l := by
  rintro l₁ o l₂ rfl
  rcases h (a :: l₁) o l₂ rfl with hmem | hfilled
  · rcases List.mem_cons.mp hmem with heq | hmem
    · exact .inr (ha o heq.symm)
    · exact .inl hmem
  · exact .inr hfilled

theorem of_not_mem (h : ∀ o, .merge o ∉ l) : Awaits N l := by
  rintro l₁ o l₂ rfl
  exact absurd (by simp) (h o)

theorem of_append (hl : ∀ o, .merge o ∉ l) (hk : ∀ o, .merge o ∈ k → .await false o ∈ l) :
    Awaits N (l ++ k) := by
  intro l₁ o l₂ heq
  refine .inl ?_
  rcases List.append_eq_append_iff.mp heq with ⟨as, rfl, hkeq⟩ | ⟨bs, rfl, hbs⟩
  · exact List.mem_append_left _ (hk o (by simp [hkeq]))
  · cases bs with
    | nil =>
      have := hk o (by rw [List.nil_append] at hbs; simp [← hbs])
      simpa using this
    | cons b bs =>
      obtain ⟨rfl, -⟩ := List.cons.inj hbs
      exact absurd (by simp) (hl o)

end Awaits

/-- What the wrappers put into a request of rank `r`. -/
structure RequestData.Ok (r : R) (d : RequestData R C G) : Prop where
  send : ∀ ch, d.send = some ch → ch.source = r
  recv : ∀ p, d.recv = some p → p.dest = r
  started : d.startCallback.isSome = true → ∀ p, d.recv = some p → p.wildcard = false
  silent : d.startCallback = none → d.persistent = true →
    d.send = none ∧ ∀ p, d.recv = some p → p.wildcard = true
  merges : d.recv.isSome = true ↔ d.completionCallback = some .completePBWC ∨
    d.completionCallback = some .completePBHB ∨ d.completionCallback = some .completePersPBHB
  late : d.completionCallback = some .completePBWC → d.startCallback = none

theorem sendTo_source {r : R} {comm : C} {dest : Option R} {tag : G} {ch : Channel R C G}
    (h : sendTo r comm dest tag = some ch) : ch.source = r := by
  obtain ⟨d, -, rfl⟩ := Option.map_eq_some_iff.mp h
  rfl

theorem recvFrom_dest {r : R} {comm : C} {src : Source R} {tag : Option G} {p : Pattern R C G}
    (h : recvFrom r comm src tag = some p) : p.dest = r := by
  cases src with
  | procNull => cases h
  | any => cases h; rfl
  | rank s => cases h; rfl

namespace RequestData.Ok

variable {r : R} {o : OpName R} {send : Option (Channel R C G)} {recv : Option (Pattern R C G)}

theorem mpiIsendPB (hs : ∀ ch, send = some ch → ch.source = r) : (mpiIsendPB o send).Ok r where
  send := hs
  recv _ h := by cases h
  started h := by cases h
  silent _ h := by cases h
  merges := by cases send <;> simp [CritPath.mpiIsendPB]
  late _ := rfl

theorem mpiIrecvPB (hp : ∀ p, recv = some p → p.dest = r) : (mpiIrecvPB o recv).Ok r where
  send _ h := by cases h
  recv := hp
  started h := by cases h
  silent _ h := by cases h
  merges := by
    cases recv with
    | none => simp [CritPath.mpiIrecvPB]
    | some p => cases hw : p.wildcard <;> simp [CritPath.mpiIrecvPB, hw]
  late _ := rfl

theorem mpiIsendrecvPB (hs : ∀ ch, send = some ch → ch.source = r)
    (hp : ∀ p, recv = some p → p.dest = r) : (mpiIsendrecvPB o send recv).Ok r where
  send := hs
  recv := hp
  started h := by cases h
  silent _ h := by cases h
  merges := by cases recv <;> simp [CritPath.mpiIsendrecvPB]
  late _ := rfl

theorem mpiSendInitPB (hs : ∀ ch, send = some ch → ch.source = r) : (mpiSendInitPB send).Ok r where
  send := hs
  recv _ h := by cases h
  started _ _ h := by cases h
  silent h _ := by cases send <;> simp [CritPath.mpiSendInitPB] at h ⊢
  merges := by cases send <;> simp [CritPath.mpiSendInitPB]
  late h := by cases send <;> simp [CritPath.mpiSendInitPB] at h

theorem mpiRecvInitPB (hp : ∀ p, recv = some p → p.dest = r) : (mpiRecvInitPB recv).Ok r where
  send _ h := by cases h
  recv := hp
  started h p hr := by
    obtain rfl : recv = some p := hr
    by_contra hw
    simp [CritPath.mpiRecvInitPB, hw] at h
  silent h _ := by
    refine ⟨rfl, fun p hr => ?_⟩
    obtain rfl : recv = some p := hr
    by_contra hw
    simp [CritPath.mpiRecvInitPB, hw] at h
  merges := by
    cases recv with
    | none => simp [CritPath.mpiRecvInitPB]
    | some p => cases hw : p.wildcard <;> simp [CritPath.mpiRecvInitPB, hw]
  late h := by
    cases recv with
    | none => rfl
    | some p =>
      by_cases hw : p.wildcard = true
      · simp [CritPath.mpiRecvInitPB, hw]
      · simp [CritPath.mpiRecvInitPB, hw] at h

theorem setCurrent {d : RequestData R C G} (h : d.Ok r) (c : Option (OpName R)) :
    ({ d with current := c } : RequestData R C G).Ok r :=
  ⟨h.send, h.recv, h.started, h.silent, h.merges, h.late⟩

end RequestData.Ok

/-! ## What a call starts with -/

/-- The acts of a call that posts operation `o`: the piggyback and the operation, an operation with
`MPI_PROC_NULL` only, or a wildcard receive; blocking receives also wait and merge. -/
inductive Opening (r : R) (o : OpName R) : List (Act R C G) → Prop where
  | init : Opening r o []
  | null : Opening r o [.post false none none o]
  | paired {s p rest} (hs : ∀ ch, s = some ch → ch.source = r)
      (hp : ∀ q, p = some q → q.dest = r ∧ q.wildcard = false)
      (hrest : rest = [] ∨ rest = [.await false o, .await true o, .merge o]) :
      Opening r o (.post true s p o :: .post false s p o :: rest)
  | wild {q rest} (hq : q.dest = r ∧ q.wildcard = true)
      (hrest : rest = [] ∨ rest = [.await false o, .recvStatus o, .await true o, .merge o]) :
      Opening r o (.post false none (some q) o :: rest)

namespace Opening

variable {r : R} {o : OpName R} {s : Option (Channel R C G)} {p : Option (Pattern R C G)}
  {acts : List (Act R C G)}

theorem posts (hs : ∀ ch, s = some ch → ch.source = r)
    (hp : ∀ q, p = some q → q.dest = r ∧ q.wildcard = false) :
    Opening r o (postPB o s p ++ [.post false s p o]) := by
  cases s with
  | some ch => exact .paired hs hp (.inl rfl)
  | none =>
    cases p with
    | some q => exact .paired hs hp (.inl rfl)
    | none => exact .null

theorem sendrecv (hs : ∀ ch, s = some ch → ch.source = r)
    (hp : ∀ q, p = some q → q.dest = r ∧ q.wildcard = false) :
    Opening r o (mpiSendrecvPB o s p ++ .post false s p o ::
      ((if p.isSome then [.await false o] else []) ++ mpiSendrecvPBEnd o p)) := by
  cases p with
  | some q =>
    cases s with
    | some ch => exact .paired hs hp (.inr rfl)
    | none => exact .paired hs hp (.inr rfl)
  | none => exact posts hs hp

theorem irecv (hp : ∀ q, p = some q → q.dest = r) :
    Opening r o (mpiRecvPB o p ++ [.post false none p o]) := by
  cases p with
  | none => exact .null
  | some q =>
    by_cases hw : q.wildcard = true
    · simp only [mpiRecvPB, hw, if_true, List.nil_append]
      exact .wild ⟨hp q rfl, hw⟩ (.inl rfl)
    · simp only [mpiRecvPB, hw, Bool.false_eq_true, if_false, List.singleton_append]
      refine .paired (fun ch h => by cases h) (fun q' hq => ?_) (.inl rfl)
      obtain rfl : q = q' := Option.some.inj hq
      exact ⟨hp q rfl, by simpa using hw⟩

theorem recv (hp : ∀ q, p = some q → q.dest = r) :
    Opening r o (mpiRecvPB o p ++ .post false none p o ::
      ((if p.isSome then [.await false o] else []) ++ mpiRecvPBEnd o p)) := by
  cases p with
  | none => exact .null
  | some q =>
    by_cases hw : q.wildcard = true
    · simp only [mpiRecvPB, mpiRecvPBEnd, hw, if_true, List.nil_append]
      exact .wild ⟨hp q rfl, hw⟩ (.inr rfl)
    · simp only [mpiRecvPB, mpiRecvPBEnd, hw, Bool.false_eq_true, if_false, List.singleton_append]
      refine .paired (fun ch h => by cases h) (fun q' hq => ?_) (.inr rfl)
      obtain rfl : q = q' := Option.some.inj hq
      exact ⟨hp q rfl, by simpa using hw⟩

theorem start {d : RequestData R C G} (hd : d.Ok r) (hpers : d.persistent = true) :
    Opening r o (d.start o ++ [.post false d.send d.recv o]) := by
  cases hstart : d.startCallback with
  | some cb =>
    have hacts : d.start o = [.post true d.send d.recv o] := by
      cases cb <;> simp [RequestData.start, hstart]
    rw [hacts]
    exact .paired hd.send (fun q hq => ⟨hd.recv q hq, hd.started (by simp [hstart]) q hq⟩) (.inl rfl)
  | none =>
    obtain ⟨hsend, hrecv⟩ := hd.silent hstart hpers
    have hacts : d.start o = [] := by simp [RequestData.start, hstart]
    rw [hacts, hsend, List.nil_append]
    cases hq : d.recv with
    | none => exact .null
    | some q => exact .wild ⟨hd.recv q hq, hrecv q hq⟩ (.inl rfl)

theorem todo (h : Opening r o acts) : Todo r acts := by
  cases h with
  | init => exact .calm (by simp)
  | null => exact .single (by simp) (by simp) (by simp)
  | paired hs hp hrest => exact .paired hs hp (by rcases hrest with rfl | rfl <;> simp [Act.isPost])
  | wild hq hrest => exact .wild hq (by rcases hrest with rfl | rfl <;> simp [Act.isPost])

theorem names_cases (h : Opening r o acts) : names acts = [] ∨ names acts = [(false, o)] ∨
    names acts = [(true, o), (false, o)] ∨ names acts = [(false, o), (true, o)] := by
  cases h with
  | init => exact .inl rfl
  | null => exact .inr (.inl rfl)
  | paired hs hp hrest =>
    rcases hrest with rfl | rfl
    · exact .inr (.inr (.inl rfl))
    · exact .inr (.inr (.inl rfl))
  | wild hq hrest =>
    rcases hrest with rfl | rfl
    · exact .inr (.inl rfl)
    · exact .inr (.inr (.inr rfl))

theorem names_nodup (h : Opening r o acts) : (names acts).Nodup := by
  rcases h.names_cases with he | he | he | he
  · exact he ▸ .nil
  · exact he ▸ List.nodup_singleton _
  · simp [he]
  · simp [he]

theorem eq_of_mem_names (h : Opening r o acts) {q : Bool × OpName R} (hq : q ∈ names acts) :
    q.2 = o := by
  rcases h.names_cases with he | he | he | he
  · rw [he] at hq
    cases hq
  · rw [he] at hq
    rw [List.mem_singleton.mp hq]
  · rw [he] at hq
    rcases List.mem_pair.mp hq with rfl | rfl <;> rfl
  · rw [he] at hq
    rcases List.mem_pair.mp hq with rfl | rfl <;> rfl

theorem awaits [DecidableEq R] (h : Opening r o acts) (N : MpiNet R C G) : Awaits N acts := by
  cases h with
  | init => exact .of_not_mem (by simp)
  | null => exact .of_not_mem (by simp)
  | paired hs hp hrest =>
    rcases hrest with rfl | rfl
    · exact .of_not_mem (by simp)
    · exact Awaits.of_append (l := [_, _, _]) (k := [.await true o, .merge o]) (by simp) (by simp)
  | wild hq hrest =>
    rcases hrest with rfl | rfl
    · exact .of_not_mem (by simp)
    · exact Awaits.of_append (l := [_, _]) (k := [.recvStatus o, .await true o, .merge o]) (by simp)
        (by simp)

end Opening

theorem recvFrom_specific {r : R} {comm : C} {src : Source R} {tag : Option G} {q : Pattern R C G}
    (hw : (src matches .any || tag.isNone) = false) (h : recvFrom r comm src tag = some q) :
    q.dest = r ∧ q.wildcard = false := by
  refine ⟨recvFrom_dest h, ?_⟩
  obtain ⟨hany, htag⟩ := Bool.or_eq_false_iff.mp hw
  cases src with
  | procNull => cases h
  | any => cases hany
  | rank s =>
    cases h
    simpa [Pattern.wildcard] using htag

theorem not_mem_names_irecv {o : OpName R} {p : Option (Pattern R C G)}
    (h : (mpiIrecvPB o p).completionCallback = some .completePBWC) :
    (true, o) ∉ names (mpiRecvPB o p ++ [.post false none p o]) := by
  cases p with
  | none => cases h
  | some q =>
    by_cases hw : q.wildcard = true
    · simp [mpiRecvPB, hw, names, Act.posts]
    · simp [mpiIrecvPB, hw] at h

/-! ## What a completion does -/

namespace World

variable {w : World R C G} {hs : List (OpName R)} {ignore : Bool}

/-- What `MPI_Wait`, `MPI_Test` and their variants do for the requests `hs`. -/
def completion (w : World R C G) (ignore : Bool) (hs : List (OpName R)) : List (Act R C G) :=
  (w.active hs).flatMap (fun d => d.1.wait d.2) ++
    (w.active hs).flatMap fun d => d.1.complete ignore d.2

theorem mem_active {d : RequestData R C G} {o : OpName R} :
    (d, o) ∈ w.active hs ↔ ∃ h ∈ hs, w.requests h = some d ∧ d.current = some o := by
  simp only [active, List.mem_filterMap, Option.bind_eq_some_iff, Option.map_eq_some_iff,
    Prod.mk.injEq]
  constructor
  · rintro ⟨h, hh, d', hd, o', ho, rfl, rfl⟩
    exact ⟨h, hh, hd, ho⟩
  · rintro ⟨h, hh, hd, ho⟩
    exact ⟨h, hh, d, hd, o, ho, rfl, rfl⟩

theorem isPost_completion {a : Act R C G} (ha : a ∈ w.completion ignore hs) : a.isPost = false := by
  simp only [completion, List.mem_append, List.mem_flatMap] at ha
  rcases ha with ⟨⟨d, o⟩, -, ha⟩ | ⟨⟨d, o⟩, -, ha⟩
  · by_cases hr : d.recv.isSome = true
    · simp only [RequestData.wait, hr, if_true, List.mem_singleton] at ha
      simp [ha, Act.isPost]
    · simp [RequestData.wait, hr] at ha
  · obtain hcb | ⟨cb, hcb⟩ := Option.eq_none_or_eq_some d.completionCallback
    · simp [RequestData.complete, hcb] at ha
    · cases cb <;> cases ignore <;> simp [RequestData.complete, hcb] at ha <;> grind [Act.isPost]

theorem names_completion : names (w.completion ignore hs) =
    ((w.active hs).filter fun d => d.1.completionCallback = some .completePBWC && !ignore).map
      fun d => (true, d.2) := by
  have hwait : ∀ ds : List (RequestData R C G × OpName R),
      names (ds.flatMap fun d => d.1.wait d.2) = [] := by
    intro ds
    induction ds with
    | nil => rfl
    | cons d ds ih =>
      rw [List.flatMap_cons, names_append, ih, List.append_nil]
      by_cases hr : d.1.recv.isSome = true <;> simp [RequestData.wait, hr, names, Act.posts]
  rw [completion, names_append, hwait, List.nil_append]
  induction w.active hs with
  | nil => rfl
  | cons d ds ih =>
    rw [List.flatMap_cons, names_append, ih]
    obtain hcb | ⟨cb, hcb⟩ := Option.eq_none_or_eq_some d.1.completionCallback
    · simp [RequestData.complete, hcb, names]
    · cases cb <;> cases ignore <;>
        simp [RequestData.complete, hcb, names, Act.posts, List.filterMap_cons]

theorem merge_completion {o : OpName R} (hreq : ∀ h d, w.requests h = some d → d.Ok h.1)
    (ho : .merge o ∈ (w.active hs).flatMap fun d => d.1.complete ignore d.2) :
    .await false o ∈ (w.active hs).flatMap fun d => d.1.wait d.2 := by
  obtain ⟨⟨d, o'⟩, hmem, ho⟩ := List.mem_flatMap.mp ho
  obtain ⟨h, -, hd, -⟩ := mem_active.mp hmem
  obtain hcb | ⟨cb, hcb⟩ := Option.eq_none_or_eq_some d.completionCallback
  · simp [RequestData.complete, hcb] at ho
  · have hmerge : o = o' ∧ d.recv.isSome = true := by
      cases cb <;> cases ignore <;>
        simp [RequestData.complete, hcb] at ho <;>
        exact ⟨ho, (hreq h d hd).merges.mpr (by simp [hcb])⟩
    obtain ⟨rfl, hrecv⟩ := hmerge
    exact List.mem_flatMap.mpr ⟨(d, o), hmem, by simp [RequestData.wait, hrecv]⟩

end World

end

/-! ## What a step does -/

section
variable {R C G : Type} [DecidableEq R] {w : World R C G} {r : R}

namespace World

@[simp] theorem todo_advance_self {rest : List (Act R C G)} : (w.advance r rest).todo r = rest :=
  Function.update_self ..

theorem todo_advance_of_ne {r' : R} (hne : r' ≠ r) {rest : List (Act R C G)} :
    (w.advance r rest).todo r' = w.todo r' :=
  Function.update_of_ne hne ..

inductive Exec (w : World R C G) (r : R) : World R C G → Prop where
  | idle : Exec w r w
  | post {dup s p o rest} (htodo : w.todo r = .post dup s p o :: rest) :
      Exec w r ((w.post dup s p o).advance r rest)
  | await {dup o rest} (htodo : w.todo r = .await dup o :: rest)
      (hfilled : (w.net dup).filled o = true) : Exec w r (w.advance r rest)
  | recvStatus {o rest ch} (htodo : w.todo r = .recvStatus o :: rest)
      (hstatus : statusOf w.app o = some ch) :
      Exec w r ((w.post true none (some ch.pattern) o).advance r rest)
  | merge {o rest μ} (htodo : w.todo r = .merge o :: rest) (hmsg : messageOf w.dup o = some μ) :
      Exec w r ({ w with merged := (o, μ) :: w.merged }.advance r rest)
  | fault {rest} (htodo : w.todo r = .fault :: rest) :
      Exec w r ({ w with faulted := Function.update w.faulted r true }.advance r [])

theorem exec_spec (w : World R C G) (r : R) : Exec w r (w.exec r) := by
  unfold exec
  cases htodo : w.todo r with
  | nil => exact .idle
  | cons a rest =>
    cases a with
    | post dup s p o => exact .post htodo
    | await dup o =>
      by_cases hfilled : (w.net dup).filled o = true
      · simp only [hfilled, if_true]
        exact .await htodo hfilled
      · simp only [hfilled, Bool.false_eq_true, if_false]
        exact .idle
    | recvStatus o =>
      cases hstatus : statusOf w.app o with
      | some ch => simpa only [hstatus] using Exec.recvStatus htodo hstatus
      | none => simpa only [hstatus] using Exec.idle
    | merge o =>
      cases hmsg : messageOf w.dup o with
      | some μ => simpa only [hmsg] using Exec.merge htodo hmsg
      | none => simpa only [hmsg] using Exec.idle
    | fault => exact .fault htodo

inductive Calls (w : World R C G) (r : R) : World R C G → Prop where
  | opens {acts} (ha : Opening r (r, w.next r) acts) : Calls w r (w.issue r acts)
  | registers {acts h d} (ha : Opening r (r, w.next r) acts) (hh : h.1 = r) (hd : d.Ok r)
      (hcur : ∀ o, d.current = some o → o = (r, w.next r))
      (hwc : d.completionCallback = some .completePBWC → (true, (r, w.next r)) ∉ names acts) :
      Calls w r ((w.issue r acts).register h d)
  | completes {hs ignore} (hnodup : hs.Nodup) (hown : ∀ h ∈ hs, h.1 = r) :
      Calls w r ((w.release hs).issue r (w.completion ignore hs))

end World

theorem World.call_spec [DecidableEq C] [DecidableEq G] {c : MpiCall R C G}
    (hreq : ∀ h d, w.requests h = some d → d.Ok h.1) (hallowed : w.Allowed (.call r c))
    (hc : c.combined = true → c.wildcard = false) : w.Calls r (w.call r c) := by
  obtain ⟨-, -, harg⟩ := hallowed
  cases c with
  | send comm dest tag => exact .opens (.posts (fun ch => sendTo_source) (by simp))
  | recv comm src tag => exact .opens (.recv fun q => recvFrom_dest)
  | sendrecv comm dest sendtag src recvtag =>
    exact .opens (.sendrecv (fun ch => sendTo_source) fun q => recvFrom_specific (hc rfl))
  | isend comm dest tag =>
    refine .registers (.posts (fun ch => sendTo_source) (by simp)) rfl
      (.mpiIsendPB fun ch => sendTo_source) (fun o ho => (Option.some.inj ho).symm) fun h => ?_
    cases hd : sendTo r comm dest tag <;> simp [mpiIsendPB, hd] at h
  | irecv comm src tag =>
    exact .registers (.irecv fun q => recvFrom_dest) rfl (.mpiIrecvPB fun q => recvFrom_dest)
      (fun o ho => (Option.some.inj ho).symm) not_mem_names_irecv
  | isendrecv comm dest sendtag src recvtag =>
    refine .registers (.posts (fun ch => sendTo_source) fun q => recvFrom_specific (hc rfl)) rfl
      (.mpiIsendrecvPB (fun ch => sendTo_source) fun q => recvFrom_dest)
      (fun o ho => (Option.some.inj ho).symm) fun h => ?_
    cases hp : recvFrom r comm src recvtag <;> simp [mpiIsendrecvPB, hp] at h
  | sendInit comm dest tag =>
    exact .registers .init rfl (.mpiSendInitPB fun ch => sendTo_source) (fun o ho => by cases ho)
      (fun _ => List.not_mem_nil)
  | recvInit comm src tag =>
    exact .registers .init rfl (.mpiRecvInitPB fun q => recvFrom_dest) (fun o ho => by cases ho)
      (fun _ => List.not_mem_nil)
  | start h =>
    obtain ⟨hh, hany⟩ := harg
    obtain ⟨d, hd, hpers⟩ : ∃ d, w.requests h = some d ∧ d.persistent = true := by
      cases hd : w.requests h with
      | none => simp [hd] at hany
      | some d => exact ⟨d, rfl, by simp_all⟩
    have hok : d.Ok r := hh ▸ hreq h d hd
    simp only [World.call, hd]
    refine .registers (.start hok hpers) hh (hok.setCurrent _)
      (fun o ho => (Option.some.inj ho).symm) fun hwc => ?_
    have hstart : d.start (r, w.next r) = [] := by simp [RequestData.start, hok.late hwc]
    simp [hstart, names, Act.posts]
  | complete hs ignore =>
    obtain ⟨hnodup, hown, -⟩ := harg
    exact .completes hnodup hown

namespace World

variable {hs : List (OpName R)} {ignore : Bool}

theorem requests_release {h : OpName R} {d : RequestData R C G}
    (hd : (w.release hs).requests h = some d) :
    (h ∉ hs ∧ w.requests h = some d) ∨
      ∃ e, w.requests h = some e ∧ d = { e with current := none } := by
  simp only [release] at hd
  by_cases hh : h ∈ hs
  · rw [if_pos hh] at hd
    obtain ⟨e, he, hd⟩ := Option.bind_eq_some_iff.mp hd
    by_cases hpers : e.persistent = true
    · rw [if_pos hpers] at hd
      exact .inr ⟨e, he, (Option.some.inj hd).symm⟩
    · rw [if_neg hpers] at hd
      cases hd
  · rw [if_neg hh] at hd
    exact .inl ⟨hh, hd⟩

end World

end

end CritPath
