import CritPath.Lib.Shadow
import CritPath.Mpi.Names

/-!
# The piggybacks follow the messages

The piggyback side is the shadow of the application's side. Between the piggyback
and the operation of a call the operation is "hot": its shadow is posted. The
piggybacks stay in step as long as every step is `Orderly`: a specific receive
posts its piggyback when no wildcard receive that could take its messages is open
and every receive that has taken one has its piggyback, wildcard receives on
one channel are completed in the order of their messages, and no persistent one
is completed while it is inactive.
-/

namespace CritPath

open Lib

section
variable {R C G : Type} [DecidableEq R] [DecidableEq C] [DecidableEq G]

/-- The send that comes next; its piggyback is posted. -/
def hotSend (l : List (Act R C G)) (ch : Channel R C G) : List (OpName R) :=
  match l with
  | .post false (some c) _ o :: _ => if c = ch then [o] else []
  | _ => []

/-- The receive that comes next, if its piggyback is posted. -/
def hotRecv (l : List (Act R C G)) (ch : Channel R C G) : List (OpName R) :=
  match l with
  | .post false _ (some p) o :: _ => if p.wildcard then [] else if p.accepts ch then [o] else []
  | _ => []

structure Lockstep (w : World R C G) : Prop where
  shadow : ∀ ch : Channel R C G, Net.Shadow Pattern.accepts Pattern.wildcard w.app w.dup
    (hotSend (w.todo ch.source) ch) (hotRecv (w.todo ch.dest) ch) ch
  merged : ∀ q ∈ w.merged, (q.2, q.1) ∈ w.app.pairs
  faulted : ∀ r, w.faulted r = false

/-- The piggyback receive for channel `ch` keeps its place: no wildcard receive may take a message
of `ch` before it, and those that have taken one have their piggyback. -/
def Orderly.Specific (w : World R C G) (ch : Channel R C G) : Prop :=
  (∀ q ∈ w.app.recvs, q.1.wildcard = true → q.1.accepts ch = true → w.app.filled q.2 = true) ∧
    ∀ q ∈ w.app.pairs, q.1 ∈ w.app.sendsOn ch → q.2 ∈ w.dup.recvsOn Pattern.accepts ch

/-- The messages of `ch` before `μ` were taken by receives that have their piggyback. -/
def Orderly.Completed (w : World R C G) (ch : Channel R C G) (μ : OpName R) : Prop :=
  ∀ q ∈ w.app.pairs, q.1 ∈ (w.app.sendsOn ch).takeWhile (· ≠ μ) →
    q.2 ∈ w.dup.recvsOn Pattern.accepts ch

/-- The condition on what a rank does next. -/
def Orderly.Next (w : World R C G) : List (Act R C G) → Prop
  | .post true _ (some p) _ :: _ => ∀ ch ∈ p.channel, Orderly.Specific w ch
  | .recvStatus o :: _ => ∀ ch ∈ statusOf w.app o, ∀ μ ∈ messageOf w.app o, Orderly.Completed w ch μ
  | .fault :: _ => False
  | _ => True

/-- Of the requests that a call completes, those with `completePBWC` stand for an operation. -/
def Orderly.Active (w : World R C G) (hs : List (OpName R)) : Prop :=
  ∀ h ∈ hs, ∀ d ∈ w.requests h, d.completionCallback = some .completePBWC → d.current.isSome = true

def Orderly (w : World R C G) : MpiLabel R C G → Prop
  | .exec r => Orderly.Next w (w.todo r)
  | .call _ (.complete hs _) => Orderly.Active w hs
  | _ => True

instance (w : World R C G) (ch : Channel R C G) : Decidable (Orderly.Specific w ch) :=
  inferInstanceAs (Decidable (_ ∧ _))

instance (w : World R C G) (ch : Channel R C G) (μ : OpName R) :
    Decidable (Orderly.Completed w ch μ) :=
  inferInstanceAs (Decidable (∀ q ∈ w.app.pairs, _))

instance (w : World R C G) : ∀ l, Decidable (Orderly.Next w l)
  | .post true _ (some p) _ :: _ => inferInstanceAs (Decidable (∀ ch ∈ p.channel, _))
  | .recvStatus o :: _ => inferInstanceAs (Decidable (∀ ch ∈ statusOf w.app o, _))
  | .fault :: _ => .isFalse id
  | [] | .post true _ none _ :: _ | .post false _ _ _ :: _ | .await _ _ :: _ | .merge _ :: _ =>
    .isTrue trivial

instance (w : World R C G) (hs : List (OpName R)) : Decidable (Orderly.Active w hs) :=
  inferInstanceAs (Decidable (∀ h ∈ hs, ∀ d ∈ w.requests h, _))

instance (w : World R C G) : ∀ a, Decidable (Orderly w a)
  | .exec r => inferInstanceAs (Decidable (Orderly.Next w (w.todo r)))
  | .call _ (.complete hs _) => inferInstanceAs (Decidable (Orderly.Active w hs))
  | .call _ (.send _ _ _) | .call _ (.recv _ _ _) | .call _ (.sendrecv _ _ _ _ _)
  | .call _ (.isend _ _ _) | .call _ (.irecv _ _ _) | .call _ (.isendrecv _ _ _ _ _)
  | .call _ (.sendInit _ _ _) | .call _ (.recvInit _ _ _) | .call _ (.start _)
  | .deliver _ _ => .isTrue trivial

/-! ## What is hot -/

def Cold (l : List (Act R C G)) : Prop := ∀ ch, hotSend l ch = [] ∧ hotRecv l ch = []

theorem cold_nil : Cold ([] : List (Act R C G)) := fun _ => ⟨rfl, rfl⟩

theorem cold_cons {a : Act R C G} (ha : a.isPost = false) (l : List (Act R C G)) :
    Cold (a :: l) := by
  intro ch
  cases a with
  | post => cases ha
  | _ => exact ⟨rfl, rfl⟩

theorem cold_of_calm {l : List (Act R C G)} (h : ∀ a ∈ l, a.isPost = false) : Cold l := by
  cases l with
  | nil => exact cold_nil
  | cons a l => exact cold_cons (h a List.mem_cons_self) l

theorem Opening.cold {r : R} {o : OpName R} {acts : List (Act R C G)} (h : Opening r o acts) :
    Cold acts := by
  intro ch
  cases h with
  | init => exact ⟨rfl, rfl⟩
  | null => exact ⟨rfl, rfl⟩
  | paired hs hp hrest => exact ⟨rfl, rfl⟩
  | wild hq hrest => exact ⟨rfl, by simp [hotRecv, hq.2]⟩

theorem mem_names_of_hot {l : List (Act R C G)} {ch : Channel R C G} {o : OpName R}
    (h : o ∈ hotRecv l ch) : (false, o) ∈ names l := by
  unfold hotRecv at h
  split at h
  · next s p o' rest =>
    have ho : o = o' := by
      split at h
      · cases h
      · split at h
        · exact List.mem_singleton.mp h
        · cases h
    rw [names_cons_some rfl, ho]
    exact List.mem_cons_self
  · cases h

theorem dest_of_accepts {q : Pattern R C G} {ch : Channel R C G} (h : q.accepts ch = true) :
    ch.dest = q.dest := by
  simp_all [Pattern.accepts]

section
variable {w : World R C G} {r : R} {s : Option (Channel R C G)} {p : Option (Pattern R C G)}
  {o : OpName R} {rest acts : List (Act R C G)}

theorem hot_advance (hold : Cold (w.todo r)) (hnew : Cold acts) (r' : R) (ch : Channel R C G) :
    hotSend ((w.advance r acts).todo r') ch = hotSend (w.todo r') ch ∧
      hotRecv ((w.advance r acts).todo r') ch = hotRecv (w.todo r') ch := by
  rcases eq_or_ne r' r with rfl | hne
  · rw [World.todo_advance_self]
    exact ⟨(hnew ch).1.trans (hold ch).1.symm, (hnew ch).2.trans (hold ch).2.symm⟩
  · rw [World.todo_advance_of_ne hne]
    exact ⟨rfl, rfl⟩

theorem hotSend_piggyback (hs : ∀ ch, s = some ch → ch.source = r)
    (htodo : w.todo r = .post true s p o :: .post false s p o :: rest) (ch : Channel R C G) :
    hotSend ((w.advance r (.post false s p o :: rest)).todo ch.source) ch =
      if s = some ch then [o] else hotSend (w.todo ch.source) ch := by
  rcases eq_or_ne ch.source r with hr | hne
  · simp only [hr, World.todo_advance_self, htodo]
    cases s with
    | none => rfl
    | some c => simp only [hotSend, Option.some.injEq]
  · have hs' : s ≠ some ch := fun heq => hne (hs ch heq)
    simp only [World.todo_advance_of_ne hne, if_neg hs']

theorem not_accepts_of_ne {ch : Channel R C G} (hp : ∀ q, p = some q → q.dest = r)
    (hne : ch.dest ≠ r) : p.any (·.accepts ch) = false := by
  cases p with
  | none => rfl
  | some q =>
    by_contra hacc
    exact hne ((dest_of_accepts (by simpa using hacc)).trans (hp q rfl))

theorem hotRecv_piggyback (hp : ∀ q, p = some q → q.dest = r ∧ q.wildcard = false)
    (htodo : w.todo r = .post true s p o :: .post false s p o :: rest) (ch : Channel R C G) :
    hotRecv ((w.advance r (.post false s p o :: rest)).todo ch.dest) ch =
      if p.any (·.accepts ch) then [o] else hotRecv (w.todo ch.dest) ch := by
  rcases eq_or_ne ch.dest r with hr | hne
  · simp only [hr, World.todo_advance_self, htodo]
    cases p with
    | none => rfl
    | some q => simp [hotRecv, (hp q rfl).2]
  · have hp' := not_accepts_of_ne (fun q hq => (hp q hq).1) hne
    simp only [World.todo_advance_of_ne hne, hp', Bool.false_eq_true, if_false]

theorem hotSend_operation (hs : ∀ ch, s = some ch → ch.source = r)
    (htodo : w.todo r = .post false s p o :: rest) (hrest : Cold rest) (ch : Channel R C G) :
    hotSend ((w.advance r rest).todo ch.source) ch =
      if s = some ch then [] else hotSend (w.todo ch.source) ch := by
  rcases eq_or_ne ch.source r with hr | hne
  · simp only [hr, World.todo_advance_self, htodo, (hrest ch).1]
    cases s with
    | none => rfl
    | some c => by_cases hc : c = ch <;> simp [hotSend, hc]
  · have hs' : s ≠ some ch := fun heq => hne (hs ch heq)
    simp only [World.todo_advance_of_ne hne, if_neg hs']

theorem hotRecv_operation (hp : ∀ q, p = some q → q.dest = r ∧ q.wildcard = false)
    (htodo : w.todo r = .post false s p o :: rest) (hrest : Cold rest) (ch : Channel R C G) :
    hotRecv ((w.advance r rest).todo ch.dest) ch =
      if p.any (·.accepts ch) then [] else hotRecv (w.todo ch.dest) ch := by
  rcases eq_or_ne ch.dest r with hr | hne
  · simp only [hr, World.todo_advance_self, htodo, (hrest ch).2]
    cases p with
    | none => rfl
    | some q => by_cases hacc : q.accepts ch = true <;> simp [hotRecv, (hp q rfl).2, hacc]
  · have hp' := not_accepts_of_ne (fun q hq => (hp q hq).1) hne
    simp only [World.todo_advance_of_ne hne, hp', Bool.false_eq_true, if_false]

end

/-! ## Posting on the two sides -/

section
variable {A D : MpiNet R C G} {hs hr : List (OpName R)} {ch : Channel R C G}
  {s : Option (Channel R C G)} {p : Option (Pattern R C G)} {o : OpName R}

theorem shadow_postOn_dup (h : Net.Shadow Pattern.accepts Pattern.wildcard A D hs hr ch)
    (hA : A.Ok Pattern.accepts) (ho : ¬ Knows A o) (hhs : s = some ch → hs = [])
    (hhr : p.any (·.accepts ch) = true → hr = [])
    (hopen : p.any (·.accepts ch) = true → ∀ ρ ∈ A.recvsOn Pattern.accepts ch,
      A.Wild Pattern.wildcard ρ → A.filled ρ = true)
    (hmet : p.any (·.accepts ch) = true → ∀ μ ∈ A.sendsOn ch, ∀ ρ, (μ, ρ) ∈ A.pairs →
      ρ ∈ D.recvsOn Pattern.accepts ch) :
    Net.Shadow Pattern.accepts Pattern.wildcard A (postOn s p o D)
      (if s = some ch then [o] else hs) (if p.any (·.accepts ch) then [o] else hr) ch := by
  have hsend : ∀ c, s = some c → Net.Shadow Pattern.accepts Pattern.wildcard A (D.send c o)
      (if s = some ch then [o] else hs) hr ch := by
    rintro c rfl
    simpa only [Option.some.injEq] using h.sendShadow fun hc => hhs (congrArg some hc)
  cases p with
  | none =>
    cases s with
    | none => exact h
    | some c => exact hsend c rfl
  | some q =>
    cases s with
    | none => exact h.recvShadow hA (not_or.mp ho).2 hhr hopen hmet
    | some c => exact (hsend c rfl).recvShadow hA (not_or.mp ho).2 hhr hopen hmet

theorem shadow_postOn_app (h : Net.Shadow Pattern.accepts Pattern.wildcard A D hs hr ch)
    (hA : A.Ok Pattern.accepts) (ho : ¬ Knows A o) (hp : ∀ q, p = some q → q.wildcard = false)
    (hhs : s = some ch → hs = [o]) (hhr : p.any (·.accepts ch) = true → hr = [o])
    (hother : p.any (·.accepts ch) = false → o ∉ hr) :
    Net.Shadow Pattern.accepts Pattern.wildcard (postOn s p o A) D
      (if s = some ch then [] else hs) (if p.any (·.accepts ch) then [] else hr) ch := by
  obtain ⟨hsends, hrecvs⟩ := not_or.mp ho
  have hsend : ∀ c, s = some c → Net.Shadow Pattern.accepts Pattern.wildcard (A.send c o) D
      (if s = some ch then [] else hs) hr ch := by
    rintro c rfl
    simpa only [Option.some.injEq] using h.send hA hsends fun hc => hhs (congrArg some hc)
  cases p with
  | none =>
    cases s with
    | none => exact h
    | some c => exact hsend c rfl
  | some q =>
    cases s with
    | none => exact h.recv hA hrecvs (hp q rfl) hhr hother
    | some c => exact (hsend c rfl).recv (hA.send hsends) hrecvs (hp q rfl) hhr hother

end

/-! ## Steps -/

theorem statusOf_spec {N : MpiNet R C G} {o : OpName R} {ch : Channel R C G}
    (h : statusOf N o = some ch) : ∃ μ, messageOf N o = some μ ∧ μ ∈ N.sendsOn ch := by
  obtain ⟨μ, hμ, hsend⟩ := Option.bind_eq_some_iff.mp h
  obtain ⟨⟨c, μ'⟩, hfind, rfl⟩ := Option.map_eq_some_iff.mp hsend
  obtain rfl : μ' = μ := by simpa using List.find?_some hfind
  exact ⟨μ', hμ, Net.mem_sendsOn.mpr (List.mem_of_find?_eq_some hfind)⟩

theorem mem_takeWhile_ne {l k : List (OpName R)} (hl : l.Nodup) {i j : ℕ} {x y : OpName R}
    (hx : l[i]? = some x) (hy : l[j]? = some y) (hji : j < i) :
    y ∈ (l ++ k).takeWhile (· ≠ x) := by
  have hi : i < l.length := (List.getElem?_eq_some_iff.mp hx).1
  have hbefore : ∀ z ∈ l.take i, decide (z ≠ x) = true := by
    intro z hz
    obtain ⟨m, hm⟩ := List.mem_iff_getElem?.mp hz
    rw [List.getElem?_take] at hm
    split at hm
    · rw [decide_eq_true_iff]
      rintro rfl
      have := (List.getElem?_inj (by omega) hl).mp (hm.trans hx.symm)
      omega
    · cases hm
  rw [← List.take_append_drop i l, List.append_assoc, List.takeWhile_append_of_pos hbefore]
  refine List.mem_append_left _ (List.mem_of_getElem? (i := j) ?_)
  rw [List.getElem?_take, if_pos hji]
  exact hy

theorem accepts_unique {q : Pattern R C G} (hq : q.wildcard = false) (ch ch' : Channel R C G)
    (h : q.accepts ch = true) (h' : q.accepts ch' = true) : ch = ch' := by
  rw [accepts_iff hq] at h h'
  exact Option.some.inj (h.symm.trans h')

namespace Lockstep

variable {w w' : World R C G} {r : R} {s : Option (Channel R C G)} {p : Option (Pattern R C G)}
  {o : OpName R} {rest acts : List (Act R C G)}

theorem start : Lockstep ({} : World R C G) :=
  ⟨fun _ => .empty, by simp, fun _ => rfl⟩

theorem advance (h : Lockstep w) (hold : Cold (w.todo r)) (hnew : Cold acts) :
    Lockstep (w.advance r acts) where
  shadow ch := by
    rw [(hot_advance hold hnew ch.source ch).1, (hot_advance hold hnew ch.dest ch).2]
    exact h.shadow ch
  merged := h.merged
  faulted := h.faulted

theorem call (h : Lockstep w) (htodo : w.todo r = []) (hcalls : w.Calls r w') : Lockstep w' := by
  have hold : Cold (w.todo r) := htodo ▸ cold_nil
  cases hcalls with
  | opens ha => exact { h.advance hold ha.cold with }
  | registers ha hh hd hcur hwc => exact { h.advance hold ha.cold with }
  | completes hnodup hown =>
    exact { h.advance hold (cold_of_calm fun a ha => World.isPost_completion ha) with }

theorem deliver (h : Lockstep w) (hN : Named w) (dup : Bool) (c : Channel R C G) :
    Lockstep (w.step (.deliver dup c)) := by
  cases dup with
  | false => exact ⟨fun ch => (h.shadow ch).deliver hN.app (fun q => accepts_unique) c,
      fun q hq => Net.mem_pairs_deliver (h.merged q hq), h.faulted⟩
  | true => exact ⟨fun ch => (h.shadow ch).deliverShadow c, h.merged, h.faulted⟩

theorem piggyback (h : Lockstep w) (hN : Named w) (hs : ∀ ch, s = some ch → ch.source = r)
    (hp : ∀ q, p = some q → q.dest = r ∧ q.wildcard = false)
    (htodo : w.todo r = .post true s p o :: .post false s p o :: rest)
    (hord : ∀ q, p = some q → ∀ ch ∈ q.channel, Orderly.Specific w ch) :
    Lockstep ((w.post true s p o).advance r (.post false s p o :: rest)) := by
  have hnew : ¬ Knows w.app o := by
    have hmem : (false, o) ∈ names (w.todo r) :=
      mem_names_of_post (htodo ▸ List.mem_cons_of_mem _ List.mem_cons_self)
    exact (hN.fresh r _ hmem).2.2
  refine ⟨fun ch => ?_, h.merged, h.faulted⟩
  have hspecific : p.any (·.accepts ch) = true → Orderly.Specific w ch := by
    intro hacc
    obtain ⟨q, rfl⟩ : ∃ q, p = some q := by
      cases p with
      | none => cases hacc
      | some q => exact ⟨q, rfl⟩
    exact hord q rfl ch ((accepts_iff (hp q rfl).2).mp hacc)
  have hshadow := shadow_postOn_dup (s := s) (p := p) (h.shadow ch) hN.app hnew (fun hsc => ?_)
    (fun hacc => ?_) (fun hacc ρ hρ hw => ?_) fun hacc μ hμ ρ hpair => (hspecific hacc).2 _ hpair hμ
  · rw [← hotSend_piggyback hs htodo ch, ← hotRecv_piggyback hp htodo ch] at hshadow
    exact hshadow
  · rw [hs ch hsc, htodo]
    rfl
  · cases p with
    | none => cases hacc
    | some q =>
      rw [(dest_of_accepts hacc).trans (hp q rfl).1, htodo]
      rfl
  · obtain ⟨q, hq, hqw⟩ := hw
    obtain ⟨q', hq', hacc'⟩ := Net.mem_recvsOn.mp hρ
    obtain rfl := hN.app.pattern_eq hq hq'
    exact (hspecific hacc).1 _ hq hqw hacc'

theorem operation (h : Lockstep w) (hN : Named w) (hs : ∀ ch, s = some ch → ch.source = r)
    (hp : ∀ q, p = some q → q.dest = r ∧ q.wildcard = false)
    (htodo : w.todo r = .post false s p o :: rest) (hrest : ∀ a ∈ rest, a.isPost = false) :
    Lockstep ((w.post false s p o).advance r rest) := by
  have hmem : (false, o) ∈ names (w.todo r) := mem_names_of_post (htodo ▸ List.mem_cons_self)
  obtain ⟨hrank, -, hnew⟩ := hN.fresh r _ hmem
  refine ⟨fun ch => ?_, fun q hq => ?_, h.faulted⟩
  · have hshadow := shadow_postOn_app (s := s) (p := p) (h.shadow ch) hN.app hnew
      (fun q hq => (hp q hq).2) (fun hsc => ?_) (fun hacc => ?_) fun hacc hhot => ?_
    · rw [← hotSend_operation hs htodo (cold_of_calm hrest) ch,
        ← hotRecv_operation hp htodo (cold_of_calm hrest) ch] at hshadow
      exact hshadow
    · rw [hs ch hsc, htodo, hsc]
      simp [hotSend]
    · cases p with
      | none => cases hacc
      | some q =>
        rw [(dest_of_accepts hacc).trans (hp q rfl).1, htodo]
        simp only [Option.any_some] at hacc
        simp [hotRecv, (hp q rfl).2, hacc]
    · rcases eq_or_ne ch.dest r with hr | hne
      · rw [hr, htodo] at hhot
        cases p with
        | none => cases hhot
        | some q =>
          simp only [Option.any_some] at hacc
          simp [hotRecv, (hp q rfl).2, hacc] at hhot
      · exact hne ((hN.fresh _ _ (mem_names_of_hot hhot)).1.symm.trans hrank)
  · show _ ∈ (postOn s p o w.app).pairs
    rw [pairs_postOn]
    exact h.merged q hq

theorem wildcard (h : Lockstep w) (hN : Named w) {q : Pattern R C G}
    (hq : q.dest = r ∧ q.wildcard = true) (htodo : w.todo r = .post false none (some q) o :: rest)
    (hrest : ∀ a ∈ rest, a.isPost = false) :
    Lockstep ((w.post false none (some q) o).advance r rest) := by
  have hmem : (false, o) ∈ names (w.todo r) := mem_names_of_post (htodo ▸ List.mem_cons_self)
  obtain ⟨hrank, -, hnew⟩ := hN.fresh r _ hmem
  have hcold : Cold (w.todo r) := by
    rw [htodo]
    exact (Opening.wild (o := o) hq (.inl rfl)).cold
  refine ⟨fun ch => ?_, h.merged, h.faulted⟩
  have hdup : o ∉ w.dup.recvsOn Pattern.accepts ch := by
    intro hρ
    obtain ⟨q', hq', -⟩ := Net.mem_recvsOn.mp hρ
    exact hN.unposted r q o rest htodo hq.2 (.inr (List.mem_map_of_mem hq'))
  have hshadow := (h.shadow ch).recvWild hN.app (not_or.mp hnew).2 hdup hq.2 (fun hacc => ?_)
    fun hhot => ?_
  · rw [← (hot_advance hcold (cold_of_calm hrest) ch.source ch).1,
      ← (hot_advance hcold (cold_of_calm hrest) ch.dest ch).2] at hshadow
    exact hshadow
  · rw [(dest_of_accepts hacc).trans hq.1]
    exact (hcold ch).2
  · rcases eq_or_ne ch.dest r with hr | hne
    · rw [hr, (hcold ch).2] at hhot
      cases hhot
    · exact hne ((hN.fresh _ _ (mem_names_of_hot hhot)).1.symm.trans hrank)

theorem recvStatus (h : Lockstep w) (hN : Named w) {c : Channel R C G}
    (htodo : w.todo r = .recvStatus o :: rest) (hrest : ∀ a ∈ rest, a.isPost = false)
    (hstatus : statusOf w.app o = some c)
    (hord : ∀ μ ∈ messageOf w.app o, Orderly.Completed w c μ) :
    Lockstep ((w.post true none (some c.pattern) o).advance r rest) := by
  have hcold : Cold (w.todo r) := htodo ▸ cold_cons rfl rest
  have hmem : (true, o) ∈ names (w.todo r) := by
    rw [htodo, names_cons_some rfl]
    exact List.mem_cons_self
  obtain ⟨μ, hμ, hsend⟩ := statusOf_spec hstatus
  have hpair := messageOf_mem hμ
  refine ⟨fun ch => ?_, h.merged, h.faulted⟩
  have hshadow : Net.Shadow Pattern.accepts Pattern.wildcard w.app (w.dup.recv c.pattern o)
      (hotSend (w.todo ch.source) ch) (hotRecv (w.todo ch.dest) ch) ch := by
    by_cases hc : c = ch
    · subst hc
      obtain ⟨i, hi⟩ := List.mem_iff_getElem?.mp
        (Net.mem_takenOn.mpr ⟨hsend, Net.taken_iff.mpr ⟨o, hpair⟩⟩)
      refine (h.shadow c).recvLate hN.app (fun hρ => ?_) hi hpair (fun j hj μ' ρ hμ' hpair' => ?_)
        (accepts_pattern.mpr rfl)
      · obtain ⟨q', hq', -⟩ := Net.mem_recvsOn.mp hρ
        exact (hN.fresh r _ hmem).2.2 (.inr (List.mem_map_of_mem hq'))
      · refine hord μ hμ _ hpair' ?_
        rw [hN.app.first c]
        exact mem_takeWhile_ne ((hN.app.nodup_sendsOn c).filter _) hi hμ' hj
    · have hacc : c.pattern.accepts ch = false := by
        by_contra hacc
        exact hc (accepts_pattern.mp (by simpa using hacc))
      exact (h.shadow ch).recvElsewhere hacc
  rw [← (hot_advance hcold (cold_of_calm hrest) ch.source ch).1,
    ← (hot_advance hcold (cold_of_calm hrest) ch.dest ch).2] at hshadow
  exact hshadow

/-- A receive whose call merges has taken the message of the piggyback. -/
theorem merge (h : Lockstep w) (hN : Named w) {μ : OpName R} (htodo : w.todo r = .merge o :: rest)
    (hmsg : messageOf w.dup o = some μ) : (μ, o) ∈ w.app.pairs := by
  have hfilled : w.app.filled o = true := by
    rcases hN.awaits r [] o rest htodo with hmem | hfilled
    · cases hmem
    · exact hfilled
  exact Net.pair_of_shadow h.shadow hN.app hN.dup (messageOf_mem hmsg) hfilled

theorem exec (h : Lockstep w) (hN : Named w) (hord : Orderly.Next w (w.todo r))
    (hexec : w.Exec r w') : Lockstep w' := by
  cases hexec with
  | idle => exact h
  | post htodo =>
    cases htodo ▸ hN.todo r with
    | calm hl => exact absurd (hl _ List.mem_cons_self) (by simp [Act.isPost])
    | paired hs hp hrest =>
      refine h.piggyback hN hs hp htodo fun q hq => ?_
      subst hq
      rw [htodo] at hord
      exact hord
    | single hs hp hrest => exact h.operation hN hs hp htodo hrest
    | wild hq hrest => exact h.wildcard hN hq htodo hrest
  | await htodo hfilled =>
    have hcalm := (htodo ▸ hN.todo r : Todo r _).calm_tail rfl
    exact h.advance (htodo ▸ cold_cons rfl _) (cold_of_calm hcalm)
  | recvStatus htodo hstatus =>
    have hcalm := (htodo ▸ hN.todo r : Todo r _).calm_tail rfl
    rw [htodo] at hord
    exact h.recvStatus hN htodo hcalm hstatus (hord _ hstatus)
  | merge htodo hmsg =>
    have hcalm := (htodo ▸ hN.todo r : Todo r _).calm_tail rfl
    have hadvance := h.advance (htodo ▸ cold_cons rfl _) (cold_of_calm hcalm)
    refine { hadvance with merged := fun q hq => ?_ }
    rcases List.mem_cons.mp hq with rfl | hq
    · exact h.merge hN htodo hmsg
    · exact h.merged q hq
  | fault htodo =>
    rw [htodo] at hord
    exact hord.elim

end Lockstep

/-- No combined call receives with a wildcard. -/
def MpiLabel.Plain : MpiLabel R C G → Prop
  | .call _ c => c.combined = true → c.wildcard = false
  | _ => True

instance : ∀ a : MpiLabel R C G, Decidable a.Plain
  | .call _ _ => inferInstanceAs (Decidable (_ → _))
  | .exec _ | .deliver _ _ => .isTrue trivial

theorem Named.step {w : World R C G} (h : Named w) {a : MpiLabel R C G}
    (ha : (mpiMachine R C G).guard w a) (hplain : a.Plain) :
    Named ((mpiMachine R C G).step w a) := by
  cases a with
  | call r c => exact h.call (World.call_spec h.requests ha hplain)
  | exec r => exact h.exec (World.exec_spec w r)
  | deliver dup ch => exact h.deliver dup ch

theorem Lockstep.step {w : World R C G} (h : Lockstep w) (hN : Named w) {a : MpiLabel R C G}
    (ha : (mpiMachine R C G).guard w a) (hplain : a.Plain) (hord : Orderly w a) :
    Lockstep ((mpiMachine R C G).step w a) := by
  cases a with
  | call r c => exact h.call ha.1 (World.call_spec hN.requests ha hplain)
  | exec r => exact h.exec hN hord (World.exec_spec w r)
  | deliver dup ch => exact h.deliver hN dup ch

end

end CritPath
