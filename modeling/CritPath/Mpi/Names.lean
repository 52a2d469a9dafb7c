import CritPath.Mpi.Calls

/-!
# Every operation is posted once

The bookkeeping of the ranks: names are not used twice on either side, a
wildcard receive that is not complete has no piggyback, and the piggyback side,
which has no wildcards, is first in, first out.
-/

namespace CritPath

open Lib

section
variable {R C G : Type}

/-- The net has an operation of this name. -/
def Knows (N : MpiNet R C G) (o : OpName R) : Prop :=
  o ∈ N.sends.map (·.2) ∨ o ∈ N.recvs.map (·.2)

theorem Knows.of_postOn {s : Option (Channel R C G)} {p : Option (Pattern R C G)} {o o' : OpName R}
    {N : MpiNet R C G} (h : Knows (postOn s p o N) o') : Knows N o' ∨ o' = o := by
  have hsend : ∀ ch, Knows (N.send ch o) o' → Knows N o' ∨ o' = o := by
    intro ch h
    simp only [Knows, Net.send, List.map_append, List.mem_append, List.map_cons, List.map_nil,
      List.mem_singleton] at h ⊢
    tauto
  have hrecv : ∀ (M : MpiNet R C G) q, Knows (M.recv q o) o' → Knows M o' ∨ o' = o := by
    intro M q h
    simp only [Knows, Net.recv, List.map_append, List.mem_append, List.map_cons, List.map_nil,
      List.mem_singleton] at h ⊢
    tauto
  cases s with
  | none =>
    cases p with
    | none => exact .inl h
    | some q => exact hrecv N q h
  | some ch =>
    cases p with
    | none => exact hsend ch h
    | some q => exact (hrecv _ q h).elim (hsend ch) .inr

section
variable {s : Option (Channel R C G)} {p : Option (Pattern R C G)} {o o' : OpName R}
  {N : MpiNet R C G} {w : World R C G} {dup d : Bool}

@[simp] theorem pairs_postOn : (postOn s p o N).pairs = N.pairs := by
  cases s <;> cases p <;> rfl

@[simp] theorem World.todo_post : (w.post dup s p o).todo = w.todo := by
  cases dup <;> rfl

@[simp] theorem World.next_post : (w.post dup s p o).next = w.next := by
  cases dup <;> rfl

@[simp] theorem World.requests_post : (w.post dup s p o).requests = w.requests := by
  cases dup <;> rfl

@[simp] theorem World.merged_post : (w.post dup s p o).merged = w.merged := by
  cases dup <;> rfl

@[simp] theorem World.app_pairs_post : (w.post dup s p o).app.pairs = w.app.pairs := by
  cases dup
  · exact pairs_postOn
  · rfl

@[simp] theorem World.dup_pairs_post : (w.post dup s p o).dup.pairs = w.dup.pairs := by
  cases dup
  · rfl
  · exact pairs_postOn

theorem knows_post (h : Knows ((w.post dup s p o).net d) o') :
    Knows (w.net d) o' ∨ (d, o') = (dup, o) := by
  cases dup <;> cases d
  · exact h.of_postOn.imp id (congrArg _)
  · exact .inl h
  · exact .inl h
  · exact h.of_postOn.imp id (congrArg _)

end

end

section
variable {R C G : Type} [DecidableEq R] {w : World R C G} {r : R}

theorem messageOf_mem {N : MpiNet R C G} {o μ : OpName R} (h : messageOf N o = some μ) :
    (μ, o) ∈ N.pairs := by
  obtain ⟨⟨μ', o'⟩, hfind, rfl⟩ := Option.map_eq_some_iff.mp h
  obtain rfl : o' = o := by simpa using List.find?_some hfind
  exact List.mem_of_find?_eq_some hfind

def Fresh (w : World R C G) (r : R) (q : Bool × OpName R) : Prop :=
  q.2.1 = r ∧ q.2.2 < w.next r ∧ ¬ Knows (w.net q.1) q.2

variable [DecidableEq C] [DecidableEq G]

structure Named (w : World R C G) : Prop where
  app : w.app.Ok Pattern.accepts
  dup : w.dup.Fifo Pattern.accepts
  serial : ∀ dup o, Knows (w.net dup) o → o.2 < w.next o.1
  todo : ∀ r, Todo r (w.todo r)
  nodup : ∀ r, (names (w.todo r)).Nodup
  fresh : ∀ r, ∀ q ∈ names (w.todo r), Fresh w r q
  /-- A wildcard receive that is not posted has no piggyback either. -/
  unposted : ∀ r q o rest, w.todo r = .post false none (some q) o :: rest → q.wildcard = true →
    ¬ Knows w.dup o
  awaits : ∀ r, Awaits w.app (w.todo r)
  requests : ∀ h d, w.requests h = some d → d.Ok h.1
  current : ∀ h d o, w.requests h = some d → d.current = some o → o.1 = h.1 ∧ o.2 < w.next h.1
  /-- The piggyback of a wildcard receive is posted by the completion. -/
  pending : ∀ h d o, w.requests h = some d → d.current = some o →
    d.completionCallback = some .completePBWC → ¬ Knows w.dup o ∧ (true, o) ∉ names (w.todo h.1)
  distinct : ∀ h h' d d' o, w.requests h = some d → w.requests h' = some d' →
    d.current = some o → d'.current = some o → h = h'
  merged : ∀ q ∈ w.merged, (q.2, q.1) ∈ w.dup.pairs

/-! ### Posting -/

theorem accepts_iff {p : Pattern R C G} (hp : p.wildcard = false) {ch : Channel R C G} :
    p.accepts ch = true ↔ p.channel = some ch := by
  obtain ⟨comm, dest, src, tag⟩ := p
  obtain ⟨comm', s, d, t⟩ := ch
  cases src <;> cases tag <;> simp_all [Pattern.wildcard, Pattern.accepts, Pattern.channel]
  tauto

theorem accepts_pattern {ch ch' : Channel R C G} :
    ch.pattern.accepts ch' = true ↔ ch = ch' := by
  rw [accepts_iff rfl]
  simp [Channel.pattern, Pattern.channel]

section
variable {s : Option (Channel R C G)} {p : Option (Pattern R C G)} {o o' : OpName R}
  {N : MpiNet R C G}

theorem ok_postOn (h : N.Ok Pattern.accepts) (ho : ¬ Knows N o) :
    (postOn s p o N).Ok Pattern.accepts := by
  obtain ⟨hsend, hrecv⟩ := not_or.mp ho
  cases s with
  | none =>
    cases p with
    | none => exact h
    | some q => exact h.recv hrecv
  | some ch =>
    cases p with
    | none => exact h.send hsend
    | some q => exact (h.send hsend).recv hrecv

theorem fifo_postOn (h : N.Fifo Pattern.accepts) (ho : ¬ Knows N o)
    (hp : ∀ q, p = some q → q.wildcard = false) : (postOn s p o N).Fifo Pattern.accepts := by
  obtain ⟨hsend, hrecv⟩ := not_or.mp ho
  have hunique : ∀ q, p = some q → ∀ ch ch', q.accepts ch = true → q.accepts ch' = true →
      ch = ch' := by
    intro q hq ch ch' h₁ h₂
    rw [accepts_iff (hp q hq)] at h₁ h₂
    exact Option.some.inj (h₁.symm.trans h₂)
  cases s with
  | none =>
    cases p with
    | none => exact h
    | some q => exact h.recv hrecv (hunique q rfl)
  | some ch =>
    cases p with
    | none => exact h.send hsend
    | some q => exact (h.send hsend).recv hrecv (hunique q rfl)

end

namespace Named

variable {s : Option (Channel R C G)} {p : Option (Pattern R C G)} {o : OpName R} {dup : Bool}

theorem start : Named ({} : World R C G) where
  app := .empty
  dup := .empty
  serial dup o h := by cases dup <;> simp [Knows, World.net] at h
  todo r := .calm (by simp)
  nodup r := .nil
  fresh r q h := by cases h
  unposted r q o rest h := by cases h
  awaits r := .of_not_mem (by simp)
  requests h d hd := by cases hd
  current h d o hd := by cases hd
  pending h d o hd := by cases hd
  distinct h h' d d' o hd := by cases hd
  merged q h := by cases h

theorem advance (h : Named w) {acts : List (Act R C G)} (htodo : Todo r acts)
    (hnodup : (names acts).Nodup) (hfresh : ∀ q ∈ names acts, Fresh w r q)
    (hunposted : ∀ q o rest, acts = .post false none (some q) o :: rest → q.wildcard = true →
      ¬ Knows w.dup o)
    (hawaits : Awaits w.app acts)
    (hpending : ∀ h d o, w.requests h = some d → d.current = some o →
      d.completionCallback = some .completePBWC → h.1 = r → (true, o) ∉ names acts) :
    Named (w.advance r acts) := by
  refine ⟨h.app, h.dup, h.serial, fun r' => ?_, fun r' => ?_, fun r' => ?_, fun r' => ?_,
    fun r' => ?_, h.requests, h.current, fun h' d o hd ho hwc => ⟨(h.pending h' d o hd ho hwc).1, ?_⟩,
    h.distinct, h.merged⟩
  · rcases eq_or_ne r' r with rfl | hne
    · rwa [World.todo_advance_self]
    · rw [World.todo_advance_of_ne hne]; exact h.todo r'
  · rcases eq_or_ne r' r with rfl | hne
    · rwa [World.todo_advance_self]
    · rw [World.todo_advance_of_ne hne]; exact h.nodup r'
  · rcases eq_or_ne r' r with rfl | hne
    · rw [World.todo_advance_self]; exact hfresh
    · rw [World.todo_advance_of_ne hne]; exact h.fresh r'
  · rcases eq_or_ne r' r with rfl | hne
    · rw [World.todo_advance_self]; exact hunposted
    · rw [World.todo_advance_of_ne hne]; exact h.unposted r'
  · rcases eq_or_ne r' r with rfl | hne
    · rwa [World.todo_advance_self]
    · rw [World.todo_advance_of_ne hne]; exact h.awaits r'
  · rcases eq_or_ne h'.1 r with heq | hne
    · rw [heq, World.todo_advance_self]; exact hpending h' d o hd ho hwc heq
    · rw [World.todo_advance_of_ne hne]; exact (h.pending h' d o hd ho hwc).2

theorem post (h : Named w) (ho : ¬ Knows (w.net dup) o) (hserial : o.2 < w.next o.1)
    (hnames : ∀ r, (dup, o) ∉ names (w.todo r))
    (hp : dup = true → ∀ q, p = some q → q.wildcard = false)
    (hunposted : dup = true → ∀ r q rest, w.todo r = .post false none (some q) o :: rest →
      q.wildcard = false)
    (hpending : dup = true → ∀ h d, w.requests h = some d → d.current = some o →
      d.completionCallback ≠ some .completePBWC) : Named (w.post dup s p o) where
  app := by
    cases dup
    · exact ok_postOn h.app ho
    · exact h.app
  dup := by
    cases dup
    · exact h.dup
    · exact fifo_postOn h.dup ho (hp rfl)
  serial d o' ho' := by
    rw [World.next_post]
    rcases knows_post ho' with hold | heq
    · exact h.serial d o' hold
    · obtain ⟨-, rfl⟩ := Prod.mk.inj heq
      exact hserial
  todo r := by rw [World.todo_post]; exact h.todo r
  nodup r := by rw [World.todo_post]; exact h.nodup r
  fresh r q hq := by
    rw [World.todo_post] at hq
    obtain ⟨hrank, hser, hnew⟩ := h.fresh r q hq
    refine ⟨hrank, by rwa [World.next_post], fun hk => ?_⟩
    rcases knows_post hk with hold | heq
    · exact hnew hold
    · exact hnames r (heq ▸ hq)
  unposted r q o' rest htodo hw hk := by
    rw [World.todo_post] at htodo
    rcases knows_post (d := true) hk with hold | heq
    · exact h.unposted r q o' rest htodo hw hold
    · obtain ⟨rfl, rfl⟩ := Prod.mk.inj heq
      simp [hunposted rfl r q rest htodo] at hw
  awaits r := by
    rw [World.todo_post]
    refine (h.awaits r).mono fun o' ho' => ?_
    rwa [Net.filled, World.app_pairs_post]
  requests := by rw [World.requests_post]; exact h.requests
  current := by rw [World.requests_post, World.next_post]; exact h.current
  pending h' d o' hd hcur hwc := by
    rw [World.requests_post] at hd
    rw [World.todo_post]
    obtain ⟨hnew, hmem⟩ := h.pending h' d o' hd hcur hwc
    refine ⟨fun hk => ?_, hmem⟩
    rcases knows_post (d := true) hk with hold | heq
    · exact hnew hold
    · obtain ⟨rfl, rfl⟩ := Prod.mk.inj heq
      exact hpending rfl h' d hd hcur hwc
  distinct := by rw [World.requests_post]; exact h.distinct
  merged q hq := by
    rw [World.merged_post] at hq
    rw [World.dup_pairs_post]
    exact h.merged q hq

theorem pop (h : Named w) {a : Act R C G} {rest : List (Act R C G)} (htodo : w.todo r = a :: rest)
    (ha : ∀ o, a = .await false o → w.app.filled o = true) : Named (w.advance r rest) := by
  have hsub : (names rest).Sublist (names (w.todo r)) := htodo ▸ names_sublist_cons a rest
  have hr := h.todo r
  rw [htodo] at hr
  refine h.advance hr.tail ((h.nodup r).sublist hsub) (fun q hq => h.fresh r q (hsub.subset hq))
    (fun q o l hrest hw => ?_) ((htodo ▸ h.awaits r : Awaits w.app (a :: rest)).tail ha)
    fun h' d o hd ho hwc heq hmem => ?_
  · simp [hr.specific_tail hrest] at hw
  · subst heq
    exact (h.pending h' d o hd ho hwc).2 (hsub.subset hmem)

theorem postPop (h : Named w) {a : Act R C G} {rest : List (Act R C G)}
    (htodo : w.todo r = a :: rest) (ha : a.posts = some (dup, o))
    (hp : dup = true → ∀ q, p = some q → q.wildcard = false) :
    Named ((w.post dup s p o).advance r rest) := by
  have hnames : names (w.todo r) = (dup, o) :: names rest := by rw [htodo, names_cons_some ha]
  have hmem : (dup, o) ∈ names (w.todo r) := hnames ▸ List.mem_cons_self
  obtain ⟨hrank, hserial, hnew⟩ := h.fresh r _ hmem
  simp only at hrank hserial hnew
  have hcomm : (w.post dup s p o).advance r rest = (w.advance r rest).post dup s p o := by
    cases dup <;> rfl
  rw [hcomm]
  refine (h.pop htodo fun o' heq => ?_).post hnew (hrank ▸ hserial) (fun r' => ?_) hp
    (fun _ r' q l hl => ?_) fun hdup h' d hd ho hwc => ?_
  · subst heq; cases ha
  · rcases eq_or_ne r' r with rfl | hne
    · rw [World.todo_advance_self]
      exact (List.nodup_cons.mp (hnames ▸ h.nodup r')).1
    · rw [World.todo_advance_of_ne hne]
      exact fun hq => hne ((h.fresh r' _ hq).1.symm.trans hrank)
  · rcases eq_or_ne r' r with rfl | hne
    · rw [World.todo_advance_self] at hl
      exact (htodo ▸ h.todo r' : Todo r' (a :: rest)).specific_tail hl
    · rw [World.todo_advance_of_ne hne] at hl
      have hq : (false, o) ∈ names (w.todo r') := mem_names_of_post (hl ▸ List.mem_cons_self)
      exact absurd ((h.fresh r' _ hq).1.symm.trans hrank) hne
  · obtain rfl : h'.1 = r := (h.current h' d o hd ho).1.symm.trans hrank
    exact (h.pending h' d o hd ho hwc).2 (hdup ▸ hmem)

theorem bump (h : Named w) (r : R) :
    Named { w with next := Function.update w.next r (w.next r + 1) } := by
  have hle : ∀ r', w.next r' ≤ Function.update w.next r (w.next r + 1) r' := by
    intro r'
    rcases eq_or_ne r' r with rfl | hne
    · simp
    · exact Nat.le_of_eq (Function.update_of_ne hne ..).symm
  exact ⟨h.app, h.dup, fun d o ho => Nat.lt_of_lt_of_le (h.serial d o ho) (hle _), h.todo, h.nodup,
    fun r' q hq => ⟨(h.fresh r' q hq).1, Nat.lt_of_lt_of_le (h.fresh r' q hq).2.1 (hle _),
      (h.fresh r' q hq).2.2⟩, h.unposted, h.awaits, h.requests,
    fun h' d o hd ho => ⟨(h.current h' d o hd ho).1,
      Nat.lt_of_lt_of_le (h.current h' d o hd ho).2 (hle _)⟩,
    h.pending, h.distinct, h.merged⟩

theorem not_knows (h : Named w) (d : Bool) : ¬ Knows (w.net d) (r, w.next r) :=
  fun hk => Nat.lt_irrefl _ (h.serial d _ hk)

theorem opens (h : Named w) {acts : List (Act R C G)} (ha : Opening r (r, w.next r) acts) :
    Named (w.issue r acts) := by
  refine (h.bump r).advance ha.todo ha.names_nodup (fun q hq => ?_) (fun q o rest hl hw => ?_)
    (ha.awaits _) fun h' d o hd ho hwc heq hmem => ?_
  · obtain ⟨d, o⟩ := q
    obtain rfl : o = (r, w.next r) := ha.eq_of_mem_names hq
    exact ⟨rfl, by simp, h.not_knows d⟩
  · have hq : (false, o) ∈ names acts := mem_names_of_post (hl ▸ List.mem_cons_self)
    obtain rfl : o = (r, w.next r) := ha.eq_of_mem_names hq
    exact h.not_knows true
  · obtain rfl : o = (r, w.next r) := ha.eq_of_mem_names hmem
    exact Nat.lt_irrefl _ (heq ▸ (h.current h' d _ hd ho).2)

theorem register (h : Named w) {h' : OpName R} {d : RequestData R C G} (hd : d.Ok h'.1)
    (hcur : ∀ o, d.current = some o → o.1 = h'.1 ∧ o.2 < w.next h'.1)
    (hpending : ∀ o, d.current = some o → d.completionCallback = some .completePBWC →
      ¬ Knows w.dup o ∧ (true, o) ∉ names (w.todo h'.1))
    (hdistinct : ∀ o h'' d'', d.current = some o → w.requests h'' = some d'' →
      d''.current ≠ some o) : Named (w.register h' d) := by
  have hreq : ∀ k e, (w.register h' d).requests k = some e →
      (k = h' ∧ e = d) ∨ w.requests k = some e := by
    intro k e hk
    rcases eq_or_ne k h' with rfl | hne
    · simp only [World.register, Function.update_self] at hk
      exact .inl ⟨rfl, (Option.some.inj hk).symm⟩
    · simp only [World.register, Function.update_of_ne hne] at hk
      exact .inr hk
  refine ⟨h.app, h.dup, h.serial, h.todo, h.nodup, h.fresh, h.unposted, h.awaits,
    fun k e hk => ?_, fun k e o hk ho => ?_, fun k e o hk ho hwc => ?_,
    fun k k' e e' o hk hk' ho ho' => ?_, h.merged⟩
  · rcases hreq k e hk with ⟨rfl, rfl⟩ | hold
    · exact hd
    · exact h.requests k e hold
  · rcases hreq k e hk with ⟨rfl, rfl⟩ | hold
    · exact hcur o ho
    · exact h.current k e o hold ho
  · rcases hreq k e hk with ⟨rfl, rfl⟩ | hold
    · exact hpending o ho hwc
    · exact h.pending k e o hold ho hwc
  · rcases hreq k e hk with ⟨rfl, rfl⟩ | hold <;> rcases hreq k' e' hk' with ⟨rfl, rfl⟩ | hold'
    · rfl
    · exact absurd ho' (hdistinct o k' e' ho hold')
    · exact absurd ho (hdistinct o k e ho' hold)
    · exact h.distinct k k' e e' o hold hold' ho ho'

theorem release (h : Named w) (hs : List (OpName R)) : Named (w.release hs) := by
  -- a request that stands for an operation after it was there before
  have hold : ∀ {k e o}, (w.release hs).requests k = some e → e.current = some o →
      w.requests k = some e := by
    intro k e o hk ho
    rcases World.requests_release hk with ⟨-, hk⟩ | ⟨e', -, rfl⟩
    · exact hk
    · cases ho
  refine ⟨h.app, h.dup, h.serial, h.todo, h.nodup, h.fresh, h.unposted, h.awaits,
    fun k e hk => ?_, fun k e o hk ho => h.current k e o (hold hk ho) ho,
    fun k e o hk ho => h.pending k e o (hold hk ho) ho,
    fun k k' e e' o hk hk' ho ho' => h.distinct k k' e e' o (hold hk ho) (hold hk' ho') ho ho',
    h.merged⟩
  · rcases World.requests_release hk with ⟨-, hk'⟩ | ⟨e', hk', rfl⟩
    · exact h.requests k e hk'
    · exact (h.requests k e' hk').setCurrent none

theorem nodup_active (h : Named w) {hs : List (OpName R)} (hnodup : hs.Nodup) :
    (w.active hs).Pairwise (·.2 ≠ ·.2) := by
  refine List.Pairwise.filterMap _ (fun k k' hne a ha b hb heq => hne ?_) hnodup
  obtain ⟨d, hd, ha⟩ := Option.bind_eq_some_iff.mp ha
  obtain ⟨d', hd', hb⟩ := Option.bind_eq_some_iff.mp hb
  obtain ⟨o, ho, rfl⟩ := Option.map_eq_some_iff.mp ha
  obtain ⟨o', ho', rfl⟩ := Option.map_eq_some_iff.mp hb
  exact h.distinct k k' d d' o hd hd' ho (ho'.trans (congrArg some heq.symm))

theorem completes (h : Named w) {hs : List (OpName R)} {ignore : Bool} (hnodup : hs.Nodup)
    (hown : ∀ k ∈ hs, k.1 = r) : Named ((w.release hs).issue r (w.completion ignore hs)) := by
  have hcalm : ∀ a ∈ w.completion ignore hs, a.isPost = false := fun a ha =>
    World.isPost_completion ha
  -- what is posted belongs to a wildcard receive among `hs`
  have hmem : ∀ q ∈ names (w.completion ignore hs), q.1 = true ∧ ∃ k ∈ hs, ∃ d,
      w.requests k = some d ∧ d.current = some q.2 ∧
        d.completionCallback = some .completePBWC := by
    intro q hq
    rw [World.names_completion, List.mem_map] at hq
    obtain ⟨⟨d, o⟩, hd, rfl⟩ := hq
    obtain ⟨hd, hwc⟩ := List.mem_filter.mp hd
    obtain ⟨k, hk, hd, ho⟩ := World.mem_active.mp hd
    exact ⟨rfl, k, hk, d, hd, ho, by simp_all⟩
  refine ((h.release hs).bump r).advance (.calm hcalm) ?_ (fun q hq => ?_) (fun q o rest hl => ?_)
    ?_ fun k e o hk ho hwc heq hq => ?_
  · rw [World.names_completion]
    refine List.pairwise_map.mpr (((h.nodup_active hnodup).filter _).imp fun hne heq => hne ?_)
    exact (Prod.mk.inj heq).2
  · obtain ⟨hdup, k, hk, d, hd, ho, hwc⟩ := hmem q hq
    obtain ⟨hrank, hserial⟩ := h.current k d q.2 hd ho
    rw [hown k hk] at hrank hserial
    refine ⟨hrank, by simpa using! Nat.lt_succ_of_lt hserial, ?_⟩
    rw [hdup]
    exact (h.pending k d q.2 hd ho hwc).1
  · have hpost := hcalm (.post false none (some q) o) (hl ▸ List.mem_cons_self)
    cases hpost
  · refine .of_append (fun o ho => ?_) fun o => World.merge_completion h.requests
    obtain ⟨d, -, ho⟩ := List.mem_flatMap.mp ho
    by_cases hr : d.1.recv.isSome = true <;> simp [RequestData.wait, hr] at ho
  · obtain ⟨-, k', hk', d, hd, ho', -⟩ := hmem _ hq
    rcases World.requests_release hk with ⟨hnot, hk⟩ | ⟨e', -, rfl⟩
    · exact hnot (h.distinct k' k d e o hd hk ho' ho ▸ hk')
    · cases ho

theorem call (h : Named w) {w' : World R C G} (hcalls : w.Calls r w') : Named w' := by
  cases hcalls with
  | opens ha => exact h.opens ha
  | registers ha hh hd hcur hwc =>
    subst hh
    refine (h.opens ha).register hd (fun o ho => ?_) (fun o ho hpb => ?_) fun o k e ho hk ho' => ?_
    · obtain rfl := hcur o ho
      exact ⟨rfl, by simp [World.issue]⟩
    · obtain rfl := hcur o ho
      exact ⟨h.not_knows true, by simpa [World.issue] using hwc hpb⟩
    · obtain rfl := hcur o ho
      obtain ⟨hrank, hserial⟩ := h.current k e _ hk ho'
      rw [← hrank] at hserial
      exact Nat.lt_irrefl _ hserial
  | completes hnodup hown => exact h.completes hnodup hown

theorem exec (h : Named w) {w' : World R C G} (hexec : w.Exec r w') : Named w' := by
  cases hexec with
  | idle => exact h
  | post htodo =>
    refine h.postPop htodo rfl fun hdup q hq => ?_
    -- the piggyback of a wildcard receive is not posted here
    subst hdup
    cases htodo ▸ h.todo r with
    | calm hl => exact absurd (hl _ List.mem_cons_self) (by simp [Act.isPost])
    | paired hs hp hrest => exact (hp q hq).2
  | await htodo hfilled => exact h.pop htodo fun o heq => by cases heq; exact hfilled
  | recvStatus htodo hstatus =>
    refine h.postPop htodo rfl fun _ q hq => ?_
    obtain rfl := Option.some.inj hq
    rfl
  | merge htodo hmsg =>
    have hpop := h.pop htodo fun o heq => by cases heq
    refine { hpop with merged := fun q hq => ?_ }
    rcases List.mem_cons.mp hq with rfl | hq
    · exact messageOf_mem hmsg
    · exact h.merged q hq
  | fault htodo =>
    have hdone : Named (w.advance r []) := h.advance (.calm (by simp)) .nil (by simp [names])
      (by simp) (.of_not_mem (by simp)) (by simp [names])
    exact { hdone with }

theorem deliver (h : Named w) (dup : Bool) (ch : Channel R C G) :
    Named (w.step (.deliver dup ch)) := by
  have hknows : ∀ {N : MpiNet R C G} {o}, Knows (N.deliver Pattern.accepts ch) o → Knows N o := by
    intro N o hk
    rwa [Knows, Net.sends_deliver, Net.recvs_deliver] at hk
  cases dup with
  | false =>
    refine { h with
      app := h.app.deliver ch
      serial := fun d o hk => h.serial d o ?_
      fresh := fun r q hq => ⟨(h.fresh r q hq).1, (h.fresh r q hq).2.1, fun hk => ?_⟩
      awaits := fun r => (h.awaits r).mono fun o => Net.filled_deliver }
    · cases d
      · exact hknows hk
      · exact hk
    · obtain ⟨d, o⟩ := q
      cases d
      · exact (h.fresh r _ hq).2.2 (hknows hk)
      · exact (h.fresh r _ hq).2.2 hk
  | true =>
    refine { h with
      dup := h.dup.deliver ch
      serial := fun d o hk => h.serial d o ?_
      fresh := fun r q hq => ⟨(h.fresh r q hq).1, (h.fresh r q hq).2.1, fun hk => ?_⟩
      unposted := fun r q o rest htodo hw hk => h.unposted r q o rest htodo hw (hknows hk)
      pending := fun k d o hd ho hwc => ⟨fun hk => (h.pending k d o hd ho hwc).1 (hknows hk),
        (h.pending k d o hd ho hwc).2⟩
      merged := fun q hq => Net.mem_pairs_deliver (h.merged q hq) }
    · cases d
      · exact hk
      · exact hknows hk
    · obtain ⟨d, o⟩ := q
      cases d
      · exact (h.fresh r _ hq).2.2 hk
      · exact (h.fresh r _ hq).2.2 (hknows hk)

end Named

end

end CritPath
