import CritPath.Lib.Matching

/-!
# A net and its shadow

Every operation of a net `A` is posted a second time on a net `D`, its shadow,
under the same name. Shadow receives accept one channel only, so a receive of
`A` that accepts several of them, a wild one, gets its shadow after it has met a
message, for that message's channel. On one channel `hs` and `hr` are the
operations posted on `D` and not yet on `A`.

`Shadow` says that `D` has the messages of `A` in the same order, that the
receives at the positions of the messages that `A` has taken are those which
took them, and that the receives after them are those which come next. Then a
pair of `D` whose receive has met a message in `A` is a pair of `A`.
-/

namespace CritPath.Lib.Net

variable {Ch P O : Type}

/-- A receive with a wild pattern. -/
def Wild (wild : P → Bool) (A : Net Ch P O) (ρ : O) : Prop := ∃ p, (p, ρ) ∈ A.recvs ∧ wild p = true

section
variable {wild : P → Bool} {A : Net Ch P O} {p : P} {o ρ : O}

theorem Wild.mem (h : A.Wild wild ρ) : ρ ∈ A.recvs.map (·.2) := by
  obtain ⟨p, hp, -⟩ := h
  exact List.mem_map_of_mem hp

theorem not_mem_recvs_recv (h : ρ ∉ A.recvs.map (·.2)) (hne : ρ ≠ o) :
    ρ ∉ (A.recv p o).recvs.map (·.2) := by
  simp only [recv, List.map_append, List.mem_append, List.map_cons, List.map_nil,
    List.mem_singleton]
  exact not_or.mpr ⟨h, hne⟩

theorem wild_recv : (A.recv p o).Wild wild ρ ↔ A.Wild wild ρ ∨ (wild p = true ∧ ρ = o) := by
  simp only [Wild, recv, List.mem_append, List.mem_singleton, Prod.mk.injEq]
  constructor
  · rintro ⟨q, hq | ⟨rfl, rfl⟩, hw⟩
    · exact .inl ⟨q, hq, hw⟩
    · exact .inr ⟨hw, rfl⟩
  · rintro (⟨q, hq, hw⟩ | ⟨hw, rfl⟩)
    · exact ⟨q, .inl hq, hw⟩
    · exact ⟨p, .inr ⟨rfl, rfl⟩, hw⟩

end

variable [DecidableEq Ch] [DecidableEq O]

structure Shadow (accepts : P → Ch → Bool) (wild : P → Bool) (A D : Net Ch P O) (hs hr : List O)
    (ch : Ch) : Prop where
  sends : D.sendsOn ch = A.sendsOn ch ++ hs
  /-- The open receives are those whose shadow comes next, and then wild ones. -/
  recvs : ∃ ws, A.openRecvs accepts ch ++ hr =
    (D.recvsOn accepts ch).drop (A.takenOn ch).length ++ ws ∧ ∀ ρ ∈ ws, A.Wild wild ρ
  inOrder : ∀ (i : ℕ) μ ρ, (A.takenOn ch)[i]? = some μ → (D.recvsOn accepts ch)[i]? = some ρ →
    (μ, ρ) ∈ A.pairs
  posted : ∀ p ρ, (p, ρ) ∈ A.recvs → wild p = false → accepts p ch = true →
    ρ ∈ D.recvsOn accepts ch
  late : ∀ ρ ∈ D.recvsOn accepts ch, A.Wild wild ρ → A.filled ρ = true
  unposted : ∀ ρ ∈ hr, ρ ∉ A.recvs.map (·.2)

namespace Shadow

variable {accepts : P → Ch → Bool} {wild : P → Bool} {A D : Net Ch P O} {hs hr : List O}
  {ch c : Ch} {p : P} {o μ ρ : O}

theorem empty : Shadow accepts wild ({} : Net Ch P O) {} [] [] ch :=
  ⟨rfl, ⟨[], rfl, by simp⟩, by simp [takenOn, sendsOn], by simp, by simp [recvsOn], by simp⟩

variable (h : Shadow accepts wild A D hs hr ch) (hA : A.Ok accepts)

/-! ## Posting -/

include h

theorem sendShadow (hhot : c = ch → hs = []) :
    Shadow accepts wild A (D.send c o) (if c = ch then [o] else hs) hr ch := by
  refine { h with sends := ?_ }
  rw [sendsOn_send, h.sends]
  by_cases hc : c = ch
  · simp [hc, hhot hc]
  · simp [hc]

theorem recvElsewhere (hp : accepts p ch = false) :
    Shadow accepts wild A (D.recv p o) hs hr ch := by
  have hD : (D.recv p o).recvsOn accepts ch = D.recvsOn accepts ch := by
    rw [recvsOn_recv, hp]
    exact List.append_nil _
  exact ⟨h.sends, hD ▸ h.recvs, hD ▸ h.inOrder, hD ▸ h.posted, hD ▸ h.late, h.unposted⟩

include hA

theorem send (ho : o ∉ A.sends.map (·.2)) (hhot : c = ch → hs = [o]) :
    Shadow accepts wild (A.send c o) D (if c = ch then [] else hs) hr ch where
  sends := by
    rw [sendsOn_send, h.sends]
    by_cases hc : c = ch
    · simp [hc, hhot hc]
    · simp [hc]
  recvs := by
    rw [takenOn_send (hA.not_taken ho)]
    exact h.recvs
  inOrder := by
    rw [takenOn_send (hA.not_taken ho)]
    exact h.inOrder
  posted := h.posted
  late := h.late
  unposted := h.unposted

theorem le_length {k : ℕ} (hk : k ≤ (A.takenOn ch).length)
    (hmet : ∀ i < k, ∀ μ ρ, (A.takenOn ch)[i]? = some μ → (μ, ρ) ∈ A.pairs →
      ρ ∈ D.recvsOn accepts ch) : k ≤ (D.recvsOn accepts ch).length := by
  by_contra hlt
  rw [Nat.not_le] at hlt
  have hget : (A.takenOn ch)[(D.recvsOn accepts ch).length]? =
      some (A.takenOn ch)[(D.recvsOn accepts ch).length] := List.getElem?_eq_getElem (by omega)
  obtain ⟨ρ, hρ⟩ := taken_iff.mp (mem_takenOn.mp (List.mem_of_getElem? hget)).2
  -- its shadow stands at an earlier position, so the receive has taken an earlier message
  obtain ⟨j, hj, hjρ⟩ := List.mem_iff_getElem.mp (hmet _ hlt _ ρ hget hρ)
  have hj' : j < (A.takenOn ch).length := by omega
  have hpair := h.inOrder j _ ρ (List.getElem?_eq_getElem hj')
    (by rw [List.getElem?_eq_getElem hj, hjρ])
  have heq := hA.message_eq hpair hρ
  have hnodup : (A.takenOn ch).Nodup := (hA.nodup_sendsOn ch).filter _
  have := (hnodup.getElem_inj_iff).mp heq
  omega

theorem recvShadow (ho : o ∉ A.recvs.map (·.2)) (hhot : accepts p ch = true → hr = [])
    (hopen : accepts p ch = true → ∀ ρ ∈ A.recvsOn accepts ch, A.Wild wild ρ → A.filled ρ = true)
    (hmet : accepts p ch = true → ∀ μ ∈ A.sendsOn ch, ∀ ρ, (μ, ρ) ∈ A.pairs →
      ρ ∈ D.recvsOn accepts ch) :
    Shadow accepts wild A (D.recv p o) hs (if accepts p ch then [o] else hr) ch := by
  by_cases hp : accepts p ch = true
  · obtain rfl := hhot hp
    have hlen : (A.takenOn ch).length ≤ (D.recvsOn accepts ch).length :=
      h.le_length hA (Nat.le_refl _) fun i _ μ ρ hμ =>
        hmet hp μ (mem_takenOn.mp (List.mem_of_getElem? hμ)).1 ρ
    have hD : (D.recv p o).recvsOn accepts ch = D.recvsOn accepts ch ++ [o] := by
      rw [recvsOn_recv, if_pos hp]
    obtain ⟨ws, heq, hws⟩ := h.recvs
    -- no wild receive is open
    obtain rfl : ws = [] := by
      refine List.eq_nil_iff_forall_not_mem.mpr fun ρ hρ => ?_
      have hmem : ρ ∈ A.openRecvs accepts ch ++ [] := heq ▸ List.mem_append_right _ hρ
      obtain ⟨hacc, hfree⟩ := mem_openRecvs.mp (List.append_nil _ ▸ hmem)
      simp [hopen hp ρ hacc (hws ρ hρ)] at hfree
    rw [if_pos hp]
    refine ⟨h.sends, ⟨[], ?_, hws⟩, fun i μ ρ hμ hρ => ?_, fun q ρ hq hw hacc => ?_,
      fun ρ hρ hw => ?_, fun ρ hρ => ?_⟩
    · rw [hD, List.drop_append_of_le_length hlen, List.append_nil, ← List.append_nil (List.drop _ _),
        ← heq, List.append_nil]
    · have hi : i < (A.takenOn ch).length := (List.getElem?_eq_some_iff.mp hμ).1
      rw [hD, List.getElem?_append_left (by omega)] at hρ
      exact h.inOrder i μ ρ hμ hρ
    · rw [hD]
      exact List.mem_append_left _ (h.posted q ρ hq hw hacc)
    · rw [hD] at hρ
      rcases List.mem_append.mp hρ with hρ | hρ
      · exact h.late ρ hρ hw
      · obtain rfl := List.mem_singleton.mp hρ
        exact absurd hw.mem ho
    · obtain rfl := List.mem_singleton.mp hρ
      exact ho
  · rw [if_neg hp]
    exact h.recvElsewhere (by simpa using hp)

theorem recv (ho : o ∉ A.recvs.map (·.2)) (hp : wild p = false) (hhot : accepts p ch = true → hr = [o])
    (hother : accepts p ch = false → o ∉ hr) :
    Shadow accepts wild (A.recv p o) D hs (if accepts p ch then [] else hr) ch where
  sends := h.sends
  recvs := by
    obtain ⟨ws, heq, hws⟩ := h.recvs
    refine ⟨ws, ?_, fun ρ hρ => wild_recv.mpr (.inl (hws ρ hρ))⟩
    rw [openRecvs_recv (hA.not_filled ho), takenOn_recv, ← heq]
    by_cases hacc : accepts p ch = true
    · rw [hhot hacc, if_pos hacc, if_pos hacc, List.append_nil]
    · rw [if_neg hacc, if_neg hacc, List.append_nil]
  inOrder := h.inOrder
  posted q ρ hq hw hacc := by
    rcases List.mem_append.mp hq with hq | hq
    · exact h.posted q ρ hq hw hacc
    · obtain ⟨rfl, rfl⟩ := Prod.mk.inj (List.mem_singleton.mp hq)
      obtain ⟨ws, heq, hws⟩ := h.recvs
      have hmem : ρ ∈ A.openRecvs accepts ch ++ hr := by simp [hhot hacc]
      rw [heq] at hmem
      rcases List.mem_append.mp hmem with hmem | hmem
      · exact List.mem_of_mem_drop hmem
      · exact absurd (hws ρ hmem).mem ho
  late ρ hρ hw := by
    rcases wild_recv.mp hw with hw | ⟨hw, -⟩
    · exact h.late ρ hρ hw
    · simp [hp] at hw
  unposted ρ hρ := by
    by_cases hacc : accepts p ch = true
    · simp [hacc] at hρ
    · rw [if_neg hacc] at hρ
      refine not_mem_recvs_recv (h.unposted ρ hρ) ?_
      rintro rfl
      exact hother (by simpa using hacc) hρ

theorem recvWild (ho : o ∉ A.recvs.map (·.2)) (hD : o ∉ D.recvsOn accepts ch) (hp : wild p = true)
    (hhot : accepts p ch = true → hr = []) (hother : o ∉ hr) :
    Shadow accepts wild (A.recv p o) D hs hr ch where
  sends := h.sends
  recvs := by
    obtain ⟨ws, heq, hws⟩ := h.recvs
    refine ⟨ws ++ (if accepts p ch then [o] else []), ?_, fun ρ hρ => wild_recv.mpr ?_⟩
    · rw [openRecvs_recv (hA.not_filled ho), takenOn_recv, ← List.append_assoc, ← heq]
      by_cases hacc : accepts p ch = true
      · rw [hhot hacc, List.append_nil, List.append_nil]
      · rw [if_neg hacc, List.append_nil, List.append_nil]
    · rcases List.mem_append.mp hρ with hρ | hρ
      · exact .inl (hws ρ hρ)
      · by_cases hacc : accepts p ch = true
        · rw [if_pos hacc] at hρ
          exact .inr ⟨hp, List.mem_singleton.mp hρ⟩
        · simp [hacc] at hρ
  inOrder := h.inOrder
  posted q ρ hq hw hacc := by
    rcases List.mem_append.mp hq with hq | hq
    · exact h.posted q ρ hq hw hacc
    · obtain ⟨rfl, rfl⟩ := Prod.mk.inj (List.mem_singleton.mp hq)
      simp [hp] at hw
  late ρ hρ hw := by
    rcases wild_recv.mp hw with hw | ⟨-, rfl⟩
    · exact h.late ρ hρ hw
    · exact absurd hρ hD
  unposted ρ hρ := by
    refine not_mem_recvs_recv (h.unposted ρ hρ) ?_
    rintro rfl
    exact hother hρ

theorem recvLate (ho : o ∉ D.recvsOn accepts ch) {i : ℕ} (hμ : (A.takenOn ch)[i]? = some μ)
    (hpair : (μ, o) ∈ A.pairs)
    (hmet : ∀ j < i, ∀ μ ρ, (A.takenOn ch)[j]? = some μ → (μ, ρ) ∈ A.pairs →
      ρ ∈ D.recvsOn accepts ch) (hp : accepts p ch = true) :
    Shadow accepts wild A (D.recv p o) hs hr ch := by
  have hi : i < (A.takenOn ch).length := (List.getElem?_eq_some_iff.mp hμ).1
  have hD : (D.recv p o).recvsOn accepts ch = D.recvsOn accepts ch ++ [o] := by
    rw [recvsOn_recv, if_pos hp]
  -- the new shadow stands at position `i`
  have hlen : (D.recvsOn accepts ch).length = i := by
    refine Nat.le_antisymm ?_ (h.le_length hA (Nat.le_of_lt hi) hmet)
    by_contra hlt
    rw [Nat.not_le] at hlt
    have hget := List.getElem?_eq_getElem hlt
    rw [← hA.receive_eq (h.inOrder i μ _ hμ hget) hpair] at ho
    exact ho (List.getElem_mem hlt)
  obtain ⟨ws, heq, hws⟩ := h.recvs
  refine ⟨h.sends, ⟨ws, ?_, hws⟩, fun j μ' ρ hμ' hρ => ?_, fun q ρ hq hw hacc => ?_,
    fun ρ hρ hw => ?_, h.unposted⟩
  · rw [heq, List.drop_eq_nil_of_le (by omega), List.drop_eq_nil_of_le (by rw [hD]; simp; omega)]
  · rw [hD] at hρ
    rcases Nat.lt_or_ge j i with hj | hj
    · rw [List.getElem?_append_left (by omega)] at hρ
      exact h.inOrder j μ' ρ hμ' hρ
    · rw [List.getElem?_append_right (by omega)] at hρ
      obtain rfl : j = i := by
        have := (List.getElem?_eq_some_iff.mp hρ).1
        simp at this
        omega
      rw [hlen, Nat.sub_self, List.getElem?_cons_zero] at hρ
      obtain rfl := Option.some.inj hρ
      obtain rfl := Option.some.inj (hμ.symm.trans hμ')
      exact hpair
  · rw [hD]
    exact List.mem_append_left _ (h.posted q ρ hq hw hacc)
  · rw [hD] at hρ
    rcases List.mem_append.mp hρ with hρ | hρ
    · exact h.late ρ hρ hw
    · obtain rfl := List.mem_singleton.mp hρ
      exact filled_iff.mpr ⟨μ, hpair⟩

/-! ## Taking messages -/

section
variable {ss rs : List O}

theorem pair (hsend : A.openSends ch = μ :: ss) (hrecv : A.openRecvs accepts ch = ρ :: rs) :
    Shadow accepts wild (A.pair μ ρ) D hs hr ch := by
  have htaken : (A.pair μ ρ).takenOn ch = A.takenOn ch ++ [μ] := takenOn_pair hA hsend
  have hlater : ∀ {x}, A.filled x = true → (A.pair μ ρ).filled x = true := by
    intro x hx
    simp [filled_pair, hx]
  obtain ⟨ws, heq, hws⟩ := h.recvs
  rw [hrecv, List.cons_append] at heq
  -- its receive is the one whose shadow comes next, or wild ones only are left
  cases hdrop : (D.recvsOn accepts ch).drop (A.takenOn ch).length with
  | nil =>
    have hlen : (D.recvsOn accepts ch).length ≤ (A.takenOn ch).length := List.drop_eq_nil_iff.mp hdrop
    rw [hdrop, List.nil_append] at heq
    refine ⟨h.sends, ⟨ws.tail, ?_, fun x hx => hws x (List.mem_of_mem_tail hx)⟩,
      fun i μ' ρ' hμ hρ => ?_, h.posted, fun x hx hw => hlater (h.late x hx hw), h.unposted⟩
    · rw [openRecvs_pair_self hA hrecv, htaken,
        List.drop_eq_nil_of_le (by rw [List.length_append]; omega), ← heq]
      rfl
    · have hi : i < (D.recvsOn accepts ch).length := (List.getElem?_eq_some_iff.mp hρ).1
      rw [htaken, List.getElem?_append_left (by omega)] at hμ
      exact List.mem_cons_of_mem _ (h.inOrder i μ' ρ' hμ hρ)
  | cons x xs =>
    rw [hdrop, List.cons_append] at heq
    obtain ⟨rfl, htail⟩ := List.cons.inj heq
    have hnext : (D.recvsOn accepts ch)[(A.takenOn ch).length]? = some ρ := by
      rw [← List.head?_drop, hdrop]
      rfl
    refine ⟨h.sends, ⟨ws, ?_, hws⟩, fun i μ' ρ' hμ hρ => ?_, h.posted,
      fun x hx hw => hlater (h.late x hx hw), h.unposted⟩
    · rw [openRecvs_pair_self hA hrecv, htaken, List.length_append, List.length_singleton,
        ← List.tail_drop, hdrop, htail]
      rfl
    · rw [htaken] at hμ
      rcases Nat.lt_or_ge i (A.takenOn ch).length with hi | hi
      · rw [List.getElem?_append_left hi] at hμ
        exact List.mem_cons_of_mem _ (h.inOrder i μ' ρ' hμ hρ)
      · obtain rfl : i = (A.takenOn ch).length := by
          have := (List.getElem?_eq_some_iff.mp hμ).1
          rw [List.length_append, List.length_singleton] at this
          omega
        rw [List.getElem?_append_right (Nat.le_refl _), Nat.sub_self] at hμ
        obtain rfl := Option.some.inj hμ
        obtain rfl := Option.some.inj (hnext.symm.trans hρ)
        exact List.mem_cons_self

theorem pairElsewhere (hwild : ∀ p, wild p = false → ∀ ch ch', accepts p ch = true → accepts p ch' = true → ch = ch')
    (hsend : A.openSends c = μ :: ss) (hrecv : A.openRecvs accepts c = ρ :: rs) (hne : ch ≠ c) :
    Shadow accepts wild (A.pair μ ρ) D hs hr ch := by
  have htaken : (A.pair μ ρ).takenOn ch = A.takenOn ch :=
    takenOn_pair_of_ne hA (next_send hsend).1 hne
  have hlater : ∀ {x}, A.filled x = true → (A.pair μ ρ).filled x = true := by
    intro x hx
    simp [filled_pair, hx]
  obtain ⟨hacc, hfree⟩ := next_recv hrecv
  obtain ⟨p, hp, hpc⟩ := mem_recvsOn.mp hacc
  have hhot : hr.filter (· ≠ ρ) = hr := List.filter_eq_self.mpr fun x hx => by
    have hx' : x ≠ ρ := by
      rintro rfl
      exact h.unposted x hx (List.mem_map_of_mem hp)
    simpa using hx'
  obtain ⟨ws, heq, hws⟩ := h.recvs
  -- an open receive of both channels is wild, so it has no shadow
  have hnext : ρ ∉ (D.recvsOn accepts ch).drop (A.takenOn ch).length := by
    intro hmem
    have hopen : ρ ∈ A.openRecvs accepts ch ++ hr := heq ▸ List.mem_append_left _ hmem
    rcases List.mem_append.mp hopen with hopen | hhot
    · obtain ⟨q, hq, hqch⟩ := mem_recvsOn.mp (mem_openRecvs.mp hopen).1
      obtain rfl := hA.pattern_eq hp hq
      have hw : wild p = true := by
        by_contra hw
        exact hne (hwild p (by simpa using hw) ch c hqch hpc)
      simp [h.late ρ (List.mem_of_mem_drop hmem) ⟨p, hp, hw⟩] at hfree
    · exact h.unposted ρ hhot (List.mem_map_of_mem hp)
  have hdrop : ((D.recvsOn accepts ch).drop (A.takenOn ch).length).filter (· ≠ ρ) =
      (D.recvsOn accepts ch).drop (A.takenOn ch).length := List.filter_eq_self.mpr fun x hx => by
    have hx' : x ≠ ρ := by
      rintro rfl
      exact hnext hx
    simpa using hx'
  refine ⟨h.sends, ⟨ws.filter (· ≠ ρ), ?_, fun x hx => hws x (List.mem_filter.mp hx).1⟩,
    fun i μ' ρ' hμ hρ => ?_, h.posted, fun x hx hw => hlater (h.late x hx hw), h.unposted⟩
  · have hfilter := congrArg (List.filter (· ≠ ρ)) heq
    rw [List.filter_append, List.filter_append, hhot, hdrop] at hfilter
    rw [openRecvs_pair, htaken]
    exact hfilter
  · rw [htaken] at hμ
    exact List.mem_cons_of_mem _ (h.inOrder i μ' ρ' hμ hρ)

end

theorem deliver (hwild : ∀ p, wild p = false → ∀ ch ch', accepts p ch = true → accepts p ch' = true → ch = ch')
    (c : Ch) : Shadow accepts wild (A.deliver accepts c) D hs hr ch := by
  rcases deliver_cases accepts c A with heq | ⟨μ, ss, ρ, rs, hsend, hrecv, heq⟩
  · rwa [heq]
  · rw [heq]
    by_cases hc : ch = c
    · subst hc
      exact h.pair hA hsend hrecv
    · exact h.pairElsewhere hA hwild hsend hrecv hc

omit hA in
theorem deliverShadow (c : Ch) :
    Shadow accepts wild A (D.deliver accepts c) hs hr ch := by
  have hsends : (D.deliver accepts c).sendsOn ch = D.sendsOn ch := by
    unfold sendsOn
    rw [sends_deliver]
  have hrecvs : (D.deliver accepts c).recvsOn accepts ch = D.recvsOn accepts ch := by
    unfold recvsOn
    rw [recvs_deliver]
  exact ⟨hsends ▸ h.sends, hrecvs ▸ h.recvs, hrecvs ▸ h.inOrder, hrecvs ▸ h.posted, hrecvs ▸ h.late,
    h.unposted⟩

/-! ## Pairs of the net and of its shadow -/

theorem getElem_sendsOn {i : ℕ}
    (hμ : (A.takenOn ch)[i]? = some μ) : (D.sendsOn ch)[i]? = some μ := by
  have hi : i < (A.takenOn ch).length := (List.getElem?_eq_some_iff.mp hμ).1
  rw [h.sends, hA.first ch, List.append_assoc, List.getElem?_append_left hi]
  exact hμ

theorem getElem_of_mem (hρ : ρ ∈ D.recvsOn accepts ch) (hfilled : A.filled ρ = true) :
    ∃ (i : ℕ) (μ : O), (A.takenOn ch)[i]? = some μ ∧ (D.recvsOn accepts ch)[i]? = some ρ ∧
      (μ, ρ) ∈ A.pairs := by
  obtain ⟨i, hi⟩ := List.mem_iff_getElem?.mp hρ
  rcases Nat.lt_or_ge i (A.takenOn ch).length with hlt | hge
  · have hμ := List.getElem?_eq_getElem hlt
    exact ⟨i, _, hμ, hi, h.inOrder i _ ρ hμ hi⟩
  · -- later receives are open or not posted
    have hmem : ρ ∈ (D.recvsOn accepts ch).drop (A.takenOn ch).length := by
      refine List.mem_of_getElem? (i := i - (A.takenOn ch).length) ?_
      rw [List.getElem?_drop, Nat.add_sub_cancel' hge]
      exact hi
    obtain ⟨ws, heq, -⟩ := h.recvs
    have hopen : ρ ∈ A.openRecvs accepts ch ++ hr := heq ▸ List.mem_append_left _ hmem
    rcases List.mem_append.mp hopen with hopen | hhot
    · simp [(mem_openRecvs.mp hopen).2] at hfilled
    · obtain ⟨μ, hμ⟩ := filled_iff.mp hfilled
      exact absurd (hA.mem_recvs_of_pair hμ) (h.unposted ρ hhot)

end Shadow

section
variable {accepts : P → Ch → Bool} {wild : P → Bool} {A D : Net Ch P O} {hs hr : Ch → List O}
  {ch : Ch} {μ ρ ρ' : O}

/-- A pair of the shadow whose receive has met a message is a pair of the net. -/
theorem pair_of_shadow (h : ∀ ch, Shadow accepts wild A D (hs ch) (hr ch) ch) (hA : A.Ok accepts)
    (hD : D.Fifo accepts) (hp : (μ, ρ) ∈ D.pairs) (hfilled : A.filled ρ = true) :
    (μ, ρ) ∈ A.pairs := by
  obtain ⟨ch, i, hμ, hρ⟩ := hD.getElem_pair hp
  obtain ⟨j, μ', hμ', hρ', hpair⟩ := (h ch).getElem_of_mem hA (List.mem_of_getElem? hρ) hfilled
  obtain rfl : i = j :=
    (List.getElem?_inj (List.getElem?_eq_some_iff.mp hρ).1 (hD.ok.nodup_recvsOn ch)).mp
      (hρ.trans hρ'.symm)
  obtain rfl := Option.some.inj (hμ.symm.trans ((h ch).getElem_sendsOn hA hμ'))
  exact hpair

/-- A message that the net has taken meets the same receive in the shadow. -/
theorem receive_eq_shadow (h : ∀ ch, Shadow accepts wild A D (hs ch) (hr ch) ch)
    (hA : A.Ok accepts) (hD : D.Fifo accepts) (hp : (μ, ρ) ∈ A.pairs) (hp' : (μ, ρ') ∈ D.pairs) :
    ρ' = ρ := by
  obtain ⟨ch, i, hμ, hρ⟩ := hD.getElem_pair hp'
  obtain ⟨c, hμc, -⟩ := hA.mem μ ρ hp
  obtain ⟨j, hj⟩ := List.mem_iff_getElem?.mp (mem_takenOn.mpr ⟨hμc, taken_iff.mpr ⟨ρ, hp⟩⟩)
  have hj' := (h c).getElem_sendsOn hA hj
  obtain rfl := hD.ok.channel_eq (List.mem_of_getElem? hμ) (List.mem_of_getElem? hj')
  obtain rfl : i = j :=
    (List.getElem?_inj (List.getElem?_eq_some_iff.mp hμ).1 (hD.ok.nodup_sendsOn ch)).mp
      (hμ.trans hj'.symm)
  exact hA.receive_eq ((h ch).inOrder i μ ρ' hj hρ) hp

end

/-- Where the receive has its shadow, that one and the shadow of the message meet. -/
theorem Shadow.pair_of_deliveries {accepts : P → Ch → Bool} {wild : P → Bool} {A D : Net Ch P O}
    {hs hr : List O} {ch : Ch} {μ ρ : O} (h : Shadow accepts wild A D hs hr ch) (hA : A.Ok accepts)
    (hD : D.Fifo accepts) (hp : (μ, ρ) ∈ A.pairs) (hρ : ρ ∈ D.recvsOn accepts ch) :
    ∃ k, (μ, ρ) ∈ ((Net.deliver accepts ch)^[k] D).pairs := by
  obtain ⟨i, μ', hμ, hi, hpair⟩ := h.getElem_of_mem hA hρ (filled_iff.mpr ⟨μ, hp⟩)
  obtain rfl := hA.message_eq hpair hp
  exact ⟨i + 1, hD.pair_of_deliveries (h.getElem_sendsOn hA hμ) hi _ (by omega)⟩

end CritPath.Lib.Net
