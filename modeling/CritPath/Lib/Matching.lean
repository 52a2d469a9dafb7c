import Mathlib.Data.List.Basic
import Mathlib.Data.List.Forall2
import Mathlib.Data.List.Nodup
import Mathlib.Logic.Function.Iterate

/-!
# Messages and receives paired in order

A `Net` has the messages posted on channels, the receives posted with patterns,
both in posting order, and the pairs made so far. `deliver ch` pairs the first
open message of a channel with the first open receive that accepts it, so
messages of one channel are taken in order and receives are considered in
posting order. `Ok` is what holds of every net; where each receive accepts one
channel only, the `i`-th message of a channel meets its `i`-th receive (`Fifo`).
-/

namespace CritPath.Lib

/-- Messages on channels `Ch`, receives with patterns `P`, named by `O`. -/
structure Net (Ch P O : Type) where
  sends : List (Ch × O) := []
  recvs : List (P × O) := []
  pairs : List (O × O) := []

namespace Net

variable {Ch P O : Type}

def send (ch : Ch) (o : O) (N : Net Ch P O) : Net Ch P O := { N with sends := N.sends ++ [(ch, o)] }

def recv (p : P) (o : O) (N : Net Ch P O) : Net Ch P O := { N with recvs := N.recvs ++ [(p, o)] }

def pair (μ ρ : O) (N : Net Ch P O) : Net Ch P O := { N with pairs := (μ, ρ) :: N.pairs }

def recvsOn (accepts : P → Ch → Bool) (N : Net Ch P O) (ch : Ch) : List O :=
  (N.recvs.filter (accepts ·.1 ch)).map (·.2)

section
variable {accepts : P → Ch → Bool} {N : Net Ch P O} {ch ch' : Ch} {p : P} {o μ ρ : O}

theorem recvsOn_recv : (N.recv p o).recvsOn accepts ch =
    N.recvsOn accepts ch ++ if accepts p ch then [o] else [] := by
  simp only [recvsOn, recv, List.filter_append, List.map_append]
  by_cases h : accepts p ch <;> simp [h]

@[simp] theorem recvsOn_send : (N.send ch o).recvsOn accepts ch' = N.recvsOn accepts ch' := rfl

@[simp] theorem recvsOn_pair : (N.pair μ ρ).recvsOn accepts ch = N.recvsOn accepts ch := rfl

theorem mem_recvsOn : ρ ∈ N.recvsOn accepts ch ↔ ∃ p, (p, ρ) ∈ N.recvs ∧ accepts p ch = true := by
  simp [recvsOn]

end

section
variable [DecidableEq Ch]

def sendsOn (N : Net Ch P O) (ch : Ch) : List O := (N.sends.filter (·.1 = ch)).map (·.2)

variable {N : Net Ch P O} {ch ch' : Ch} {p : P} {o μ ρ : O}

theorem sendsOn_send :
    (N.send ch o).sendsOn ch' = N.sendsOn ch' ++ if ch = ch' then [o] else [] := by
  simp only [sendsOn, send, List.filter_append, List.map_append]
  by_cases h : ch = ch' <;> simp [h]

@[simp] theorem sendsOn_recv : (N.recv p o).sendsOn ch = N.sendsOn ch := rfl

@[simp] theorem sendsOn_pair : (N.pair μ ρ).sendsOn ch = N.sendsOn ch := rfl

theorem mem_sendsOn : μ ∈ N.sendsOn ch ↔ (ch, μ) ∈ N.sends := by
  simp [sendsOn]

end

section
variable [DecidableEq O]

def taken (N : Net Ch P O) (μ : O) : Bool := decide (μ ∈ N.pairs.map (·.1))

def filled (N : Net Ch P O) (ρ : O) : Bool := decide (ρ ∈ N.pairs.map (·.2))

def filledOn (accepts : P → Ch → Bool) (N : Net Ch P O) (ch : Ch) : List O :=
  (N.recvsOn accepts ch).filter N.filled

def openRecvs (accepts : P → Ch → Bool) (N : Net Ch P O) (ch : Ch) : List O :=
  (N.recvsOn accepts ch).filter (!N.filled ·)

variable {accepts : P → Ch → Bool} {N : Net Ch P O} {ch ch' : Ch} {p : P} {o μ ρ : O}

@[simp] theorem taken_send : (N.send ch o).taken = N.taken := rfl

@[simp] theorem filled_recv : (N.recv p o).filled = N.filled := rfl

theorem taken_pair (x : O) : (N.pair μ ρ).taken x = (decide (x = μ) || N.taken x) := by
  simp only [taken, pair, List.map_cons, List.mem_cons, Bool.decide_or]

theorem filled_pair (x : O) : (N.pair μ ρ).filled x = (decide (x = ρ) || N.filled x) := by
  simp only [filled, pair, List.map_cons, List.mem_cons, Bool.decide_or]

theorem taken_iff : N.taken μ = true ↔ ∃ ρ, (μ, ρ) ∈ N.pairs := by
  simp [taken]

theorem filled_iff : N.filled ρ = true ↔ ∃ μ, (μ, ρ) ∈ N.pairs := by
  simp [filled]

theorem mem_openRecvs :
    ρ ∈ N.openRecvs accepts ch ↔ ρ ∈ N.recvsOn accepts ch ∧ N.filled ρ = false := by
  simp [openRecvs]

theorem next_recv {rs : List O} (hr : N.openRecvs accepts ch = ρ :: rs) :
    ρ ∈ N.recvsOn accepts ch ∧ N.filled ρ = false :=
  mem_openRecvs.mp (hr ▸ List.mem_cons_self)

theorem openRecvs_recv (ho : N.filled o = false) : (N.recv p o).openRecvs accepts ch =
    N.openRecvs accepts ch ++ if accepts p ch then [o] else [] := by
  unfold openRecvs
  rw [recvsOn_recv, filled_recv]
  by_cases h : accepts p ch <;> simp [h, ho]

theorem filledOn_recv (ho : N.filled o = false) :
    (N.recv p o).filledOn accepts ch = N.filledOn accepts ch := by
  unfold filledOn
  rw [recvsOn_recv, filled_recv]
  by_cases h : accepts p ch <;> simp [h, ho]

@[simp] theorem openRecvs_send : (N.send ch o).openRecvs accepts ch' = N.openRecvs accepts ch' := rfl

@[simp] theorem filledOn_send : (N.send ch o).filledOn accepts ch' = N.filledOn accepts ch' := rfl

theorem openRecvs_pair :
    (N.pair μ ρ).openRecvs accepts ch = (N.openRecvs accepts ch).filter (· ≠ ρ) := by
  unfold openRecvs
  rw [recvsOn_pair, List.filter_filter]
  congr 1
  funext x
  rw [filled_pair]
  by_cases h : x = ρ <;> simp [h]

end

variable [DecidableEq Ch] [DecidableEq O]

def takenOn (N : Net Ch P O) (ch : Ch) : List O := (N.sendsOn ch).filter N.taken

def openSends (N : Net Ch P O) (ch : Ch) : List O := (N.sendsOn ch).filter (!N.taken ·)

/-- Pairs the first open message of `ch` with the first open receive that accepts it. -/
def deliver (accepts : P → Ch → Bool) (ch : Ch) (N : Net Ch P O) : Net Ch P O :=
  match (N.openSends ch).head?, (N.openRecvs accepts ch).head? with
  | some μ, some ρ => N.pair μ ρ
  | _, _ => N

/-- Names are used once, pairs are made of what was posted, and the messages taken on a channel are
its first ones. -/
structure Ok (accepts : P → Ch → Bool) (N : Net Ch P O) : Prop where
  sends : (N.sends.map (·.2)).Nodup
  recvs : (N.recvs.map (·.2)).Nodup
  fst : (N.pairs.map (·.1)).Nodup
  snd : (N.pairs.map (·.2)).Nodup
  mem : ∀ μ ρ, (μ, ρ) ∈ N.pairs → ∃ ch, μ ∈ N.sendsOn ch ∧ ρ ∈ N.recvsOn accepts ch
  first : ∀ ch, N.sendsOn ch = N.takenOn ch ++ N.openSends ch

variable {accepts : P → Ch → Bool} {N : Net Ch P O} {ch ch' : Ch} {p : P} {o μ ρ : O}

theorem mem_openSends : μ ∈ N.openSends ch ↔ μ ∈ N.sendsOn ch ∧ N.taken μ = false := by
  simp [openSends]

theorem mem_takenOn : μ ∈ N.takenOn ch ↔ μ ∈ N.sendsOn ch ∧ N.taken μ = true := by
  simp [takenOn]

theorem takenOn_send (ho : N.taken o = false) : (N.send ch o).takenOn ch' = N.takenOn ch' := by
  unfold takenOn
  rw [sendsOn_send, taken_send]
  by_cases h : ch = ch' <;> simp [h, ho]

theorem openSends_send (ho : N.taken o = false) :
    (N.send ch o).openSends ch' = N.openSends ch' ++ if ch = ch' then [o] else [] := by
  unfold openSends
  rw [sendsOn_send, taken_send]
  by_cases h : ch = ch' <;> simp [h, ho]

@[simp] theorem takenOn_recv : (N.recv p o).takenOn ch = N.takenOn ch := rfl

theorem openSends_pair : (N.pair μ ρ).openSends ch = (N.openSends ch).filter (· ≠ μ) := by
  unfold openSends
  rw [sendsOn_pair, List.filter_filter]
  congr 1
  funext x
  rw [taken_pair]
  by_cases h : x = μ <;> simp [h]

theorem next_send {ss : List O} (hs : N.openSends ch = μ :: ss) :
    μ ∈ N.sendsOn ch ∧ N.taken μ = false :=
  mem_openSends.mp (hs ▸ List.mem_cons_self)

/-- A delivery does nothing or makes one pair. -/
theorem deliver_cases (accepts : P → Ch → Bool) (ch : Ch) (N : Net Ch P O) :
    N.deliver accepts ch = N ∨ ∃ μ ss ρ rs, N.openSends ch = μ :: ss ∧
      N.openRecvs accepts ch = ρ :: rs ∧ N.deliver accepts ch = N.pair μ ρ := by
  unfold deliver
  cases hs : N.openSends ch with
  | nil => exact .inl rfl
  | cons μ ss =>
    cases hr : N.openRecvs accepts ch with
    | nil => exact .inl rfl
    | cons ρ rs => exact .inr ⟨μ, ss, ρ, rs, rfl, rfl, rfl⟩

theorem mem_pairs_deliver (hp : (μ, ρ) ∈ N.pairs) : (μ, ρ) ∈ (N.deliver accepts ch).pairs := by
  rcases deliver_cases accepts ch N with heq | ⟨_, _, _, _, -, -, heq⟩
  · rwa [heq]
  · rw [heq]
    exact List.mem_cons_of_mem _ hp

theorem filled_deliver (hρ : N.filled ρ = true) : (N.deliver accepts ch).filled ρ = true := by
  obtain ⟨μ, hμ⟩ := filled_iff.mp hρ
  exact filled_iff.mpr ⟨μ, mem_pairs_deliver hμ⟩

@[simp] theorem sends_deliver : (N.deliver accepts ch).sends = N.sends := by
  rcases deliver_cases accepts ch N with heq | ⟨_, _, _, _, -, -, heq⟩ <;> rw [heq]
  rfl

@[simp] theorem recvs_deliver : (N.deliver accepts ch).recvs = N.recvs := by
  rcases deliver_cases accepts ch N with heq | ⟨_, _, _, _, -, -, heq⟩ <;> rw [heq]
  rfl

namespace Ok

theorem empty : Ok accepts ({} : Net Ch P O) :=
  ⟨.nil, .nil, .nil, .nil, fun _ _ h => absurd h List.not_mem_nil, fun _ => rfl⟩

theorem channel_eq (h : Ok accepts N) (h₁ : μ ∈ N.sendsOn ch) (h₂ : μ ∈ N.sendsOn ch') :
    ch = ch' :=
  congrArg Prod.fst (List.inj_on_of_nodup_map h.sends (mem_sendsOn.mp h₁) (mem_sendsOn.mp h₂) rfl)

theorem pattern_eq (h : Ok accepts N) {p' : P} (h₁ : (p, ρ) ∈ N.recvs) (h₂ : (p', ρ) ∈ N.recvs) :
    p = p' :=
  congrArg Prod.fst (List.inj_on_of_nodup_map h.recvs h₁ h₂ rfl)

theorem receive_eq (h : Ok accepts N) {ρ' : O} (h₁ : (μ, ρ) ∈ N.pairs) (h₂ : (μ, ρ') ∈ N.pairs) :
    ρ = ρ' :=
  congrArg Prod.snd (List.inj_on_of_nodup_map h.fst h₁ h₂ rfl)

theorem message_eq (h : Ok accepts N) {μ' : O} (h₁ : (μ, ρ) ∈ N.pairs) (h₂ : (μ', ρ) ∈ N.pairs) :
    μ = μ' :=
  congrArg Prod.fst (List.inj_on_of_nodup_map h.snd h₁ h₂ rfl)

theorem nodup_sendsOn (h : Ok accepts N) (ch : Ch) : (N.sendsOn ch).Nodup :=
  h.sends.sublist (List.filter_sublist.map _)

theorem nodup_recvsOn (h : Ok accepts N) (ch : Ch) : (N.recvsOn accepts ch).Nodup :=
  h.recvs.sublist (List.filter_sublist.map _)

theorem mem_sends_of_pair (h : Ok accepts N) (hp : (μ, ρ) ∈ N.pairs) : μ ∈ N.sends.map (·.2) := by
  obtain ⟨ch, hμ, -⟩ := h.mem μ ρ hp
  exact List.mem_map_of_mem (mem_sendsOn.mp hμ)

theorem mem_recvs_of_pair (h : Ok accepts N) (hp : (μ, ρ) ∈ N.pairs) : ρ ∈ N.recvs.map (·.2) := by
  obtain ⟨ch, -, hρ⟩ := h.mem μ ρ hp
  obtain ⟨p, hp, -⟩ := mem_recvsOn.mp hρ
  exact List.mem_map_of_mem hp

theorem not_taken (h : Ok accepts N) (ho : o ∉ N.sends.map (·.2)) : N.taken o = false := by
  rw [← Bool.not_eq_true, taken_iff]
  rintro ⟨ρ, hρ⟩
  exact ho (h.mem_sends_of_pair hρ)

theorem not_filled (h : Ok accepts N) (ho : o ∉ N.recvs.map (·.2)) : N.filled o = false := by
  rw [← Bool.not_eq_true, filled_iff]
  rintro ⟨μ, hμ⟩
  exact ho (h.mem_recvs_of_pair hμ)

theorem send (h : Ok accepts N) (ho : o ∉ N.sends.map (·.2)) : Ok accepts (N.send ch o) where
  sends := by
    simp only [Net.send, List.map_append, List.map_cons, List.map_nil]
    exact List.nodup_append.mpr ⟨h.sends, List.nodup_singleton o, by
      rintro x hx y hy rfl
      exact ho (by simpa [List.mem_singleton.mp hy] using hx)⟩
  recvs := h.recvs
  fst := h.fst
  snd := h.snd
  mem μ ρ hp := by
    obtain ⟨c, hμ, hρ⟩ := h.mem μ ρ hp
    exact ⟨c, by rw [sendsOn_send]; exact List.mem_append_left _ hμ, hρ⟩
  first c := by
    have := h.not_taken ho
    rw [sendsOn_send, takenOn_send this, openSends_send this, h.first c, List.append_assoc]

theorem recv (h : Ok accepts N) (ho : o ∉ N.recvs.map (·.2)) : Ok accepts (N.recv p o) where
  sends := h.sends
  recvs := by
    simp only [Net.recv, List.map_append, List.map_cons, List.map_nil]
    exact List.nodup_append.mpr ⟨h.recvs, List.nodup_singleton o, by
      rintro x hx y hy rfl
      exact ho (by simpa [List.mem_singleton.mp hy] using hx)⟩
  fst := h.fst
  snd := h.snd
  mem μ ρ hp := by
    obtain ⟨c, hμ, hρ⟩ := h.mem μ ρ hp
    exact ⟨c, hμ, by rw [recvsOn_recv]; exact List.mem_append_left _ hρ⟩
  first := h.first

end Ok

/-! ## What a pair changes -/

section
variable {ss rs : List O}

theorem takenOn_pair (h : Ok accepts N) (hs : N.openSends ch = μ :: ss) :
    (N.pair μ ρ).takenOn ch = N.takenOn ch ++ [μ] := by
  have hnodup := h.nodup_sendsOn ch
  rw [h.first ch, hs] at hnodup
  have hss : μ ∉ ss := (List.nodup_cons.mp (List.nodup_append.mp hnodup).2.1).1
  have htaken : ∀ x ∈ ss, N.taken x = false := fun x hx =>
    (mem_openSends.mp (hs ▸ List.mem_cons_of_mem μ hx)).2
  have hbefore : (N.takenOn ch).filter (N.pair μ ρ).taken = N.takenOn ch :=
    List.filter_eq_self.mpr fun x hx => by simp [taken_pair, (mem_takenOn.mp hx).2]
  have hafter : ss.filter (N.pair μ ρ).taken = [] :=
    List.filter_eq_nil_iff.mpr fun x hx => by
      have hne : x ≠ μ := fun heq => hss (heq ▸ hx)
      simp [taken_pair, htaken x hx, hne]
  show (N.sendsOn ch).filter (N.pair μ ρ).taken = _
  rw [h.first ch, hs, List.filter_append, hbefore, List.filter_cons_of_pos (by simp [taken_pair]),
    hafter]

theorem openSends_pair_self (h : Ok accepts N) (hs : N.openSends ch = μ :: ss) :
    (N.pair μ ρ).openSends ch = ss := by
  have hnodup : (N.openSends ch).Nodup := (h.nodup_sendsOn ch).filter _
  rw [hs] at hnodup
  rw [openSends_pair, hs, List.filter_cons_of_neg (by simp)]
  refine List.filter_eq_self.mpr fun x hx => ?_
  have hne : x ≠ μ := fun heq => (List.nodup_cons.mp hnodup).1 (heq ▸ hx)
  simpa using hne

theorem openRecvs_pair_self (h : Ok accepts N) (hr : N.openRecvs accepts ch = ρ :: rs) :
    (N.pair μ ρ).openRecvs accepts ch = rs := by
  have hnodup : (N.openRecvs accepts ch).Nodup := (h.nodup_recvsOn ch).filter _
  rw [hr] at hnodup
  rw [openRecvs_pair, hr, List.filter_cons_of_neg (by simp)]
  refine List.filter_eq_self.mpr fun x hx => ?_
  have hne : x ≠ ρ := fun heq => (List.nodup_cons.mp hnodup).1 (heq ▸ hx)
  simpa using hne

theorem takenOn_pair_of_ne (h : Ok accepts N) (hμ : μ ∈ N.sendsOn ch) (hne : ch' ≠ ch) :
    (N.pair μ ρ).takenOn ch' = N.takenOn ch' := by
  unfold takenOn
  rw [sendsOn_pair]
  refine List.filter_congr fun x hx => ?_
  have hx' : x ≠ μ := by
    rintro rfl
    exact hne (h.channel_eq hx hμ)
  simp [taken_pair, hx']

theorem openSends_pair_of_ne (h : Ok accepts N) (hμ : μ ∈ N.sendsOn ch) (hne : ch' ≠ ch) :
    (N.pair μ ρ).openSends ch' = N.openSends ch' := by
  rw [openSends_pair]
  refine List.filter_eq_self.mpr fun x hx => ?_
  have hx' : x ≠ μ := by
    rintro rfl
    exact hne (h.channel_eq (mem_openSends.mp hx).1 hμ)
  simpa using hx'

end

theorem Ok.pair (h : Ok accepts N) {ss rs : List O} (hs : N.openSends ch = μ :: ss)
    (hr : N.openRecvs accepts ch = ρ :: rs) : Ok accepts (N.pair μ ρ) where
  sends := h.sends
  recvs := h.recvs
  fst := by
    refine List.nodup_cons.mpr ⟨?_, h.fst⟩
    simpa [taken] using (next_send hs).2
  snd := by
    refine List.nodup_cons.mpr ⟨?_, h.snd⟩
    simpa [filled] using (next_recv hr).2
  mem μ' ρ' hp := by
    rcases List.mem_cons.mp hp with heq | hp
    · obtain ⟨rfl, rfl⟩ := Prod.mk.inj heq
      exact ⟨ch, (next_send hs).1, (next_recv hr).1⟩
    · exact h.mem μ' ρ' hp
  first c := by
    by_cases hc : c = ch
    · subst hc
      rw [sendsOn_pair, takenOn_pair h hs, openSends_pair_self h hs, h.first c, hs]
      simp
    · have hμ := (next_send hs).1
      rw [sendsOn_pair, takenOn_pair_of_ne h hμ hc, openSends_pair_of_ne h hμ hc, h.first c]

theorem Ok.deliver (h : Ok accepts N) (ch : Ch) : Ok accepts (N.deliver accepts ch) := by
  rcases deliver_cases accepts ch N with heq | ⟨μ, ss, ρ, rs, hs, hr, heq⟩
  · rwa [heq]
  · rw [heq]
    exact h.pair hs hr

/-! ## Receives for one channel -/

/-- Every receive accepts one channel only. -/
def Exclusive (accepts : P → Ch → Bool) (N : Net Ch P O) : Prop :=
  ∀ p ρ, (p, ρ) ∈ N.recvs → ∀ ch ch', accepts p ch = true → accepts p ch' = true → ch = ch'

/-- On each channel the messages and the receives are paired in order. -/
structure Fifo (accepts : P → Ch → Bool) (N : Net Ch P O) : Prop where
  ok : Ok accepts N
  exclusive : Exclusive accepts N
  first : ∀ ch, N.recvsOn accepts ch = N.filledOn accepts ch ++ N.openRecvs accepts ch
  inOrder : ∀ ch, List.Forall₂ (fun μ ρ => (μ, ρ) ∈ N.pairs) (N.takenOn ch) (N.filledOn accepts ch)

namespace Fifo

theorem empty : Fifo accepts ({} : Net Ch P O) :=
  ⟨.empty, fun _ _ h => absurd h List.not_mem_nil, fun _ => rfl, fun _ => .nil⟩

theorem send (h : Fifo accepts N) (ho : o ∉ N.sends.map (·.2)) : Fifo accepts (N.send ch o) where
  ok := h.ok.send ho
  exclusive := h.exclusive
  first := h.first
  inOrder c := by
    rw [takenOn_send (h.ok.not_taken ho), filledOn_send]
    exact h.inOrder c

theorem recv (h : Fifo accepts N) (ho : o ∉ N.recvs.map (·.2))
    (hp : ∀ ch ch', accepts p ch = true → accepts p ch' = true → ch = ch') :
    Fifo accepts (N.recv p o) where
  ok := h.ok.recv ho
  exclusive q ρ hq := by
    rcases List.mem_append.mp hq with hq | hq
    · exact h.exclusive q ρ hq
    · obtain ⟨rfl, rfl⟩ := Prod.mk.inj (List.mem_singleton.mp hq)
      exact hp
  first c := by
    have := h.ok.not_filled ho
    rw [recvsOn_recv, filledOn_recv this, openRecvs_recv this, h.first c, List.append_assoc]
  inOrder c := by
    rw [takenOn_recv, filledOn_recv (h.ok.not_filled ho)]
    exact h.inOrder c

section
variable {ss rs : List O}

theorem filledOn_pair (h : Fifo accepts N) (hr : N.openRecvs accepts ch = ρ :: rs) :
    (N.pair μ ρ).filledOn accepts ch = N.filledOn accepts ch ++ [ρ] := by
  have hnodup := h.ok.nodup_recvsOn ch
  rw [h.first ch, hr] at hnodup
  have hrs : ρ ∉ rs := (List.nodup_cons.mp (List.nodup_append.mp hnodup).2.1).1
  have hfilled : ∀ x ∈ rs, N.filled x = false := fun x hx =>
    (mem_openRecvs.mp (hr ▸ List.mem_cons_of_mem ρ hx)).2
  have hbefore : (N.filledOn accepts ch).filter (N.pair μ ρ).filled = N.filledOn accepts ch :=
    List.filter_eq_self.mpr fun x hx => by
      simp [filled_pair, (List.mem_filter.mp hx).2]
  have hafter : rs.filter (N.pair μ ρ).filled = [] :=
    List.filter_eq_nil_iff.mpr fun x hx => by
      have hne : x ≠ ρ := fun heq => hrs (heq ▸ hx)
      simp [filled_pair, hfilled x hx, hne]
  show (N.recvsOn accepts ch).filter (N.pair μ ρ).filled = _
  rw [h.first ch, hr, List.filter_append, hbefore,
    List.filter_cons_of_pos (by simp [filled_pair]), hafter]

theorem ne_of_recvsOn (h : Fifo accepts N) (hr : N.openRecvs accepts ch = ρ :: rs)
    (hne : ch' ≠ ch) {x : O} (hx : x ∈ N.recvsOn accepts ch') : x ≠ ρ := by
  rintro rfl
  obtain ⟨p, hp, hch⟩ := mem_recvsOn.mp (next_recv hr).1
  obtain ⟨p', hp', hch'⟩ := mem_recvsOn.mp hx
  obtain rfl := h.ok.pattern_eq hp hp'
  exact hne (h.exclusive p x hp ch' ch hch' hch)

theorem pair (h : Fifo accepts N) (hs : N.openSends ch = μ :: ss)
    (hr : N.openRecvs accepts ch = ρ :: rs) : Fifo accepts (N.pair μ ρ) where
  ok := h.ok.pair hs hr
  exclusive := h.exclusive
  first c := by
    by_cases hc : c = ch
    · subst hc
      rw [recvsOn_pair, h.filledOn_pair hr, openRecvs_pair_self h.ok hr, h.first c, hr]
      simp
    · have hne := fun x hx => h.ne_of_recvsOn hr hc (x := x) hx
      have hfilled : (N.pair μ ρ).filledOn accepts c = N.filledOn accepts c :=
        List.filter_congr fun x hx => by simp [filled_pair, hne x hx]
      have hopen : (N.pair μ ρ).openRecvs accepts c = N.openRecvs accepts c :=
        List.filter_congr fun x hx => by simp [filled_pair, hne x hx]
      rw [recvsOn_pair, hfilled, hopen, h.first c]
  inOrder c := by
    have hold : ∀ {M R : List O}, List.Forall₂ (fun μ ρ => (μ, ρ) ∈ N.pairs) M R →
        List.Forall₂ (fun a b => (a, b) ∈ (N.pair μ ρ).pairs) M R := fun hMR =>
      hMR.imp fun _ _ hp => List.mem_cons_of_mem _ hp
    by_cases hc : c = ch
    · subst hc
      rw [takenOn_pair h.ok hs, h.filledOn_pair hr]
      exact List.rel_append (hold (h.inOrder c)) (.cons List.mem_cons_self .nil)
    · have hfilled : (N.pair μ ρ).filledOn accepts c = N.filledOn accepts c :=
        List.filter_congr fun x hx => by simp [filled_pair, h.ne_of_recvsOn hr hc hx]
      rw [takenOn_pair_of_ne h.ok (next_send hs).1 hc, hfilled]
      exact hold (h.inOrder c)

end

theorem deliver (h : Fifo accepts N) (ch : Ch) : Fifo accepts (N.deliver accepts ch) := by
  rcases deliver_cases accepts ch N with heq | ⟨μ, ss, ρ, rs, hs, hr, heq⟩
  · rwa [heq]
  · rw [heq]
    exact h.pair hs hr

theorem getElem_pair (h : Fifo accepts N) (hp : (μ, ρ) ∈ N.pairs) :
    ∃ ch, ∃ i : ℕ, (N.sendsOn ch)[i]? = some μ ∧ (N.recvsOn accepts ch)[i]? = some ρ := by
  obtain ⟨ch, hμ, -⟩ := h.ok.mem μ ρ hp
  have hμ' : μ ∈ N.takenOn ch := mem_takenOn.mpr ⟨hμ, taken_iff.mpr ⟨ρ, hp⟩⟩
  obtain ⟨i, hi, hget⟩ := List.mem_iff_getElem.mp hμ'
  have hlen := (h.inOrder ch).length_eq
  have hi' : i < (N.filledOn accepts ch).length := hlen ▸ hi
  have hpair := (List.forall₂_iff_get.mp (h.inOrder ch)).2 i hi hi'
  have hρ : (N.filledOn accepts ch)[i] = ρ := by
    refine (h.ok.receive_eq hp ?_).symm
    simpa [hget] using hpair
  refine ⟨ch, i, ?_, ?_⟩
  · rw [h.ok.first ch, List.getElem?_append_left hi, List.getElem?_eq_getElem hi, hget]
  · rw [h.first ch, List.getElem?_append_left hi', List.getElem?_eq_getElem hi', hρ]

theorem pair_of_lt (h : Fifo accepts N) {i : ℕ} (hi : i < (N.takenOn ch).length)
    (hμ : (N.sendsOn ch)[i]? = some μ) (hρ : (N.recvsOn accepts ch)[i]? = some ρ) :
    (μ, ρ) ∈ N.pairs := by
  have hi' : i < (N.filledOn accepts ch).length := (h.inOrder ch).length_eq ▸ hi
  rw [h.ok.first ch, List.getElem?_append_left hi, List.getElem?_eq_getElem hi] at hμ
  rw [h.first ch, List.getElem?_append_left hi', List.getElem?_eq_getElem hi'] at hρ
  have hpair := (List.forall₂_iff_get.mp (h.inOrder ch)).2 i hi hi'
  simp only [Option.some.injEq] at hμ hρ
  simpa [hμ, hρ] using hpair

theorem mem_pairs_iterate (hp : (μ, ρ) ∈ N.pairs) (k : ℕ) :
    (μ, ρ) ∈ ((Net.deliver accepts ch)^[k] N).pairs := by
  induction k generalizing N with
  | zero => exact hp
  | succ k ih =>
    rw [Function.iterate_succ_apply]
    exact ih (mem_pairs_deliver hp)

theorem pair_of_deliveries (h : Fifo accepts N) {i : ℕ} (hμ : (N.sendsOn ch)[i]? = some μ)
    (hρ : (N.recvsOn accepts ch)[i]? = some ρ) (k : ℕ) (hk : i < (N.takenOn ch).length + k) :
    (μ, ρ) ∈ ((Net.deliver accepts ch)^[k] N).pairs := by
  -- by induction on the deliveries; each one takes a message as long as position `i` is open
  induction k generalizing N with
  | zero => exact h.pair_of_lt hk hμ hρ
  | succ k ih =>
    by_cases hi : i < (N.takenOn ch).length
    · exact mem_pairs_iterate (h.pair_of_lt hi hμ hρ) _
    · have hlen := (h.inOrder ch).length_eq
      obtain ⟨a, ss, hs⟩ : ∃ a ss, N.openSends ch = a :: ss := by
        rw [h.ok.first ch, List.getElem?_append_right (by omega)] at hμ
        exact List.exists_cons_of_ne_nil fun hnil => by simp [hnil] at hμ
      obtain ⟨b, rs, hr⟩ : ∃ b rs, N.openRecvs accepts ch = b :: rs := by
        rw [h.first ch, List.getElem?_append_right (by omega)] at hρ
        exact List.exists_cons_of_ne_nil fun hnil => by simp [hnil] at hρ
      have hdeliver : N.deliver accepts ch = N.pair a b := by simp [Net.deliver, hs, hr]
      rw [Function.iterate_succ_apply, hdeliver]
      refine ih (h.pair hs hr) hμ hρ ?_
      rw [takenOn_pair h.ok hs, List.length_append, List.length_singleton]
      omega

end Fifo

end Net

end CritPath.Lib
