import Mathlib.Logic.Function.Basic
import Mathlib.Order.Nat

/-!
# Parties that pass phases together

Parties enter and leave phases `0, 1, 2, …`; nobody leaves a phase before all
have entered it. One of them, the leader, has something to do after it entered
a phase and before its entering counts: it prepares the next phase. What
belongs to a phase is kept in one of three slots. A phase is live from the time
its slot is prepared until the last party leaves it, and the live phases use
different slots (`Live.eq_of_mod`).
-/

namespace CritPath.Lib

/-- How many phases each party has entered and left, and whether the leader still prepares. -/
structure Phases (T : Type) where
  begun : T → ℕ
  ended : T → ℕ
  busy : Bool

namespace Phases

variable {T : Type}

def start (T : Type) : Phases T := ⟨fun _ => 0, fun _ => 0, false⟩

variable [DecidableEq T]

/-- Party `p` enters its next phase; `leads` says whether it has to prepare. -/
def enter (p : T) (leads : Bool) (φ : Phases T) : Phases T :=
  { φ with begun := Function.update φ.begun p (φ.begun p + 1), busy := φ.busy || leads }

def prepare (φ : Phases T) : Phases T := { φ with busy := false }

def leave (p : T) (φ : Phases T) : Phases T :=
  { φ with ended := Function.update φ.ended p (φ.ended p + 1) }

def entered (lead : T) (φ : Phases T) (q : T) : ℕ :=
  if φ.busy = true ∧ q = lead then φ.begun q - 1 else φ.begun q

/-- Everyone is in a phase or between two, and nobody has left a phase that another one has not
entered. -/
structure Ok (lead : T) (φ : Phases T) : Prop where
  ended_le : ∀ p, φ.ended p ≤ φ.begun p
  begun_le : ∀ p, φ.begun p ≤ φ.ended p + 1
  ended_le_entered : ∀ p q, φ.ended p ≤ φ.entered lead q
  busy : φ.busy = true → φ.begun lead = φ.ended lead + 1

/-- Phase `k` is prepared and somebody has not left it. -/
def Live (lead : T) (φ : Phases T) (k : ℕ) : Prop :=
  (∃ p, φ.ended p ≤ k) ∧ k ≤ φ.entered lead lead

variable {lead : T} {φ : Phases T} {p q : T} {k l : ℕ}

theorem entered_le (lead : T) (φ : Phases T) (q : T) : φ.entered lead q ≤ φ.begun q := by
  unfold entered; split <;> omega

theorem entered_of_busy (h : φ.busy = true) : φ.entered lead lead = φ.begun lead - 1 := by
  simp [entered, h]

theorem entered_of_not_busy (h : φ.busy = false) (q : T) : φ.entered lead q = φ.begun q := by
  simp [entered, h]

@[simp] theorem entered_prepare (q : T) : φ.prepare.entered lead q = φ.begun q :=
  entered_of_not_busy rfl q

@[simp] theorem entered_leave (p q : T) : (φ.leave p).entered lead q = φ.entered lead q := rfl

theorem le_entered_enter (p : T) (leads : Bool) (hleads : leads = true ↔ p = lead)
    (hp : p = lead → φ.busy = false) (q : T) :
    φ.entered lead q ≤ (φ.enter p leads).entered lead q := by
  by_cases hq : q = p
  · subst hq
    by_cases hl : q = lead
    · simp [entered, enter, hp hl, hleads.mpr hl, hl]
    · have : leads = false := by simpa [hl] using hleads
      simp [entered, enter, hl]
  · by_cases hl : q = lead
    · subst hl
      have : leads = false := by simpa [Ne.symm hq] using hleads
      simp [entered, enter, hq, this]
    · simp [entered, enter, hq, hl]

namespace Ok

theorem start (lead : T) : Ok lead (.start T) :=
  ⟨fun _ => le_refl _, fun _ => Nat.zero_le _, fun _ _ => Nat.zero_le _, fun h => nomatch h⟩

theorem not_busy (h : Ok lead φ) (hp : φ.begun lead = φ.ended lead) : φ.busy = false := by
  by_contra hb
  have := h.busy (by simpa using hb)
  omega

theorem enter (h : Ok lead φ) {leads : Bool} (hleads : leads = true ↔ p = lead)
    (hp : φ.begun p = φ.ended p) : Ok lead (φ.enter p leads) where
  ended_le q := by
    have := h.ended_le q
    by_cases hq : q = p
    · subst hq; simp only [Phases.enter, Function.update_self]; omega
    · simpa [Phases.enter, hq] using this
  begun_le q := by
    have := h.begun_le q
    by_cases hq : q = p
    · subst hq; simp only [Phases.enter, Function.update_self]; omega
    · simpa [Phases.enter, hq] using this
  ended_le_entered r q :=
    (h.ended_le_entered r q).trans
      (le_entered_enter p leads hleads (by rintro rfl; exact h.not_busy hp) q)
  busy hb := by
    by_cases hl : lead = p
    · subst hl; simp [Phases.enter, hp]
    · have hleads' : leads = false := by simpa [Ne.symm hl] using hleads
      have hb' : φ.busy = true := by simpa [Phases.enter, hleads'] using hb
      simpa [Phases.enter, hl] using h.busy hb'

theorem prepare (h : Ok lead φ) : Ok lead φ.prepare where
  ended_le := h.ended_le
  begun_le := h.begun_le
  ended_le_entered p q := (h.ended_le_entered p q).trans (entered_le lead φ q)
  busy hb := nomatch hb

theorem leave (h : Ok lead φ) (hp : φ.begun p = φ.ended p + 1)
    (hall : ∀ q, φ.begun p ≤ φ.entered lead q) : Ok lead (φ.leave p) where
  ended_le q := by
    have := h.ended_le q
    by_cases hq : q = p
    · subst hq; simp only [Phases.leave, Function.update_self]; omega
    · simpa [Phases.leave, hq] using this
  begun_le q := by
    have := h.begun_le q
    by_cases hq : q = p
    · subst hq; simp only [Phases.leave, Function.update_self]; omega
    · simpa [Phases.leave, hq] using this
  ended_le_entered r q := by
    by_cases hr : r = p
    · subst hr
      simp only [Phases.leave, Function.update_self]
      exact hp.symm.le.trans (hall q)
    · rw [entered_leave]
      simpa [Phases.leave, hr] using h.ended_le_entered r q
  busy hb := by
    have hb' : φ.busy = true := hb
    by_cases hl : lead = p
    · -- the leader cannot leave while it prepares
      subst hl
      have := hall lead
      rw [entered_of_busy hb'] at this
      omega
    · simpa [Phases.leave, hl] using h.busy hb'

/-- The phase a party is in or will enter next is live. -/
theorem live_ended (h : Ok lead φ) (p : T) : Live lead φ (φ.ended p) :=
  ⟨⟨p, le_refl _⟩, h.ended_le_entered p lead⟩

end Ok

/-- Live phases are close together. -/
theorem Live.le_add_two (h : Ok lead φ) (hk : Live lead φ k) (hl : Live lead φ l) : k ≤ l + 2 := by
  obtain ⟨p, hp⟩ := hl.1
  have h₁ := hk.2.trans (entered_le lead φ lead)
  have h₂ := h.begun_le lead
  have h₃ := (h.ended_le_entered lead p).trans (entered_le lead φ p)
  have h₄ := h.begun_le p
  omega

/-- Live phases have different slots. -/
theorem Live.eq_of_mod (h : Ok lead φ) (hk : Live lead φ k) (hl : Live lead φ l)
    (hmod : k % 3 = l % 3) : k = l := by
  have h₁ := hk.le_add_two h hl
  have h₂ := hl.le_add_two h hk
  omega

theorem live_prepare (h : Ok lead φ) (hb : φ.busy = true) :
    Live lead φ.prepare (φ.ended lead + 1) ∧ ∀ q, φ.begun q ≤ φ.ended lead + 1 := by
  have hlead := h.busy hb
  refine ⟨⟨⟨lead, Nat.le_succ _⟩, ?_⟩, fun q => ?_⟩
  · rw [entered_prepare]; exact hlead.ge
  · have h₁ := h.begun_le q
    have h₂ := h.ended_le_entered q lead
    rw [entered_of_busy hb] at h₂
    omega

/-- Before the leader has prepared, fewer phases are live. -/
theorem Live.of_prepare (h : Ok lead φ) (hb : φ.busy = true) (hk : Live lead φ.prepare k)
    (hne : k ≠ φ.ended lead + 1) : Live lead φ k := by
  have hlead := h.busy hb
  have hle := hk.2
  rw [entered_prepare] at hle
  refine ⟨hk.1, ?_⟩
  rw [entered_of_busy hb]
  omega

theorem Live.of_enter {leads : Bool} (h : Ok lead φ) (hleads : leads = true ↔ p = lead)
    (hp : φ.begun p = φ.ended p) (hk : Live lead (φ.enter p leads) k) : Live lead φ k := by
  refine ⟨hk.1, hk.2.trans (le_of_eq ?_)⟩
  by_cases hl : lead = p
  · subst hl
    have hb := h.not_busy hp
    simp [entered, Phases.enter, hb, hleads]
  · have : leads = false := by simpa [Ne.symm hl] using hleads
    simp [entered, Phases.enter, hl, this]

theorem Live.of_leave (hk : Live lead (φ.leave p) k) : Live lead φ k := by
  obtain ⟨q, hq⟩ := hk.1
  refine ⟨⟨q, le_trans ?_ hq⟩, hk.2⟩
  by_cases hqp : q = p
  · subst hqp; simp [leave]
  · simp [leave, hqp]

end Phases

end CritPath.Lib
