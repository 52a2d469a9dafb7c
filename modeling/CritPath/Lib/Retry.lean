import CritPath.Lib.Runs

/-!
# Compare-exchange loops on a shared value

Any number of calls change one shared value. A call loads the value; as long as
the value it has seen is one it wants to change, it tries to exchange that value
for the new one. The exchange succeeds only if the shared value is still the one
seen, may fail although it is, and otherwise hands the call the current value.

`Linear` replays the calls that have returned one after the other, each on the
value the one before it left. `exists_linear` finds such a replay for every
interleaving: a call takes effect at the step that lets it return.
-/

namespace CritPath.Lib.Retry

/-- What a call with argument `A` does: which values it wants to change, and to what. -/
structure Loop (A α : Type) where
  wants : A → α → Prop
  next : A → α → α
  decide_wants : ∀ a v, Decidable (wants a v)

instance {A α : Type} (L : Loop A α) (a : A) (v : α) : Decidable (L.wants a v) :=
  L.decide_wants a v

inductive Phase (α : Type)
  | idle
  /-- In the loop, with the value last seen. -/
  | trying (seen : α)
  /-- Back from the call; `seen` is the value it took effect on. -/
  | returned (seen : α)
  deriving DecidableEq

def Phase.isReturned {α : Type} : Phase α → Prop
  | .returned _ => True
  | _ => False

instance {α : Type} : DecidablePred (Phase.isReturned (α := α))
  | .returned _ => .isTrue trivial
  | .idle | .trying _ => .isFalse id

structure Shared (ι α : Type) where
  value : α
  phase : ι → Phase α

def Shared.start {ι α : Type} (v : α) : Shared ι α := ⟨v, fun _ => .idle⟩

def Shared.allReturned {ι α : Type} (s : Shared ι α) : Prop := ∀ i, (s.phase i).isReturned

namespace Loop

variable {ι A α : Type} [DecidableEq ι] [DecidableEq α] (L : Loop A α) (args : ι → A)

def effect (a : A) (v : α) : α := if L.wants a v then L.next a v else v

def test (a : A) (v : α) : Phase α := if L.wants a v then .trying v else .returned v

/-- One load or compare-exchange of call `l.1`; `l.2` makes an exchange fail. -/
def step (s : Shared ι α) (l : ι × Bool) : Shared ι α :=
  match s.phase l.1 with
  | .idle => { s with phase := Function.update s.phase l.1 (L.test (args l.1) s.value) }
  | .trying seen =>
    if s.value = seen ∧ l.2 = false then
      ⟨L.next (args l.1) seen, Function.update s.phase l.1 (.returned seen)⟩
    else { s with phase := Function.update s.phase l.1 (L.test (args l.1) s.value) }
  | .returned _ => s

def machine : Machine (Shared ι α) (ι × Bool) where
  step := L.step args

/-- The calls with the values they saw, the last first, replayed from `v` to `w`. -/
def Linear (v : α) : List (ι × α) → α → Prop
  | [], w => w = v
  | (i, seen) :: before, w => Linear v before seen ∧ w = L.effect (args i) seen

variable {L args} {s : Shared ι α} {l : ι × Bool} {v w : α} {h : List (ι × α)}

theorem step_cases (s : Shared ι α) (l : ι × Bool)
    (htry : ∀ i seen, s.phase i = .trying seen → L.wants (args i) seen) :
    ((s.phase l.1).isReturned ∧ L.step args s l = s) ∨
    (¬ (s.phase l.1).isReturned ∧ L.wants (args l.1) s.value ∧
      L.step args s l =
        { s with phase := Function.update s.phase l.1 (.trying s.value) }) ∨
    (¬ (s.phase l.1).isReturned ∧
      L.step args s l =
        ⟨L.effect (args l.1) s.value, Function.update s.phase l.1 (.returned s.value)⟩) := by
  -- after a load and after a failed exchange the loop condition decides
  have htest : ∀ t : Shared ι α,
      t = { s with phase := Function.update s.phase l.1 (L.test (args l.1) s.value) } →
      (L.wants (args l.1) s.value ∧
        t = { s with phase := Function.update s.phase l.1 (.trying s.value) }) ∨
      t = ⟨L.effect (args l.1) s.value, Function.update s.phase l.1 (.returned s.value)⟩ := by
    rintro t rfl
    by_cases hw : L.wants (args l.1) s.value
    · exact .inl ⟨hw, by simp only [test, if_pos hw]⟩
    · exact .inr (by simp only [test, effect, if_neg hw])
  unfold step
  cases hp : s.phase l.1 with
  | returned seen => exact .inl ⟨trivial, rfl⟩
  | idle => exact .inr ((htest _ rfl).imp (fun h => ⟨id, h⟩) (fun h => ⟨id, h⟩))
  | trying seen =>
    simp only
    split
    · rename_i hcas
      obtain ⟨rfl, -⟩ := hcas
      have hw := htry _ _ hp
      exact .inr (.inr ⟨id, by simp only [effect, if_pos hw]⟩)
    · exact .inr ((htest _ rfl).imp (fun h => ⟨id, h⟩) (fun h => ⟨id, h⟩))

variable (L args) in
/-- The history explains the shared value and names the calls that have returned. -/
structure Explains (v : α) (h : List (ι × α)) (s : Shared ι α) : Prop where
  linear : L.Linear args v h s.value
  nodup : (h.map Prod.fst).Nodup
  mem_iff : ∀ i seen, (i, seen) ∈ h ↔ s.phase i = .returned seen
  wants : ∀ i seen, s.phase i = .trying seen → L.wants (args i) seen

omit [DecidableEq ι] [DecidableEq α] in
theorem explains_start (v : α) : Explains L args v [] (Shared.start v) where
  linear := rfl
  nodup := List.nodup_nil
  mem_iff := fun i seen => by simp [Shared.start]
  wants := fun i seen hp => by simp [Shared.start] at hp

theorem Explains.step (he : Explains L args v h s) (l : ι × Bool) :
    ∃ h', Explains L args v h' (L.step args s l) := by
  have hnot : ∀ seen, ¬ (s.phase l.1).isReturned → (l.1, seen) ∉ h := by
    intro seen hr hmem
    rw [(he.mem_iff l.1 seen).mp hmem] at hr
    exact hr trivial
  rcases step_cases s l he.wants with ⟨-, heq⟩ | ⟨hr, hw, heq⟩ | ⟨hr, heq⟩
  · exact ⟨h, by rw [heq]; exact he⟩
  · refine ⟨h, ?_⟩
    rw [heq]
    refine ⟨he.linear, he.nodup, fun i seen => ?_, fun i seen hp => ?_⟩
    · by_cases hi : i = l.1
      · subst hi
        simpa using hnot seen hr
      · simpa [hi] using he.mem_iff i seen
    · by_cases hi : i = l.1
      · subst hi
        obtain rfl : s.value = seen := by simpa using hp
        exact hw
      · exact he.wants i seen (by simpa [hi] using hp)
  · refine ⟨(l.1, s.value) :: h, ?_⟩
    rw [heq]
    refine ⟨⟨he.linear, rfl⟩, ?_, fun i seen => ?_, fun i seen hp => ?_⟩
    · rw [List.map_cons, List.nodup_cons]
      refine ⟨fun hmem => ?_, he.nodup⟩
      obtain ⟨⟨i, seen⟩, hmem, rfl⟩ := List.mem_map.mp hmem
      exact hnot seen hr hmem
    · by_cases hi : i = l.1
      · subst hi
        simp [hnot seen hr, eq_comm]
      · simpa [hi] using he.mem_iff i seen
    · by_cases hi : i = l.1
      · subst hi
        simp at hp
      · exact he.wants i seen (by simpa [hi] using hp)

variable (L args) in
/-- Every interleaving is explained by a replay of the calls that have returned. -/
theorem exists_linear (v : α) (ls : List (ι × Bool)) :
    ∃ h, Explains L args v h ((L.machine args).run (Shared.start v) ls) :=
  Machine.run_inv (M := L.machine args) (I := fun s => ∃ h, Explains L args v h s)
    (fun _ l ⟨_, he⟩ => he.step l) ⟨[], explains_start v⟩ ls

omit [DecidableEq ι] [DecidableEq α] in
/-- The value after a replay is the fold of the effects. -/
theorem Linear.eq_foldr (hl : L.Linear args v h w) :
    w = (h.map Prod.fst).foldr (fun i u => L.effect (args i) u) v := by
  induction h generalizing w with
  | nil => exact hl
  | cons c before ih =>
    obtain ⟨hbefore, rfl⟩ := hl
    rw [List.map_cons, List.foldr_cons, ← ih hbefore]

theorem exists_order {ls : List (ι × Bool)}
    (hret : ((L.machine args).run (Shared.start v) ls).allReturned) :
    ∃ order : List ι, order.Nodup ∧ (∀ i, i ∈ order) ∧
      ((L.machine args).run (Shared.start v) ls).value =
        order.foldr (fun i u => L.effect (args i) u) v := by
  obtain ⟨h, he⟩ := exists_linear L args v ls
  refine ⟨h.map Prod.fst, he.nodup, fun i => ?_, he.linear.eq_foldr⟩
  have hi := hret i
  cases hp : ((L.machine args).run (Shared.start v) ls).phase i with
  | idle => rw [hp] at hi; exact hi.elim
  | trying seen => rw [hp] at hi; exact hi.elim
  | returned seen => exact List.mem_map.mpr ⟨(i, seen), (he.mem_iff i seen).mpr hp, rfl⟩

variable (L args) in
theorem value_step (v : α) (ls : List (ι × Bool)) (l : ι × Bool) :
    let s := (L.machine args).run (Shared.start v) ls
    (L.step args s l).value = s.value ∨ (L.step args s l).value = L.effect (args l.1) s.value := by
  obtain ⟨h, he⟩ := exists_linear L args v ls
  rcases step_cases _ l he.wants with ⟨-, heq⟩ | ⟨-, -, heq⟩ | ⟨-, heq⟩
  · exact .inl (by rw [heq])
  · exact .inl (by rw [heq])
  · exact .inr (by rw [heq])

/-! ## Completing an interleaving -/

theorem isReturned_step {i : ι} (hr : (s.phase i).isReturned) (l : ι × Bool) :
    ((L.step args s l).phase i).isReturned := by
  by_cases hi : i = l.1
  · subst hi
    cases hp : s.phase l.1 with
    | idle => rw [hp] at hr; exact hr.elim
    | trying seen => rw [hp] at hr; exact hr.elim
    | returned seen => simp [step, hp, Phase.isReturned]
  · cases hp : s.phase l.1 with
    | idle => simpa [step, hp, hi] using hr
    | trying seen =>
      simp only [step, hp]
      split <;> simpa [hi] using hr
    | returned seen => simpa [step, hp] using hr

theorem isReturned_run {i : ι} (hr : (s.phase i).isReturned) (ls : List (ι × Bool)) :
    (((L.machine args).run s ls).phase i).isReturned :=
  Machine.run_inv (M := L.machine args) (I := fun s => (s.phase i).isReturned)
    (fun _ l h => isReturned_step h l) hr ls

theorem isReturned_two (s : Shared ι α) (i : ι) :
    (((L.machine args).run s [(i, false), (i, false)]).phase i).isReturned := by
  -- a call that has just seen the current value returns with its next step
  have hfresh : ∀ t : Shared ι α, (t.phase i).isReturned ∨ t.phase i = .trying t.value →
      ((L.step args t (i, false)).phase i).isReturned := by
    rintro t (hr | hp)
    · exact isReturned_step hr _
    · simp [step, hp, Phase.isReturned]
  have htest : ∀ t : Shared ι α,
      ((L.step args t (i, false)).phase i).isReturned ∨
        (L.step args t (i, false)).phase i = .trying (L.step args t (i, false)).value := by
    intro t
    cases hp : t.phase i with
    | returned seen => exact .inl (by simp [step, hp, Phase.isReturned])
    | idle =>
      by_cases hw : L.wants (args i) t.value
      · exact .inr (by simp [step, hp, test, hw])
      · exact .inl (by simp [step, hp, test, hw, Phase.isReturned])
    | trying seen =>
      by_cases hv : t.value = seen
      · exact .inl (by simp [step, hp, hv, Phase.isReturned])
      · by_cases hw : L.wants (args i) t.value
        · exact .inr (by simp [step, hp, hv, test, hw])
        · exact .inl (by simp [step, hp, hv, test, hw, Phase.isReturned])
  exact hfresh _ (htest s)

variable (L args) in
/-- Every interleaving of finitely many calls can be completed. -/
theorem exists_allReturned (s : Shared ι α) (calls : List ι) (hall : ∀ i, i ∈ calls) :
    ∃ ls, ((L.machine args).run s ls).allReturned := by
  suffices h : ∃ ls, ∀ i ∈ calls, (((L.machine args).run s ls).phase i).isReturned by
    obtain ⟨ls, hls⟩ := h
    exact ⟨ls, fun i => hls i (hall i)⟩
  clear hall
  induction calls with
  | nil => exact ⟨[], fun i hi => by simp at hi⟩
  | cons i calls ih =>
    obtain ⟨ls, hls⟩ := ih
    refine ⟨ls ++ [(i, false), (i, false)], fun j hj => ?_⟩
    rw [Machine.run_append]
    rcases List.mem_cons.mp hj with rfl | hj
    · exact isReturned_two _ _
    · exact isReturned_run (hls j hj) _

end Loop

end CritPath.Lib.Retry
