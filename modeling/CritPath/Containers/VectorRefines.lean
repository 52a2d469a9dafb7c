import CritPath.Containers.Vector
import Mathlib.Logic.Equiv.Basic

/-!
# Vectors refine lists

`Inv` ties a world to the lists of its variables: the block of a vector holds the
elements in its first slots and nothing else, no two vectors share a block, and
no object or block is outside the vectors. An operation is at most a growth
(`Inv.room`), which leaves the lists as they are, and an edit of one block in
place (`Inv.edit`), which must only leave the new list in the block.

The commands of a run are all allowed, so by `Lifetime.births_eq` every object is
destroyed exactly once or still an element.
-/

namespace CritPath.Containers

open CritPath.Lib CritPath.Lib.Lifetime

variable {α : Type} {T : ElementType α} {w : World α} {ls : Lists α} {v : ℕ} {l : List α}

/-- The vector's block holds the list. -/
structure Holds (st : Store α) (x : Vector) (l : List α) : Prop where
  slots : st.slot x.begin_ = fun q => l[q]?
  size : x.end_ = l.length
  fits : l.length ≤ x.last_
  null : x.begin_ = 0 → x.last_ = 0
  block : x.begin_ ≠ 0 → st.size x.begin_ = some x.last_

structure Inv (T : ElementType α) (w : World α) (ls : Lists α) : Prop where
  trace : execAll T.moved {} w.trace = some w.store
  holds : ∀ v, Holds w.store (w.vec v) (ls v)
  /-- No two vectors share a block. -/
  apart : ∀ v v', (w.vec v).begin_ = (w.vec v').begin_ → (w.vec v).begin_ ≠ 0 → v = v'
  /-- Every allocated block is a vector's. -/
  owned : ∀ b, w.store.size b ≠ none → b ≠ 0 ∧ ∃ v, (w.vec v).begin_ = b
  /-- There are no objects outside the vectors. -/
  raw : ∀ b, (∀ v, (w.vec v).begin_ ≠ b) → ∀ q, w.store.slot b q = none
  fresh : ∀ v, (w.vec v).begin_ < w.store.fresh

theorem inv_init (T : ElementType α) : Inv T {} fun _ => [] where
  trace := rfl
  holds _ := ⟨rfl, rfl, Nat.le_refl _, fun _ => rfl, fun h => absurd rfl h⟩
  apart _ _ _ h := absurd rfl h
  owned _ h := absurd rfl h
  raw _ _ _ := rfl
  fresh _ := Nat.one_pos

theorem Holds.eq_nil {st : Store α} {x : Vector} (h : Holds st x l) (h0 : x.begin_ = 0) :
    l = [] := by
  have hlast := h.null h0
  have hfits := h.fits
  exact List.eq_nil_of_length_eq_zero (by omega)

theorem Holds.congr {st st' : Store α} {x : Vector} (h : Holds st x l)
    (hslot : st'.slot x.begin_ = st.slot x.begin_)
    (hsize : x.begin_ ≠ 0 → st'.size x.begin_ = st.size x.begin_) : Holds st' x l where
  slots := hslot.trans h.slots
  size := h.size
  fits := h.fits
  null := h.null
  block h0 := (hsize h0).trans (h.block h0)

namespace World

@[simp] theorem vec_set_self (w : World α) (v : ℕ) (x : Vector) : (w.set v x).vec v = x := by
  simp [set]

theorem vec_set_ne (w : World α) {v v' : ℕ} (h : v' ≠ v) (x : Vector) :
    (w.set v x).vec v' = w.vec v' := by
  simp [set, h]

@[simp] theorem begin_setEnd (w : World α) (v n v' : ℕ) :
    ((w.setEnd v n).vec v').begin_ = (w.vec v').begin_ := by
  by_cases h : v' = v
  · subst h
    simp [setEnd]
  · rw [setEnd, vec_set_ne _ h]

theorem exec_of_some {cs : List (Cmd α)} {st : Store α}
    (h : execAll T.moved w.store cs = some st) :
    w.exec T cs = some { w with store := st, trace := w.trace ++ cs } := by
  rw [exec, h]
  rfl

end World

theorem Inv.size_eq (h : Inv T w ls) (v : ℕ) : w.size v = (ls v).length := (h.holds v).size

theorem Inv.length_le (h : Inv T w ls) (v : ℕ) : (ls v).length ≤ w.capacity v := (h.holds v).fits

theorem Inv.begin_ne (h : Inv T w ls) (hcap : 0 < w.capacity v) : (w.vec v).begin_ ≠ 0 := by
  intro h0
  have hlast := (h.holds v).null h0
  simp only [World.capacity] at hcap
  omega

theorem Inv.slot_eq (h : Inv T w ls) (v : ℕ) :
    w.store.slot (w.vec v).begin_ = fun q => (ls v)[q]? := (h.holds v).slots

theorem Inv.slot_apply (h : Inv T w ls) (v q : ℕ) :
    w.store.slot (w.vec v).begin_ q = (ls v)[q]? := congrFun (h.slot_eq v) q

theorem Inv.block (h : Inv T w ls) (hcap : 0 < w.capacity v) :
    w.store.size (w.vec v).begin_ = some (w.capacity v) := (h.holds v).block (h.begin_ne hcap)

theorem Inv.eq_nil_of_shared (h : Inv T w ls) {v' : ℕ} (hv : v' ≠ v)
    (hb : (w.vec v').begin_ = (w.vec v).begin_) : (w.vec v').begin_ = 0 ∧ ls v' = [] := by
  have h0 : (w.vec v').begin_ = 0 := by
    by_contra hne
    exact hv (h.apart v' v hb hne)
  exact ⟨h0, (h.holds v').eq_nil h0⟩

structure Replaces (w : World α) (v : ℕ) (st : Store α) (x : Vector) (l : List α) : Prop where
  holds : Holds st x l
  begin_ : x.begin_ = (w.vec v).begin_ ∨ x.begin_ = 0 ∨ x.begin_ = w.store.fresh
  fresh : w.store.fresh ≤ st.fresh ∧ x.begin_ < st.fresh
  slot : ∀ b, b ≠ (w.vec v).begin_ → b ≠ x.begin_ → st.slot b = w.store.slot b
  size : ∀ b, b ≠ (w.vec v).begin_ → b ≠ x.begin_ → st.size b = w.store.size b
  left : (w.vec v).begin_ ≠ x.begin_ →
    (∀ q, st.slot (w.vec v).begin_ q = none) ∧ st.size (w.vec v).begin_ = none
  zero : st.size 0 = none

theorem Replaces.holds_other {st : Store α} {x : Vector} (h : Inv T w ls)
    (hr : Replaces w v st x l) {v' : ℕ} (hv : v' ≠ v) : Holds st (w.vec v') (ls v') := by
  have hlt := h.fresh v'
  by_cases hb : (w.vec v').begin_ = (w.vec v).begin_
  · obtain ⟨h0, hnil⟩ := h.eq_nil_of_shared hv hb
    refine (h.holds v').congr (funext fun q => ?_) fun hne => absurd h0 hne
    rw [h.slot_eq, hnil]
    by_cases hx : (w.vec v).begin_ = x.begin_
    · rw [hb, hx, hr.holds.slots, hr.holds.eq_nil (by omega)]
    · rw [hb]
      exact (hr.left hx).1 q
  · by_cases hx : (w.vec v').begin_ = x.begin_
    · -- the block of the other vector is neither the old nor a new one, so both are null
      have h0 : x.begin_ = 0 := by
        rcases hr.begin_ with hx' | hx' | hx' <;> omega
      refine (h.holds v').congr ?_ fun hne => absurd (hx.trans h0) hne
      rw [h.slot_eq, (h.holds v').eq_nil (hx.trans h0), hx, hr.holds.slots,
        hr.holds.eq_nil h0]
    · exact (h.holds v').congr (hr.slot _ hb hx) fun _ => hr.size _ hb hx

/-- The block is shared with another vector only when it is null. -/
theorem Replaces.begin_eq_zero {st : Store α} {x : Vector} (h : Inv T w ls)
    (hr : Replaces w v st x l) {v' : ℕ} (hv : v' ≠ v) (hb : x.begin_ = (w.vec v').begin_) :
    x.begin_ = 0 := by
  have hlt := h.fresh v'
  rcases hr.begin_ with hx | hx | hx
  · by_contra hne
    exact hv (h.apart v' v (by omega) (by omega))
  · exact hx
  · omega

theorem Replaces.apart {st : Store α} {x : Vector} (h : Inv T w ls) (hr : Replaces w v st x l)
    {w' : World α} {v₁ v₂ : ℕ} (hb : ((w'.set v x).vec v₁).begin_ = ((w'.set v x).vec v₂).begin_)
    (hne : ((w'.set v x).vec v₁).begin_ ≠ 0) (hvec : w'.vec = w.vec) : v₁ = v₂ := by
  by_cases h1 : v₁ = v
  · subst h1
    by_contra h2
    rw [World.vec_set_self] at hb hne
    rw [World.vec_set_ne _ (Ne.symm h2), hvec] at hb
    exact hne (hr.begin_eq_zero h (Ne.symm h2) hb)
  · rw [World.vec_set_ne _ h1, hvec] at hb hne
    by_cases h2 : v₂ = v
    · subst h2
      rw [World.vec_set_self] at hb
      exact absurd (hb.trans (hr.begin_eq_zero h h1 hb.symm)) hne
    · rw [World.vec_set_ne _ h2, hvec] at hb
      exact h.apart v₁ v₂ hb hne

theorem Inv.replace {cs : List (Cmd α)} {st : Store α} {x : Vector} (h : Inv T w ls)
    (hcs : execAll T.moved w.store cs = some st) (hr : Replaces w v st x l) :
    Inv T (World.set { w with store := st, trace := w.trace ++ cs } v x)
      (Function.update ls v l) where
  trace := (execAll_append_of_some h.trace).trans hcs
  holds v' := by
    by_cases hv : v' = v
    · subst hv
      rw [Function.update_self, World.vec_set_self]
      exact hr.holds
    · rw [Function.update_of_ne hv, World.vec_set_ne _ hv]
      exact hr.holds_other h hv
  apart v₁ v₂ hb hne := hr.apart h hb hne rfl
  owned b hb := by
    by_cases hx : b = x.begin_
    · refine ⟨fun h0 => hb ?_, v, by rw [World.vec_set_self, hx]⟩
      rw [h0]
      exact hr.zero
    · have hold : b ≠ (w.vec v).begin_ := by
        rintro rfl
        exact hb (hr.left hx).2
      obtain ⟨h0, v', hv'⟩ := h.owned b fun hnone => hb ((hr.size b hold hx).trans hnone)
      refine ⟨h0, v', ?_⟩
      rw [World.vec_set_ne _ (fun hv => hold (by rw [← hv', hv])), hv']
  raw b hb q := by
    have hx : b ≠ x.begin_ := by
      have hv := hb v
      rw [World.vec_set_self] at hv
      exact hv.symm
    by_cases hold : b = (w.vec v).begin_
    · subst hold
      exact (hr.left hx).1 q
    · refine (congrFun (hr.slot b hold hx) q).trans (h.raw b (fun v' hv' => ?_) q)
      by_cases hv : v' = v
      · exact hold (by rw [← hv', hv])
      · have hne := hb v'
        rw [World.vec_set_ne _ hv] at hne
        exact hne hv'
  fresh v' := by
    by_cases hv : v' = v
    · subst hv
      rw [World.vec_set_self]
      exact hr.fresh.2
    · rw [World.vec_set_ne _ hv]
      exact Nat.lt_of_lt_of_le (h.fresh v') hr.fresh.1

theorem Inv.size_zero (h : Inv T w ls) : w.store.size 0 = none := by
  by_contra hne
  exact (h.owned 0 hne).1 rfl

/-- The commands leave `l` in the block of the vector. -/
def Edits (T : ElementType α) (w : World α) (v : ℕ) (cs : List (Cmd α)) (l : List α) : Prop :=
  execAll T.moved w.store cs = some (w.store.put (w.vec v).begin_ fun q => l[q]?)

theorem Inv.edit {cs : List (Cmd α)} (h : Inv T w ls) (hcs : Edits T w v cs l)
    (hl : l.length ≤ w.capacity v) :
    ∃ w', w.exec T cs = some w' ∧ w'.vec = w.vec ∧
      Inv T (w'.setEnd v l.length) (Function.update ls v l) := by
  refine ⟨_, World.exec_of_some hcs, rfl, h.replace hcs ?_⟩
  constructor
  · exact ⟨Store.slot_put_self _ _ _, rfl, hl, (h.holds v).null, (h.holds v).block⟩
  · exact .inl rfl
  · exact ⟨Nat.le_refl _, h.fresh v⟩
  · exact fun b hb _ => Store.slot_put_ne _ hb _
  · exact fun _ _ _ => rfl
  · exact fun hne => absurd rfl hne
  · exact h.size_zero

/-- The objects of a vector move to a new block, and the old block is freed. -/
theorem Inv.reallocate {cap : ℕ} (h : Inv T w ls) (hcap : (ls v).length ≤ cap) :
    ∃ w', w.exec T (.malloc cap :: (relocate (w.vec v).begin_ w.store.fresh 0 (w.vec v).end_ ++
        if (w.vec v).begin_ = 0 then [] else [.free (w.vec v).begin_])) = some w' ∧
      Inv T (w'.set v ⟨w.store.fresh, (w.vec v).end_, cap⟩) ls := by
  have hlt := h.fresh v
  have hsize := h.size_eq v
  have hblock : (w.vec v).begin_ ≠ 0 → w.store.size (w.vec v).begin_ ≠ none := fun h0 => by
    rw [(h.holds v).block h0]
    exact Option.some_ne_none _
  have hraw := h.raw w.store.fresh fun v' => Nat.ne_of_lt (h.fresh v')
  have hall : execAll T.moved w.store (.malloc cap ::
      (relocate (w.vec v).begin_ w.store.fresh 0 (w.vec v).end_ ++
        if (w.vec v).begin_ = 0 then [] else [.free (w.vec v).begin_])) =
      some (w.store.reallocated (w.vec v).begin_ cap (ls v)) :=
    execAll_reallocate (h.slot_eq v) hlt hblock hraw hsize (Nat.le_trans (Nat.le_of_eq hsize) hcap)
  refine ⟨_, World.exec_of_some hall, ?_⟩
  have hinv : Inv T (World.set _ v ⟨w.store.fresh, (w.vec v).end_, cap⟩)
      (Function.update ls v (ls v)) := h.replace hall ?_
  · rwa [Function.update_eq_self] at hinv
  have hne : (w.vec v).begin_ ≠ w.store.fresh := Nat.ne_of_lt hlt
  constructor
  · refine ⟨Store.slot_reallocated_fresh, hsize, hcap, fun h0 => ?_, fun _ => ?_⟩
    · simp only at h0
      omega
    · exact Store.size_reallocated_fresh hne
  · exact .inr (.inr rfl)
  · exact ⟨Nat.le_succ _, Nat.lt_succ_self _⟩
  · exact fun b hb hx => Store.slot_reallocated_ne hb hx
  · exact fun b hb hx => Store.size_reallocated_ne hb hx
  · exact fun _ => ⟨fun q => congrFun (Store.slot_reallocated_self hne) q,
      Store.size_reallocated_self h.size_zero⟩
  · by_cases h0 : 0 = (w.vec v).begin_
    · rw [h0]
      exact Store.size_reallocated_self h.size_zero
    · rw [Store.size_reallocated_ne h0 (by omega)]
      exact h.size_zero

theorem Inv.ensureSize {required_cap : ℕ} (h : Inv T w ls)
    (hreq : (ls v).length ≤ required_cap) :
    ∃ w', w.ensureSize T v required_cap = some w' ∧ Inv T w' ls ∧
      required_cap ≤ w'.capacity v := by
  unfold World.ensureSize
  by_cases hfit : required_cap ≤ w.capacity v
  · exact ⟨w, by rw [if_pos hfit], h, hfit⟩
  · rw [if_neg hfit]
    simp only
    generalize (if (w.vec v).last_ * 5 / 4 < 16 then 16 else (w.vec v).last_ * 5 / 4) = cap
    have hle : required_cap ≤ if cap < required_cap then required_cap else cap := by
      split <;> omega
    obtain ⟨w', hw, hinv⟩ := h.reallocate (v := v) (Nat.le_trans hreq hle)
    refine ⟨_, by rw [hw]; rfl, hinv, ?_⟩
    rw [World.capacity, World.vec_set_self]
    exact hle

theorem Inv.room {c : Prop} [Decidable c] {required_cap : ℕ} (h : Inv T w ls)
    (hreq : (ls v).length ≤ required_cap) (hc : ¬c → required_cap ≤ w.capacity v) :
    ∃ w', (if c then w.ensureSize T v required_cap else some w) = some w' ∧ Inv T w' ls ∧
      required_cap ≤ w'.capacity v := by
  by_cases hgrow : c
  · rw [if_pos hgrow]
    exact h.ensureSize hreq
  · rw [if_neg hgrow]
    exact ⟨w, rfl, h, hc hgrow⟩

/-! ## Edits in place -/

section edits
variable {xs : List α} {pos n : ℕ}

theorem edits_nil (h : Inv T w ls) (v : ℕ) : Edits T w v [] (ls v) :=
  congrArg some (Store.put_eq_self _ _ fun q => by rw [h.slot_apply]).symm

theorem edits_append (h : Inv T w ls) (hcap : (ls v).length + xs.length ≤ w.capacity v) :
    Edits T w v (constructRange (w.vec v).begin_ (ls v).length xs) (ls v ++ xs) := by
  by_cases hnil : xs = []
  · subst hnil
    rw [List.append_nil]
    exact edits_nil h v
  have hpos : 0 < xs.length := List.length_pos_iff.mpr hnil
  refine (execAll_constructRange (h.block (by omega)) hcap fun q hlo _ => ?_).trans
    (congrArg some (Store.put_congr _ _ fun q => ?_))
  · rw [h.slot_apply]
    exact List.getElem?_eq_none hlo
  · rw [h.slot_apply]
    by_cases hq : q < (ls v).length
    · rw [if_neg (by omega), List.getElem?_append_left hq]
    · rw [List.getElem?_append_right (by omega)]
      by_cases hin : q < (ls v).length + xs.length
      · rw [if_pos (by omega)]
      · rw [if_neg (by omega), List.getElem?_eq_none (by omega),
          List.getElem?_eq_none (by omega)]

theorem edits_take (h : Inv T w ls) (call : Bool) (hn : n ≤ (ls v).length) :
    Edits T w v (finishRange call (w.vec v).begin_ n ((ls v).length - n)) ((ls v).take n) := by
  refine (execAll_finishRange call fun q _ hhi => ?_).trans
    (congrArg some (Store.put_congr _ _ fun q => ?_))
  · rw [h.slot_apply]
    rw [List.getElem?_eq_getElem (by omega), Option.isSome_some]
  · rw [h.slot_apply, List.getElem?_take]
    by_cases hq : q < n
    · rw [if_neg (by omega), if_pos hq]
    · rw [if_neg hq]
      split
      · rfl
      · exact List.getElem?_eq_none (by omega)

theorem getElem?_splice {l : List α} (hpos : pos ≤ l.length) (xs : List α) (q : ℕ) :
    (l.take pos ++ xs ++ l.drop pos)[q]? =
      if q < pos then l[q]? else if q < pos + xs.length then xs[q - pos]?
      else l[q - xs.length]? := by
  have hlen : (l.take pos).length = pos := List.length_take_of_le hpos
  by_cases h1 : q < pos
  · rw [if_pos h1, List.append_assoc, List.getElem?_append_left (by omega),
      List.getElem?_take_of_lt h1]
  · rw [if_neg h1]
    by_cases h2 : q < pos + xs.length
    · rw [if_pos h2, List.getElem?_append_left (by rw [List.length_append]; omega),
        List.getElem?_append_right (by omega), hlen]
    · rw [if_neg h2, List.getElem?_append_right (by rw [List.length_append]; omega),
        List.getElem?_drop, List.length_append, hlen]
      congr 1
      omega

theorem edits_splice (h : Inv T w ls) (hpos : pos ≤ (ls v).length) (hxs : 0 < xs.length)
    (hcap : (ls v).length + xs.length ≤ w.capacity v) :
    Edits T w v
      (shiftRight (w.vec v).begin_ xs.length (ls v).length pos ((ls v).length - pos) ++
        (finishRange (!T.trivial) (w.vec v).begin_ pos (min ((ls v).length - pos) xs.length) ++
          constructRange (w.vec v).begin_ pos xs))
      ((ls v).take pos ++ xs ++ (ls v).drop pos) := by
  have hblock := h.block (v := v) (by omega)
  have hstart : w.store.slot (w.vec v).begin_ =
      shiftedRight T.moved (ls v) xs.length pos ((ls v).length - pos) := by
    funext q
    rw [h.slot_apply, shiftedRight_length (by omega)]
  unfold Edits
  rw [execAll_append_of_some (execAll_shiftRight hxs hblock (by omega) hcap hstart)]
  -- between `pos` and the inserted range's end there are moved-from objects as far as `l` went
  have hmid : ∀ q, pos ≤ q → q < pos + xs.length →
      shiftedRight T.moved (ls v) xs.length pos 0 q = (ls v)[q]?.map T.moved := by
    intro q hlo hhi
    unfold shiftedRight
    rw [if_neg (by omega), if_pos (by omega)]
  rw [execAll_append_of_some (execAll_finishRange _ fun q hlo hhi => ?_)]
  · rw [execAll_constructRange (by simpa using hblock) (by omega) fun q hlo hhi => ?_]
    · simp only [Store.put_put, Store.slot_put_self]
      refine congrArg some (Store.put_congr _ _ fun q => ?_)
      rw [getElem?_splice hpos]
      by_cases h1 : q < pos
      · rw [if_neg (by omega), if_neg (by omega), if_pos h1]
        unfold shiftedRight
        rw [if_pos (by omega)]
      · rw [if_neg h1]
        by_cases h2 : q < pos + xs.length
        · rw [if_pos (by omega), if_pos h2]
        · rw [if_neg (by omega), if_neg (by omega), if_neg h2]
          unfold shiftedRight
          rw [if_neg (by omega), if_neg (by omega)]
    · simp only [Store.put_put, Store.slot_put_self]
      split
      · rfl
      · rw [hmid q hlo hhi, List.getElem?_eq_none (by omega)]
        rfl
  · rw [Store.slot_put_self, hmid q hlo (by omega), List.getElem?_eq_getElem (by omega)]
    rfl

theorem edits_erase {first last : ℕ} (h : Inv T w ls) (hlt : first < last)
    (hlast : last ≤ (ls v).length) :
    Edits T w v
      (shiftLeft (w.vec v).begin_ (last - first) last ((ls v).length - last) ++
        finishRange (!T.trivial) (w.vec v).begin_ ((ls v).length - (last - first)) (last - first))
      ((ls v).take first ++ (ls v).drop last) := by
  have hstart : w.store.slot (w.vec v).begin_ =
      shiftedLeft T.moved (ls v) first (last - first) last := by
    funext q
    unfold shiftedLeft
    rw [h.slot_apply]
    by_cases h1 : q < first
    · rw [if_pos h1]
    · rw [if_neg h1, if_neg (by omega), if_neg (by omega)]
  unfold Edits
  rw [execAll_append_of_some
    (execAll_shiftLeft (by omega) (by omega) (by omega) hstart)]
  rw [execAll_finishRange _ fun q hlo hhi => ?_]
  · rw [Store.put_put, Store.slot_put_self]
    refine congrArg some (Store.put_congr _ _ fun q => ?_)
    have hlen : ((ls v).take first).length = first := List.length_take_of_le (by omega)
    by_cases h1 : q < first
    · rw [if_neg (by omega), List.getElem?_append_left (by omega), List.getElem?_take_of_lt h1]
      unfold shiftedLeft
      rw [if_pos h1]
    · rw [List.getElem?_append_right (by omega), List.getElem?_drop, hlen,
        show last + (q - first) = q + (last - first) by omega]
      by_cases h2 : q + (last - first) < (ls v).length
      · rw [if_neg (by omega)]
        unfold shiftedLeft
        rw [if_neg h1, if_pos h2]
      · rw [List.getElem?_eq_none (by omega : (ls v).length ≤ q + (last - first))]
        split
        · rfl
        · unfold shiftedLeft
          rw [if_neg h1, if_neg h2, if_neg (by omega), List.getElem?_eq_none (by omega)]
  · rw [Store.slot_put_self]
    unfold shiftedLeft
    rw [if_neg (by omega), if_neg (by omega), List.getElem?_eq_getElem (by omega)]
    split <;> rfl

theorem moveUp_eq (b pos : ℕ) {size : ℕ} (n : ℕ) (hn : pos + n + 1 ≤ size) :
    moveUp b pos n = shiftRight (α := α) b 1 size pos n := by
  induction n with
  | zero => rfl
  | succ n ih =>
    rw [moveUp, shiftRight, if_neg (by omega), ih (by omega)]

theorem edits_insert (h : Inv T w ls) (hpos : pos < (ls v).length)
    (hcap : (ls v).length < w.capacity v) (item : α) :
    Edits T w v
      (.moveConstruct ⟨(w.vec v).begin_, (ls v).length⟩ ⟨(w.vec v).begin_, (ls v).length - 1⟩ ::
        (moveUp (w.vec v).begin_ pos ((ls v).length - 1 - pos) ++
          [.assign ⟨(w.vec v).begin_, pos⟩ item]))
      ((ls v).take pos ++ [item] ++ (ls v).drop pos) := by
  have hblock := h.block (v := v) (by omega)
  have hstart : w.store.slot (w.vec v).begin_ =
      shiftedRight T.moved (ls v) 1 pos ((ls v).length - 1 - pos + 1) := by
    funext q
    rw [h.slot_apply, shiftedRight_length (by omega)]
  have hshift : (.moveConstruct ⟨(w.vec v).begin_, (ls v).length⟩
        ⟨(w.vec v).begin_, (ls v).length - 1⟩ ::
        moveUp (w.vec v).begin_ pos ((ls v).length - 1 - pos) : List (Cmd α)) =
      shiftRight (w.vec v).begin_ 1 (ls v).length pos ((ls v).length - 1 - pos + 1) := by
    rw [shiftRight, if_pos (by omega), moveUp_eq _ _ _ (by omega : _ ≤ (ls v).length),
      show pos + ((ls v).length - 1 - pos) = (ls v).length - 1 by omega,
      Nat.sub_add_cancel (by omega)]
  unfold Edits
  rw [← List.cons_append, hshift,
    execAll_append_of_some (execAll_shiftRight Nat.one_pos hblock (by omega) hcap hstart)]
  have hmid : shiftedRight T.moved (ls v) 1 pos 0 pos = some (T.moved (ls v)[pos]) := by
    unfold shiftedRight
    rw [if_neg (by omega), if_pos (by omega), List.getElem?_eq_getElem hpos]
    rfl
  simp only [execAll, Lifetime.exec, Store.get_mk, Store.slot_put_self, hmid, Option.isSome_some,
    if_true, Option.bind_some, Store.set_eq_put, Store.put_put]
  refine congrArg some (Store.put_congr _ _ fun q => ?_)
  rw [getElem?_splice (by omega)]
  by_cases hq : q = pos
  · subst hq
    rw [Function.update_self, if_neg (by omega), if_pos (by rw [List.length_singleton]; omega)]
    simp
  · rw [Function.update_of_ne hq]
    unfold shiftedRight
    by_cases h1 : q < pos
    · rw [if_pos (by omega), if_pos h1]
    · rw [List.length_singleton, if_neg (by omega), if_neg (by omega), if_neg h1,
        if_neg (by omega)]

theorem edits_copy {other : ℕ} (h : Inv T w ls) (hv : other ≠ v) (hnil : ls v = [])
    (hcap : (ls other).length ≤ w.capacity v) :
    Edits T w v (copyRange (w.vec v).begin_ (w.vec other).begin_ 0 (ls other).length)
      (ls other) := by
  by_cases h0 : (ls other).length = 0
  · have hsame : ls other = ls v := by rw [hnil, List.eq_nil_of_length_eq_zero h0]
    rw [h0, hsame]
    exact edits_nil h v
  have hcap' : 0 < w.capacity v := by omega
  have hne : (w.vec other).begin_ ≠ (w.vec v).begin_ := fun hb =>
    h.begin_ne hcap' (hb ▸ (h.eq_nil_of_shared hv hb).1)
  refine (execAll_copyRange (h.block hcap') hne (h.slot_eq other) (by omega) (by omega)
    fun q _ _ => ?_).trans (congrArg some (Store.put_congr _ _ fun q => ?_))
  · rw [h.slot_apply, hnil]
    rfl
  · split
    · rfl
    · rw [h.slot_apply, hnil, List.getElem?_eq_none (by omega : (ls other).length ≤ q)]
      rfl

end edits

/-! ## The operations -/

def Leads (T : ElementType α) (o : Option (World α)) (ls : Lists α) : Prop :=
  ∃ w, o = some w ∧ Inv T w ls

theorem Inv.reserve (h : Inv T w ls) (v new_cap : ℕ) :
    ∃ w', w.reserve T v new_cap = some w' ∧ Inv T w' ls ∧ new_cap ≤ w'.capacity v := by
  unfold World.reserve
  by_cases hgrow : new_cap > w.capacity v
  · have hlen := h.length_le v
    rw [if_pos hgrow]
    exact h.ensureSize (by omega)
  · rw [if_neg hgrow]
    exact ⟨w, rfl, h, by omega⟩

theorem Inv.leads {cs : List (Cmd α)} {n : ℕ} (h : Inv T w ls) (hcs : Edits T w v cs l)
    (hl : l.length ≤ w.capacity v) (hn : n = l.length) :
    Leads T ((w.exec T cs).bind fun w => some (w.setEnd v n)) (Function.update ls v l) := by
  obtain ⟨w', hw, hvec, hinv⟩ := h.edit hcs hl
  exact ⟨w'.setEnd v n, by rw [hw]; rfl, hn ▸ hinv⟩

theorem Inv.pushBack (h : Inv T w ls) (v : ℕ) (item : α) :
    Leads T (w.pushBack T v item) (Function.update ls v (ls v ++ [item])) := by
  have hsize := h.size_eq v
  have hlen := h.length_le v
  obtain ⟨w₁, hw₁, h₁, hcap⟩ : ∃ w', (if w.size v = w.capacity v
      then w.ensureSize T v (w.size v + 1) else some w) = some w' ∧ Inv T w' ls ∧
      w.size v + 1 ≤ w'.capacity v := h.room (by omega) fun hne => by omega
  have hadd : (ls v ++ [item]).length = (ls v).length + 1 := by simp
  have hroom : (ls v).length + [item].length ≤ w₁.capacity v := by
    rw [List.length_singleton]
    omega
  simp only [World.pushBack, hw₁, bind, pure, Option.bind_some]
  rw [h₁.size_eq v]
  exact h₁.leads (edits_append h₁ hroom) (by omega) hadd.symm

theorem World.exec_setEnd (w : World α) (v n : ℕ) (cs : List (Cmd α)) :
    (w.setEnd v n).exec T cs = (w.exec T cs).bind fun w => some (w.setEnd v n) := by
  change (execAll T.moved w.store cs).map _ = ((execAll T.moved w.store cs).map _).bind _
  cases execAll T.moved w.store cs <;> rfl

theorem Inv.popBack (h : Inv T w ls) (hne : ls v ≠ []) :
    Leads T (w.popBack T v) (Function.update ls v (ls v).dropLast) := by
  have hlen := h.length_le v
  have hpos := List.length_pos_iff.mpr hne
  have hdrop : (ls v).dropLast.length = (ls v).length - 1 := List.length_dropLast
  have htake := edits_take h true (Nat.sub_le (ls v).length 1)
  rw [show (ls v).length - ((ls v).length - 1) = 1 by omega, ← List.dropLast_eq_take] at htake
  have hend : (w.setEnd v (w.size v - 1)).size v = (ls v).length - 1 := by
    rw [h.size_eq v, World.size, World.setEnd, World.vec_set_self]
  simp only [World.popBack]
  rw [World.begin_setEnd, hend, World.exec_setEnd, h.size_eq v]
  exact h.leads htake (by omega) hdrop.symm

theorem Inv.insert {pos : ℕ} (h : Inv T w ls) (hpos : pos ≤ (ls v).length) (item : α) :
    Leads T ((w.insert T v pos item).map Prod.fst)
      (Function.update ls v ((ls v).take pos ++ [item] ++ (ls v).drop pos)) := by
  have hsize := h.size_eq v
  have hlen := h.length_le v
  unfold World.insert
  by_cases hend : pos = w.size v
  · obtain ⟨w₁, hw₁, h₁⟩ := h.pushBack v item
    rw [if_pos hend, hw₁, hend, hsize, List.take_length, List.drop_length, List.append_nil]
    exact ⟨w₁, rfl, h₁⟩
  · obtain ⟨w₁, hw₁, h₁, hcap⟩ : ∃ w', (if w.size v = w.capacity v
        then w.ensureSize T v (w.size v + 1) else some w) = some w' ∧ Inv T w' ls ∧
        w.size v + 1 ≤ w'.capacity v := h.room (by omega) fun hne => by omega
    have hadd : ((ls v).take pos ++ [item] ++ (ls v).drop pos).length = (ls v).length + 1 := by
      simp only [List.length_append, List.length_take, List.length_drop, List.length_singleton]
      omega
    rw [if_neg hend, hw₁]
    simp only [bind, pure, Option.bind_some, Option.map_bind, Function.comp_def, Option.map_some]
    rw [h₁.size_eq v]
    exact h₁.leads (edits_insert h₁ (by omega) (by omega) item) (by omega) hadd.symm

theorem Inv.insertRange {pos : ℕ} (h : Inv T w ls) (hpos : pos ≤ (ls v).length)
    (items : List α) :
    Leads T ((w.insertRange T v pos items).map Prod.fst)
      (Function.update ls v ((ls v).take pos ++ items ++ (ls v).drop pos)) := by
  have hsize := h.size_eq v
  unfold World.insertRange
  by_cases hnil : items.length = 0
  · rw [if_pos hnil, List.eq_nil_of_length_eq_zero hnil, List.append_nil, List.take_append_drop,
      Function.update_eq_self]
    exact ⟨w, rfl, h⟩
  · obtain ⟨w₁, hw₁, h₁, hcap⟩ : ∃ w', (if w.size v + items.length > w.capacity v
        then w.ensureSize T v (w.size v + items.length) else some w) = some w' ∧ Inv T w' ls ∧
        w.size v + items.length ≤ w'.capacity v := h.room (by omega) fun hle => by omega
    have hadd : ((ls v).take pos ++ items ++ (ls v).drop pos).length =
        (ls v).length + items.length := by
      simp only [List.length_append, List.length_take, List.length_drop]
      omega
    rw [if_neg hnil]
    simp only [hw₁, bind, pure, Option.bind_some, Option.map_bind, Function.comp_def,
      Option.map_some]
    rw [h₁.size_eq v]
    exact h₁.leads (edits_splice h₁ hpos (by omega) (by omega)) (by omega) hadd.symm

theorem Inv.erase {first last : ℕ} (h : Inv T w ls) (hle : first ≤ last)
    (hlast : last ≤ (ls v).length) :
    Leads T ((w.erase T v first last).map Prod.fst)
      (Function.update ls v ((ls v).take first ++ (ls v).drop last)) := by
  have hlen := h.length_le v
  unfold World.erase
  by_cases heq : first = last
  · rw [heq, List.take_append_drop, Function.update_eq_self]
    exact ⟨w, by simp, h⟩
  · have hsub : ((ls v).take first ++ (ls v).drop last).length =
        (ls v).length - (last - first) := by
      simp only [List.length_append, List.length_take, List.length_drop]
      omega
    simp only [if_neg heq, bind, pure, Option.map_bind, Function.comp_def, Option.map_some]
    rw [h.size_eq v]
    exact h.leads (edits_erase h (by omega) hlast) (by omega) hsub.symm

theorem World.setEnd_size (w : World α) (v : ℕ) : w.setEnd v (w.size v) = w := by
  simp [World.setEnd, World.set, World.size]

theorem Inv.clear (h : Inv T w ls) (v : ℕ) :
    Leads T (w.clear T v) (Function.update ls v []) := by
  have hsize := h.size_eq v
  unfold World.clear
  by_cases hc : (w.vec v).begin_ = 0 ∨ w.size v = 0
  · have hnil : ls v = [] := by
      rcases hc with h0 | h0
      · exact (h.holds v).eq_nil h0
      · exact List.eq_nil_of_length_eq_zero (hsize ▸ h0)
    have h0 : 0 = w.size v := by rw [hsize, hnil, List.length_nil]
    rw [if_pos hc, h0, World.setEnd_size, ← hnil, Function.update_eq_self]
    exact ⟨w, rfl, h⟩
  · have htake := edits_take h (!T.trivial) (Nat.zero_le (ls v).length)
    rw [Nat.sub_zero, List.take_zero] at htake
    rw [if_neg hc, hsize, Option.map_eq_bind]
    exact h.leads htake (Nat.zero_le _) rfl

theorem Inv.assign (h : Inv T w ls) (v : ℕ) (items : List α) :
    Leads T (w.assign T v items) (Function.update ls v items) := by
  obtain ⟨w₁, hw₁, h₁⟩ := h.clear v
  obtain ⟨w₂, hw₂, h₂, hcap⟩ := h₁.reserve v items.length
  have hnil : Function.update ls v [] v = [] := Function.update_self _ _ _
  have hroom : (Function.update ls v [] v).length + items.length ≤ w₂.capacity v := by
    rw [hnil, List.length_nil]
    omega
  have happ := edits_append h₂ hroom
  rw [hnil, List.nil_append, List.length_nil] at happ
  have hres := h₂.leads happ hcap rfl
  rw [Function.update_idem] at hres
  simpa only [World.assign, hw₁, hw₂, bind, pure, Option.bind_some] using hres

theorem Inv.resize (h : Inv T w ls) (v new_size : ℕ) :
    Leads T (w.resize T v new_size)
      (Function.update ls v ((ls v).take new_size ++
        List.replicate (new_size - (ls v).length) T.default)) := by
  have hsize := h.size_eq v
  have hlen := h.length_le v
  simp only [World.resize, hsize]
  by_cases hlt : new_size < (ls v).length
  · have htake : ((ls v).take new_size).length = new_size := List.length_take_of_le (by omega)
    rw [if_pos hlt, show new_size - (ls v).length = 0 by omega, List.replicate_zero,
      List.append_nil]
    exact h.leads (edits_take h _ (by omega)) (by omega) htake.symm
  · rw [if_neg hlt, List.take_of_length_le (by omega)]
    by_cases hgt : new_size > (ls v).length
    · obtain ⟨w₁, hw₁, h₁, hcap⟩ := h.reserve v new_size
      have hadd : (ls v ++ List.replicate (new_size - (ls v).length) T.default).length =
          new_size := by
        rw [List.length_append, List.length_replicate]
        omega
      rw [if_pos hgt, hw₁]
      exact h₁.leads (edits_append h₁ (by rw [List.length_replicate]; omega)) (by omega) hadd.symm
    · rw [if_neg hgt, show new_size - (ls v).length = 0 by omega, List.replicate_zero,
        List.append_nil, Function.update_eq_self]
      exact ⟨w, rfl, h⟩

theorem Inv.copyFrom (h : Inv T w ls) (v other : ℕ) :
    Leads T (w.copyFrom T v other) (Function.update ls v (ls other)) := by
  unfold World.copyFrom
  by_cases hv : v = other
  · rw [if_pos hv, ← hv, Function.update_eq_self]
    exact ⟨w, rfl, h⟩
  · obtain ⟨w₁, hw₁, h₁⟩ := h.clear v
    have hother : Function.update ls v [] other = ls other :=
      Function.update_of_ne (Ne.symm hv) _ _
    obtain ⟨w₂, hw₂, h₂, hcap⟩ := h₁.reserve v (ls other).length
    have hcopy := edits_copy h₂ (Ne.symm hv) (Function.update_self _ _ _) (by rwa [hother])
    rw [hother] at hcopy
    have hres := h₂.leads hcopy hcap rfl
    rw [Function.update_idem] at hres
    rw [if_neg hv]
    simpa only [hw₁, hw₂, bind, pure, Option.bind_some, h₁.size_eq, hother] using hres

theorem Inv.slot_zero (h : Inv T w ls) : w.store.slot 0 = fun q => ([] : List α)[q]? := by
  by_cases hex : ∃ v, (w.vec v).begin_ = 0
  · obtain ⟨v, hv⟩ := hex
    have hslot := h.slot_eq v
    rwa [hv, (h.holds v).eq_nil hv] at hslot
  · exact funext fun q => h.raw 0 (fun v hv => hex ⟨v, hv⟩) q

theorem Inv.reset (h : Inv T w ls) (v : ℕ) :
    ∃ w', w.reset T v = some w' ∧ Inv T w' (Function.update ls v []) ∧ w'.vec v = {} := by
  obtain ⟨w₁, hw₁, h₁⟩ := h.clear v
  have hholds := h₁.holds v
  rw [Function.update_self] at hholds
  let st : Store α :=
    { w₁.store with size := Function.update w₁.store.size (w₁.vec v).begin_ none }
  have hfree : execAll T.moved w₁.store
      (if (w₁.vec v).begin_ = 0 then [] else [.free (w₁.vec v).begin_]) = some st := by
    by_cases h0 : (w₁.vec v).begin_ = 0
    · have hsame : Function.update w₁.store.size (w₁.vec v).begin_ none = w₁.store.size := by
        rw [Function.update_eq_self_iff, h0, h₁.size_zero]
      rw [if_pos h0]
      exact congrArg (fun f => some { w₁.store with size := f }) hsame.symm
    · rw [if_neg h0]
      simp [execAll, Lifetime.exec, hholds.block h0, hholds.slots, st]
  have hnull : Holds st {} [] :=
    ⟨h₁.slot_zero, rfl, Nat.le_refl _, fun _ => rfl, fun hne => absurd rfl hne⟩
  have hr : Replaces w₁ v st {} [] := by
    refine ⟨hnull, .inr (.inl rfl), ⟨Nat.le_refl _, Nat.zero_lt_of_lt (h₁.fresh v)⟩,
      fun _ _ _ => rfl, fun b hb _ => Function.update_of_ne hb _ _,
      fun _ => ⟨fun q => ?_, Function.update_self _ _ _⟩, ?_⟩
    · exact congrFun hholds.slots q
    · by_cases h0 : 0 = (w₁.vec v).begin_
      · rw [h0]
        exact Function.update_self _ _ _
      · exact (Function.update_of_ne h0 _ _).trans h₁.size_zero
  have hinv := h₁.replace hfree hr
  rw [Function.update_idem] at hinv
  refine ⟨_, ?_, hinv, World.vec_set_self _ v _⟩
  simp only [World.reset, hw₁, bind, pure, Option.bind_some, World.exec_of_some hfree]

theorem Inv.swap (h : Inv T w ls) (v other : ℕ) :
    Inv T (w.swap v other) (Function.update (Function.update ls v (ls other)) other (ls v)) := by
  have hswap : ∀ {β : Type} (f : ℕ → β) v',
      Function.update (Function.update f v (f other)) other (f v) v' =
        f (Equiv.swap v other v') := by
    intro β f v'
    rw [Equiv.swap_comm, Equiv.swap_apply_def]
    by_cases h1 : v' = other
    · rw [if_pos h1, h1, Function.update_self]
    · rw [if_neg h1, Function.update_of_ne h1]
      by_cases h2 : v' = v
      · rw [if_pos h2, h2, Function.update_self]
      · rw [if_neg h2, Function.update_of_ne h2]
  have hvec : ∀ v', (w.swap v other).vec v' = w.vec (Equiv.swap v other v') := hswap w.vec
  constructor
  · exact h.trace
  · intro v'
    rw [hvec, hswap ls]
    exact h.holds _
  · intro v₁ v₂ hb hne
    rw [hvec] at hb hne
    rw [hvec] at hb
    exact (Equiv.swap v other).injective (h.apart _ _ hb hne)
  · intro b hb
    obtain ⟨h0, v', hv'⟩ := h.owned b hb
    refine ⟨h0, Equiv.swap v other v', ?_⟩
    rw [hvec, Equiv.swap_apply_self]
    exact hv'
  · intro b hb q
    refine h.raw b (fun v' hv' => hb (Equiv.swap v other v') ?_) q
    rw [hvec, Equiv.swap_apply_self]
    exact hv'
  · intro v'
    rw [hvec]
    exact h.fresh _

theorem Inv.moveFrom (h : Inv T w ls) (v other : ℕ) :
    Leads T (w.moveFrom T v other) ((VectorOp.moveFrom v other).apply T ls) := by
  simp only [World.moveFrom, VectorOp.apply]
  by_cases hv : v = other
  · rw [if_pos hv, if_pos hv]
    exact ⟨w, rfl, h⟩
  · obtain ⟨w₁, hw₁, h₁, hnull⟩ := h.reset v
    have hinv := h₁.swap v other
    rw [Function.update_self, Function.update_of_ne (Ne.symm hv), Function.update_idem] at hinv
    rw [if_neg hv, if_neg hv]
    refine ⟨w₁.swap v other, ?_, hinv⟩
    simp only [hw₁, bind, pure, Option.bind_some, World.swap, hnull]

/-! ## Runs -/

theorem Inv.step (h : Inv T w ls) {op : VectorOp α} (hop : op.Fits ls) :
    Leads T (w.step T op) (op.apply T ls) := by
  cases op with
  | pushBack v item => exact h.pushBack v item
  | popBack v => exact h.popBack hop
  | insert v pos item => exact h.insert hop item
  | insertRange v pos items => exact h.insertRange hop items
  | erase v first last => exact h.erase hop.1 hop.2
  | assign v items => exact h.assign v items
  | resize v new_size => exact h.resize v new_size
  | reserve v new_cap =>
    obtain ⟨w', hw, hinv, -⟩ := h.reserve v new_cap
    exact ⟨w', hw, hinv⟩
  | clear v => exact h.clear v
  | reset v =>
    obtain ⟨w', hw, hinv, -⟩ := h.reset v
    exact ⟨w', hw, hinv⟩
  | copyFrom v other => exact h.copyFrom v other
  | moveFrom v other => exact h.moveFrom v other
  | swap v other => exact ⟨_, rfl, h.swap v other⟩

theorem Inv.run {ops : List (VectorOp α)} (h : Inv T w ls) (hops : (lists T).Valid ls ops) :
    Leads T (w.run T ops) ((lists T).run ls ops) := by
  induction ops generalizing w ls with
  | nil => exact ⟨w, rfl, h⟩
  | cons op ops ih =>
    obtain ⟨w₁, hw₁, h₁⟩ := h.step hops.1
    obtain ⟨w', hw', h'⟩ := ih h₁ hops.2
    exact ⟨w', by rw [World.run, hw₁]; exact hw', h'⟩

theorem Inv.contents (h : Inv T w ls) (v : ℕ) : w.contents v = (ls v).map some := by
  apply List.ext_getElem
  · simp [World.contents, h.size_eq v]
  · intro q hq hq'
    rw [List.length_map] at hq'
    simp [World.contents, Store.get_mk, h.slot_apply, hq']

theorem Inv.live_iff (h : Inv T w ls) (a : Addr) :
    (w.store.get a).isSome ↔ ∃ v, (w.vec v).begin_ = a.block ∧ a.index < w.size v := by
  obtain ⟨b, q⟩ := a
  rw [Store.get_mk]
  constructor
  · intro hlive
    by_cases hex : ∃ v, (w.vec v).begin_ = b
    · obtain ⟨v, rfl⟩ := hex
      refine ⟨v, rfl, ?_⟩
      rw [h.slot_apply] at hlive
      rw [h.size_eq]
      by_contra hge
      rw [List.getElem?_eq_none (by simp only at hge; omega)] at hlive
      cases hlive
    · rw [h.raw b (fun v hv => hex ⟨v, hv⟩)] at hlive
      cases hlive
  · rintro ⟨v, rfl, hq⟩
    rw [h.size_eq] at hq
    rw [h.slot_apply, List.getElem?_eq_getElem hq]
    rfl

/-- Vectors behave as lists, whatever the element type, and respect the lifetimes of its objects:
every command of a run is allowed where it is executed, exactly the elements are constructed, and
every object constructed has been destroyed once or is still an element. -/
theorem vectors_refine_lists (T : ElementType α) (ops : List (VectorOp α))
    (hops : (lists T).Valid (fun _ => []) ops) :
    ∃ w, World.run T {} ops = some w ∧
      (∀ v, w.contents v = ((lists T).run (fun _ => []) ops v).map some) ∧
      (∀ a, (w.store.get a).isSome ↔
        ∃ v, (w.vec v).begin_ = a.block ∧ a.index < w.size v) ∧
      execAll T.moved {} w.trace = some w.store ∧
      ∀ a, births w.trace a = endings w.trace a + w.store.living a := by
  obtain ⟨w, hw, h⟩ := (inv_init T).run hops
  exact ⟨w, hw, h.contents, h.live_iff, h.trace, births_eq h.trace⟩

def sampleType : ElementType ℕ := ⟨fun _ => 0, false, 7⟩

def sampleRun : List (VectorOp ℕ) :=
  [.assign 0 [1, 2, 3], .insertRange 0 1 [4], .insertRange 0 2 [5, 6, 7], .insertRange 0 5 [8, 9],
    .erase 0 1 3, .copyFrom 1 0, .insert 1 0 10, .popBack 1]

theorem vectors_refine_lists_sample :
    (lists sampleType).Valid (fun _ => []) sampleRun ∧
      ∃ w, World.run sampleType {} sampleRun = some w ∧
        w.contents 0 = [some 1, some 6, some 7, some 8, some 9, some 2, some 3] ∧
        w.contents 1 = [some 10, some 1, some 6, some 7, some 8, some 9, some 2] ∧
        ∀ a, births w.trace a = endings w.trace a + w.store.living a := by
  have hvalid : (lists sampleType).Valid (fun _ => []) sampleRun := by decide
  obtain ⟨w, hw, hc, -, -, hlife⟩ := vectors_refine_lists sampleType sampleRun hvalid
  exact ⟨hvalid, w, hw, (hc 0).trans rfl, (hc 1).trans rfl, hlife⟩

end CritPath.Containers
