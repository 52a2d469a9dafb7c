import Mathlib.Order.Bounds.Basic
import Mathlib.Order.MinMax

/-!
# Greatest elements built step by step

How the greatest element of a set changes when values are merged into it one by
one or set by set.
-/

namespace CritPath.Lib

variable {α : Type} [LinearOrder α] {S R : Set α} {a b m n : α}

theorem isGreatest_insert_max (h : IsGreatest S m) (a : α) : IsGreatest (insert a S) (max m a) := by
  constructor
  · rcases max_choice m a with hc | hc
    · rw [hc]; exact .inr h.1
    · rw [hc]; exact .inl rfl
  · rintro x (rfl | hx)
    · exact le_max_right _ _
    · exact (h.2 hx).trans (le_max_left _ _)

/-- A floor that is below the new value no longer counts. -/
theorem isGreatest_insert_floor (h : IsGreatest (insert b S) m) (hb : b ≤ a) :
    IsGreatest (insert a S) (max a m) := by
  constructor
  · rcases max_choice a m with hc | hc
    · rw [hc]; exact .inl rfl
    · rcases h.1 with rfl | hm
      · rw [max_eq_left hb]; exact .inl rfl
      · rw [hc]; exact .inr hm
  · rintro x (rfl | hx)
    · exact le_max_left _ _
    · exact (h.2 (.inr hx)).trans (le_max_right _ _)

/-- Merging a set into the greatest element of another one. -/
theorem isGreatest_insert_union (h : IsGreatest (insert a S) m) (h' : IsGreatest (insert m R) n) :
    IsGreatest (insert a (S ∪ R)) n := by
  constructor
  · rcases h'.1 with rfl | hn
    · rcases h.1 with rfl | hm
      · exact .inl rfl
      · exact .inr (.inl hm)
    · exact .inr (.inr hn)
  · have hmn : m ≤ n := h'.2 (.inl rfl)
    rintro x (rfl | hx | hx)
    · exact (h.2 (.inl rfl)).trans hmn
    · exact (h.2 (.inr hx)).trans hmn
    · exact h'.2 (.inr hx)

end CritPath.Lib
