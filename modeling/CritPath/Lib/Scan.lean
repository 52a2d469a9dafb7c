import Mathlib.Data.List.TakeWhile

/-!
# Scanning a terminated text

A text is read through a position, one character at a time, and ends with a
terminator that is not part of it. `advance` is the loop that moves the position
on while the character there meets a condition. If the terminator does not meet
the condition the loop ends inside the text or at its terminator
(`advance_eq`): it stops at the first character that does not meet it.

`takeWhile_append_eq` and `dropWhile_append_eq` find the two parts of a text
again from which it was put together.
-/

namespace CritPath.Lib.Scan

variable {α : Type}

/-- Why a loop has no result: it reads behind the terminator, or it does not come to an end. -/
inductive Stuck
  | overread
  | endless
  deriving DecidableEq

/-- What stands at a position of the text; nothing behind the terminator. -/
def charAt (stop : α) (s : List α) (pos : ℕ) : Option α := (s ++ [stop])[pos]?

/-- `while (cond(s[pos])) ++pos;` in at most `steps` tests. -/
def advance (stop : α) (cond : α → Bool) (s : List α) : ℕ → ℕ → Except Stuck ℕ
  | 0, _ => .error .endless
  | steps + 1, pos =>
    match charAt stop s pos with
    | none => .error .overread
    | some c => if cond c then advance stop cond s steps (pos + 1) else .ok pos

variable {stop c : α} {cond : α → Bool} {s a rest : List α} {pos steps : ℕ}

theorem charAt_eq (hpos : pos ≤ s.length) :
    charAt stop s pos = some ((s.drop pos).head?.getD stop) := by
  unfold charAt
  rw [List.head?_drop]
  by_cases h : pos < s.length
  · rw [List.getElem?_append_left h, List.getElem?_eq_getElem h]
    rfl
  · obtain rfl : pos = s.length := by omega
    simp

/-- A loop whose condition fails at the terminator stops behind the longest run that meets it. -/
theorem advance_eq (hstop : cond stop = false) (hpos : pos ≤ s.length)
    (hsteps : s.length - pos < steps) :
    advance stop cond s steps pos = .ok (pos + ((s.drop pos).takeWhile cond).length) := by
  induction steps generalizing pos with
  | zero => omega
  | succ steps ih =>
    simp only [advance, charAt_eq hpos]
    by_cases h : pos < s.length
    · rw [List.drop_eq_getElem_cons h, List.head?_cons, Option.getD_some, List.takeWhile_cons]
      cases hc : cond s[pos] with
      | true =>
        simp only [if_true]
        rw [ih (by omega) (by omega), List.length_cons]
        exact congrArg Except.ok (by omega)
      | false => simp
    · rw [List.drop_eq_nil_of_le (by omega)]
      simp [hstop]

theorem drop_length_takeWhile (cond : α → Bool) (s : List α) :
    s.drop (s.takeWhile cond).length = s.dropWhile cond := by
  induction s with
  | nil => rfl
  | cons c s ih =>
    cases h : cond c with
    | true => simp [h, ih]
    | false => simp [h]

theorem take_length_takeWhile (cond : α → Bool) (s : List α) :
    s.take (s.takeWhile cond).length = s.takeWhile cond :=
  (List.prefix_iff_eq_take.mp (List.takeWhile_prefix cond)).symm

theorem head?_dropWhile (h : (s.dropWhile cond).head? = some c) : cond c = false := by
  have hnot := List.head?_dropWhile_not cond s
  rw [h] at hnot
  exact hnot

theorem takeWhile_congr_mem {cond' : α → Bool} (h : ∀ c ∈ s, cond c = cond' c) :
    s.takeWhile cond = s.takeWhile cond' := by
  induction s with
  | nil => rfl
  | cons b s ih =>
    rw [List.takeWhile_cons, List.takeWhile_cons, h b List.mem_cons_self,
      ih fun c hc => h c (List.mem_cons_of_mem _ hc)]

theorem takeWhile_append_eq (ha : ∀ c ∈ a, cond c = true)
    (hrest : ∀ c, rest.head? = some c → cond c = false) : (a ++ rest).takeWhile cond = a := by
  rw [List.takeWhile_append_of_pos ha]
  cases rest with
  | nil => simp
  | cons c rest => simp [hrest c rfl]

theorem dropWhile_append_eq (ha : ∀ c ∈ a, cond c = true)
    (hrest : ∀ c, rest.head? = some c → cond c = false) : (a ++ rest).dropWhile cond = rest := by
  rw [← drop_length_takeWhile, takeWhile_append_eq ha hrest, List.drop_left]

end CritPath.Lib.Scan
