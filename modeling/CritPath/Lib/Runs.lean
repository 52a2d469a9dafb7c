import Mathlib.Data.Nat.Notation
import Mathlib.Logic.Function.Basic
import Mathlib.Tactic.Tauto

/-!
# Runs of labelled machines

A `Machine` is a step function on states and labels with a guard that says
which labels a state allows. `run` folds the steps of a label list; `Along P`
says that every step of a run meets `P`, a condition on the label and the state
before it; `Valid` is `Along` for the guard. `Along.inv` is the invariant
rule and `Along.of_not_bad` its converse. `after` is the state at a position of a
run. `Agrees` compares two runs of the same labels.
-/

namespace CritPath.Lib

structure Machine (S L : Type) where
  step : S → L → S
  guard : S → L → Prop := fun _ _ => True

namespace Machine

variable {S L : Type} (M : Machine S L)

def run (s : S) (ls : List L) : S := ls.foldl M.step s

/-- Every step of the run of `ls` from `s` meets `P`. -/
def Along (P : S → L → Prop) : S → List L → Prop
  | _, [] => True
  | s, l :: ls => P s l ∧ Along P (M.step s l) ls

instance Along.decidable (P : S → L → Prop) [∀ s l, Decidable (P s l)] :
    ∀ s ls, Decidable (M.Along P s ls)
  | _, [] => .isTrue trivial
  | s, l :: ls =>
    have := Along.decidable P (M.step s l) ls
    inferInstanceAs (Decidable (P s l ∧ M.Along P (M.step s l) ls))

/-- Every label is allowed by the state it is taken in. -/
abbrev Valid (s : S) (ls : List L) : Prop := M.Along M.guard s ls

variable {M} {P Q : S → L → Prop} {s : S}

@[simp] theorem run_nil : M.run s [] = s := rfl

@[simp] theorem run_cons (l : L) (ls : List L) : M.run s (l :: ls) = M.run (M.step s l) ls := rfl

theorem run_append (ls ms : List L) : M.run s (ls ++ ms) = M.run (M.run s ls) ms :=
  List.foldl_append

@[simp] theorem run_concat (ls : List L) (l : L) :
    M.run s (ls ++ [l]) = M.step (M.run s ls) l := by
  simp [run_append]

theorem run_append_cons (ls ms : List L) (l : L) :
    M.run s (ls ++ l :: ms) = M.run (M.step (M.run s ls) l) ms := by
  rw [run_append, run_cons]

theorem along_append (ls ms : List L) :
    M.Along P s (ls ++ ms) ↔ M.Along P s ls ∧ M.Along P (M.run s ls) ms := by
  induction ls generalizing s with
  | nil => simp [Along]
  | cons l ls ih => simp only [List.cons_append, Along, run_cons, ih, and_assoc]

theorem along_and {ls : List L} :
    M.Along (fun s l => P s l ∧ Q s l) s ls ↔ M.Along P s ls ∧ M.Along Q s ls := by
  induction ls generalizing s with
  | nil => simp [Along]
  | cons l ls ih => simp only [Along, ih]; tauto

theorem along_of_forall {p : L → Prop} (s : S) {ls : List L} (h : ∀ l ∈ ls, p l) :
    M.Along (fun _ l => p l) s ls := by
  induction ls generalizing s with
  | nil => trivial
  | cons l ls ih =>
    exact ⟨h l List.mem_cons_self, ih _ fun l' hl' => h l' (List.mem_cons_of_mem _ hl')⟩

/-- The condition at a step, then along a part of the run, then at a later step. -/
theorem along_between {pre mid : List L} {l m : L} (h : M.Along P s (pre ++ l :: (mid ++ [m]))) :
    M.Along P s pre ∧ P (M.run s pre) l ∧ M.Along P (M.step (M.run s pre) l) mid ∧
      P (M.run (M.step (M.run s pre) l) mid) m := by
  obtain ⟨hpre, hl, hrest⟩ := (along_append _ _).mp h
  obtain ⟨hmid, hm, -⟩ := (along_append _ _).mp hrest
  exact ⟨hpre, hl, hmid, hm⟩

/-! ## Positions -/

def after (M : Machine S L) (s : S) (ls : List L) (k : ℕ) : S := M.run s (ls.take k)

section
variable {ls : List L} {l : L} {k : ℕ}

@[simp] theorem after_zero : M.after s ls 0 = s := rfl

theorem after_succ (h : ls[k]? = some l) : M.after s ls (k + 1) = M.step (M.after s ls k) l := by
  unfold after
  rw [List.take_add_one, h]
  exact run_concat _ l

theorem after_succ_of_none (h : ls[k]? = none) : M.after s ls (k + 1) = M.after s ls k := by
  unfold after
  rw [List.take_add_one, h]
  exact congrArg (M.run s) (List.append_nil _)

theorem Along.getElem (h : M.Along P s ls) (hk : ls[k]? = some l) : P (M.after s ls k) l := by
  induction ls generalizing s k with
  | nil => simp at hk
  | cons m ms ih =>
    cases k with
    | zero =>
      obtain rfl : m = l := by simpa using hk
      exact h.1
    | succ k => exact ih h.2 (by simpa using hk)

end

/-- An invariant kept by every step that meets `P` holds after every run along `P`. -/
theorem Along.inv {I : S → Prop} (hstep : ∀ s l, I s → P s l → I (M.step s l)) {ls : List L}
    (h : M.Along P s ls) (h0 : I s) : I (M.run s ls) := by
  induction ls generalizing s with
  | nil => exact h0
  | cons l ls ih => exact ih h.2 (hstep s l h0 h.1)

theorem Along.of_inv {I : S → Prop} (hstep : ∀ s l, I s → P s l → Q s l ∧ I (M.step s l))
    {ls : List L} (h : M.Along P s ls) (h0 : I s) : M.Along Q s ls := by
  induction ls generalizing s with
  | nil => trivial
  | cons l ls ih =>
    obtain ⟨hl, hnext⟩ := hstep s l h0 h.1
    exact ⟨hl, ih h.2 hnext⟩

/-- Two machines on the same labels stay related. -/
theorem Along.sim {S' : Type} {N : Machine S' L} {R : S → S' → Prop}
    (hstep : ∀ s s' l, R s s' → P s l → R (M.step s l) (N.step s' l)) {s' : S'} {ls : List L}
    (h : M.Along P s ls) (h0 : R s s') : R (M.run s ls) (N.run s' ls) := by
  induction ls generalizing s s' with
  | nil => exact h0
  | cons l ls ih => exact ih h.2 (hstep s s' l h0 h.1)

theorem Along.inv_after {I : S → Prop} (hstep : ∀ s l, I s → P s l → I (M.step s l)) {ls : List L}
    (h : M.Along P s ls) (h0 : I s) (k : ℕ) : I (M.after s ls k) := by
  refine Along.inv hstep (P := P) ?_ h0
  rw [← List.take_append_drop k ls] at h
  exact ((along_append _ _).mp h).1

theorem run_inv {I : S → Prop} (hstep : ∀ s l, I s → I (M.step s l)) (h0 : I s) (ls : List L) :
    I (M.run s ls) := by
  induction ls generalizing s with
  | nil => exact h0
  | cons l ls ih => exact ih (hstep s l h0)

/-- A step that violates `Q` leads from the good states to a bad one, and no step leads back: a run
that does not end in a bad state meets `Q` at every step. -/
theorem Along.of_not_bad {I B : S → Prop}
    (hgood : ∀ s l, I s → P s l → Q s l → I (M.step s l))
    (hbad : ∀ s l, I s → P s l → ¬ Q s l → B (M.step s l))
    (hkeep : ∀ s l, B s → P s l → B (M.step s l)) {ls : List L} (h : M.Along P s ls) (h0 : I s)
    (hend : ¬ B (M.run s ls)) : M.Along Q s ls := by
  induction ls generalizing s with
  | nil => trivial
  | cons l ls ih =>
    have hq : Q s l := by
      by_contra hq
      exact hend (h.2.inv hkeep (hbad s l h0 h.1 hq))
    exact ⟨hq, ih h.2 (hgood s l h0 h.1 hq) hend⟩

theorem Along.congr {I : S → Prop} {R : S → L → Prop}
    (hstep : ∀ s l, I s → P s l → (R s l ↔ Q s l) ∧ (Q s l → I (M.step s l))) {ls : List L}
    (h : M.Along P s ls) (h0 : I s) : M.Along R s ls ↔ M.Along Q s ls := by
  induction ls generalizing s with
  | nil => exact Iff.rfl
  | cons l ls ih =>
    obtain ⟨hiff, hnext⟩ := hstep s l h0 h.1
    constructor
    · rintro ⟨hr, hrest⟩
      have hq := hiff.mp hr
      exact ⟨hq, (ih h.2 (hnext hq)).mp hrest⟩
    · rintro ⟨hq, hrest⟩
      exact ⟨hiff.mpr hq, (ih h.2 (hnext hq)).mpr hrest⟩

theorem forall_prefix_cons {q : List L → Prop} {l : L} {ls : List L} :
    (∀ pre, pre <+: l :: ls → q pre) ↔ q [] ∧ ∀ pre, pre <+: ls → q (l :: pre) := by
  constructor
  · intro h
    exact ⟨h [] List.nil_prefix,
      fun pre hpre => h (l :: pre) (List.cons_prefix_cons.mpr ⟨rfl, hpre⟩)⟩
  · rintro ⟨h0, h⟩ pre hpre
    rcases List.prefix_cons_iff.mp hpre with rfl | ⟨pre', rfl, hpre'⟩
    · exact h0
    · exact h pre' hpre'

/-- A property of every state of a run, step by step. -/
theorem forall_prefix_iff {p : S → Prop} {ls : List L} :
    (∀ pre, pre <+: ls → p (M.run s pre)) ↔ p s ∧ M.Along (fun s l => p (M.step s l)) s ls := by
  induction ls generalizing s with
  | nil => simp [Along]
  | cons l ls ih =>
    rw [forall_prefix_cons]
    simp only [run_nil, run_cons, Along]
    rw [ih]

/-! ## Two runs of the same labels -/

/-- Seen through `f`, the runs of `ls` from `s` and `s'` are the same at every position. -/
def Agrees {α : Type} (M : Machine S L) (f : S → α) (s s' : S) (ls : List L) : Prop :=
  ∀ pre, pre <+: ls → f (M.run s pre) = f (M.run s' pre)

section
variable {α : Type} {f : S → α} {s' : S}

@[simp] theorem agrees_nil : M.Agrees f s s' [] ↔ f s = f s' := by
  simp [Agrees]

theorem agrees_cons {l : L} {ls : List L} :
    M.Agrees f s s' (l :: ls) ↔ f s = f s' ∧ M.Agrees f (M.step s l) (M.step s' l) ls :=
  forall_prefix_cons

theorem agrees_refl (ls : List L) : M.Agrees f s s ls := fun _ _ => rfl

end

end Machine

end CritPath.Lib
