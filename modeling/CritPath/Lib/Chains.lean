import Mathlib.Data.List.Nodup
import Mathlib.Data.List.Range

/-!
# Chains of array cells

Cells stand in an array in the order they were made; each holds the position of
the next cell of its chain, and an array of heads holds the first position of
each class. `Chain next cells s l` says that following `next` from `s` visits
exactly the positions `l`. A new cell goes to the end of the array and to the
front of the chain of its class, so that a chain runs from new cells to old ones
and `Linked` (every head starts the chain of its class, `members`) is kept.
-/

namespace CritPath.Lib.Chains

variable {α : Type*}

/-- The positions visited from `s` are `l`, and the last of them has no next cell. -/
inductive Chain (next : α → Option ℕ) (cells : List α) : Option ℕ → List ℕ → Prop
  | nil : Chain next cells none []
  | cons {i : ℕ} {a : α} {l : List ℕ} : cells[i]? = some a → Chain next cells (next a) l →
      Chain next cells (some i) (i :: l)

/-- Looks for a cell that meets `p`. No answer: the steps did not suffice, or a position led out
of the array. The answer `some none`: the chain ended without such a cell. -/
def walk (next : α → Option ℕ) (p : α → Bool) (cells : List α) : ℕ → Option ℕ → Option (Option ℕ)
  | 0, _ => none
  | _ + 1, none => some none
  | fuel + 1, some i =>
    match cells[i]? with
    | none => none
    | some a => if p a then some (some i) else walk next p cells fuel (next a)

def headAt (heads : List (Option ℕ)) (b : ℕ) : Option ℕ := heads.getD b none

def members (cls : α → ℕ) (cells : List α) (b : ℕ) : List ℕ :=
  ((List.range cells.length).filter fun i => cells[i]?.map cls = some b).reverse

/-- Every head starts the chain of its class. -/
def Linked (next : α → Option ℕ) (cls : α → ℕ) (cells : List α) (heads : List (Option ℕ)) : Prop :=
  ∀ b < heads.length, Chain next cells (headAt heads b) (members cls cells b)

variable {next : α → Option ℕ} {cls : α → ℕ} {cells : List α} {heads : List (Option ℕ)}
  {s : Option ℕ} {l : List ℕ} {a : α} {b i : ℕ}

/-! ## The positions of a class -/

theorem mem_members : i ∈ members cls cells b ↔ ∃ a, cells[i]? = some a ∧ cls a = b := by
  simp only [members, List.mem_reverse, List.mem_filter, List.mem_range, decide_eq_true_eq,
    Option.map_eq_some_iff]
  constructor
  · exact fun h => h.2
  · rintro ⟨a, ha, hb⟩
    exact ⟨(List.getElem?_eq_some_iff.mp ha).1, a, ha, hb⟩

theorem nodup_members (cls : α → ℕ) (cells : List α) (b : ℕ) : (members cls cells b).Nodup :=
  List.nodup_reverse.mpr (List.nodup_range.filter _)

theorem length_members_le (cls : α → ℕ) (cells : List α) (b : ℕ) :
    (members cls cells b).length ≤ cells.length := by
  have h := List.length_filter_le (fun i => decide (cells[i]?.map cls = some b))
    (List.range cells.length)
  simpa [members] using h

@[simp] theorem members_nil : members cls [] b = [] := rfl

theorem members_concat (cls : α → ℕ) (cells : List α) (a : α) (b : ℕ) :
    members cls (cells ++ [a]) b =
      if cls a = b then cells.length :: members cls cells b else members cls cells b := by
  have hold : (List.range cells.length).filter
        (fun i => decide ((cells ++ [a])[i]?.map cls = some b)) =
      (List.range cells.length).filter fun i => decide (cells[i]?.map cls = some b) := by
    refine List.filter_congr fun i hi => ?_
    rw [List.getElem?_append_left (List.mem_range.mp hi)]
  unfold members
  rw [List.length_append, List.length_singleton, List.range_succ, List.filter_append, hold]
  by_cases hb : cls a = b <;> simp [hb]

/-! ## Walking a chain -/

theorem Chain.concat (h : Chain next cells s l) (a : α) : Chain next (cells ++ [a]) s l := by
  induction h with
  | nil => exact .nil
  | cons hi _ ih =>
    have hlt := (List.getElem?_eq_some_iff.mp hi).1
    exact .cons (by rw [List.getElem?_append_left hlt, hi]) ih

theorem Chain.congr {cells' : List α} (hn : cells'.map next = cells.map next)
    (h : Chain next cells s l) : Chain next cells' s l := by
  induction h with
  | nil => exact .nil
  | @cons i a l hi _ ih =>
    have hi' : (cells'.map next)[i]? = some (next a) := by rw [hn, List.getElem?_map, hi]; rfl
    rw [List.getElem?_map] at hi'
    obtain ⟨a', ha', hnext⟩ := Option.map_eq_some_iff.mp hi'
    exact .cons ha' (by rw [hnext]; exact ih)

/-- With more steps than the chain has cells the walk returns the first match on the chain. -/
theorem Chain.walk_eq (h : Chain next cells s l) (p : α → Bool) {fuel : ℕ} (hf : l.length < fuel) :
    walk next p cells fuel s = some (l.find? fun i => cells[i]?.any p) := by
  induction h generalizing fuel with
  | nil =>
    obtain ⟨fuel, rfl⟩ := Nat.exists_eq_add_of_lt hf
    rfl
  | @cons i a l hi _ ih =>
    obtain ⟨fuel, rfl⟩ : ∃ n, fuel = n + 1 := ⟨fuel - 1, by omega⟩
    simp only [walk, hi, List.find?_cons, Option.any_some]
    cases p a with
    | true => rfl
    | false => exact ih (by simpa using hf)

/-! ## Linking -/

theorem linked_replicate (next : α → Option ℕ) (cls : α → ℕ) (n : ℕ) :
    Linked next cls [] (List.replicate n none) := by
  intro b hb
  rw [List.length_replicate] at hb
  have hnone : headAt (List.replicate n none) b = none := by simp [headAt, hb]
  rw [hnone]
  exact .nil

theorem Linked.push (h : Linked next cls cells heads) (hn : next a = headAt heads (cls a))
    (hb : cls a < heads.length) :
    Linked next cls (cells ++ [a]) (heads.set (cls a) (some cells.length)) := by
  intro b hlt
  rw [List.length_set] at hlt
  have hold := (h b hlt).concat a
  rw [members_concat]
  by_cases hba : cls a = b
  · subst hba
    have hhead : headAt (heads.set (cls a) (some cells.length)) (cls a) = some cells.length := by
      simp [headAt, hb]
    have hcell : (cells ++ [a])[cells.length]? = some a := by simp
    rw [if_pos rfl, hhead]
    exact .cons hcell (by rw [hn]; exact hold)
  · have hhead : headAt (heads.set (cls a) (some cells.length)) b = headAt heads b := by
      simp [headAt, List.getElem?_set_ne hba]
    rw [if_neg hba, hhead]
    exact hold

theorem members_congr {cells' : List α} (hc : cells'.map cls = cells.map cls) (b : ℕ) :
    members cls cells' b = members cls cells b := by
  have hlen : cells'.length = cells.length := by simpa using congrArg List.length hc
  have hget : ∀ i : ℕ, cells'[i]?.map cls = cells[i]?.map cls := by
    intro i
    rw [← List.getElem?_map, hc, List.getElem?_map]
  unfold members
  simp only [hlen, hget]

theorem Linked.congr {cells' : List α} (hn : cells'.map next = cells.map next)
    (hc : cells'.map cls = cells.map cls) (h : Linked next cls cells heads) :
    Linked next cls cells' heads := by
  intro b hb
  rw [members_congr hc]
  exact (h b hb).congr hn

end CritPath.Lib.Chains
