import Mathlib.Data.Nat.Notation
import Mathlib.Logic.Function.Basic

/-!
# Object lifetimes in allocated storage

Storage comes in blocks of slots. A slot is raw or holds a constructed object,
and each command (`Cmd`) is allowed only on slots in the right state: objects are
constructed into raw slots of an allocated block; only constructed objects are
read, assigned to and destroyed; a block is freed only when its slots are raw
again. `exec` has no result where a command breaks a rule. Moving from an object
leaves it constructed, with the value `moved` makes of it.

An object is one construction in a slot. Where a run of commands breaks no rule,
every object has ended exactly once or is still in its slot (`births_eq`).

The second part are the loops that containers are made of, over ranges of slots,
each with what it does to the block as a whole. A block that holds the list `l`
in its first slots is the function `fun q => l[q]?`.
-/

namespace CritPath.Lib.Lifetime

structure Addr where
  block : ℕ
  index : ℕ
  deriving DecidableEq

inductive Cmd (α : Type)
  /-- `::new (dst) T(v)`, from a value outside the store. -/
  | construct (dst : Addr) (v : α)
  | copyConstruct (dst src : Addr)
  | moveConstruct (dst src : Addr)
  | assign (dst : Addr) (v : α)
  | moveAssign (dst src : Addr)
  /-- The destructor is called. -/
  | destroy (a : Addr)
  /-- The object ends without a call, as one that is trivially destructible may. -/
  | retire (a : Addr)
  | malloc (size : ℕ)
  | free (block : ℕ)
  deriving DecidableEq

/-- The slots by block and index, the sizes of the allocated blocks and the next block. Block 0 is
never allocated. -/
structure Store (α : Type) where
  slot : ℕ → ℕ → Option α := fun _ _ => none
  size : ℕ → Option ℕ := fun _ => none
  fresh : ℕ := 1

namespace Store

variable {α : Type}

def get (st : Store α) (a : Addr) : Option α := st.slot a.block a.index

def put (st : Store α) (b : ℕ) (f : ℕ → Option α) : Store α :=
  { st with slot := Function.update st.slot b f }

def set (st : Store α) (a : Addr) (o : Option α) : Store α :=
  st.put a.block (Function.update (st.slot a.block) a.index o)

def inBlock (st : Store α) (a : Addr) : Bool :=
  match st.size a.block with
  | some n => a.index < n
  | none => false

@[simp] theorem slot_put_self (st : Store α) (b : ℕ) (f : ℕ → Option α) :
    (st.put b f).slot b = f := by
  simp [put]

theorem slot_put_ne (st : Store α) {b b' : ℕ} (h : b' ≠ b) (f : ℕ → Option α) :
    (st.put b f).slot b' = st.slot b' := by
  simp [put, h]

@[simp] theorem size_put (st : Store α) (b : ℕ) (f : ℕ → Option α) :
    (st.put b f).size = st.size := rfl

@[simp] theorem fresh_put (st : Store α) (b : ℕ) (f : ℕ → Option α) :
    (st.put b f).fresh = st.fresh := rfl

@[simp] theorem put_put (st : Store α) (b : ℕ) (f g : ℕ → Option α) :
    (st.put b f).put b g = st.put b g := by
  simp [put]

theorem put_congr (st : Store α) (b : ℕ) {f g : ℕ → Option α} (h : ∀ q, f q = g q) :
    st.put b f = st.put b g := by
  rw [funext h]

theorem put_eq_self (st : Store α) (b : ℕ) {f : ℕ → Option α} (h : ∀ q, f q = st.slot b q) :
    st.put b f = st := by
  simp [put, funext h]

theorem put_comm (st : Store α) {b b' : ℕ} (h : b ≠ b') (f g : ℕ → Option α) :
    (st.put b f).put b' g = (st.put b' g).put b f := by
  simp [put, Function.update_comm h]

theorem set_eq_put (st : Store α) (b q : ℕ) (o : Option α) :
    st.set ⟨b, q⟩ o = st.put b (Function.update (st.slot b) q o) := rfl

theorem get_mk (st : Store α) (b q : ℕ) : st.get ⟨b, q⟩ = st.slot b q := rfl

theorem inBlock_eq {st : Store α} {b n q : ℕ} (h : st.size b = some n) :
    st.inBlock ⟨b, q⟩ = decide (q < n) := by
  simp [inBlock, h]

end Store

variable {α : Type} (moved : α → α)

def Store.construct (st : Store α) (dst : Addr) (v : α) : Option (Store α) :=
  if st.inBlock dst && (st.get dst).isNone then some (st.set dst (some v)) else none

def Store.finish (st : Store α) (a : Addr) : Option (Store α) :=
  if (st.get a).isSome then some (st.set a none) else none

def exec (st : Store α) : Cmd α → Option (Store α)
  | .construct dst v => st.construct dst v
  | .copyConstruct dst src => (st.get src).bind fun v => st.construct dst v
  | .moveConstruct dst src =>
    (st.get src).bind fun v => (st.construct dst v).map fun st => st.set src (some (moved v))
  | .assign dst v => if (st.get dst).isSome then some (st.set dst (some v)) else none
  | .moveAssign dst src =>
    (st.get src).bind fun v =>
      if (st.get dst).isSome then some ((st.set dst (some v)).set src (some (moved v))) else none
  | .destroy a => st.finish a
  | .retire a => st.finish a
  | .malloc size =>
    some { st with size := Function.update st.size st.fresh (some size), fresh := st.fresh + 1 }
  | .free block =>
    (st.size block).bind fun n =>
      if ∀ q < n, (st.slot block q).isNone then
        some { st with size := Function.update st.size block none }
      else none

def execAll (st : Store α) : List (Cmd α) → Option (Store α)
  | [] => some st
  | c :: cs => (exec moved st c).bind fun st => execAll st cs

variable {moved} {st st' : Store α}

@[simp] theorem execAll_nil : execAll moved st [] = some st := rfl

theorem execAll_append (cs ds : List (Cmd α)) :
    execAll moved st (cs ++ ds) =
      (execAll moved st cs).bind fun st => execAll moved st ds := by
  induction cs generalizing st with
  | nil => rfl
  | cons c cs ih =>
    simp only [List.cons_append, execAll, Option.bind_assoc]
    exact congrArg _ (funext fun st => ih)

theorem execAll_append_of_some {cs ds : List (Cmd α)} (h : execAll moved st cs = some st') :
    execAll moved st (cs ++ ds) = execAll moved st' ds := by
  rw [execAll_append, h]
  rfl

theorem construct_of_raw {b n q : ℕ} (hsize : st.size b = some n) (hq : q < n)
    (hraw : st.slot b q = none) (v : α) :
    st.construct ⟨b, q⟩ v = some (st.put b (Function.update (st.slot b) q (some v))) := by
  simp [Store.construct, Store.inBlock_eq hsize, hq, Store.get_mk, hraw, Store.set_eq_put]

theorem finish_of_live {b q : ℕ} {v : α} (h : st.slot b q = some v) :
    st.finish ⟨b, q⟩ = some (st.put b (Function.update (st.slot b) q none)) := by
  simp [Store.finish, Store.get_mk, h, Store.set_eq_put]

/-! ## Accounting -/

def Cmd.birth : Cmd α → Option Addr
  | .construct dst _ | .copyConstruct dst _ | .moveConstruct dst _ => some dst
  | _ => none

def Cmd.ending : Cmd α → Option Addr
  | .destroy a | .retire a => some a
  | _ => none

def births (cs : List (Cmd α)) (a : Addr) : ℕ := cs.countP fun c => c.birth = some a

def endings (cs : List (Cmd α)) (a : Addr) : ℕ := cs.countP fun c => c.ending = some a

def Store.living (st : Store α) (a : Addr) : ℕ := if (st.get a).isSome then 1 else 0

theorem Store.get_set (st : Store α) (a a' : Addr) (o : Option α) :
    (st.set a o).get a' = if a' = a then o else st.get a' := by
  obtain ⟨b, q⟩ := a
  obtain ⟨b', q'⟩ := a'
  by_cases hb : b' = b
  · subst hb
    by_cases hq : q' = q
    · subst hq
      simp [Store.set, Store.get]
    · simp [Store.set, Store.get, hq]
  · simp [Store.set, Store.get, Store.slot_put_ne _ hb, hb]

theorem living_construct {dst : Addr} {v : α} (h : st.construct dst v = some st') (a : Addr) :
    st'.living a = st.living a + if dst = a then 1 else 0 := by
  unfold Store.construct at h
  split at h
  · rename_i hraw
    cases h
    simp only [Bool.and_eq_true, Option.isNone_iff_eq_none] at hraw
    by_cases ha : a = dst
    · subst ha
      simp [Store.living, Store.get_set, hraw.2]
    · simp [Store.living, Store.get_set, ha, Ne.symm ha]
  · cases h

theorem living_finish {b : Addr} (h : st.finish b = some st') (a : Addr) :
    st'.living a + (if b = a then 1 else 0) = st.living a := by
  unfold Store.finish at h
  split at h
  · rename_i hlive
    cases h
    by_cases ha : a = b
    · subst ha
      simp [Store.living, Store.get_set, hlive]
    · simp [Store.living, Store.get_set, ha, Ne.symm ha]
  · cases h

theorem living_set {b : Addr} {v : α} (h : (st.get b).isSome) (a : Addr) :
    (st.set b (some v)).living a = st.living a := by
  by_cases ha : a = b
  · subst ha
    simp [Store.living, Store.get_set, h]
  · simp [Store.living, Store.get_set, ha]

theorem isSome_construct {dst src : Addr} {v : α} (h : st.construct dst v = some st')
    (hsrc : (st.get src).isSome) : (st'.get src).isSome := by
  unfold Store.construct at h
  split at h
  · cases h
    rw [Store.get_set]
    split
    · rfl
    · exact hsrc
  · cases h

/-- A command changes the number of objects in a slot by those it constructs and ends there. -/
theorem living_exec {c : Cmd α} (h : exec moved st c = some st') (a : Addr) :
    st'.living a + (if c.ending = some a then 1 else 0) =
      st.living a + if c.birth = some a then 1 else 0 := by
  cases c with
  | construct dst v => simpa [Cmd.birth, Cmd.ending] using living_construct h a
  | copyConstruct dst src =>
    obtain ⟨v, -, hcon⟩ := Option.bind_eq_some_iff.mp h
    simpa [Cmd.birth, Cmd.ending] using living_construct hcon a
  | moveConstruct dst src =>
    obtain ⟨v, hsrc, hmap⟩ := Option.bind_eq_some_iff.mp h
    obtain ⟨st1, hcon, rfl⟩ := Option.map_eq_some_iff.mp hmap
    have hlive := isSome_construct hcon (by rw [hsrc]; rfl)
    rw [living_set hlive]
    simpa [Cmd.birth, Cmd.ending] using living_construct hcon a
  | assign dst v =>
    simp only [exec] at h
    split at h
    · rename_i hlive
      cases h
      simpa [Cmd.birth, Cmd.ending] using living_set hlive a
    · cases h
  | moveAssign dst src =>
    obtain ⟨v, hsrc, hif⟩ := Option.bind_eq_some_iff.mp h
    split at hif
    · rename_i hlive
      cases hif
      have hsrc' : ((st.set dst (some v)).get src).isSome := by
        rw [Store.get_set]
        split
        · rfl
        · rw [hsrc]; rfl
      rw [living_set hsrc', living_set hlive]
      simp [Cmd.birth, Cmd.ending]
    · cases hif
  | destroy b => simpa [Cmd.birth, Cmd.ending] using living_finish h a
  | retire b => simpa [Cmd.birth, Cmd.ending] using living_finish h a
  | malloc size =>
    cases h
    rfl
  | free block =>
    obtain ⟨n, -, hif⟩ := Option.bind_eq_some_iff.mp h
    split at hif
    · cases hif
      rfl
    · cases hif

theorem living_execAll {cs : List (Cmd α)} (h : execAll moved st cs = some st') (a : Addr) :
    st'.living a + endings cs a = st.living a + births cs a := by
  induction cs generalizing st with
  | nil =>
    cases h
    rfl
  | cons c cs ih =>
    obtain ⟨st1, hc, hcs⟩ := Option.bind_eq_some_iff.mp h
    have h1 := living_exec hc a
    have h2 := ih hcs
    simp only [births, endings, List.countP_cons, decide_eq_true_eq] at h1 h2 ⊢
    omega

theorem births_eq {cs : List (Cmd α)} (h : execAll moved {} cs = some st) (a : Addr) :
    births cs a = endings cs a + st.living a := by
  have hl := living_execAll h a
  have h0 : ({} : Store α).living a = 0 := rfl
  omega

/-! ## Loops over ranges -/

/-- Constructs the values one after the other from slot `pos` on. -/
def constructRange (b : ℕ) : ℕ → List α → List (Cmd α)
  | _, [] => []
  | pos, x :: xs => .construct ⟨b, pos⟩ x :: constructRange b (pos + 1) xs

def sweep (c : ℕ → Cmd α) : ℕ → ℕ → List (Cmd α)
  | _, 0 => []
  | pos, n + 1 => c pos :: sweep c (pos + 1) n

def copyRange (b src pos n : ℕ) : List (Cmd α) :=
  sweep (fun q => .copyConstruct ⟨b, q⟩ ⟨src, q⟩) pos n

/-- Ends `n` objects from slot `pos` on, by a call of the destructor or without one. -/
def finishRange (call : Bool) (b pos n : ℕ) : List (Cmd α) :=
  sweep (fun q => if call then .destroy ⟨b, q⟩ else .retire ⟨b, q⟩) pos n

/-- Moves `n` objects, from slot `pos` on, to the same slots of another block. -/
def relocate (b dst : ℕ) : ℕ → ℕ → List (Cmd α)
  | _, 0 => []
  | pos, n + 1 =>
    .moveConstruct ⟨dst, pos⟩ ⟨b, pos⟩ :: .destroy ⟨b, pos⟩ :: relocate b dst (pos + 1) n

/-- Moves `n` objects, the last one first, `k` slots to the right; `size` slots hold objects. -/
def shiftRight (b k size pos : ℕ) : ℕ → List (Cmd α)
  | 0 => []
  | n + 1 =>
    (if pos + n + k ≥ size then .moveConstruct ⟨b, pos + n + k⟩ ⟨b, pos + n⟩
      else .moveAssign ⟨b, pos + n + k⟩ ⟨b, pos + n⟩) :: shiftRight b k size pos n

/-- Moves `n` objects, from slot `p` on, `k` slots to the left. -/
def shiftLeft (b k : ℕ) : ℕ → ℕ → List (Cmd α)
  | _, 0 => []
  | p, n + 1 => .moveAssign ⟨b, p - k⟩ ⟨b, p⟩ :: shiftLeft b k (p + 1) n

section
variable {b cap pos n : ℕ} {l xs : List α}

theorem execAll_constructRange (hsize : st.size b = some cap) (hcap : pos + xs.length ≤ cap)
    (hraw : ∀ q, pos ≤ q → q < pos + xs.length → st.slot b q = none) :
    execAll moved st (constructRange b pos xs) =
      some (st.put b fun q =>
        if pos ≤ q ∧ q < pos + xs.length then xs[q - pos]? else st.slot b q) := by
  induction xs generalizing st pos with
  | nil =>
    refine congrArg some (st.put_eq_self b fun q => ?_).symm
    rw [if_neg (by rw [List.length_nil]; omega)]
  | cons x xs ih =>
    simp only [List.length_cons] at hcap hraw ⊢
    have hfirst := construct_of_raw hsize (by omega : pos < cap) (hraw pos (Nat.le_refl _) (by omega)) x
    simp only [constructRange, execAll, exec, hfirst, Option.bind_some]
    rw [ih (by simpa using hsize) (by omega)]
    · rw [Store.put_put]
      refine congrArg some (st.put_congr b fun q => ?_)
      rw [Store.slot_put_self]
      by_cases hq : q = pos
      · subst hq
        rw [if_neg (by omega), if_pos (by omega)]
        simp
      · by_cases hin : pos + 1 ≤ q ∧ q < pos + 1 + xs.length
        · rw [if_pos hin, if_pos (by omega)]
          obtain ⟨m, rfl⟩ : ∃ m, q = pos + 1 + m := ⟨q - (pos + 1), by omega⟩
          rw [Nat.add_sub_cancel_left, show pos + 1 + m - pos = m + 1 by omega,
            List.getElem?_cons_succ]
        · rw [if_neg hin, if_neg (by omega), Function.update_of_ne hq]
    · intro q hlo hhi
      rw [Store.slot_put_self, Function.update_of_ne (by omega)]
      exact hraw q (by omega) (by omega)

theorem execAll_sweep {c : ℕ → Cmd α} {new : ℕ → Option α}
    (hc : ∀ f q, pos ≤ q → q < pos + n → f q = st.slot b q →
      exec moved (st.put b f) (c q) = some (st.put b (Function.update f q (new q)))) :
    execAll moved st (sweep c pos n) =
      some (st.put b fun q => if pos ≤ q ∧ q < pos + n then new q else st.slot b q) := by
  induction n generalizing st pos with
  | zero =>
    refine congrArg some (st.put_eq_self b fun q => ?_).symm
    rw [if_neg (by omega)]
  | succ n ih =>
    have hfirst := hc (st.slot b) pos (Nat.le_refl _) (by omega) rfl
    rw [st.put_eq_self b fun q => rfl] at hfirst
    simp only [sweep, execAll, hfirst, Option.bind_some]
    rw [ih]
    · rw [Store.put_put]
      refine congrArg some (st.put_congr b fun q => ?_)
      rw [Store.slot_put_self]
      by_cases hq : q = pos
      · subst hq
        rw [if_neg (by omega), if_pos (by omega), Function.update_self]
      · by_cases hin : pos + 1 ≤ q ∧ q < pos + 1 + n
        · rw [if_pos hin, if_pos (by omega)]
        · rw [if_neg hin, if_neg (by omega), Function.update_of_ne hq]
    · intro f q hlo hhi hf
      rw [Store.slot_put_self, Function.update_of_ne (by omega)] at hf
      simpa using hc f q (by omega) (by omega) hf

theorem execAll_copyRange {src : ℕ} (hsize : st.size b = some cap) (hne : src ≠ b)
    (hsrc : st.slot src = fun q => l[q]?) (hn : pos + n ≤ l.length) (hcap : pos + n ≤ cap)
    (hraw : ∀ q, pos ≤ q → q < pos + n → st.slot b q = none) :
    execAll moved st (copyRange b src pos n) =
      some (st.put b fun q => if pos ≤ q ∧ q < pos + n then l[q]? else st.slot b q) := by
  refine execAll_sweep fun f q hlo hhi hf => ?_
  have hq : l[q]? = some l[q] := List.getElem?_eq_getElem (by omega)
  have hget : (st.put b f).get ⟨src, q⟩ = some l[q] := by
    rw [Store.get_mk, Store.slot_put_ne _ hne, hsrc]
    exact hq
  have hnone : (st.put b f).slot b q = none := by
    rw [Store.slot_put_self, hf, hraw q hlo hhi]
  simp only [exec, hget, Option.bind_some]
  rw [construct_of_raw (by simpa using hsize) (by omega) hnone, hq]
  simp

theorem execAll_finishRange (call : Bool)
    (hlive : ∀ q, pos ≤ q → q < pos + n → (st.slot b q).isSome) :
    execAll moved st (finishRange call b pos n) =
      some (st.put b fun q => if pos ≤ q ∧ q < pos + n then none else st.slot b q) := by
  refine execAll_sweep fun f q hlo hhi hf => ?_
  obtain ⟨v, hv⟩ := Option.isSome_iff_exists.mp (hlive q hlo hhi)
  have hslot : (st.put b f).slot b q = some v := by rw [Store.slot_put_self, hf, hv]
  have hfin := finish_of_live hslot
  rw [Store.put_put, Store.slot_put_self] at hfin
  cases call <;> exact hfin

theorem update_boundary (f g : ℕ → Option α) (pos : ℕ) :
    Function.update (fun q => if q < pos then f q else g q) pos (f pos) =
      fun q => if q < pos + 1 then f q else g q := by
  funext q
  by_cases hq : q = pos
  · subst hq
    rw [Function.update_self, if_pos (Nat.lt_succ_self q)]
  · rw [Function.update_of_ne hq]
    by_cases hlt : q < pos
    · rw [if_pos hlt, if_pos (by omega)]
    · rw [if_neg hlt, if_neg (by omega)]

theorem execAll_moveOut {dst : ℕ} {v : α} (hne : b ≠ dst) (hdst : st.size dst = some cap)
    (hpos : pos < cap) (hlive : st.slot b pos = some v) (hraw : st.slot dst pos = none)
    (cs : List (Cmd α)) :
    execAll moved st (.moveConstruct ⟨dst, pos⟩ ⟨b, pos⟩ :: .destroy ⟨b, pos⟩ :: cs) =
      execAll moved ((st.put dst (Function.update (st.slot dst) pos (some v))).put b
        (Function.update (st.slot b) pos none)) cs := by
  have hget : st.get ⟨b, pos⟩ = some v := hlive
  have hmove : exec moved st (.moveConstruct ⟨dst, pos⟩ ⟨b, pos⟩) =
      some ((st.put dst (Function.update (st.slot dst) pos (some v))).put b
        (Function.update (st.slot b) pos (some (moved v)))) := by
    simp only [exec, hget, Option.bind_some, construct_of_raw hdst hpos hraw v, Option.map_some,
      Store.set_eq_put, Store.slot_put_ne _ hne]
  have hslot : ((st.put dst (Function.update (st.slot dst) pos (some v))).put b
      (Function.update (st.slot b) pos (some (moved v)))).slot b pos = some (moved v) := by simp
  have hend := finish_of_live hslot
  rw [Store.put_put, Store.slot_put_self, Function.update_idem] at hend
  simp only [execAll, hmove, Option.bind_some]
  exact congrArg (·.bind fun st => execAll moved st cs) hend

/-- The objects of a block that holds `l` are all in the new block afterwards. -/
theorem execAll_relocate {dst : ℕ} (hne : b ≠ dst) (hdst : st.size dst = some cap)
    (hn : pos + n = l.length) (hcap : l.length ≤ cap)
    (hb : st.slot b = fun q => if q < pos then none else l[q]?)
    (hd : st.slot dst = fun q => if q < pos then l[q]? else none) :
    execAll moved st (relocate b dst pos n) =
      some ((st.put b fun _ => none).put dst fun q => l[q]?) := by
  induction n generalizing st pos with
  | zero =>
    have hsame : st.put b (fun _ => none) = st := st.put_eq_self b fun q => by
      simp only [hb]
      split
      · rfl
      · exact (List.getElem?_eq_none (by omega)).symm
    rw [hsame]
    refine congrArg some (st.put_eq_self dst fun q => ?_).symm
    simp only [hd]
    split
    · rfl
    · exact List.getElem?_eq_none (by omega)
  | succ n ih =>
    have hq : l[pos]? = some l[pos] := List.getElem?_eq_getElem (by omega)
    have hlive : st.slot b pos = some l[pos] := by
      rw [hb]
      simp [hq]
    have hraw : st.slot dst pos = none := by
      rw [hd]
      simp
    rw [relocate, execAll_moveOut hne hdst (by omega) hlive hraw, ih (by simpa using hdst) (by omega)]
    · refine congrArg some ?_
      rw [Store.put_put, Store.put_comm _ (Ne.symm hne), Store.put_put]
    · rw [Store.slot_put_self, hb]
      exact update_boundary (fun _ => none) (fun q => l[q]?) pos
    · rw [Store.slot_put_ne _ (Ne.symm hne), Store.slot_put_self, hd, ← hq]
      exact update_boundary (fun q => l[q]?) (fun _ => none) pos

def Store.reallocated (st : Store α) (b cap : ℕ) (l : List α) : Store α where
  slot := Function.update (Function.update st.slot b fun _ => none) st.fresh fun q => l[q]?
  size := Function.update (Function.update st.size st.fresh (some cap)) b
    (if b = 0 then st.size 0 else none)
  fresh := st.fresh + 1

namespace Store

theorem slot_reallocated_fresh : (st.reallocated b cap l).slot st.fresh = fun q => l[q]? :=
  Function.update_self _ _ _

theorem slot_reallocated_self (h : b ≠ st.fresh) :
    (st.reallocated b cap l).slot b = fun _ => none :=
  (Function.update_of_ne h _ _).trans (Function.update_self _ _ _)

theorem slot_reallocated_ne {b' : ℕ} (h : b' ≠ b) (hf : b' ≠ st.fresh) :
    (st.reallocated b cap l).slot b' = st.slot b' :=
  (Function.update_of_ne hf _ _).trans (Function.update_of_ne h _ _)

theorem size_reallocated_fresh (h : b ≠ st.fresh) :
    (st.reallocated b cap l).size st.fresh = some cap :=
  (Function.update_of_ne h.symm _ _).trans (Function.update_self _ _ _)

theorem size_reallocated_self (h0 : st.size 0 = none) :
    (st.reallocated b cap l).size b = none := by
  refine (Function.update_self _ _ _).trans ?_
  rw [h0]
  split <;> rfl

theorem size_reallocated_ne {b' : ℕ} (h : b' ≠ b) (hf : b' ≠ st.fresh) :
    (st.reallocated b cap l).size b' = st.size b' :=
  (Function.update_of_ne h _ _).trans (Function.update_of_ne hf _ _)

end Store

theorem execAll_reallocate (hb : st.slot b = fun q => l[q]?) (hlt : b < st.fresh)
    (hblock : b ≠ 0 → st.size b ≠ none) (hraw : ∀ q, st.slot st.fresh q = none)
    (hn : n = l.length) (hcap : n ≤ cap) :
    execAll moved st (.malloc cap :: (relocate b st.fresh 0 n ++
        if b = 0 then [] else [.free b])) = some (st.reallocated b cap l) := by
  let st₁ : Store α :=
    { st with size := Function.update st.size st.fresh (some cap), fresh := st.fresh + 1 }
  let st₂ := (st₁.put b fun _ => none).put st.fresh fun q => l[q]?
  have hne : b ≠ st.fresh := by omega
  have hmove : execAll moved st₁ (relocate b st.fresh 0 n) = some st₂ := by
    refine execAll_relocate hne (?_ : st₁.size st.fresh = some cap) ?_ ?_ ?_ ?_
    · exact Function.update_self _ _ _
    · rw [Nat.zero_add]
      exact hn
    · omega
    · simpa using hb
    · funext q
      simpa using hraw q
  have hsize : st₂.size b = st.size b := Function.update_of_ne hne _ _
  have hfree : execAll moved st₂ (if b = 0 then [] else [.free b]) =
      some (st.reallocated b cap l) := by
    by_cases h0 : b = 0
    · subst h0
      have hsame : Function.update st₂.size 0 (st.size 0) = st₂.size :=
        Function.update_eq_self_iff.mpr hsize.symm
      rw [if_pos rfl, Store.reallocated, if_pos rfl]
      exact congrArg (fun f => some { st₂ with size := f }) hsame.symm
    · obtain ⟨m, hm⟩ := Option.ne_none_iff_exists'.mp (hblock h0)
      have hnone : ∀ q, st₂.slot b q = none := by
        intro q
        rw [Store.slot_put_ne _ hne, Store.slot_put_self]
      rw [if_neg h0, Store.reallocated, if_neg h0]
      simp only [execAll, exec, hsize, hm, Option.bind_some, hnone, Option.isNone_none,
        implies_true, if_true]
      rfl
  rw [← hfree, ← execAll_append_of_some hmove]
  rfl

/-- A block that held `l`, with the objects from slot `pos + n` on moved `k` slots to the right. -/
def shiftedRight (moved : α → α) (l : List α) (k pos n q : ℕ) : Option α :=
  if q < pos + n then l[q]? else if q < pos + n + k then l[q]?.map moved else l[q - k]?

theorem shiftedRight_length (hn : pos + n = l.length) (k q : ℕ) :
    shiftedRight moved l k pos n q = l[q]? := by
  unfold shiftedRight
  by_cases h1 : q < pos + n
  · rw [if_pos h1]
  · rw [if_neg h1, List.getElem?_eq_none (by omega : l.length ≤ q)]
    split
    · rfl
    · exact List.getElem?_eq_none (by omega)

theorem execAll_shiftRight {k : ℕ} (hk : 0 < k) (hsize : st.size b = some cap)
    (hn : pos + n ≤ l.length) (hcap : l.length + k ≤ cap)
    (hb : st.slot b = shiftedRight moved l k pos n) :
    execAll moved st (shiftRight b k l.length pos n) =
      some (st.put b (shiftedRight moved l k pos 0)) := by
  induction n generalizing st with
  | zero => exact congrArg some (st.put_eq_self b fun q => by rw [hb]).symm
  | succ n ih =>
    have hq : l[pos + n]? = some l[pos + n] := List.getElem?_eq_getElem (by omega)
    have hsrc : st.get ⟨b, pos + n⟩ = some l[pos + n] := by
      rw [Store.get_mk, hb]
      unfold shiftedRight
      rw [if_pos (by omega), hq]
    have htarget : st.slot b (pos + n + k) = l[pos + n + k]?.map moved := by
      rw [hb]
      unfold shiftedRight
      rw [if_neg (by omega), if_pos (by omega)]
    -- constructed or assigned, the slots afterwards are the same
    have hfirst : exec moved st (if pos + n + k ≥ l.length
          then .moveConstruct ⟨b, pos + n + k⟩ ⟨b, pos + n⟩
          else .moveAssign ⟨b, pos + n + k⟩ ⟨b, pos + n⟩) =
        some (st.put b (Function.update
          (Function.update (st.slot b) (pos + n + k) (some l[pos + n]))
          (pos + n) (some (moved l[pos + n])))) := by
      split
      · rename_i hge
        rw [List.getElem?_eq_none (by omega)] at htarget
        have hcon := construct_of_raw hsize (by omega : pos + n + k < cap) htarget l[pos + n]
        simp only [exec, hsrc, Option.bind_some, hcon, Option.map_some, Store.set_eq_put,
          Store.slot_put_self, Store.put_put]
      · rename_i hlt
        rw [List.getElem?_eq_getElem (by omega)] at htarget
        simp only [exec, hsrc, Option.bind_some, Store.get_mk, htarget, Option.map_some,
          Option.isSome_some, if_true, Store.set_eq_put, Store.slot_put_self, Store.put_put]
    simp only [shiftRight, execAll, hfirst, Option.bind_some]
    rw [ih (by simpa using hsize) (by omega), Store.put_put]
    rw [Store.slot_put_self]
    funext q
    rw [hb]
    unfold shiftedRight
    by_cases h1 : q = pos + n
    · subst h1
      rw [Function.update_self, if_neg (by omega), if_pos (by omega), hq]
      rfl
    rw [Function.update_of_ne h1]
    by_cases h2 : q = pos + n + k
    · subst h2
      rw [Function.update_self, if_neg (by omega), if_neg (by omega), Nat.add_sub_cancel, hq]
    rw [Function.update_of_ne h2]
    by_cases h3 : q < pos + n
    · rw [if_pos (by omega), if_pos h3]
    · rw [if_neg (by omega), if_neg h3]
      by_cases h4 : q < pos + n + k
      · rw [if_pos (by omega), if_pos h4]
      · rw [if_neg (by omega), if_neg h4]

def shiftedLeft (moved : α → α) (l : List α) (first k p q : ℕ) : Option α :=
  if q < first then l[q]?
  else if q + k < p then l[q + k]?
  else if q < p ∧ first + k ≤ q then l[q]?.map moved
  else l[q]?

theorem execAll_shiftLeft {first k p : ℕ} (hk : 0 < k) (hp : first + k ≤ p)
    (hn : p + n = l.length) (hb : st.slot b = shiftedLeft moved l first k p) :
    execAll moved st (shiftLeft b k p n) =
      some (st.put b (shiftedLeft moved l first k l.length)) := by
  induction n generalizing st p with
  | zero =>
    obtain rfl : p = l.length := by omega
    exact congrArg some (st.put_eq_self b fun q => by rw [hb]).symm
  | succ n ih =>
    have hq : l[p]? = some l[p] := List.getElem?_eq_getElem (by omega)
    have hsrc : st.get ⟨b, p⟩ = some l[p] := by
      rw [Store.get_mk, hb]
      unfold shiftedLeft
      rw [if_neg (by omega), if_neg (by omega), if_neg (by omega), hq]
    have htarget : (st.slot b (p - k)).isSome := by
      rw [hb]
      unfold shiftedLeft
      rw [if_neg (by omega), if_neg (by omega), List.getElem?_eq_getElem (by omega)]
      split <;> rfl
    simp only [shiftLeft, execAll, exec, hsrc, Option.bind_some, Store.get_mk, htarget, if_true,
      Store.set_eq_put, Store.slot_put_self, Store.put_put]
    rw [ih (by omega) (by omega), Store.put_put]
    rw [Store.slot_put_self]
    funext q
    rw [hb]
    unfold shiftedLeft
    by_cases h1 : q = p
    · subst h1
      rw [Function.update_self, if_neg (by omega), if_neg (by omega), if_pos (by omega), hq]
      rfl
    rw [Function.update_of_ne h1]
    by_cases h2 : q = p - k
    · subst h2
      rw [Function.update_self, if_neg (by omega), if_pos (by omega),
        show p - k + k = p by omega, hq]
    rw [Function.update_of_ne h2]
    by_cases h3 : q < first
    · rw [if_pos h3, if_pos h3]
    rw [if_neg h3, if_neg h3]
    by_cases h4 : q + k < p
    · rw [if_pos h4, if_pos (by omega)]
    rw [if_neg h4, if_neg (by omega : ¬q + k < p + 1)]
    by_cases h5 : q < p ∧ first + k ≤ q
    · rw [if_pos h5, if_pos (by omega)]
    · rw [if_neg h5, if_neg (by omega)]

end

end CritPath.Lib.Lifetime
