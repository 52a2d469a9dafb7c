import CritPath.Lib.Lifetime
import CritPath.Lib.Runs

/-!
# The vector

`Vector` keeps its elements in one allocated block and constructs, moves and
destroys them by hand. Several vectors (`World`) share one store of blocks, in
which every construction, assignment and destruction is a command that is only
allowed on slots in the right state (`CritPath.Lib.Lifetime`). An operation has
no result if one of its commands breaks a rule. The world keeps the commands so
far in `trace`.

Every variable starts default-constructed. The copy and the move constructor are
`copyFrom` and `moveFrom` on such a variable, and the destructor is `reset`.
`lists` runs the same operations on lists.
-/

namespace CritPath.Containers

open CritPath.Lib CritPath.Lib.Lifetime

variable {α : Type}

/-- What the vector needs to know of its element type: the value a moved-from object is left with,
`std::is_trivially_destructible_v` and the value of `T()`. -/
structure ElementType (α : Type) where
  moved : α → α
  trivial : Bool
  default : α

/-- The block (0 for null pointers) and the offsets of `end_` and `last_` in it. -/
structure Vector where
  begin_ : ℕ := 0
  end_ : ℕ := 0
  last_ : ℕ := 0
  deriving DecidableEq

structure World (α : Type) where
  store : Store α := {}
  vec : ℕ → Vector := fun _ => {}
  trace : List (Cmd α) := []

/-- The loop of the single insert: `n` objects from slot `pos` on are assigned to the next slot, the
last one first. -/
def moveUp (b pos : ℕ) : ℕ → List (Cmd α)
  | 0 => []
  | n + 1 => .moveAssign ⟨b, pos + n + 1⟩ ⟨b, pos + n⟩ :: moveUp b pos n

namespace World

section
variable (w : World α) (v : ℕ)

def size : ℕ := (w.vec v).end_

def capacity : ℕ := (w.vec v).last_

def set (x : Vector) : World α := { w with vec := Function.update w.vec v x }

def setEnd (n : ℕ) : World α := w.set v { w.vec v with end_ := n }

end

variable (T : ElementType α) (w : World α)

def exec (cs : List (Cmd α)) : Option (World α) :=
  (execAll T.moved w.store cs).map fun st => { w with store := st, trace := w.trace ++ cs }

variable (v : ℕ)

def ensureSize (required_cap : ℕ) : Option (World α) :=
  if required_cap ≤ w.capacity v then some w
  else
    let x := w.vec v
    let cap := x.last_ * 5 / 4
    let cap := if cap < 16 then 16 else cap
    let cap := if cap < required_cap then required_cap else cap
    let new_data := w.store.fresh
    (w.exec T (.malloc cap :: (relocate x.begin_ new_data 0 x.end_ ++
        if x.begin_ = 0 then [] else [.free x.begin_]))).map fun w =>
      w.set v ⟨new_data, x.end_, cap⟩

def clear : Option (World α) :=
  -- the pointers are null together, and `begin_ >= end_` is an offset of 0
  if (w.vec v).begin_ = 0 ∨ w.size v = 0 then some (w.setEnd v 0)
  else
    (w.exec T (finishRange (!T.trivial) (w.vec v).begin_ 0 (w.size v))).map fun w => w.setEnd v 0

def reset : Option (World α) := do
  let w ← w.clear T v
  let w ← w.exec T (if (w.vec v).begin_ = 0 then [] else [.free (w.vec v).begin_])
  return w.set v {}

def reserve (new_cap : ℕ) : Option (World α) :=
  if new_cap > w.capacity v then w.ensureSize T v new_cap else some w

def pushBack (item : α) : Option (World α) := do
  let w ← (if w.size v = w.capacity v then w.ensureSize T v (w.size v + 1) else some w)
  let n := w.size v
  let w ← w.exec T [.construct ⟨(w.vec v).begin_, n⟩ item]
  return w.setEnd v (n + 1)

/-- The destructor is called whatever the element type is. -/
def popBack : Option (World α) := do
  let w := w.setEnd v (w.size v - 1)
  w.exec T [.destroy ⟨(w.vec v).begin_, w.size v⟩]

/-- Positions are offsets from `begin_`; the iterator returned is an address. -/
def insert (pos : ℕ) (item : α) : Option (World α × Addr) :=
  if pos = w.size v then do
    let w ← w.pushBack T v item
    return (w, ⟨(w.vec v).begin_, pos⟩)
  else do
    let w ← (if w.size v = w.capacity v then w.ensureSize T v (w.size v + 1) else some w)
    let b := (w.vec v).begin_
    let n := w.size v
    let w ← w.exec T (.moveConstruct ⟨b, n⟩ ⟨b, n - 1⟩ ::
      (moveUp b pos (n - 1 - pos) ++ [.assign ⟨b, pos⟩ item]))
    return (w.setEnd v (n + 1), ⟨b, pos⟩)

def insertRange (pos : ℕ) (items : List α) : Option (World α × Addr) :=
  if items.length = 0 then some (w, ⟨(w.vec v).begin_, pos⟩)
  else do
    let k := items.length
    let w ← (if w.size v + k > w.capacity v then w.ensureSize T v (w.size v + k) else some w)
    let b := (w.vec v).begin_
    let n := w.size v
    let w ← w.exec T (shiftRight b k n pos (n - pos) ++
      (finishRange (!T.trivial) b pos (min (n - pos) k) ++ constructRange b pos items))
    return (w.setEnd v (n + k), ⟨b, pos⟩)

def erase (first last : ℕ) : Option (World α × Addr) :=
  let b := (w.vec v).begin_
  if first = last then some (w, ⟨b, last⟩)
  else do
    let k := last - first
    let n := w.size v
    let w ← w.exec T (shiftLeft b k last (n - last) ++
      finishRange (!T.trivial) b (n - k) k)
    return (w.setEnd v (n - k), ⟨b, first⟩)

def assign (items : List α) : Option (World α) := do
  let w ← w.clear T v
  let n := items.length
  let w ← w.reserve T v n
  let w ← w.exec T (constructRange (w.vec v).begin_ 0 items)
  return w.setEnd v n

def resize (new_size : ℕ) : Option (World α) :=
  let n := w.size v
  if new_size < n then do
    let w ← w.exec T (finishRange (!T.trivial) (w.vec v).begin_ new_size (n - new_size))
    return w.setEnd v new_size
  else if new_size > n then do
    let w ← w.reserve T v new_size
    let w ← w.exec T
      (constructRange (w.vec v).begin_ n (List.replicate (new_size - n) T.default))
    return w.setEnd v new_size
  else some w

/-- `operator=(const Vector &)`: `assign` of the other vector's range. -/
def copyFrom (other : ℕ) : Option (World α) :=
  if v = other then some w
  else do
    let w ← w.clear T v
    let n := w.size other
    let w ← w.reserve T v n
    let w ← w.exec T (copyRange (w.vec v).begin_ (w.vec other).begin_ 0 n)
    return w.setEnd v n

/-- `operator=(Vector &&)`. -/
def moveFrom (other : ℕ) : Option (World α) :=
  if v = other then some w
  else do
    let w ← w.reset T v
    return (w.set v (w.vec other)).set other {}

def swap (other : ℕ) : World α := (w.set v (w.vec other)).set other (w.vec v)

end World

inductive VectorOp (α : Type)
  | pushBack (v : ℕ) (item : α)
  | popBack (v : ℕ)
  | insert (v pos : ℕ) (item : α)
  | insertRange (v pos : ℕ) (items : List α)
  | erase (v first last : ℕ)
  | assign (v : ℕ) (items : List α)
  | resize (v new_size : ℕ)
  | reserve (v new_cap : ℕ)
  | clear (v : ℕ)
  | reset (v : ℕ)
  | copyFrom (v other : ℕ)
  | moveFrom (v other : ℕ)
  | swap (v other : ℕ)

def World.step (T : ElementType α) (w : World α) : VectorOp α → Option (World α)
  | .pushBack v item => w.pushBack T v item
  | .popBack v => w.popBack T v
  | .insert v pos item => (w.insert T v pos item).map Prod.fst
  | .insertRange v pos items => (w.insertRange T v pos items).map Prod.fst
  | .erase v first last => (w.erase T v first last).map Prod.fst
  | .assign v items => w.assign T v items
  | .resize v new_size => w.resize T v new_size
  | .reserve v new_cap => w.reserve T v new_cap
  | .clear v => w.clear T v
  | .reset v => w.reset T v
  | .copyFrom v other => w.copyFrom T v other
  | .moveFrom v other => w.moveFrom T v other
  | .swap v other => some (w.swap v other)

def World.run (T : ElementType α) (w : World α) : List (VectorOp α) → Option (World α)
  | [] => some w
  | op :: ops => (w.step T op).bind fun w => w.run T ops

/-- The elements of a vector as the store has them. -/
def World.contents (w : World α) (v : ℕ) : List (Option α) :=
  (List.range (w.size v)).map fun q => w.store.get ⟨(w.vec v).begin_, q⟩

/-! ## The same operations on lists -/

abbrev Lists (α : Type) := ℕ → List α

namespace VectorOp

def apply (T : ElementType α) (ls : Lists α) : VectorOp α → Lists α
  | pushBack v item => Function.update ls v (ls v ++ [item])
  | popBack v => Function.update ls v (ls v).dropLast
  | insert v pos item => Function.update ls v ((ls v).take pos ++ [item] ++ (ls v).drop pos)
  | insertRange v pos items => Function.update ls v ((ls v).take pos ++ items ++ (ls v).drop pos)
  | erase v first last => Function.update ls v ((ls v).take first ++ (ls v).drop last)
  | assign v items => Function.update ls v items
  | resize v new_size =>
    Function.update ls v ((ls v).take new_size ++
      List.replicate (new_size - (ls v).length) T.default)
  | reserve _ _ => ls
  | clear v | reset v => Function.update ls v []
  | copyFrom v other => Function.update ls v (ls other)
  | moveFrom v other =>
    if v = other then ls else Function.update (Function.update ls v (ls other)) other []
  | swap v other => Function.update (Function.update ls v (ls other)) other (ls v)

/-- Positions are inside the vector, and `pop_back` has something to remove. -/
def Fits (ls : Lists α) : VectorOp α → Prop
  | popBack v => ls v ≠ []
  | insert v pos _ | insertRange v pos _ => pos ≤ (ls v).length
  | erase v first last => first ≤ last ∧ last ≤ (ls v).length
  | _ => True

instance Fits.decidable (ls : Lists α) : ∀ op : VectorOp α, Decidable (op.Fits ls)
  | popBack v => decidable_of_iff (0 < (ls v).length) List.length_pos_iff
  | insert v pos _ => inferInstanceAs (Decidable (pos ≤ (ls v).length))
  | insertRange v pos _ => inferInstanceAs (Decidable (pos ≤ (ls v).length))
  | erase v first last => inferInstanceAs (Decidable (first ≤ last ∧ last ≤ (ls v).length))
  | pushBack _ _ | assign _ _ | resize _ _ | reserve _ _ | clear _ | reset _ | copyFrom _ _
  | moveFrom _ _ | swap _ _ => .isTrue trivial

end VectorOp

def lists (T : ElementType α) : Machine (Lists α) (VectorOp α) := ⟨VectorOp.apply T, VectorOp.Fits⟩

instance lists.decidableGuard (T : ElementType α) (ls : Lists α) (op : VectorOp α) :
    Decidable ((lists T).guard ls op) := VectorOp.Fits.decidable ls op

end CritPath.Containers
