import CritPath.Containers.Vector
import Mathlib.Algebra.GroupWithZero.Nat

/-!
# The string

`String` keeps its characters in a `Vector<char>`, with a terminating NUL behind
them. A string without characters has no elements at all (default construction,
`clear`) or the NUL alone (construction from an empty C string, `substr`).
`end()` is one before the vector's `end_`, which is outside the storage in the
first case.

A string variable is the vector variable of the same number (`World`). An
operation has no result where the source reads or writes outside the elements:
at `end()` of a vector without elements, over a range that ends before it begins,
behind the last element, or through a range that the growth of the vector has left
dangling. The characters given to the operations are not NUL (`Letter`).

`texts` are the same operations on lists of characters.
-/

namespace CritPath.Containers

open CritPath.Lib CritPath.Lib.Lifetime

def nul : Char := '\x00'

abbrev Letter := { c : Char // c ≠ nul }

def chars (l : List Letter) : List Char := l.map Subtype.val

/-- Moving from a character copies it, and it has no destructor. -/
def charType : ElementType Char := ⟨id, true, nul⟩

/-- A range of characters in another place, or `n` characters of the string itself from `off` on. -/
inductive CharRange
  | elsewhere (cs : List Char)
  | own (off n : ℕ)

theorem mapM_some {α : Type} (l : List α) : (l.map some).mapM id = some l := by
  induction l with
  | nil => rfl
  | cons a l ih => simp [ih]

namespace String

variable (w : World Char) (v : ℕ)

/-- The elements of `data_`, the NUL included. -/
def data : Option (List Char) := (w.contents v).mapM id

def size : ℕ := if w.size v = 0 then 0 else w.size v - 1

/-- The characters up to the first NUL. -/
def cStr : Option (List Char) :=
  if w.size v = 0 then some []
  else (data w v).bind fun cs => if nul ∈ cs then some (cs.takeWhile (· ≠ nul)) else none

/-- `end()` as a position, if it is in the storage. -/
def endPos : Option ℕ := if w.size v = 0 then none else some (w.size v - 1)

/-- The range from `begin()` to `end()` of `str`, for a call on `v`; without elements it would have
length -1. -/
def rangeOf (str : ℕ) : Option CharRange :=
  if w.size str = 0 then none
  else if str = v then some (.own 0 (w.size v - 1))
  else (data w str).map fun cs => .elsewhere cs.dropLast

/-- Constructs a character where there may be one already. -/
def reuse (q : ℕ) (c : Char) : Option (World Char) :=
  let a : Addr := ⟨(w.vec v).begin_, q⟩
  w.exec charType (if (w.store.get a).isSome then [.retire a, .construct a c] else [.construct a c])

/-- `for (i = 0; i < n; ++i, ++first) ::new (insert_pos + i) T(*first);` where `first` is in the
same storage: each character is read when it is its turn. -/
def copyWithin (pos off : ℕ) : ℕ → Option (World Char)
  | 0 => some w
  | n + 1 => do
    let w ← copyWithin pos off n
    let c ← w.store.get ⟨(w.vec v).begin_, off + n⟩
    reuse w v (pos + n) c

/-- `Vector::insert` of a range of the vector itself. -/
def insertOwn (pos off n : ℕ) : Option (World Char) :=
  if n = 0 then some w
  else if w.size v + n > w.capacity v then none
  else do
    let size := w.size v
    let w ← w.exec charType (shiftRight (w.vec v).begin_ n size pos (size - pos))
    let w ← copyWithin w v pos off n
    return w.setEnd v (size + n)

/-- `data_.insert(pos, first, last)`. -/
def insertRange (pos : Option ℕ) : CharRange → Option (World Char)
  | .elsewhere cs =>
    if cs.length = 0 then some w
    else pos.bind fun pos => (w.insertRange charType v pos cs).map Prod.fst
  | .own off n => if n = 0 then some w else pos.bind fun pos => insertOwn w v pos off n

def insertAtEnd (c : Char) : Option (World Char) :=
  (endPos w v).bind fun pos => (w.insert charType v pos c).map Prod.fst

def append (str : ℕ) : Option (World Char) :=
  (rangeOf w v str).bind fun r => insertRange w v (endPos w v) r

def appendChar (c : Char) : Option (World Char) := insertAtEnd w v c

def appendRange (r : CharRange) : Option (World Char) := insertRange w v (endPos w v) r

def insert (pos str : ℕ) : Option (World Char) :=
  (rangeOf w v str).bind fun r => insertRange w v (some pos) r

def pushBack (c : Char) : Option (World Char) :=
  if size w v = 0 then do
    let w ← w.pushBack charType v c
    w.pushBack charType v nul
  else insertAtEnd w v c

/-- The number of characters `substr` copies; `size() - pos` wraps around below 0. -/
def realCount (pos count : ℕ) : ℕ :=
  min count (if pos ≤ size w v then size w v - pos else 2 ^ 64 - (pos - size w v))

/-- A new string, in the place of `dst`. -/
def substr (src dst pos count : ℕ) : Option (World Char) := do
  let n := realCount w src pos count
  let cs ← data w src
  if n = 0 ∨ pos + n ≤ cs.length then do
    let w ← w.reset charType dst
    let w ← w.assign charType dst ((cs.drop pos).take n)
    w.pushBack charType dst nul
  else none

def assignData : CharRange → Option (World Char)
  | .elsewhere cs => w.assign charType v cs
  | .own off n => do
    -- the vector is large enough, and `clear` leaves the characters where they are
    let size := w.size v
    let w ← copyWithin w v 0 off n
    let w ← w.exec charType (finishRange false (w.vec v).begin_ n (size - n))
    return w.setEnd v n

def assign (r : CharRange) : Option (World Char) := do
  let w ← assignData w v r
  -- `data_.back()`
  let last ← (endPos w v).bind fun q => w.store.get ⟨(w.vec v).begin_, q⟩
  if last ≠ nul then w.pushBack charType v nul else some w

def clear : Option (World Char) := w.clear charType v

def copyFrom (str : ℕ) : Option (World Char) := w.copyFrom charType v str

/-- Default construction, in the place of `v`. -/
def construct : Option (World Char) := w.reset charType v

/-- Construction from a C string, in the place of `v`. -/
def constructCStr (s : List Char) : Option (World Char) := do
  let w ← w.reset charType v
  w.assign charType v (s ++ [nul])

def occursAt (text needle : List Char) (i : ℕ) : Bool := needle.isPrefixOf (text.drop i)

/-- The C library's: the first occurrence. -/
def strstr (text needle : List Char) : Option ℕ :=
  (List.range (text.length + 1)).find? fun i => occursAt text needle i

/-- The result `none` inside is `npos`. -/
def find (needle pos : ℕ) : Option (Option ℕ) :=
  if size w needle = 0 then some (if pos ≤ size w v then some pos else none)
  else if pos ≥ size w v then some none
  else do
    let text ← cStr w v
    let cs ← cStr w needle
    return strstr text cs

def eq (other : ℕ) : Option Bool :=
  if v = other then some true
  else do
    let a ← data w v
    let b ← data w other
    return a == b

def eqCStr (s : List Char) : Option Bool :=
  if s.length ≠ size w v then some false
  else (data w v).map fun cs => cs.take (size w v) == s

end String

/-! ## Operations -/

inductive LetterRange
  | elsewhere (cs : List Letter)
  | own (off n : ℕ)

inductive StringOp
  | construct (v : ℕ)
  | constructCStr (v : ℕ) (s : List Letter)
  | append (v str : ℕ)
  | appendChar (v : ℕ) (c : Letter)
  | appendRange (v : ℕ) (r : LetterRange)
  | pushBack (v : ℕ) (c : Letter)
  | insert (v pos str : ℕ)
  | substr (src dst pos count : ℕ)
  | find (v needle pos : ℕ)
  | assign (v : ℕ) (r : LetterRange)
  | clear (v : ℕ)
  | copyFrom (v str : ℕ)
  | eq (v other : ℕ)
  | eqCStr (v : ℕ) (s : List Letter)

inductive StringAnswer
  | done
  | index (o : Option ℕ)
  | bool (b : Bool)
  deriving DecidableEq

def LetterRange.toChars : LetterRange → CharRange
  | elsewhere cs => .elsewhere (chars cs)
  | own off n => .own off n

def StringOp.step (w : World Char) : StringOp → Option (World Char × StringAnswer)
  | construct v => (String.construct w v).map (·, .done)
  | constructCStr v s => (String.constructCStr w v (chars s)).map (·, .done)
  | append v str => (String.append w v str).map (·, .done)
  | appendChar v c => (String.appendChar w v c).map (·, .done)
  | appendRange v r => (String.appendRange w v r.toChars).map (·, .done)
  | pushBack v c => (String.pushBack w v c).map (·, .done)
  | insert v pos str => (String.insert w v pos str).map (·, .done)
  | substr src dst pos count => (String.substr w src dst pos count).map (·, .done)
  | find v needle pos => (String.find w v needle pos).map fun o => (w, .index o)
  | assign v r => (String.assign w v r.toChars).map (·, .done)
  | clear v => (String.clear w v).map (·, .done)
  | copyFrom v str => (String.copyFrom w v str).map (·, .done)
  | eq v other => (String.eq w v other).map fun b => (w, .bool b)
  | eqCStr v s => (String.eqCStr w v (chars s)).map fun b => (w, .bool b)

/-! ## The same operations on lists of characters -/

abbrev Texts := ℕ → List Letter

/-- The smallest index from `pos` on at which the needle occurs. -/
def firstFrom (text needle : List Char) (pos : ℕ) : Option ℕ :=
  (List.range (text.length + 1)).find? fun i => decide (pos ≤ i) && String.occursAt text needle i

def LetterRange.letters (text : List Letter) : LetterRange → List Letter
  | elsewhere cs => cs
  | own off n => (text.drop off).take n

namespace StringOp

def apply (ls : Texts) : StringOp → Texts
  | construct v | clear v => Function.update ls v []
  | constructCStr v s => Function.update ls v s
  | append v str => Function.update ls v (ls v ++ ls str)
  | appendChar v c | pushBack v c => Function.update ls v (ls v ++ [c])
  | appendRange v r => Function.update ls v (ls v ++ r.letters (ls v))
  | insert v pos str => Function.update ls v ((ls v).take pos ++ ls str ++ (ls v).drop pos)
  | substr src dst pos count => Function.update ls dst (((ls src).drop pos).take count)
  | assign v r => Function.update ls v (r.letters (ls v))
  | copyFrom v str => Function.update ls v (ls str)
  | find _ _ _ | eq _ _ | eqCStr _ _ => ls

def answer (ls : Texts) : StringOp → StringAnswer
  | find v needle pos => .index (firstFrom (chars (ls v)) (chars (ls needle)) pos)
  | eq v other => .bool (ls v = ls other)
  | eqCStr v s => .bool (ls v = s)
  | _ => .done

/-- Ranges of the string itself are ranges of its characters, an insertion is at a position below
the size, and counts are 64-bit numbers. -/
def Fits (ls : Texts) : StringOp → Prop
  | appendRange v (.own off n) | assign v (.own off n) => off + n ≤ (ls v).length
  | insert v pos _ => pos < (ls v).length
  | substr _ _ pos count => pos < 2 ^ 64 ∧ count < 2 ^ 64
  | _ => True

instance Fits.decidable (ls : Texts) : ∀ op : StringOp, Decidable (op.Fits ls)
  | appendRange v (.own off n) => inferInstanceAs (Decidable (off + n ≤ (ls v).length))
  | assign v (.own off n) => inferInstanceAs (Decidable (off + n ≤ (ls v).length))
  | insert v pos _ => inferInstanceAs (Decidable (pos < (ls v).length))
  | substr _ _ pos count => inferInstanceAs (Decidable (pos < 2 ^ 64 ∧ count < 2 ^ 64))
  | appendRange _ (.elsewhere _) | assign _ (.elsewhere _) | construct _ | constructCStr _ _
  | append _ _ | appendChar _ _ | pushBack _ _ | find _ _ _ | clear _ | copyFrom _ _ | eq _ _
  | eqCStr _ _ => .isTrue trivial

end StringOp

def texts : Machine Texts StringOp := ⟨StringOp.apply, StringOp.Fits⟩

instance texts.decidableGuard (ls : Texts) (op : StringOp) : Decidable (texts.guard ls op) :=
  StringOp.Fits.decidable ls op

/-! ## Correctness -/

/-- The vector is empty or ends with its only NUL. -/
def Represents (data : List Char) (l : List Letter) : Prop :=
  (data = [] ∧ l = []) ∨ data = chars l ++ [nul]

/-- What can be seen of the strings is what the lists say. -/
def Agrees (w : World Char) (ls : Texts) : Prop :=
  ∀ v, (∃ data, String.data w v = some data ∧ Represents data (ls v)) ∧
    String.cStr w v = some (chars (ls v)) ∧ String.size w v = (ls v).length

/-- Before and after every call of a run the strings agree with the lists, and every call returns
what the lists say. -/
def Meets : World Char → Texts → List StringOp → Prop
  | w, ls, [] => Agrees w ls
  | w, ls, op :: ops => Agrees w ls ∧
    ∃ w', op.step w = some (w', op.answer ls) ∧ Meets w' (op.apply ls) ops

end CritPath.Containers
