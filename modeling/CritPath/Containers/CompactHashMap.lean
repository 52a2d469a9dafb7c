import CritPath.Lib.Chains
import Mathlib.Data.Nat.Bitwise
import Mathlib.Tactic.Positivity
import Mathlib.Tactic.Ring

/-!
# The compact hash map

`CompactHashMap` keeps its entries in one array in the order of insertion. Every
entry holds the position of the next entry of its bucket, and the bucket array
behind the entries holds the position of the newest one. The array grows by
doubling: the entries are moved in order and the chains are built anew under the
new mask.

Iterators are positions; `end_` is the position `size`. A call that does not
return (a chain without end, a position outside the array) has no answer. The
map is compared with the list of its entries, `Contents`: `Represents` ties the
two, and every call keeps it.
-/

namespace CritPath.Containers

open CritPath.Lib.Chains

/-- The hash of an integer or pointer key (`Hash.h`), in 64 bits. -/
def hash64 (val : BitVec 64) : ℕ := (val + val >>> 5).toNat

/-- An entry with the position of the next one of its bucket. -/
structure PairListItem (K V : Type) where
  first : K
  second : V
  next : Option ℕ
  deriving DecidableEq

/-- The constructed entries from `begin_` on, `end_ - begin_`, `last_ - begin_`, the mask and the
bucket array that starts at `last_`. -/
structure CompactHashMap (K V : Type) where
  items : List (PairListItem K V) := []
  size : ℕ := 0
  capacity : ℕ := 0
  mask : ℕ := 0
  heads : List (Option ℕ) := []
  deriving DecidableEq

namespace CompactHashMap

variable {K V : Type} [DecidableEq K] [Inhabited V] (hash : K → ℕ)

/-- `while (cap < Size) cap *= 2;` -/
def doubleUntil (Size : ℕ) : ℕ → ℕ → ℕ
  | 0, cap => cap
  | fuel + 1, cap => if cap < Size then doubleUntil Size fuel (cap * 2) else cap

def grownCapacity (cap0 Size : ℕ) : ℕ :=
  doubleUntil Size Size (if cap0 * 2 = 0 then 16 else cap0 * 2)

/-- Puts an entry behind the others and at the front of its bucket. -/
def link (mask : ℕ) (t : List (PairListItem K V) × List (Option ℕ)) (first : K) (second : V) :
    List (PairListItem K V) × List (Option ℕ) :=
  (t.1 ++ [⟨first, second, headAt t.2 (hash first &&& mask)⟩],
    t.2.set (hash first &&& mask) (some t.1.length))

def moveAll (mask : ℕ) (old : List (PairListItem K V))
    (t : List (PairListItem K V) × List (Option ℕ)) :
    List (PairListItem K V) × List (Option ℕ) :=
  old.foldl (fun t bb => link hash mask t bb.first bb.second) t

variable (m : CompactHashMap K V)

/-- Moves `end_`; true if the entries went to a new array. -/
def reHash (Size : ℕ) : Bool × CompactHashMap K V :=
  if Size ≤ m.size then (false, m)
  else if Size ≤ m.capacity then (false, { m with size := Size })
  else
    let cap := grownCapacity m.capacity Size
    let mask := cap * 2 - 1
    let hp := List.replicate (cap * 2) none
    let t := if m.capacity = 0 then ([], hp) else moveAll hash mask (m.items.take m.size) ([], hp)
    (true, { items := t.1, size := Size, capacity := cap, mask, heads := t.2 })

def lookup (key : K) : Option (Option ℕ) :=
  if m.mask = 0 then some none
  else walk PairListItem.next (fun it => it.first = key) m.items (m.size + 1)
    (headAt m.heads (hash key &&& m.mask))

/-- The new entry of `operator[]` and `insert`: room for one more, constructed at `end_ - 1`. -/
def emplace (key : K) (value : V) : CompactHashMap K V :=
  let r := m.reHash hash (m.size + 1)
  let m := if r.1 then { r.2 with mask := r.2.capacity * 2 - 1 } else r.2
  let t := link hash m.mask (m.items, m.heads) key value
  { m with items := t.1, heads := t.2 }

/-- `operator[]`: the position of the value it refers to. -/
def index (key : K) : Option (ℕ × CompactHashMap K V) :=
  (m.lookup hash key).map fun
    | some i => (i, m)
    | none => let m := m.emplace hash key default; (m.size - 1, m)

def insert (key : K) (value : V) : Option ((ℕ × Bool) × CompactHashMap K V) :=
  (m.lookup hash key).map fun
    | some i => ((i, false), m)
    | none => let m := m.emplace hash key value; ((m.size - 1, true), m)

def find (key : K) : Option ℕ := (m.lookup hash key).map (·.getD m.size)

/-- A value assigned through a reference. -/
def assign (i : ℕ) (value : V) : CompactHashMap K V :=
  { m with items := m.items.modify i fun it => { it with second := value } }

def reset (_ : CompactHashMap K V) : CompactHashMap K V := {}

/-- What iterating from `begin` to `end` yields. -/
def entries : List (K × V) :=
  (m.items.take m.size).map fun it => (it.first, it.second)

end CompactHashMap

/-! ## Calls -/

inductive Call (K V : Type)
  | insert (key : K) (value : V)
  | index (key : K)
  | assign (key : K) (value : V)
  | find (key : K)
  | size
  | reset
  deriving DecidableEq

/-- Iterators and references are answered with their position and what stands there. -/
inductive Answer (K V : Type)
  | inserted (pos : ℕ) (entry : Option (K × V)) (fresh : Bool)
  | reference (pos : ℕ) (value : Option V)
  | iterator (pos : ℕ) (entry : Option (K × V))
  | size (n : ℕ)
  | done
  deriving DecidableEq

namespace CompactHashMap

variable {K V : Type} [DecidableEq K] [Inhabited V] (hash : K → ℕ)

/-- The answer and the map after a call; nothing if the call does not return. -/
def call (m : CompactHashMap K V) : Call K V → Option (Answer K V × CompactHashMap K V)
  | .insert key value =>
    (m.insert hash key value).map fun r => (.inserted r.1.1 r.2.entries[r.1.1]? r.1.2, r.2)
  | .index key =>
    (m.index hash key).map fun r => (.reference r.1 (r.2.entries[r.1]?.map Prod.snd), r.2)
  | .assign key value =>
    (m.index hash key).map fun r =>
      let m := r.2.assign r.1 value
      (.reference r.1 (m.entries[r.1]?.map Prod.snd), m)
  | .find key => (m.find hash key).map fun i => (.iterator i m.entries[i]?, m)
  | .size => some (.size m.size, m)
  | .reset => some (.done, m.reset)

def calls (m : CompactHashMap K V) :
    List (Call K V) → Option (List (Answer K V) × CompactHashMap K V)
  | [] => some ([], m)
  | c :: cs =>
    (m.call hash c).bind fun r => (calls r.2 cs).map fun r' => (r.1 :: r'.1, r'.2)

end CompactHashMap

/-! ## The abstract map -/

/-- Distinct keys with their values, in order of first insertion. -/
abbrev Contents (K V : Type) := List (K × V)

namespace Contents

variable {K V : Type} [DecidableEq K] [Inhabited V]

/-- The position of a key; the length if it is absent. -/
def position (l : Contents K V) (key : K) : ℕ := l.findIdx fun e => e.1 = key

def add (l : Contents K V) (key : K) (value : V) : Contents K V :=
  if l.position key < l.length then l else l ++ [(key, value)]

def call (l : Contents K V) : Call K V → Answer K V × Contents K V
  | .insert key value =>
    let l' := l.add key value
    (.inserted (l.position key) l'[l.position key]? (decide (¬ l.position key < l.length)), l')
  | .index key =>
    let l' := l.add key default
    (.reference (l.position key) (l'[l.position key]?.map Prod.snd), l')
  | .assign key value =>
    let l' := (l.add key default).modify (l.position key) fun e => (e.1, value)
    (.reference (l.position key) (l'[l.position key]?.map Prod.snd), l')
  | .find key => (.iterator (l.position key) l[l.position key]?, l)
  | .size => (.size l.length, l)
  | .reset => (.done, [])

def calls (l : Contents K V) : List (Call K V) → List (Answer K V) × Contents K V
  | [] => ([], l)
  | c :: cs => let r := l.call c; let r' := calls r.2 cs; (r.1 :: r'.1, r'.2)

end Contents

namespace CompactHashMap

variable {K V : Type} {hash : K → ℕ} {m : CompactHashMap K V}

/-! ## Capacities -/

theorem doubleUntil_eq (Size fuel cap : ℕ) : ∃ j, doubleUntil Size fuel cap = cap * 2 ^ j := by
  induction fuel generalizing cap with
  | zero => exact ⟨0, by simp [doubleUntil]⟩
  | succ fuel ih =>
    unfold doubleUntil
    split
    · obtain ⟨j, hj⟩ := ih (cap * 2)
      exact ⟨j + 1, by rw [hj]; ring⟩
    · exact ⟨0, by simp⟩

theorem le_doubleUntil {Size fuel cap : ℕ} (hcap : 0 < cap) (h : Size ≤ cap + fuel) :
    Size ≤ doubleUntil Size fuel cap := by
  induction fuel generalizing cap with
  | zero => exact h
  | succ fuel ih =>
    unfold doubleUntil
    split
    · exact ih (by omega) (by omega)
    · omega

/-- An array once allocated has 16 entries or a doubling of that. -/
def Allocated (cap : ℕ) : Prop := ∃ k, cap = 16 * 2 ^ k

theorem Allocated.pos {cap : ℕ} (h : Allocated cap) : 0 < cap := by
  obtain ⟨k, rfl⟩ := h
  positivity

theorem grownCapacity_spec {cap0 : ℕ} (h : cap0 = 0 ∨ Allocated cap0) (Size : ℕ) :
    Allocated (grownCapacity cap0 Size) ∧ Size ≤ grownCapacity cap0 Size := by
  have hstart : Allocated (if cap0 * 2 = 0 then 16 else cap0 * 2) := by
    rcases h with rfl | ⟨k, rfl⟩
    · exact ⟨0, rfl⟩
    · refine ⟨k + 1, ?_⟩
      rw [if_neg (by positivity)]
      ring
  refine ⟨?_, le_doubleUntil hstart.pos (by omega)⟩
  obtain ⟨k, hk⟩ := hstart
  obtain ⟨j, hj⟩ := doubleUntil_eq Size Size (if cap0 * 2 = 0 then 16 else cap0 * 2)
  exact ⟨k + j, by rw [grownCapacity, hj, hk]; ring⟩

/-! ## Well-formed maps -/

def pairs (items : List (PairListItem K V)) : List (K × V) :=
  items.map fun it => (it.first, it.second)

def bucket (hash : K → ℕ) (mask : ℕ) (it : PairListItem K V) : ℕ := hash it.first &&& mask

/-- Array, mask, buckets and chains fit together. -/
structure Chained (hash : K → ℕ) (m : CompactHashMap K V) : Prop where
  size_le : m.size ≤ m.capacity
  heads_length : m.heads.length = m.capacity * 2
  shape : m.capacity = 0 ∧ m.mask = 0 ∨ Allocated m.capacity ∧ m.mask = m.capacity * 2 - 1
  linked : Linked PairListItem.next (bucket hash m.mask) m.items m.heads

/-- Between calls: the map holds the entries `l`. -/
structure Represents (hash : K → ℕ) (m : CompactHashMap K V) (l : Contents K V) : Prop where
  chained : Chained hash m
  size_eq : m.size = m.items.length
  pairs_eq : pairs m.items = l
  nodup : (l.map Prod.fst).Nodup

theorem represents_empty (hash : K → ℕ) : Represents hash ({} : CompactHashMap K V) [] where
  chained := ⟨Nat.le_refl _, rfl, .inl ⟨rfl, rfl⟩, linked_replicate _ _ 0⟩
  size_eq := rfl
  pairs_eq := rfl
  nodup := List.nodup_nil

theorem Chained.bucket_lt (h : Chained hash m) (hm : m.mask ≠ 0) (key : K) :
    hash key &&& m.mask < m.heads.length := by
  rcases h.shape with ⟨-, h0⟩ | ⟨hcap, hmask⟩
  · exact absurd h0 hm
  · have hle : hash key &&& m.mask ≤ m.mask := Nat.and_le_right
    have hpos := hcap.pos
    have hlen := h.heads_length
    omega

/-! ## Linking and moving -/

section
variable {mask : ℕ} {t : List (PairListItem K V) × List (Option ℕ)}

theorem linked_link (h : Linked PairListItem.next (bucket hash mask) t.1 t.2) {key : K}
    (hb : hash key &&& mask < t.2.length) (value : V) :
    Linked PairListItem.next (bucket hash mask) (link hash mask t key value).1
      (link hash mask t key value).2 :=
  h.push rfl hb

theorem pairs_link (key : K) (value : V) :
    pairs (link hash mask t key value).1 = pairs t.1 ++ [(key, value)] := by
  simp [pairs, link]

@[simp] theorem length_link_heads (key : K) (value : V) :
    (link hash mask t key value).2.length = t.2.length := by
  simp [link]

/-- Moving keeps the entries in order and links each of them. -/
theorem moveAll_spec (old : List (PairListItem K V))
    (h : Linked PairListItem.next (bucket hash mask) t.1 t.2)
    (hb : ∀ key, hash key &&& mask < t.2.length) :
    Linked PairListItem.next (bucket hash mask) (moveAll hash mask old t).1
        (moveAll hash mask old t).2 ∧
      pairs (moveAll hash mask old t).1 = pairs t.1 ++ pairs old ∧
      (moveAll hash mask old t).2.length = t.2.length := by
  induction old generalizing t with
  | nil => exact ⟨h, by simp [moveAll, pairs], rfl⟩
  | cons bb old ih =>
    have hlink := linked_link h (hb bb.first) bb.second
    obtain ⟨hl, hp, hlen⟩ := ih hlink (by simpa using hb)
    refine ⟨hl, ?_, hlen.trans (length_link_heads bb.first bb.second)⟩
    rw [moveAll, List.foldl_cons, ← moveAll, hp, pairs_link, List.append_assoc]
    rfl

end

/-- A rehash to any size keeps the entries and the chains, and makes room. -/
theorem Represents.reHash {l : Contents K V} (h : Represents hash m l) (Size : ℕ) :
    Chained hash (m.reHash hash Size).2 ∧ pairs (m.reHash hash Size).2.items = l ∧
      (m.reHash hash Size).2.size = max m.size Size := by
  have hc := h.chained
  unfold CompactHashMap.reHash
  split
  · exact ⟨hc, h.pairs_eq, by simp only; omega⟩
  split
  · exact ⟨⟨by assumption, hc.heads_length, hc.shape, hc.linked⟩, h.pairs_eq, by simp only; omega⟩
  rename_i hsize hcap
  obtain ⟨halloc, hle⟩ := grownCapacity_spec (hc.shape.imp And.left And.left) Size
  set cap := grownCapacity m.capacity Size
  have hpos := halloc.pos
  have hlinked := linked_replicate PairListItem.next (bucket (V := V) hash (cap * 2 - 1)) (cap * 2)
  by_cases h0 : m.capacity = 0
  · -- no array yet, so there is nothing to move
    have hnil : l = [] := by
      have hlen := hc.size_le
      rw [h.size_eq, h0, Nat.le_zero, List.length_eq_zero_iff] at hlen
      rw [← h.pairs_eq, hlen]
      rfl
    simp only [h0, if_true]
    refine ⟨⟨hle, by simp, .inr ⟨halloc, rfl⟩, hlinked⟩, by rw [hnil]; rfl, by omega⟩
  · have hb : ∀ key, hash key &&& (cap * 2 - 1) <
        (List.replicate (cap * 2) (none : Option ℕ)).length := by
      intro key
      have hle : hash key &&& (cap * 2 - 1) ≤ cap * 2 - 1 := Nat.and_le_right
      rw [List.length_replicate]
      omega
    obtain ⟨hl, hp, hlen⟩ :=
      moveAll_spec (t := ([], List.replicate (cap * 2) none)) m.items hlinked hb
    have htake : m.items.take m.size = m.items := by rw [h.size_eq, List.take_length]
    simp only [h0, if_false, htake]
    refine ⟨⟨hle, by simpa using hlen, .inr ⟨halloc, rfl⟩, hl⟩, ?_, by omega⟩
    rw [hp, h.pairs_eq]
    rfl

end CompactHashMap

namespace Contents

variable {K V : Type} [DecidableEq K] {l : Contents K V} {key : K}

theorem position_lt_iff : l.position key < l.length ↔ key ∈ l.map Prod.fst := by
  simp [position, List.findIdx_lt_length]

theorem key_at_position (h : l.position key < l.length) :
    ∃ v, l[l.position key]? = some (key, v) := by
  have hkey : l[l.position key].1 = key := of_decide_eq_true (List.findIdx_getElem (w := h))
  refine ⟨l[l.position key].2, ?_⟩
  rw [List.getElem?_eq_getElem h]
  exact congrArg some (Prod.ext hkey rfl)

theorem eq_position (hnd : (l.map Prod.fst).Nodup) {i : ℕ} {v : V} (h : l[i]? = some (key, v)) :
    i = l.position key ∧ l.position key < l.length := by
  have hmem : key ∈ l.map Prod.fst :=
    List.mem_map.mpr ⟨(key, v), List.mem_of_getElem? h, rfl⟩
  have hlt := position_lt_iff.mpr hmem
  obtain ⟨w, hw⟩ := key_at_position hlt
  refine ⟨?_, hlt⟩
  have hi : (l.map Prod.fst)[i]? = some key := by rw [List.getElem?_map, h]; rfl
  have hp : (l.map Prod.fst)[l.position key]? = some key := by rw [List.getElem?_map, hw]; rfl
  have hlen : i < (l.map Prod.fst).length := (List.getElem?_eq_some_iff.mp hi).1
  exact (List.getElem?_inj hlen hnd).mp (hi.trans hp.symm)

theorem position_of_absent (h : ¬ l.position key < l.length) : l.position key = l.length :=
  Nat.le_antisymm List.findIdx_le_length (Nat.not_lt.mp h)

theorem nodup_add (hnd : (l.map Prod.fst).Nodup) (key : K) (value : V) :
    ((l.add key value).map Prod.fst).Nodup := by
  unfold add
  split
  · exact hnd
  · rename_i h
    rw [position_lt_iff] at h
    rw [List.map_append]
    exact List.Nodup.append hnd (List.nodup_singleton _) fun k hk hnew =>
      h (by rwa [List.mem_singleton.mp hnew] at hk)

end Contents

namespace CompactHashMap

variable {K V : Type} [DecidableEq K] {hash : K → ℕ} {m : CompactHashMap K V} {l : Contents K V}

omit [DecidableEq K] in
/-- Room for one more entry takes a new array exactly if the old one is full. -/
theorem reHash_succ_fst (h : m.size ≤ m.capacity) :
    (m.reHash hash (m.size + 1)).1 = true ↔ m.size = m.capacity := by
  unfold reHash
  split_ifs <;> simp <;> omega

omit [DecidableEq K] in
theorem map_modify_of_eq {α β : Type} (g : α → β) (f : α → α) (hf : ∀ a, g (f a) = g a)
    (as : List α) (i : ℕ) : (as.modify i f).map g = as.map g := by
  refine List.ext_getElem? fun j => ?_
  rw [List.getElem?_map, List.getElem?_modify, List.getElem?_map]
  cases as[j]? with
  | none => rfl
  | some a =>
    by_cases hij : i = j <;> simp [hij, hf]

theorem modify_concat {α : Type} (l : List α) (a : α) (f : α → α) :
    (l ++ [a]).modify l.length f = l ++ [f a] := by
  induction l with
  | nil => rfl
  | cons b l ih => simpa using ih

/-! ## The search -/

section
variable (h : Represents hash m l)
include h

omit [DecidableEq K] in
theorem Represents.getElem? (i : ℕ) :
    l[i]? = m.items[i]?.map fun it => (it.first, it.second) := by
  rw [← h.pairs_eq, pairs, List.getElem?_map]

omit [DecidableEq K] in
theorem Represents.length_eq : l.length = m.size := by
  rw [h.size_eq, ← h.pairs_eq, pairs, List.length_map]

/-- The search for a key on the chain of its bucket ends at the position of the key. -/
theorem Represents.find_members (key : K) :
    ((members (bucket hash m.mask) m.items (hash key &&& m.mask)).find?
        fun i => m.items[i]?.any fun it => it.first = key) =
      if l.position key < l.length then some (l.position key) else none := by
  have hany : ∀ i, (m.items[i]?.any fun it => it.first = key) = true →
      i = l.position key ∧ l.position key < l.length := by
    intro i hi
    cases hit : m.items[i]? with
    | none => simp [hit] at hi
    | some it =>
      have hkey : it.first = key := by simpa [hit] using hi
      have hl : l[i]? = some (key, it.second) := by
        rw [h.getElem?, hit, ← hkey]
        rfl
      exact Contents.eq_position h.nodup hl
  split
  · rename_i hlt
    obtain ⟨v, hv⟩ := Contents.key_at_position hlt
    rw [h.getElem?] at hv
    obtain ⟨it, hit, heq⟩ := Option.map_eq_some_iff.mp hv
    have hkey : it.first = key := congrArg Prod.fst heq
    have hmem : l.position key ∈ members (bucket hash m.mask) m.items (hash key &&& m.mask) :=
      mem_members.mpr ⟨it, hit, by rw [bucket, hkey]⟩
    have hsome : (List.find? (fun i => m.items[i]?.any fun it => it.first = key)
        (members (bucket hash m.mask) m.items (hash key &&& m.mask))).isSome := by
      rw [List.find?_isSome]
      exact ⟨_, hmem, by rw [hit]; simpa using hkey⟩
    obtain ⟨i, hi⟩ := Option.isSome_iff_exists.mp hsome
    have hp := List.find?_some hi
    rw [hi, (hany i hp).1]
  · rename_i hnot
    rw [List.find?_eq_none]
    exact fun i _ hi => hnot (hany i hi).2

/-- The search returns, with the position of the key or with nothing. -/
theorem Represents.lookup (key : K) :
    m.lookup hash key =
      some (if l.position key < l.length then some (l.position key) else none) := by
  unfold CompactHashMap.lookup
  split
  · -- no array: the map is empty
    rename_i hmask
    have hcap : m.capacity = 0 := by
      rcases h.chained.shape with ⟨h0, -⟩ | ⟨halloc, hm⟩
      · exact h0
      · have := halloc.pos
        omega
    have hlen : l.length = 0 := by
      have := h.chained.size_le
      have := h.length_eq
      omega
    rw [if_neg (by omega)]
  · rename_i hmask
    have hchain := h.chained.linked _ (h.chained.bucket_lt hmask key)
    have hfuel :
        (members (bucket hash m.mask) m.items (hash key &&& m.mask)).length < m.size + 1 := by
      have := length_members_le (bucket hash m.mask) m.items (hash key &&& m.mask)
      have := h.size_eq
      omega
    rw [hchain.walk_eq _ hfuel, h.find_members]

/-! ## The calls -/

omit [DecidableEq K] in
theorem Represents.emplace_eq (key : K) (value : V) :
    m.emplace hash key value =
      let m := (m.reHash hash (m.size + 1)).2
      { m with
        items := (link hash m.mask (m.items, m.heads) key value).1
        heads := (link hash m.mask (m.items, m.heads) key value).2 } := by
  obtain ⟨hc, -, hsize⟩ := h.reHash (m.size + 1)
  have hmask : (m.reHash hash (m.size + 1)).2.mask =
      (m.reHash hash (m.size + 1)).2.capacity * 2 - 1 := by
    rcases hc.shape with ⟨h0, -⟩ | ⟨-, hmask⟩
    · have := hc.size_le
      omega
    · exact hmask
  unfold CompactHashMap.emplace
  simp only [← hmask, ite_self]

theorem Represents.emplace {key : K} (hnew : ¬ l.position key < l.length) (value : V) :
    Represents hash (m.emplace hash key value) (l ++ [(key, value)]) ∧
      (m.emplace hash key value).size = l.length + 1 := by
  have heq := h.emplace_eq key value
  obtain ⟨hc, hp, hsize⟩ := h.reHash (m.size + 1)
  have hlen := h.length_eq
  revert heq hc hp hsize
  generalize (m.reHash hash (m.size + 1)).2 = m₁
  intro heq hc hp hsize
  have hmask : m₁.mask ≠ 0 := by
    have hle := hc.size_le
    rcases hc.shape with ⟨h0, -⟩ | ⟨halloc, hm⟩ <;> omega
  have hitems : m₁.items.length = l.length := by rw [← hp, pairs, List.length_map]
  have hlinked := linked_link (t := (m₁.items, m₁.heads)) hc.linked (hc.bucket_lt hmask key) value
  have hadd : (l ++ [(key, value)]).map Prod.fst = (l.add key value).map Prod.fst := by
    rw [Contents.add, if_neg hnew]
  rw [heq]
  refine ⟨⟨⟨hc.size_le, ?_, hc.shape, hlinked⟩, ?_, ?_, ?_⟩, by simp only; omega⟩
  · exact (length_link_heads key value).trans hc.heads_length
  · simp [link]
    omega
  · rw [pairs_link, hp]
  · rw [hadd]
    exact Contents.nodup_add h.nodup key value

omit [DecidableEq K] in
theorem Represents.assign (i : ℕ) (value : V) :
    Represents hash (m.assign i value) (l.modify i fun e => (e.1, value)) := by
  have hc := h.chained
  have hlinked := hc.linked.congr
    (map_modify_of_eq _ (fun it => { it with second := value }) (fun _ => rfl) m.items i)
    (map_modify_of_eq _ (fun it => { it with second := value }) (fun _ => rfl) m.items i)
  refine ⟨⟨hc.size_le, hc.heads_length, hc.shape, hlinked⟩, ?_, ?_, ?_⟩
  · simp only [CompactHashMap.assign, List.length_modify]
    exact h.size_eq
  · rw [← h.pairs_eq]
    refine List.ext_getElem? fun j => ?_
    simp only [CompactHashMap.assign, pairs, List.getElem?_map, List.getElem?_modify]
    cases m.items[j]? with
    | none => rfl
    | some it => by_cases hij : i = j <;> simp [hij]
  · rw [map_modify_of_eq Prod.fst (fun e => (e.1, value)) (fun _ => rfl)]
    exact h.nodup

section
variable {key : K}

/-- `insert({key, v})` of a new key, and an assignment through the iterator. -/
theorem Represents.emplace_assign (hnew : ¬ l.position key < l.length) (v value : V) :
    Represents hash ((m.emplace hash key v).assign l.length value) (l ++ [(key, value)]) := by
  have hrep := (h.emplace hnew v).1.assign l.length value
  rwa [modify_concat] at hrep

theorem Represents.insert_present (hlt : l.position key < l.length) (value : V) :
    m.insert hash key value = some ((l.position key, false), m) := by
  rw [CompactHashMap.insert, h.lookup, if_pos hlt]
  rfl

theorem Represents.insert_absent (hnew : ¬ l.position key < l.length) (value : V) :
    m.insert hash key value = some ((l.length, true), m.emplace hash key value) := by
  rw [CompactHashMap.insert, h.lookup, if_neg hnew]
  simp [(h.emplace hnew value).2]

theorem Represents.index_present [Inhabited V] (hlt : l.position key < l.length) :
    m.index hash key = some (l.position key, m) := by
  rw [CompactHashMap.index, h.lookup, if_pos hlt]
  rfl

theorem Represents.index_absent [Inhabited V] (hnew : ¬ l.position key < l.length) :
    m.index hash key = some (l.length, m.emplace hash key default) := by
  rw [CompactHashMap.index, h.lookup, if_neg hnew]
  simp [(h.emplace hnew default).2]

end

/-- `operator[]` refers to the position of the key and adds it if it is absent. -/
theorem Represents.index [Inhabited V] (key : K) :
    ∃ m', m.index hash key = some (l.position key, m') ∧
      Represents hash m' (l.add key default) := by
  unfold Contents.add
  split
  · rename_i hlt
    exact ⟨m, h.index_present hlt, h⟩
  · rename_i hnew
    rw [h.index_absent hnew, Contents.position_of_absent hnew]
    exact ⟨_, rfl, (h.emplace hnew default).1⟩

theorem Represents.insert (key : K) (value : V) :
    ∃ m', m.insert hash key value =
        some ((l.position key, decide (¬ l.position key < l.length)), m') ∧
      Represents hash m' (l.add key value) := by
  unfold Contents.add
  split
  · rename_i hlt
    exact ⟨m, by simp [h.insert_present hlt, hlt], h⟩
  · rename_i hnew
    exact ⟨_, by simp [h.insert_absent hnew, Contents.position_of_absent hnew],
      (h.emplace hnew value).1⟩

omit [DecidableEq K] in
theorem Represents.entries_eq : m.entries = l := by
  rw [CompactHashMap.entries, h.size_eq, List.take_length]
  exact h.pairs_eq

/-- Every call returns what the list of the entries answers, and keeps the map in step with it. -/
theorem Represents.call [Inhabited V] (c : Call K V) :
    ∃ m', m.call hash c = some ((l.call c).1, m') ∧ Represents hash m' (l.call c).2 := by
  cases c with
  | insert key value =>
    obtain ⟨m', heq, h'⟩ := h.insert key value
    refine ⟨m', ?_, h'⟩
    simp only [CompactHashMap.call, heq, Option.map_some, h'.entries_eq]
    rfl
  | index key =>
    obtain ⟨m', heq, h'⟩ := h.index key
    refine ⟨m', ?_, h'⟩
    simp only [CompactHashMap.call, heq, Option.map_some, h'.entries_eq]
    rfl
  | assign key value =>
    obtain ⟨m', heq, h'⟩ := h.index key
    have h'' := h'.assign (l.position key) value
    refine ⟨_, ?_, h''⟩
    simp only [CompactHashMap.call, heq, Option.map_some, h''.entries_eq]
    rfl
  | find key =>
    refine ⟨m, ?_, h⟩
    have hpos : (if l.position key < l.length then some (l.position key) else none).getD m.size =
        l.position key := by
      split
      · rfl
      · rename_i hnew
        rw [Contents.position_of_absent hnew, h.length_eq]
        rfl
    simp only [CompactHashMap.call, CompactHashMap.find, h.lookup, Option.map_some, hpos,
      h.entries_eq]
    rfl
  | size =>
    refine ⟨m, ?_, h⟩
    simp only [CompactHashMap.call, Contents.call, h.length_eq]
  | reset => exact ⟨{}, rfl, represents_empty hash⟩

theorem Represents.calls [Inhabited V] (cs : List (Call K V)) :
    ∃ m', m.calls hash cs = some ((l.calls cs).1, m') ∧ Represents hash m' (l.calls cs).2 := by
  induction cs generalizing m l with
  | nil => exact ⟨m, rfl, h⟩
  | cons c cs ih =>
    obtain ⟨m₁, heq₁, h₁⟩ := h.call c
    obtain ⟨m₂, heq₂, h₂⟩ := ih h₁
    refine ⟨m₂, ?_, h₂⟩
    simp only [CompactHashMap.calls, heq₁, heq₂, Option.bind_some, Option.map_some]
    rfl

end

/-! ## The map is the list of its entries -/

/-- Every chain of the bucket array ends, visits no entry twice and visits exactly the entries
whose masked hash is its bucket; every key has its bucket in the array. -/
def ChainsExact (hash : K → ℕ) (m : CompactHashMap K V) : Prop :=
  (∀ b < m.heads.length, ∃ c, Chain PairListItem.next m.items (headAt m.heads b) c ∧ c.Nodup ∧
    ∀ i, i ∈ c ↔ ∃ it, m.items[i]? = some it ∧ hash it.first &&& m.mask = b) ∧
  (m.mask ≠ 0 → ∀ key, hash key &&& m.mask < m.heads.length)

omit [DecidableEq K] in
theorem Chained.chainsExact (h : Chained hash m) : ChainsExact hash m := by
  refine ⟨fun b hb => ?_, fun hm key => h.bucket_lt hm key⟩
  exact ⟨_, h.linked b hb, nodup_members _ _ _, fun i => mem_members⟩

/-- Every sequence of calls on a new map returns. It answers as the list of distinct keys in order
of first insertion does, iterating yields that list, and the chains are exact, also after a rehash
to any size, which keeps the entries. -/
theorem calls_refine_contents [Inhabited V] (hash : K → ℕ) (cs : List (Call K V)) :
    ∃ m, CompactHashMap.calls hash {} cs = some ((Contents.calls [] cs).1, m) ∧
      m.entries = (Contents.calls [] cs).2 ∧ (m.entries.map Prod.fst).Nodup ∧
      m.size = m.entries.length ∧ ChainsExact hash m ∧
      ∀ Size, ChainsExact hash (m.reHash hash Size).2 ∧
        pairs (m.reHash hash Size).2.items = m.entries := by
  obtain ⟨m, heq, h⟩ := (represents_empty hash).calls cs
  refine ⟨m, heq, h.entries_eq, ?_, ?_, h.chained.chainsExact, fun Size => ?_⟩
  · rw [h.entries_eq]
    exact h.nodup
  · rw [h.entries_eq, h.length_eq]
  · obtain ⟨hc, hp, -⟩ := h.reHash Size
    exact ⟨hc.chainsExact, by rw [hp, h.entries_eq]⟩

end CompactHashMap

end CritPath.Containers
