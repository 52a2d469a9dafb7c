import CritPath.Containers.String
import CritPath.Containers.VectorRefines

/-!
# Strings and lists of characters

A run of string operations does what the same operations do on lists exactly if
every call is safe in the state it is made in (`meets_iff`). The conditions of
`Safe` are about the two representations of the empty string, about the start
position of `find`, and about ranges of the string itself.

The vector part of every operation is the refinement of `VectorRefines`; what is
new are the insertions of a range of the own storage (`copyWithin_eq`): such a copy
repeats the characters between the start of the range and the insertion.
-/

namespace CritPath.Containers

open CritPath.Lib CritPath.Lib.Lifetime

namespace StringOp

/-- What a call needs in the world it is made in. `w.size` counts the NUL. -/
def Safe (w : World Char) : StringOp → Prop
  | append v str =>
    if str = v then w.size v = 1 ∨ (0 < w.size v ∧ 2 * w.size v - 1 ≤ w.capacity v)
    else w.size str = 1 ∨ (0 < w.size v ∧ 0 < w.size str)
  | appendChar v _ => 0 < w.size v
  | appendRange v (.elsewhere cs) => cs.length = 0 ∨ 0 < w.size v
  | appendRange v (.own _ n) => n = 0 ∨ w.size v + n ≤ w.capacity v
  | pushBack v _ => w.size v ≠ 1
  | insert v pos str =>
    if str = v then 2 * w.size v - 1 ≤ w.capacity v ∧ ∀ i < String.size w v,
      w.store.get ⟨(w.vec v).begin_, i % pos⟩ = w.store.get ⟨(w.vec v).begin_, i⟩
    else 0 < w.size str
  | substr src _ pos count => pos ≤ String.size w src ∨ count = 0
  | find v needle pos => String.size w needle = 0 ∨ String.size w v ≤ pos ∨
    ∀ text ∈ String.cStr w v, ∀ cs ∈ String.cStr w needle,
      ∀ i < pos, String.occursAt text cs i = false
  | assign _ (.elsewhere cs) => cs.length ≠ 0
  | assign _ (.own _ n) => n ≠ 0
  | eq v other => w.size v + w.size other ≠ 1
  | construct _ | constructCStr _ _ | clear _ | copyFrom _ _ | eqCStr _ _ => True

instance Safe.decidable (w : World Char) : ∀ op : StringOp, Decidable (op.Safe w)
  | append v str => inferInstanceAs (Decidable (if str = v then _ else _))
  | appendChar v _ => inferInstanceAs (Decidable (0 < w.size v))
  | appendRange v (.elsewhere cs) => inferInstanceAs (Decidable (cs.length = 0 ∨ 0 < w.size v))
  | appendRange v (.own _ n) => inferInstanceAs (Decidable (n = 0 ∨ w.size v + n ≤ w.capacity v))
  | pushBack v _ => inferInstanceAs (Decidable (w.size v ≠ 1))
  | insert v _ str => inferInstanceAs (Decidable (if str = v then _ ∧ _ else _))
  | substr src _ pos count => inferInstanceAs (Decidable (pos ≤ String.size w src ∨ count = 0))
  | find v needle pos => inferInstanceAs (Decidable (_ ∨ _ ∨ ∀ text ∈ String.cStr w v,
      ∀ cs ∈ String.cStr w needle, ∀ i < pos, String.occursAt text cs i = false))
  | assign _ (.elsewhere cs) => inferInstanceAs (Decidable (cs.length ≠ 0))
  | assign _ (.own _ n) => inferInstanceAs (Decidable (n ≠ 0))
  | eq v other => inferInstanceAs (Decidable (w.size v + w.size other ≠ 1))
  | construct _ | constructCStr _ _ | clear _ | copyFrom _ _ | eqCStr _ _ => .isTrue trivial

end StringOp

def SafeRun : World Char → List StringOp → Prop
  | _, [] => True
  | w, op :: ops => op.Safe w ∧
    match op.step w with
    | some (w', _) => SafeRun w' ops
    | none => True

instance SafeRun.decidable : ∀ (w : World Char) (ops : List StringOp), Decidable (SafeRun w ops)
  | _, [] => .isTrue trivial
  | w, op :: ops =>
    have : Decidable (match op.step w with
      | some (w', _) => SafeRun w' ops
      | none => True) :=
      match op.step w with
      | some (w', _) => SafeRun.decidable w' ops
      | none => .isTrue trivial
    inferInstanceAs (Decidable (op.Safe w ∧ _))

/-! ## Copies within one block -/

/-- The `i`th of the objects that a copy from `off` to `pos` of the same block brings. -/
def broughtBy (f : ℕ → Option Char) (pos off i : ℕ) : Option Char :=
  if off < pos then f (off + i % (pos - off)) else f (off + i)

def copiedWithin (f : ℕ → Option Char) (pos off n q : ℕ) : Option Char :=
  if pos ≤ q ∧ q < pos + n then broughtBy f pos off (q - pos) else f q

section
variable {w : World Char} {v pos off n cap : ℕ} {f : ℕ → Option Char}

theorem World.exec_nil {α : Type} {T : ElementType α} (w : World α) : w.exec T [] = some w := by
  simp [World.exec]

theorem World.exec_append {α : Type} {T : ElementType α} (w : World α) (cs ds : List (Cmd α)) :
    w.exec T (cs ++ ds) = (w.exec T cs).bind fun w => w.exec T ds := by
  simp only [World.exec, execAll_append]
  cases execAll T.moved w.store cs with
  | none => rfl
  | some st => simp [List.append_assoc]

/-- What has been copied so far is read again where the range reaches the insertion. -/
theorem copiedWithin_next (f : ℕ → Option Char) (pos off n : ℕ) :
    copiedWithin f pos off n (off + n) = broughtBy f pos off n := by
  unfold copiedWithin broughtBy
  by_cases hlt : off < pos
  · rw [if_pos hlt, if_pos hlt]
    by_cases hin : pos ≤ off + n
    · obtain ⟨j, rfl⟩ : ∃ j, n = pos - off + j := ⟨n - (pos - off), by omega⟩
      rw [if_pos (by omega), show off + (pos - off + j) - pos = j by omega, Nat.add_mod_left]
    · rw [if_neg (by omega), Nat.mod_eq_of_lt (by omega)]
  · rw [if_neg (by omega), if_neg hlt]

theorem execAll_reuse {st : Store Char} {b q : ℕ} (hblock : st.size b = some cap) (hq : q < cap)
    (c : Char) :
    execAll charType.moved st (if (st.get ⟨b, q⟩).isSome
        then [.retire ⟨b, q⟩, .construct ⟨b, q⟩ c] else [.construct ⟨b, q⟩ c]) =
      some (st.put b (Function.update (st.slot b) q (some c))) := by
  rw [Store.get_mk]
  cases hslot : st.slot b q with
  | none => simp [execAll, Lifetime.exec, construct_of_raw hblock hq hslot]
  | some old =>
    have hraw : (st.put b (Function.update (st.slot b) q none)).slot b q = none := by simp
    simp [execAll, Lifetime.exec, finish_of_live hslot,
      construct_of_raw (by simpa using hblock) hq hraw]

theorem copyWithin_eq (pos off : ℕ) (hslot : w.store.slot (w.vec v).begin_ = f)
    (hblock : w.store.size (w.vec v).begin_ = some cap) (hcap : pos + n ≤ cap)
    (hread : ∀ i < n, (broughtBy f pos off i).isSome) :
    ∃ cs, String.copyWithin w v pos off n = w.exec charType cs ∧
      execAll charType.moved w.store cs =
        some (w.store.put (w.vec v).begin_ (copiedWithin f pos off n)) := by
  induction n with
  | zero =>
    refine ⟨[], (World.exec_nil w).symm, congrArg some (Store.put_eq_self _ _ fun q => ?_).symm⟩
    rw [copiedWithin, if_neg (by omega), hslot]
  | succ n ih =>
    obtain ⟨cs, hcs, hexec⟩ := ih (by omega) fun i hi => hread i (by omega)
    obtain ⟨c, hc⟩ := Option.isSome_iff_exists.mp (hread n (by omega))
    have hw := World.exec_of_some hexec
    have hblock' : (w.store.put (w.vec v).begin_ (copiedWithin f pos off n)).size
        (w.vec v).begin_ = some cap := hblock
    have hget : (w.store.put (w.vec v).begin_ (copiedWithin f pos off n)).get
        ⟨(w.vec v).begin_, off + n⟩ = some c := by
      rw [Store.get_mk, Store.slot_put_self, copiedWithin_next, hc]
    refine ⟨cs ++ _, ?_, (execAll_append_of_some hexec).trans
      ((execAll_reuse hblock' (by omega : pos + n < cap) c).trans ?_)⟩
    · simp only [String.copyWithin, hcs, World.exec_append, hw, bind, Option.bind_some, hget]
      rfl
    · rw [Store.put_put, Store.slot_put_self]
      refine congrArg some (Store.put_congr _ _ fun q => ?_)
      unfold copiedWithin
      by_cases hq : q = pos + n
      · subst hq
        rw [Function.update_self, if_pos (by omega), Nat.add_sub_cancel_left, hc]
      · rw [Function.update_of_ne hq]
        by_cases hin : pos ≤ q ∧ q < pos + n
        · rw [if_pos hin, if_pos (by omega)]
        · rw [if_neg hin, if_neg (by omega)]

end

/-- The characters that an insertion of `n` own characters from `off` on brings to `pos`. -/
def brought (d : List Char) (pos off n : ℕ) : List Char :=
  (List.range n).map fun i => (broughtBy (fun q => d[q]?) pos off i).getD nul

@[simp] theorem length_brought (d : List Char) (pos off n : ℕ) :
    (brought d pos off n).length = n := by
  simp [brought]

section
variable {w : World Char} {ds : Lists Char} {d : List Char} {v pos off n : ℕ}

theorem isSome_broughtBy {i : ℕ} (hi : i < n) (hread : off + n ≤ d.length) :
    (broughtBy (fun q => d[q]?) pos off i).isSome := by
  have hmod := Nat.mod_le i (pos - off)
  simp only [broughtBy]
  split
  · rw [List.getElem?_eq_getElem (by omega), Option.isSome_some]
  · rw [List.getElem?_eq_getElem (by omega), Option.isSome_some]

theorem getElem?_brought {i : ℕ} (hi : i < n) (hread : off + n ≤ d.length) :
    (brought d pos off n)[i]? = broughtBy (fun q => d[q]?) pos off i := by
  have hsome : (broughtBy (fun q => d[q]?) pos off i).isSome := isSome_broughtBy hi hread
  obtain ⟨c, hc⟩ := Option.isSome_iff_exists.mp hsome
  simp [brought, hi, hc]

/-- The own characters are still in their places when the range is read, up to the insertion. -/
theorem broughtBy_shiftedRight {i : ℕ} (hi : i < n) (hoff : off ≤ pos) :
    broughtBy (shiftedRight charType.moved d n pos 0) pos off i =
      broughtBy (fun q => d[q]?) pos off i := by
  unfold broughtBy shiftedRight
  by_cases hlt : off < pos
  · have hmod := Nat.mod_lt i (by omega : pos - off > 0)
    rw [if_pos hlt, if_pos hlt, if_pos (by omega)]
  · rw [if_neg hlt, if_neg hlt, if_neg (by omega), if_pos (by omega)]
    exact Option.map_id_apply

theorem insertOwn_leads (h : Inv charType w ds) (hn : 0 < n) (hoff : off ≤ pos)
    (hpos : pos ≤ (ds v).length) (hread : off + n ≤ (ds v).length)
    (hroom : w.size v + n ≤ w.capacity v) :
    Leads charType (String.insertOwn w v pos off n)
      (Function.update ds v ((ds v).take pos ++ brought (ds v) pos off n ++ (ds v).drop pos)) := by
  have hsize := h.size_eq v
  have hblock := h.block (v := v) (by omega)
  have hstart : w.store.slot (w.vec v).begin_ =
      shiftedRight charType.moved (ds v) n pos ((ds v).length - pos) := by
    funext q
    rw [h.slot_apply, shiftedRight_length (by omega)]
  have hshift := execAll_shiftRight hn hblock (by omega) (by omega) hstart
  obtain ⟨w₁, hw₁, hvec, hstore⟩ : ∃ w₁, w.exec charType
      (shiftRight (w.vec v).begin_ n (ds v).length pos ((ds v).length - pos)) = some w₁ ∧
      w₁.vec = w.vec ∧ w₁.store =
        w.store.put (w.vec v).begin_ (shiftedRight charType.moved (ds v) n pos 0) :=
    ⟨_, World.exec_of_some hshift, rfl, rfl⟩
  obtain ⟨cs, hcs, hcopy⟩ := copyWithin_eq (w := w₁) (v := v) pos off
    (by rw [hvec, hstore, Store.slot_put_self])
    (by rw [hvec, hstore, Store.size_put, hblock]) (by omega : pos + n ≤ w.capacity v) fun i hi => by
      rw [broughtBy_shiftedRight hi hoff]
      exact isSome_broughtBy hi hread
  have hedits : Edits charType w v
      (shiftRight (w.vec v).begin_ n (ds v).length pos ((ds v).length - pos) ++ cs)
      ((ds v).take pos ++ brought (ds v) pos off n ++ (ds v).drop pos) := by
    rw [hstore, hvec] at hcopy
    refine (execAll_append_of_some hshift).trans (hcopy.trans ?_)
    rw [Store.put_put]
    refine congrArg some (Store.put_congr _ _ fun q => ?_)
    rw [getElem?_splice hpos, length_brought]
    unfold copiedWithin
    by_cases h1 : q < pos
    · rw [if_neg (by omega), if_pos h1, shiftedRight, if_pos (by omega)]
    · rw [if_neg h1]
      by_cases h2 : q < pos + n
      · rw [if_pos (by omega), if_pos h2, broughtBy_shiftedRight (by omega) hoff,
          getElem?_brought (by omega) hread]
      · rw [if_neg (by omega), if_neg h2, shiftedRight, if_neg (by omega), if_neg (by omega)]
  have hlen : ((ds v).take pos ++ brought (ds v) pos off n ++ (ds v).drop pos).length =
      (ds v).length + n := by
    simp only [List.length_append, List.length_take, List.length_drop, length_brought]
    omega
  have hleads := h.leads hedits (by omega) hlen.symm
  rw [World.exec_append, hw₁] at hleads
  rw [String.insertOwn, if_neg (by omega), if_neg (by omega), hsize]
  simpa only [hw₁, bind, pure, Option.bind_some, hcs] using hleads

theorem assignOwn_leads (h : Inv charType w ds) (hn : 0 < n) (hread : off + n ≤ (ds v).length) :
    Leads charType (String.assignData w v (.own off n))
      (Function.update ds v (((ds v).drop off).take n)) := by
  have hsize := h.size_eq v
  have hlen := h.length_le v
  obtain ⟨cs, hcs, hcopy⟩ := copyWithin_eq 0 off (h.slot_eq v) (h.block (by omega))
    (by omega : 0 + n ≤ w.capacity v) fun i hi => isSome_broughtBy hi hread
  obtain ⟨w₁, hw₁, hvec, hstore⟩ : ∃ w₁, w.exec charType cs = some w₁ ∧ w₁.vec = w.vec ∧
      w₁.store = w.store.put (w.vec v).begin_ (copiedWithin (fun q => (ds v)[q]?) 0 off n) :=
    ⟨_, World.exec_of_some hcopy, rfl, rfl⟩
  have hlive : ∀ q, n ≤ q → q < n + ((ds v).length - n) →
      (w₁.store.slot (w.vec v).begin_ q).isSome := by
    intro q hlo hhi
    rw [hstore, Store.slot_put_self, copiedWithin, if_neg (by omega),
      List.getElem?_eq_getElem (by omega), Option.isSome_some]
  have hedits : Edits charType w v
      (cs ++ finishRange false (w.vec v).begin_ n ((ds v).length - n))
      (((ds v).drop off).take n) := by
    refine (execAll_append_of_some hcopy).trans ?_
    rw [← hstore]
    refine (execAll_finishRange false hlive).trans ?_
    rw [hstore, Store.put_put, Store.slot_put_self]
    refine congrArg some (Store.put_congr _ _ fun q => ?_)
    rw [List.getElem?_take]
    by_cases hq : q < n
    · rw [if_neg (by omega), if_pos hq, List.getElem?_drop, copiedWithin, if_pos (by omega),
        broughtBy, if_neg (by omega), Nat.sub_zero]
    · rw [if_neg hq]
      split
      · rfl
      · rw [copiedWithin, if_neg (by omega), List.getElem?_eq_none (by omega)]
  have htake : (((ds v).drop off).take n).length = n := by
    rw [List.length_take, List.length_drop]
    omega
  have hleads := h.leads hedits (by omega) htake.symm
  rw [World.exec_append, hw₁] at hleads
  simp only [String.assignData, bind, pure, hcs, hw₁, Option.bind_some, hsize, hvec]
  exact hleads

end

/-! ## Representations -/

section
variable {d : List Char} {l : List Letter}

@[simp] theorem length_chars (l : List Letter) : (chars l).length = l.length := by
  simp [chars]

@[simp] theorem chars_append (l l' : List Letter) : chars (l ++ l') = chars l ++ chars l' := by
  simp [chars]

theorem chars_inj {l l' : List Letter} : chars l = chars l' ↔ l = l' :=
  List.map_inj_right fun _ _ => Subtype.ext

theorem nul_notMem_chars (l : List Letter) : nul ∉ chars l := by
  intro h
  obtain ⟨c, -, hc⟩ := List.mem_map.mp h
  exact c.2 hc

theorem Represents.length (h : Represents d l) : d.length - 1 = l.length := by
  rcases h with ⟨rfl, rfl⟩ | rfl
  · rfl
  · simp

theorem Represents.eq_of_pos (h : Represents d l) (hpos : 0 < d.length) : d = chars l ++ [nul] := by
  rcases h with ⟨rfl, rfl⟩ | rfl
  · simp at hpos
  · rfl

theorem Represents.take_drop {pos n : ℕ} (h : Represents d l) (hn : n = 0 ∨ pos + n ≤ l.length) :
    (d.drop pos).take n = chars ((l.drop pos).take n) := by
  rcases hn with rfl | hn
  · simp [chars]
  · rcases h with ⟨rfl, rfl⟩ | rfl
    · simp [chars]
    · rw [List.drop_append_of_le_length (by rw [length_chars]; omega),
        List.take_append_of_le_length (by rw [List.length_drop, length_chars]; omega)]
      simp [chars, List.map_take, List.map_drop]

theorem takeWhile_chars (l : List Letter) :
    (chars l ++ [nul]).takeWhile (· ≠ nul) = chars l := by
  rw [List.takeWhile_append_of_pos]
  · simp
  · intro c hc
    simp only [ne_eq, decide_eq_true_eq]
    rintro rfl
    exact nul_notMem_chars l hc

end

section
variable {w : World Char} {ds : Lists Char} {ls : Texts} {v : ℕ} {d : List Char} {l : List Letter}
  {o : Option (World Char)}

theorem data_eq (h : Inv charType w ds) (v : ℕ) : String.data w v = some (ds v) := by
  rw [String.data, h.contents v, mapM_some]

theorem strSize_eq (h : Inv charType w ds) (v : ℕ) : String.size w v = (ds v).length - 1 := by
  rw [String.size, h.size_eq v]
  split <;> omega

theorem cStr_eq (h : Inv charType w ds) (hr : Represents (ds v) l) :
    String.cStr w v = some (chars l) := by
  rw [String.cStr, h.size_eq v, data_eq h v]
  rcases hr with ⟨hd, rfl⟩ | hd
  · rw [hd]
    rfl
  · rw [hd, if_neg (by simp), Option.bind_some, if_pos (by simp), takeWhile_chars]

structure Tied (w : World Char) (ds : Lists Char) (ls : Texts) : Prop where
  inv : Inv charType w ds
  rep : ∀ v, Represents (ds v) (ls v)

theorem Tied.agrees (h : Tied w ds ls) : Agrees w ls := fun v =>
  ⟨⟨ds v, data_eq h.inv v, h.rep v⟩, cStr_eq h.inv (h.rep v),
    (strSize_eq h.inv v).trans (h.rep v).length⟩

theorem Agrees.represents (h : Agrees w ls) (hinv : Inv charType w ds) (v : ℕ) :
    Represents (ds v) (ls v) := by
  obtain ⟨⟨d, hd, hr⟩, -, -⟩ := h v
  rw [data_eq hinv v, Option.some.injEq] at hd
  rwa [hd]

def Does (o : Option (World Char)) (ls : Texts) : Prop := ∃ w ds, o = some w ∧ Tied w ds ls

theorem Tied.does (h : Tied w ds ls) (ho : Leads charType o (Function.update ds v d))
    (hr : Represents d l) : Does o (Function.update ls v l) := by
  obtain ⟨w', hw', hinv⟩ := ho
  refine ⟨w', _, hw', hinv, fun v' => ?_⟩
  by_cases hv : v' = v
  · subst hv
    rwa [Function.update_self, Function.update_self]
  · rw [Function.update_of_ne hv, Function.update_of_ne hv]
    exact h.rep v'

theorem not_agrees_of_leads (ho : Leads charType o (Function.update ds v d))
    (hr : ¬Represents d l) {w' : World Char} (hw' : o = some w') :
    ¬Agrees w' (Function.update ls v l) := by
  obtain ⟨w₁, hw₁, hinv⟩ := ho
  obtain rfl : w₁ = w' := Option.some.inj (hw₁.symm.trans hw')
  intro hag
  have hrep := hag.represents hinv v
  rw [Function.update_self, Function.update_self] at hrep
  exact hr hrep

/-! ## The operations -/

theorem Tied.construct (h : Tied w ds ls) (v : ℕ) :
    Does (String.construct w v) (Function.update ls v []) := by
  obtain ⟨w', hw', hinv, -⟩ := h.inv.reset v
  exact h.does ⟨w', hw', hinv⟩ (.inl ⟨rfl, rfl⟩)

theorem Tied.constructCStr (h : Tied w ds ls) (v : ℕ) (s : List Letter) :
    Does (String.constructCStr w v (chars s)) (Function.update ls v s) := by
  obtain ⟨w₁, hw₁, h₁, -⟩ := h.inv.reset v
  have hassign := h₁.assign v (chars s ++ [nul])
  rw [Function.update_idem] at hassign
  refine h.does ?_ (.inr rfl)
  simpa only [String.constructCStr, bind, hw₁, Option.bind_some] using hassign

theorem Tied.clear (h : Tied w ds ls) (v : ℕ) :
    Does (String.clear w v) (Function.update ls v []) :=
  h.does (h.inv.clear v) (.inl ⟨rfl, rfl⟩)

theorem Tied.copyFrom (h : Tied w ds ls) (v str : ℕ) :
    Does (String.copyFrom w v str) (Function.update ls v (ls str)) :=
  h.does (h.inv.copyFrom v str) (h.rep str)

theorem splice_chars {pos : ℕ} (l : List Letter) (cs : List Char) (hpos : pos ≤ l.length) :
    (chars l ++ [nul]).take pos ++ cs ++ (chars l ++ [nul]).drop pos =
      chars (l.take pos) ++ cs ++ chars (l.drop pos) ++ [nul] := by
  rw [List.take_append_of_le_length (by simpa using hpos),
    List.drop_append_of_le_length (by simpa using hpos)]
  simp [chars, List.map_take, List.map_drop]

theorem Tied.insertRange {pos : ℕ} (h : Tied w ds ls) (hpos : 0 < w.size v)
    (hle : pos ≤ (ls v).length) (cs : List Letter) :
    Does (String.insertRange w v (some pos) (.elsewhere (chars cs)))
      (Function.update ls v ((ls v).take pos ++ cs ++ (ls v).drop pos)) := by
  have hd := (h.rep v).eq_of_pos (h.inv.size_eq v ▸ hpos)
  have hlen : pos ≤ (ds v).length := by
    rw [hd, List.length_append, length_chars]
    omega
  have hleads := h.inv.insertRange hlen (chars cs)
  rw [hd, splice_chars _ _ hle] at hleads
  have hrep : Represents (chars ((ls v).take pos) ++ chars cs ++ chars ((ls v).drop pos) ++ [nul])
      ((ls v).take pos ++ cs ++ (ls v).drop pos) := .inr (by simp)
  refine h.does ?_ hrep
  simp only [String.insertRange]
  by_cases hnil : (chars cs).length = 0
  · rw [if_pos hnil]
    rwa [World.insertRange, if_pos hnil] at hleads
  · rw [if_neg hnil]
    exact hleads

theorem rangeOf_eq {str : ℕ} (h : Tied w ds ls) (hv : str ≠ v) (hpos : 0 < w.size str) :
    String.rangeOf w v str = some (.elsewhere (chars (ls str))) := by
  have hd := (h.rep str).eq_of_pos (h.inv.size_eq str ▸ hpos)
  rw [String.rangeOf, if_neg (by omega), if_neg hv, data_eq h.inv str, hd]
  simp

theorem endPos_eq (h : Tied w ds ls) (hpos : 0 < w.size v) :
    String.endPos w v = some (ls v).length := by
  have hlen := (h.rep v).length
  rw [String.endPos, if_neg (by omega), h.inv.size_eq v, hlen]

theorem Tied.appendElsewhere (h : Tied w ds ls) (cs : List Letter)
    (hsafe : cs.length = 0 ∨ 0 < w.size v) :
    Does (String.insertRange w v (String.endPos w v) (.elsewhere (chars cs)))
      (Function.update ls v (ls v ++ cs)) := by
  by_cases hpos : 0 < w.size v
  · have hdoes := h.insertRange hpos (Nat.le_refl _) cs
    rwa [List.take_length, List.drop_length, List.append_nil, ← endPos_eq h hpos] at hdoes
  · have hnil : cs = [] := List.eq_nil_of_length_eq_zero (hsafe.resolve_right hpos)
    subst hnil
    rw [List.append_nil, Function.update_eq_self]
    exact ⟨w, ds, rfl, h⟩

theorem insertRange_none {cs : List Char} (hcs : cs.length ≠ 0) (hpos : w.size v = 0) :
    String.insertRange w v (String.endPos w v) (.elsewhere cs) = none := by
  rw [String.insertRange, if_neg hcs, String.endPos, if_pos hpos]
  rfl

theorem Tied.appendChar (h : Tied w ds ls) (hpos : 0 < w.size v) (c : Letter) :
    Does (String.insertAtEnd w v c) (Function.update ls v (ls v ++ [c])) := by
  have hd := (h.rep v).eq_of_pos (h.inv.size_eq v ▸ hpos)
  have hlen : (ls v).length ≤ (ds v).length := by
    rw [hd, List.length_append, length_chars]
    omega
  have hleads := h.inv.insert hlen c.val
  rw [hd, splice_chars _ _ (Nat.le_refl _), List.take_length, List.drop_length] at hleads
  have hrep : Represents (chars (ls v) ++ [c.val] ++ chars [] ++ [nul]) (ls v ++ [c]) :=
    .inr (by simp [chars])
  refine h.does ?_ hrep
  rw [String.insertAtEnd, endPos_eq h hpos]
  exact hleads

theorem pushBack_leads (h : Inv charType w ds) (hempty : String.size w v = 0) (c : Char) :
    Leads charType (String.pushBack w v c) (Function.update ds v (ds v ++ [c] ++ [nul])) := by
  obtain ⟨w₁, hw₁, h₁⟩ := h.pushBack v c
  have hnext := h₁.pushBack v nul
  rw [Function.update_self, Function.update_idem] at hnext
  rw [String.pushBack, if_pos hempty]
  simpa only [hw₁, bind, Option.bind_some] using hnext

theorem Tied.pushBack (h : Tied w ds ls) (hsafe : w.size v ≠ 1) (c : Letter) :
    Does (String.pushBack w v c) (Function.update ls v (ls v ++ [c])) := by
  have hsize := h.inv.size_eq v
  have hstr := strSize_eq h.inv v
  by_cases hempty : String.size w v = 0
  · rcases h.rep v with ⟨hd, hl⟩ | hd
    · have hleads := pushBack_leads h.inv hempty c
      rw [hd] at hleads
      rw [hl]
      exact h.does hleads (.inr rfl)
    · rw [hd, List.length_append, List.length_singleton] at hsize hstr
      omega
  · rw [String.pushBack, if_neg hempty]
    exact h.appendChar (by omega) c

theorem substr_none {src dst pos count : ℕ} (h : Tied w ds ls) (hpos : pos < 2 ^ 64)
    (hgt : String.size w src < pos) (hcount : count ≠ 0) :
    String.substr w src dst pos count = none := by
  have hsize := strSize_eq h.inv src
  simp only [String.substr, data_eq h.inv src, bind, Option.bind_some, String.realCount,
    if_neg (by omega : ¬pos ≤ String.size w src)]
  rw [if_neg]
  omega

theorem Tied.substr {src pos count : ℕ} (h : Tied w ds ls) (dst : ℕ)
    (hsafe : pos ≤ String.size w src ∨ count = 0) :
    Does (String.substr w src dst pos count)
      (Function.update ls dst (((ls src).drop pos).take count)) := by
  have hsize := strSize_eq h.inv src
  have hlen := (h.rep src).length
  obtain ⟨w₁, hw₁, h₁, -⟩ := h.inv.reset dst
  have hreal : String.realCount w src pos count = min count ((ls src).length - pos) := by
    unfold String.realCount
    split <;> omega
  have hn : String.realCount w src pos count = 0 ∨
      pos + String.realCount w src pos count ≤ (ds src).length := by omega
  obtain ⟨w₂, hw₂, h₂⟩ := h₁.assign dst
    (((ds src).drop pos).take (String.realCount w src pos count))
  have hpush := h₂.pushBack dst nul
  rw [Function.update_idem, Function.update_self, Function.update_idem] at hpush
  have hrep : ((ds src).drop pos).take (String.realCount w src pos count) =
      chars (((ls src).drop pos).take count) := by
    rw [(h.rep src).take_drop (by omega), hreal]
    refine congrArg chars (List.take_eq_take_iff.mpr ?_)
    rw [List.length_drop]
    omega
  rw [hrep] at hpush
  refine h.does ?_ (.inr rfl)
  simpa only [String.substr, data_eq h.inv src, bind, Option.bind_some, if_pos hn, hw₁, hw₂]
    using hpush

theorem Tied.terminate {cs : List Letter} (h : Tied w ds ls) (r : CharRange)
    (hleads : Leads charType (String.assignData w v r) (Function.update ds v (chars cs)))
    (hcs : cs.length ≠ 0) :
    Does (String.assign w v r) (Function.update ls v cs) := by
  obtain ⟨w₁, hw₁, h₁⟩ := hleads
  have hself : Function.update ds v (chars cs) v = chars cs := Function.update_self _ _ _
  have hsize := h₁.size_eq v
  rw [hself, length_chars] at hsize
  have hlt : cs.length - 1 < (chars cs).length := by
    rw [length_chars]
    omega
  have hslot := h₁.slot_apply v (cs.length - 1)
  rw [hself, List.getElem?_eq_getElem hlt] at hslot
  have hmem : (chars cs)[cs.length - 1] ≠ nul := fun heq =>
    nul_notMem_chars cs (heq ▸ List.getElem_mem _)
  have hpush := h₁.pushBack v nul
  rw [hself, Function.update_idem] at hpush
  refine h.does ?_ (.inr rfl)
  simpa only [String.assign, hw₁, bind, Option.bind_some, String.endPos, hsize, if_neg hcs,
    Store.get_mk, hslot, ne_eq, hmem, not_false_eq_true, if_true] using hpush

/-- `back()` of an empty vector. -/
theorem assign_none {r : CharRange}
    (hempty : ∀ w', String.assignData w v r = some w' → w'.size v = 0) :
    String.assign w v r = none := by
  unfold String.assign
  cases hw : String.assignData w v r with
  | none => rfl
  | some w' =>
    simp only [bind, Option.bind_some, String.endPos, hempty w' hw, if_true, Option.bind_none]

/-! ## Ranges of the string itself -/

section
variable {pos off n : ℕ}

theorem brought_eq_iff (hread : off + n ≤ d.length) :
    brought d pos off n = (d.drop off).take n ↔
      ∀ i < n, broughtBy (fun q => d[q]?) pos off i = d[off + i]? := by
  constructor
  · intro heq i hi
    rw [← getElem?_brought hi hread, heq, List.getElem?_take_of_lt hi, List.getElem?_drop]
  · intro hall
    refine List.ext_getElem? fun i => ?_
    by_cases hi : i < n
    · rw [getElem?_brought hi hread, hall i hi, List.getElem?_take_of_lt hi, List.getElem?_drop]
    · rw [List.getElem?_eq_none (by rw [length_brought]; omega),
        List.getElem?_eq_none (by rw [List.length_take]; omega)]

theorem Tied.insertOwn_leads (h : Tied w ds ls) (hn : 0 < n) (hoff : off ≤ pos)
    (hpos : pos ≤ (ls v).length) (hread : off + n ≤ (ls v).length)
    (hroom : w.size v + n ≤ w.capacity v) :
    Leads charType (String.insertRange w v (some pos) (.own off n))
      (Function.update ds v (chars ((ls v).take pos) ++ brought (ds v) pos off n ++
        chars ((ls v).drop pos) ++ [nul])) := by
  have hlen := (h.rep v).length
  have hd := (h.rep v).eq_of_pos (by omega)
  have hleads := Containers.insertOwn_leads h.inv hn hoff (by omega) (by omega) hroom
  have hsplice := splice_chars (ls v) (brought (ds v) pos off n) hpos
  rw [← hd] at hsplice
  rw [hsplice] at hleads
  rw [String.insertRange, if_neg (by omega)]
  exact hleads

theorem Tied.insertOwn (h : Tied w ds ls) (hn : 0 < n) (hoff : off ≤ pos)
    (hpos : pos ≤ (ls v).length) (hread : off + n ≤ (ls v).length)
    (hroom : w.size v + n ≤ w.capacity v)
    (hsame : ∀ i < n, broughtBy (fun q => (ds v)[q]?) pos off i = (ds v)[off + i]?) :
    Does (String.insertRange w v (some pos) (.own off n))
      (Function.update ls v ((ls v).take pos ++ ((ls v).drop off).take n ++ (ls v).drop pos)) := by
  have hlen := (h.rep v).length
  have hleads := h.insertOwn_leads hn hoff hpos hread hroom
  rw [(brought_eq_iff (by omega)).mpr hsame, (h.rep v).take_drop (.inr hread)] at hleads
  refine h.does hleads (.inr ?_)
  simp

theorem insertRange_own_none (hn : n ≠ 0) (hroom : w.capacity v < w.size v + n)
    (pos : Option ℕ) : String.insertRange w v pos (.own off n) = none := by
  rw [String.insertRange, if_neg hn]
  cases pos with
  | none => rfl
  | some pos => rw [Option.bind_some, String.insertOwn, if_neg hn, if_pos (by omega)]

/-- Appended characters are read before anything is copied over them. -/
theorem Tied.appendOwn (h : Tied w ds ls) (hread : off + n ≤ (ls v).length)
    (hsafe : n = 0 ∨ w.size v + n ≤ w.capacity v) :
    Does (String.insertRange w v (String.endPos w v) (.own off n))
      (Function.update ls v (ls v ++ ((ls v).drop off).take n)) := by
  by_cases hn : n = 0
  · subst hn
    rw [List.take_zero, List.append_nil, Function.update_eq_self]
    exact ⟨w, ds, rfl, h⟩
  · have hlen := (h.rep v).length
    have hsize := h.inv.size_eq v
    have hdoes := h.insertOwn (by omega) (by omega) (Nat.le_refl _) hread
      (hsafe.resolve_left hn) fun i hi => by
        rw [broughtBy, if_pos (by omega), Nat.mod_eq_of_lt (by omega)]
    rwa [List.take_length, List.drop_length, List.append_nil,
      ← endPos_eq h (by omega : 0 < w.size v)] at hdoes

/-- In the middle of the string, the characters before the insertion are repeated. -/
theorem broughtBy_zero (f : ℕ → Option Char) (pos i : ℕ) : broughtBy f pos 0 i = f (i % pos) := by
  unfold broughtBy
  split
  · rw [Nat.sub_zero, Nat.zero_add]
  · obtain rfl : pos = 0 := by omega
    rw [Nat.mod_zero, Nat.zero_add]

end

/-! ## Searching -/

section
variable {text needle : List Char} {pos : ℕ}

theorem firstFrom_nil : firstFrom text [] pos = if pos ≤ text.length then some pos else none := by
  split
  · rw [firstFrom, List.find?_range_eq_some]
    refine ⟨by simp [String.occursAt], by simpa using by omega, fun j hj => ?_⟩
    simp only [Bool.not_eq_true', Bool.and_eq_false_iff, decide_eq_false_iff_not]
    exact .inl (by omega)
  · rw [firstFrom, List.find?_range_eq_none]
    intro i hi
    simp only [Bool.not_eq_true', Bool.and_eq_false_iff, decide_eq_false_iff_not]
    exact .inl (by omega)

theorem firstFrom_end (hne : needle ≠ []) (hpos : text.length ≤ pos) :
    firstFrom text needle pos = none := by
  rw [firstFrom, List.find?_range_eq_none]
  intro i hi
  simp only [Bool.not_eq_true', Bool.and_eq_false_iff, decide_eq_false_iff_not]
  by_cases hle : pos ≤ i
  · right
    rw [String.occursAt, List.drop_of_length_le (by omega)]
    cases needle with
    | nil => exact absurd rfl hne
    | cons c cs => rfl
  · exact .inl hle

/-- Searching from the start is searching from `pos` where nothing is found before. -/
theorem strstr_eq_firstFrom_iff (hpos : pos < text.length) :
    String.strstr text needle = firstFrom text needle pos ↔
      ∀ i < pos, String.occursAt text needle i = false := by
  constructor
  · intro heq i hi
    by_contra hocc
    rw [Bool.not_eq_false] at hocc
    cases hfirst : firstFrom text needle pos with
    | none =>
      rw [hfirst, String.strstr, List.find?_range_eq_none] at heq
      have hno := heq i (by omega)
      rw [hocc] at hno
      cases hno
    | some j =>
      rw [hfirst, String.strstr, List.find?_range_eq_some] at heq
      rw [firstFrom, List.find?_range_eq_some] at hfirst
      obtain ⟨hj, -, -⟩ := hfirst
      simp only [Bool.and_eq_true, decide_eq_true_eq] at hj
      have hno := heq.2.2 i (by omega)
      rw [hocc] at hno
      cases hno
  · intro hall
    have hsame : (fun i => decide (pos ≤ i) && String.occursAt text needle i) =
        String.occursAt text needle := by
      funext i
      by_cases hle : pos ≤ i
      · simp [hle]
      · simp [hle, hall i (by omega)]
    rw [firstFrom, hsame]
    rfl

end

theorem Tied.find_eq_iff (h : Tied w ds ls) (v needle pos : ℕ) :
    String.find w v needle pos = some (firstFrom (chars (ls v)) (chars (ls needle)) pos) ↔
      (StringOp.find v needle pos).Safe w := by
  have hv := (strSize_eq h.inv v).trans (h.rep v).length
  have hneedle := (strSize_eq h.inv needle).trans (h.rep needle).length
  have hcv := cStr_eq h.inv (h.rep v)
  have hcn := cStr_eq h.inv (h.rep needle)
  simp only [String.find, StringOp.Safe, hv, hneedle, hcv, hcn, bind, pure, Option.bind_some,
    Option.mem_some_iff, forall_eq']
  by_cases hnil : (ls needle).length = 0
  · rw [List.eq_nil_of_length_eq_zero hnil]
    simp [chars, firstFrom_nil]
  · rw [if_neg hnil]
    by_cases hpos : pos ≥ (ls v).length
    · have hne : chars (ls needle) ≠ [] := by
        rw [← List.length_pos_iff, length_chars]
        omega
      rw [if_pos hpos, firstFrom_end hne (by rw [length_chars]; omega)]
      simp only [true_iff]
      exact .inr (.inl hpos)
    · rw [if_neg hpos, Option.some.injEq,
        strstr_eq_firstFrom_iff (by rw [length_chars]; omega)]
      constructor
      · exact fun hall => .inr (.inr hall)
      · rintro (h0 | hle | hall)
        · exact absurd h0 hnil
        · exact absurd hle hpos
        · exact hall

theorem Tied.eq_iff (h : Tied w ds ls) (v other : ℕ) :
    String.eq w v other = some (decide (ls v = ls other)) ↔ (StringOp.eq v other).Safe w := by
  simp only [String.eq, StringOp.Safe, data_eq h.inv, h.inv.size_eq, bind, pure, Option.bind_some]
  by_cases hv : v = other
  · subst hv
    simp only [if_true, decide_true, true_iff]
    omega
  · rw [if_neg hv, Option.some.injEq]
    rcases h.rep v with ⟨hd, hl⟩ | hd <;> rcases h.rep other with ⟨hd', hl'⟩ | hd'
    · simp [hd, hl, hd', hl']
    · rw [hd, hl, hd']
      cases ls other <;> simp [chars]
    · rw [hd, hd', hl']
      cases ls v <;> simp [chars]
    · rw [hd, hd']
      have hsame : chars (ls v) ++ [nul] = chars (ls other) ++ [nul] ↔ ls v = ls other := by
        rw [List.append_cancel_right_eq, chars_inj]
      simp only [List.length_append, List.length_singleton]
      constructor
      · intro _
        omega
      · intro _
        rw [Bool.eq_iff_iff, beq_iff_eq, hsame, decide_eq_true_iff]

theorem Tied.eqCStr (h : Tied w ds ls) (v : ℕ) (s : List Letter) :
    String.eqCStr w v (chars s) = some (decide (ls v = s)) := by
  have hsize := (strSize_eq h.inv v).trans (h.rep v).length
  rw [String.eqCStr, hsize, length_chars]
  by_cases hlen : s.length = (ls v).length
  · have hle : 0 + (ls v).length ≤ (ls v).length := by omega
    have htake := (h.rep v).take_drop (.inr hle)
    rw [List.drop_zero, List.drop_zero, List.take_length] at htake
    rw [if_neg (by omega), data_eq h.inv, Option.map_some, htake, Option.some.injEq,
      Bool.eq_iff_iff, beq_iff_eq, chars_inj, decide_eq_true_iff]
  · have hne : ls v ≠ s := fun heq => hlen (by rw [heq])
    rw [if_pos hlen, decide_eq_false hne]

/-! ## Runs -/

theorem Does.step {ls' : Texts} (h : Does o ls') :
    ∃ w' ds', o.map (·, StringAnswer.done) = some (w', .done) ∧ Tied w' ds' ls' := by
  obtain ⟨w', ds', rfl, ht⟩ := h
  exact ⟨w', ds', rfl, ht⟩

theorem Tied.append {str : ℕ} (h : Tied w ds ls) (hsafe : (StringOp.append v str).Safe w) :
    Does (String.append w v str) (Function.update ls v (ls v ++ ls str)) := by
  simp only [StringOp.Safe] at hsafe
  have hsize := h.inv.size_eq v
  have hlen := (h.rep v).length
  unfold String.append
  by_cases hv : str = v
  · subst hv
    rw [if_pos rfl] at hsafe
    rw [String.rangeOf, if_neg (by omega), if_pos rfl, Option.bind_some]
    have hread : 0 + (w.size str - 1) ≤ (ls str).length := by omega
    have hdoes := h.appendOwn hread (by omega)
    rwa [List.drop_zero, List.take_of_length_le (by omega)] at hdoes
  · rw [if_neg hv] at hsafe
    have hlen' := (h.rep str).length
    have hsize' := h.inv.size_eq str
    rw [rangeOf_eq h hv (by omega), Option.bind_some]
    exact h.appendElsewhere (ls str) (by omega)

theorem Tied.insert {pos str : ℕ} (h : Tied w ds ls) (hpos : pos < (ls v).length)
    (hsafe : (StringOp.insert v pos str).Safe w) :
    Does (String.insert w v pos str)
      (Function.update ls v ((ls v).take pos ++ ls str ++ (ls v).drop pos)) := by
  simp only [StringOp.Safe] at hsafe
  have hsize := h.inv.size_eq v
  have hlen := (h.rep v).length
  unfold String.insert
  by_cases hv : str = v
  · subst hv
    rw [if_pos rfl] at hsafe
    obtain ⟨hroom, hsame⟩ := hsafe
    rw [String.rangeOf, if_neg (by omega), if_pos rfl, Option.bind_some]
    have hread : 0 + (w.size str - 1) ≤ (ls str).length := by omega
    have hdoes := h.insertOwn (by omega) (Nat.zero_le pos) (by omega) hread (by omega)
      fun i hi => by
        have hi' := hsame i (by rw [strSize_eq h.inv]; omega)
        rw [Store.get_mk, Store.get_mk, h.inv.slot_apply, h.inv.slot_apply] at hi'
        rw [broughtBy_zero, Nat.zero_add]
        exact hi'
    have hall : ((ls str).drop 0).take (w.size str - 1) = ls str := by
      rw [List.drop_zero, List.take_of_length_le (by omega)]
    rwa [hall] at hdoes
  · rw [if_neg hv] at hsafe
    rw [rangeOf_eq h hv hsafe, Option.bind_some]
    exact h.insertRange (by omega) (by omega) (ls str)

theorem Tied.step {op : StringOp} (h : Tied w ds ls) (hfit : op.Fits ls) (hsafe : op.Safe w) :
    ∃ w' ds', op.step w = some (w', op.answer ls) ∧ Tied w' ds' (op.apply ls) := by
  cases op with
  | construct v => exact (h.construct v).step
  | constructCStr v s => exact (h.constructCStr v s).step
  | append v str => exact (h.append hsafe).step
  | appendChar v c => exact (h.appendChar hsafe c).step
  | appendRange v r =>
    cases r with
    | elsewhere cs => exact (h.appendElsewhere cs hsafe).step
    | own off n => exact (h.appendOwn hfit hsafe).step
  | pushBack v c => exact (h.pushBack hsafe c).step
  | insert v pos str => exact (h.insert hfit hsafe).step
  | substr src dst pos count => exact (h.substr dst hsafe).step
  | find v needle pos =>
    refine ⟨w, ds, ?_, h⟩
    rw [StringOp.step, (h.find_eq_iff v needle pos).mpr hsafe]
    rfl
  | assign v r =>
    cases r with
    | elsewhere cs =>
      exact (h.terminate (.elsewhere (chars cs)) (h.inv.assign v (chars cs)) hsafe).step
    | own off n =>
      have hlen := (h.rep v).length
      have hread : off + n ≤ (ls v).length := hfit
      have hn : 0 < n := Nat.pos_of_ne_zero hsafe
      have hleads := assignOwn_leads h.inv hn (by omega : off + n ≤ (ds v).length)
      rw [(h.rep v).take_drop (.inr hread)] at hleads
      refine (h.terminate _ hleads ?_).step
      rw [List.length_take, List.length_drop]
      omega
  | clear v => exact (h.clear v).step
  | copyFrom v str => exact (h.copyFrom v str).step
  | eq v other =>
    refine ⟨w, ds, ?_, h⟩
    rw [StringOp.step, (h.eq_iff v other).mpr hsafe]
    rfl
  | eqCStr v s =>
    refine ⟨w, ds, ?_, h⟩
    rw [StringOp.step, h.eqCStr v s]
    rfl

theorem append_none {str : ℕ} (h : Tied w ds ls) (hbad : ¬(StringOp.append v str).Safe w) :
    String.append w v str = none := by
  simp only [StringOp.Safe] at hbad
  unfold String.append
  by_cases h0 : w.size str = 0
  · rw [String.rangeOf, if_pos h0]
    rfl
  · by_cases hv : str = v
    · subst hv
      rw [if_pos rfl] at hbad
      rw [String.rangeOf, if_neg h0, if_pos rfl, Option.bind_some]
      exact insertRange_own_none (by omega) (by omega) _
    · rw [if_neg hv] at hbad
      have hlen := (h.rep str).length
      have hsize := h.inv.size_eq str
      rw [rangeOf_eq h hv (by omega), Option.bind_some]
      exact insertRange_none (by rw [length_chars]; omega) (by omega)

/-- The lone NUL stays in front. -/
theorem pushBack_not_represents (h : Tied w ds ls) (hone : w.size v = 1) (c : Letter) :
    ¬Represents (ds v ++ [c.val] ++ [nul]) (ls v ++ [c]) := by
  have hsize := h.inv.size_eq v
  have hlen := (h.rep v).length
  have hnil : ls v = [] := List.eq_nil_of_length_eq_zero (by omega)
  have hd := (h.rep v).eq_of_pos (by omega)
  rw [hd, hnil]
  rintro (⟨heq, -⟩ | heq)
  · simp at heq
  · simp [chars] at heq

theorem insert_own_not_represents {pos : ℕ} (h : Tied w ds ls) (hpos : pos < (ls v).length)
    (hbad : ¬∀ i < String.size w v,
      w.store.get ⟨(w.vec v).begin_, i % pos⟩ = w.store.get ⟨(w.vec v).begin_, i⟩) :
    ¬Represents (chars ((ls v).take pos) ++ brought (ds v) pos 0 (w.size v - 1) ++
        chars ((ls v).drop pos) ++ [nul]) ((ls v).take pos ++ ls v ++ (ls v).drop pos) := by
  have hsize := h.inv.size_eq v
  have hlen := (h.rep v).length
  have hstr := strSize_eq h.inv v
  intro hrep
  have heq := hrep.eq_of_pos (by rw [List.length_append, List.length_singleton]; omega)
  rw [chars_append, chars_append] at heq
  have hbrought : brought (ds v) pos 0 (w.size v - 1) = chars (ls v) :=
    List.append_cancel_left (List.append_cancel_right (List.append_cancel_right heq))
  have htake : chars (ls v) = ((ds v).drop 0).take (w.size v - 1) := by
    rw [(h.rep v).take_drop (.inr (by omega)), List.drop_zero, List.take_of_length_le (by omega)]
  have hall := (brought_eq_iff (by omega)).mp (hbrought.trans htake)
  refine hbad fun i hi => ?_
  have hi' := hall i (by omega)
  rw [broughtBy_zero, Nat.zero_add] at hi'
  rw [Store.get_mk, Store.get_mk, h.inv.slot_apply, h.inv.slot_apply]
  exact hi'

theorem Tied.insertSelf_unsafe {pos : ℕ} (h : Tied w ds ls) (hpos : pos < (ls v).length)
    (hbad : ¬(StringOp.insert v pos v).Safe w) {w' : World Char}
    (hins : String.insert w v pos v = some w') :
    ¬Agrees w' ((StringOp.insert v pos v).apply ls) := by
  simp only [StringOp.Safe, if_true] at hbad
  have hsize := h.inv.size_eq v
  have hlen := (h.rep v).length
  have hrange : String.insert w v pos v =
      String.insertRange w v (some pos) (.own 0 (w.size v - 1)) := by
    rw [String.insert, String.rangeOf, if_neg (by omega), if_pos rfl, Option.bind_some]
  rw [hrange] at hins
  by_cases hroom : 2 * w.size v - 1 ≤ w.capacity v
  · have hread : 0 + (w.size v - 1) ≤ (ls v).length := by omega
    have hleads := h.insertOwn_leads (by omega) (Nat.zero_le pos) (by omega) hread (by omega)
    exact not_agrees_of_leads hleads
      (insert_own_not_represents h hpos fun hall => hbad ⟨hroom, hall⟩) hins
  · rw [insertRange_own_none (by omega) (by omega)] at hins
    cases hins

/-- An empty range leaves `assign` without an element to put the NUL behind. -/
theorem Tied.assign_unsafe {r : LetterRange} (h : Tied w ds ls)
    (hbad : ¬(StringOp.assign v r).Safe w) : String.assign w v r.toChars = none := by
  cases r with
  | elsewhere cs =>
    have hnil : cs = [] := List.eq_nil_of_length_eq_zero (not_not.mp hbad)
    refine assign_none fun w₁ hw₁ => ?_
    obtain ⟨w₂, hw₂, h₂⟩ := h.inv.assign v (chars cs)
    obtain rfl : w₂ = w₁ := Option.some.inj (hw₂.symm.trans hw₁)
    rw [h₂.size_eq, Function.update_self, length_chars, hnil, List.length_nil]
  | own off n =>
    have hn : n = 0 := not_not.mp hbad
    subst hn
    refine assign_none fun w₁ hw₁ => ?_
    obtain ⟨w₂, -, hset⟩ := Option.bind_eq_some_iff.mp hw₁
    obtain rfl : w₂.setEnd v 0 = w₁ := Option.some.inj hset
    rw [World.size, World.setEnd, World.vec_set_self]

theorem Tied.step_unsafe {op : StringOp} (h : Tied w ds ls) (hfit : op.Fits ls)
    (hbad : ¬op.Safe w) {w' : World Char} (hstep : op.step w = some (w', op.answer ls)) :
    ¬Agrees w' (op.apply ls) := by
  -- most of the calls have no result
  have hnone : ∀ {o : Option (World Char)}, o = none →
      o.map (·, StringAnswer.done) = some (w', .done) → False := by
    rintro o rfl ho
    cases ho
  cases op with
  | construct v => exact absurd trivial hbad
  | constructCStr v s => exact absurd trivial hbad
  | append v str => exact (hnone (append_none h hbad) hstep).elim
  | appendChar v c =>
    have h0 : w.size v = 0 := Nat.eq_zero_of_not_pos hbad
    exact (hnone (by rw [String.appendChar, String.insertAtEnd, String.endPos, if_pos h0]; rfl)
      hstep).elim
  | appendRange v r =>
    cases r with
    | elsewhere cs =>
      simp only [StringOp.Safe] at hbad
      exact (hnone (insertRange_none (by rw [length_chars]; omega) (by omega)) hstep).elim
    | own off n =>
      simp only [StringOp.Safe] at hbad
      exact (hnone (insertRange_own_none (by omega) (by omega) _) hstep).elim
  | pushBack v c =>
    have hone : w.size v = 1 := not_not.mp hbad
    have hempty : String.size w v = 0 := by rw [String.size, hone]; rfl
    obtain ⟨w₁, hw₁, heq⟩ := Option.map_eq_some_iff.mp hstep
    obtain rfl : w₁ = w' := congrArg Prod.fst heq
    exact not_agrees_of_leads (pushBack_leads h.inv hempty c) (pushBack_not_represents h hone c) hw₁
  | insert v pos str =>
    by_cases hv : str = v
    · subst hv
      obtain ⟨w₁, hw₁, heq⟩ := Option.map_eq_some_iff.mp hstep
      obtain rfl : w₁ = w' := congrArg Prod.fst heq
      exact h.insertSelf_unsafe hfit hbad hw₁
    · simp only [StringOp.Safe, if_neg hv] at hbad
      have h0 : w.size str = 0 := Nat.eq_zero_of_not_pos hbad
      exact (hnone (by rw [String.insert, String.rangeOf, if_pos h0]; rfl) hstep).elim
  | substr src dst pos count =>
    simp only [StringOp.Safe] at hbad
    exact (hnone (substr_none h hfit.1 (by omega) (by omega)) hstep).elim
  | find v needle pos =>
    obtain ⟨o, ho, heq⟩ := Option.map_eq_some_iff.mp hstep
    obtain rfl : o = firstFrom (chars (ls v)) (chars (ls needle)) pos :=
      StringAnswer.index.inj (congrArg Prod.snd heq)
    exact absurd ((h.find_eq_iff v needle pos).mp ho) hbad
  | assign v r => exact (hnone (h.assign_unsafe hbad) hstep).elim
  | clear v => exact absurd trivial hbad
  | copyFrom v str => exact absurd trivial hbad
  | eq v other =>
    obtain ⟨b, hb, heq⟩ := Option.map_eq_some_iff.mp hstep
    obtain rfl : b = decide (ls v = ls other) := StringAnswer.bool.inj (congrArg Prod.snd heq)
    exact absurd ((h.eq_iff v other).mp hb) hbad
  | eqCStr v s => exact absurd trivial hbad

theorem Meets.agrees {ops : List StringOp} (h : Meets w ls ops) : Agrees w ls := by
  cases ops with
  | nil => exact h
  | cons op ops => exact h.1

theorem Tied.meets_iff {ops : List StringOp} (h : Tied w ds ls) (hfit : texts.Valid ls ops) :
    Meets w ls ops ↔ SafeRun w ops := by
  induction ops generalizing w ds ls with
  | nil => exact ⟨fun _ => trivial, fun _ => h.agrees⟩
  | cons op ops ih =>
    by_cases hsafe : op.Safe w
    · obtain ⟨w', ds', hstep, h'⟩ := h.step hfit.1 hsafe
      have hrest := ih h' hfit.2
      rw [SafeRun, hstep]
      constructor
      · rintro ⟨-, w₁, hw₁, hmeets⟩
        obtain rfl : w₁ = w' := congrArg Prod.fst (Option.some.inj (hw₁.symm.trans hstep))
        exact ⟨hsafe, hrest.mp hmeets⟩
      · rintro ⟨-, hrun⟩
        exact ⟨h.agrees, w', hstep, hrest.mpr hrun⟩
    · constructor
      · rintro ⟨-, w', hw', hmeets⟩
        exact absurd hmeets.agrees (h.step_unsafe hfit.1 hsafe hw')
      · exact fun hrun => absurd hrun.1 hsafe

end

/-- From strings without elements on, a run does what the lists say exactly if every call is safe in
the world it is made in. -/
theorem strings_meet_lists_iff (ops : List StringOp) (hfit : texts.Valid (fun _ => []) ops) :
    Meets {} (fun _ => []) ops ↔ SafeRun {} ops :=
  Tied.meets_iff ⟨inv_init charType, fun _ => .inl ⟨rfl, rfl⟩⟩ hfit

def letterA : Letter := ⟨'a', by decide⟩

def safeStrings : List StringOp :=
  [.constructCStr 0 [letterA], .append 0 0, .appendRange 0 (.own 0 1), .insert 0 1 0,
    .substr 0 1 2 3, .find 0 1 0, .assign 1 (.own 1 1), .eq 0 1, .clear 1, .pushBack 1 letterA]

theorem strings_meet_lists_iff_sample :
    texts.Valid (fun _ => []) safeStrings ∧ Meets {} (fun _ => []) safeStrings := by
  have hfit : texts.Valid (fun _ => []) safeStrings := by decide +kernel
  exact ⟨hfit, (strings_meet_lists_iff safeStrings hfit).mpr (by decide +kernel)⟩

/-- A character is pushed onto the string constructed from the empty C string. -/
def pushOntoNul : List StringOp := [.constructCStr 0 [], .pushBack 0 letterA]

/-- The elements are NUL, `a`, NUL: the string still looks empty, with a size of 2. -/
theorem pushOntoNul_hides_character :
    texts.Valid (fun _ => []) pushOntoNul ∧
      (((StringOp.constructCStr 0 []).step {}).bind fun p =>
        ((StringOp.pushBack 0 letterA).step p.1).map fun p =>
          (String.data p.1 0, String.cStr p.1 0, String.size p.1 0)) =
        some (some [nul, 'a', nul], some [], 2) ∧
      texts.run (fun _ => []) pushOntoNul 0 = [letterA] ∧
      ¬Meets {} (fun _ => []) pushOntoNul := by
  have hfit : texts.Valid (fun _ => []) pushOntoNul := by decide +kernel
  refine ⟨hfit, by decide +kernel, by decide +kernel, ?_⟩
  rw [Tied.meets_iff ⟨inv_init charType, fun _ => .inl ⟨rfl, rfl⟩⟩ hfit]
  decide +kernel

end CritPath.Containers
