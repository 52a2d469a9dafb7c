import CritPath.Containers.IStream
import CritPath.Containers.StringRefines
import Mathlib.Data.List.TakeWhile

/-!
# Reading from a string stream

`StringBuf::underflow` exposes the string from `readPos_` on, but nothing moves
`readPos_`: when the window has been read to its end, the next look shows the
string from the start again, and the end of file is never reported
(`sgetc_misreads`). A run of calls is served as it should be exactly if no call
looks behind the last character (`Enough`).

`getline` clears its argument and then appends the part of the window before the
delimiter, which is outside the storage for a string without elements, unless it
is the first to look at the buffer or the line is empty.
-/

namespace CritPath.Containers

open CritPath.Lib.Lifetime

/-- Addresses are offsets from `c_str()`; null pointers are 0. -/
structure StringBuf where
  readPtr_ : ℕ := 0
  readEnd_ : ℕ := 0
  readPos_ : ℕ := 0

def stringBuf (s : List Char) : StreamBuf StringBuf where
  gptr b := b.readPtr_
  egptr b := b.readEnd_
  setGptr b p := { b with readPtr_ := p }
  deref _ a := (s ++ [nul])[a]?
  underflow b :=
    if b.readPos_ ≥ s.length then some (none, b)
    else some (s[b.readPos_]?, { b with readPtr_ := b.readPos_, readEnd_ := s.length })

/-- The calls are served as they should be: with enough fuel they return, and what they are shown
and take is the text, each character once, and then the end of file. -/
def Delivers (s : List Char) (calls : List StreamCall) : Prop :=
  ∃ fuel, ∀ n ≥ fuel, ∃ as st' rest, Reads (runCalls (stringBuf s) n calls) ⟨{}, false, false, {}⟩ s
    as st' rest

/-! ## Enough characters -/

def unread (s : List Char) (st : IStream StringBuf) : List Char := s.drop st.buf.readPtr_

def afterSign : List Char → List Char
  | [] => []
  | c :: cs => if c = '-' ∨ c = '+' then cs else c :: cs

/-- There is a delimiter, and the line is appended to only when it has elements: either this is the
first look at the buffer, so that its first character has been pushed back on, or the line is
empty. -/
def LineEnough (readEnd_ : ℕ) (delim : Char) : List Char → Prop
  | [] => False
  | c :: cs =>
    if readEnd_ = 0 then sameInt c delim ∨ ∃ n ∈ cs.idxOf? delim, n + 1 < 2 ^ 31 else c = delim

/-- The call stops before it looks behind the last character, and appends to its string only when
that has elements. -/
def Enough (s : List Char) (st : IStream StringBuf) : StreamCall → Prop
  | .sgetc | .sbumpc => unread s st ≠ []
  | .int => st.failbit ∨ (afterSign ((unread s st).dropWhile isspace)).dropWhile isdigit ≠ []
  | .uint => st.failbit ∨ ((unread s st).dropWhile isspace).dropWhile isdigit ≠ []
  | .word _ => st.failbit ∨ ((unread s st).dropWhile isspace).dropWhile (fun c => !isspace c) ≠ []
  | .line _ delim => st.failbit ∨ LineEnough st.buf.readEnd_ delim (unread s st)

def EnoughRun (s : List Char) : IStream StringBuf → List StreamCall → Prop
  | _, [] => True
  | st, call :: calls => Enough s st call ∧
    match call.run (stringBuf s) (s.length + 1) st with
    | some (_, st', _) => EnoughRun s st' calls
    | none => True

instance LineEnough.decidable (readEnd_ : ℕ) (delim : Char) :
    ∀ cs : List Char, Decidable (LineEnough readEnd_ delim cs)
  | [] => .isFalse id
  | c :: cs =>
    have : Decidable (∃ n ∈ cs.idxOf? delim, n + 1 < 2 ^ 31) :=
      match h : cs.idxOf? delim with
      | none => .isFalse fun ⟨_, hn, _⟩ => by cases hn
      | some n => decidable_of_iff (n + 1 < 2 ^ 31)
          ⟨fun hlt => ⟨n, rfl, hlt⟩, fun ⟨_, hn, hlt⟩ => Option.some.inj hn ▸ hlt⟩
    inferInstanceAs (Decidable (if readEnd_ = 0 then _ else _))

instance Enough.decidable (s : List Char) (st : IStream StringBuf) :
    ∀ call : StreamCall, Decidable (Enough s st call)
  | .sgetc | .sbumpc => inferInstanceAs (Decidable (unread s st ≠ []))
  | .int | .uint | .word _ => inferInstanceAs (Decidable (_ ∨ _ ≠ []))
  | .line _ delim => inferInstanceAs (Decidable (_ ∨ LineEnough st.buf.readEnd_ delim (unread s st)))

instance EnoughRun.decidable (s : List Char) :
    ∀ (st : IStream StringBuf) (calls : List StreamCall), Decidable (EnoughRun s st calls)
  | _, [] => .isTrue trivial
  | st, call :: calls =>
    have : Decidable (match call.run (stringBuf s) (s.length + 1) st with
      | some (_, st', _) => EnoughRun s st' calls
      | none => True) :=
      match call.run (stringBuf s) (s.length + 1) st with
      | some (_, st', _) => EnoughRun.decidable s st' calls
      | none => .isTrue trivial
    inferInstanceAs (Decidable (Enough s st call ∧ _))

/-! ## The buffer -/

section
variable {s rest cs : List Char} {st : IStream StringBuf} {c : Char}

/-- The window starts at the characters left, or has not been set. -/
structure At (s : List Char) (b : StringBuf) (rest : List Char) : Prop where
  pos : b.readPos_ = 0
  rest_eq : rest = s.drop b.readPtr_
  window : b.readPtr_ = 0 ∧ b.readEnd_ = 0 ∨ b.readEnd_ = s.length ∧ b.readPtr_ ≤ s.length

def opened (s : List Char) (st : IStream StringBuf) : IStream StringBuf :=
  { st with buf := { st.buf with readEnd_ := s.length } }

theorem At.opened (h : At s st.buf rest) : At s (opened s st).buf rest := by
  refine ⟨h.pos, h.rest_eq, .inr ⟨rfl, ?_⟩⟩
  rcases h.window with ⟨h0, -⟩ | ⟨-, hle⟩
  · change st.buf.readPtr_ ≤ s.length
    omega
  · exact hle

theorem At.deref (h : At s st.buf (c :: rest)) :
    (s ++ [nul])[st.buf.readPtr_]? = some c := by
  have hget : (s.drop st.buf.readPtr_)[0]? = some c := by rw [← h.rest_eq]; rfl
  rw [List.getElem?_drop, Nat.add_zero] at hget
  obtain ⟨hlt, -⟩ := List.getElem?_eq_some_iff.mp hget
  rw [List.getElem?_append_left hlt, hget]

/-- `readPos_` is still 0 when the window has been read to its end. -/
theorem underflow_eq {b : StringBuf} (hpos : b.readPos_ = 0) (hs : s ≠ []) :
    ∃ c, (s ++ [nul])[0]? = some c ∧
      (stringBuf s).underflow b = some (some c, ⟨0, s.length, 0⟩) := by
  obtain ⟨c, cs, rfl⟩ := List.exists_cons_of_ne_nil hs
  refine ⟨c, rfl, ?_⟩
  simp [stringBuf, hpos]

theorem At.lt_length (h : At s st.buf (c :: rest)) : st.buf.readPtr_ < s.length := by
  by_contra hge
  have hnil := h.rest_eq
  rw [List.drop_of_length_le (by omega)] at hnil
  cases hnil

theorem sgetc_reads (h : At s st.buf (c :: rest)) :
    Reads (sgetc (stringBuf s)) st (c :: rest) (some c) (opened s st) (c :: rest) := by
  refine reads_peek ?_ rfl
  have hderef := h.deref
  have hlt := h.lt_length
  rcases h.window with ⟨hptr, hend⟩ | ⟨hend, -⟩
  · have hs : s ≠ [] := by
      rintro rfl
      exact Nat.not_lt_zero _ hlt
    have hge : st.buf.readPtr_ ≥ st.buf.readEnd_ := by omega
    obtain ⟨c', -, hunder⟩ := underflow_eq h.pos hs
    have hopen : opened s st = { st with buf := ⟨0, s.length, 0⟩ } := by
      simp only [opened, hptr, h.pos]
    rw [hptr] at hderef
    rw [hopen]
    exact sgetc_of_underflow hge hunder hderef
  · have hopen : opened s st = st := by
      rw [opened, ← hend]
    have harea : st.buf.readPtr_ < st.buf.readEnd_ := by omega
    rw [hopen]
    exact sgetc_of_area harea hderef

/-- Behind the last character, a look shows the first one again. -/
theorem sgetc_misreads (hs : s ≠ []) (h : At s st.buf []) :
    Misreads (sgetc (stringBuf s)) st [] := by
  have hlen : s.length ≤ st.buf.readPtr_ := List.drop_eq_nil_iff.mp h.rest_eq.symm
  have hpos : 0 < s.length := List.length_pos_iff.mpr hs
  have hge : st.buf.readPtr_ ≥ st.buf.readEnd_ := by
    rcases h.window with ⟨h0, -⟩ | ⟨hend, -⟩ <;> omega
  obtain ⟨c, hc, hunder⟩ := underflow_eq h.pos hs
  intro a st' t heq
  rw [sgetc_of_underflow hge hunder hc] at heq
  obtain rfl : [Event.peek (some c)] = t := congrArg (fun p => p.2.2) (Option.some.inj heq)
  simp [follows]

def advanced (n : ℕ) (st : IStream StringBuf) : IStream StringBuf :=
  { st with buf := { st.buf with readPtr_ := st.buf.readPtr_ + n } }

theorem ahead_eq (h : At s st.buf (cs ++ rest)) :
    (stringBuf s).ahead st.buf cs.length = some cs := by
  refine StreamBuf.ahead_eq_some fun i hi => ?_
  have hget : (s.drop st.buf.readPtr_)[i]? = some cs[i] := by
    rw [← h.rest_eq, List.getElem?_append_left hi, List.getElem?_eq_getElem hi]
  rw [List.getElem?_drop] at hget
  obtain ⟨hlt, -⟩ := List.getElem?_eq_some_iff.mp hget
  change (s ++ [nul])[st.buf.readPtr_ + i]? = _
  rw [List.getElem?_append_left hlt, hget]

theorem gbump_reads (h : At s st.buf (cs ++ rest)) (hlen : cs.length < 2 ^ 31) :
    Reads (gbump (stringBuf s) cs.length) st (cs ++ rest) () (advanced cs.length st) rest :=
  reads_gbump (stringBuf s) (ahead_eq h) hlen rest

theorem gbump_misreads (h : At s st.buf (cs ++ rest)) (hlen : ¬cs.length < 2 ^ 31) :
    Misreads (gbump (stringBuf s) cs.length) st (cs ++ rest) := by
  have hint := (toInt_eq_iff cs.length).not.mpr hlen
  intro a st' t heq
  rw [gbump, ahead_eq h] at heq
  obtain rfl : [Event.take cs (toInt cs.length)] = t :=
    congrArg (fun p => p.2.2) (Option.some.inj heq)
  simp [follows, hint]

structure Open (s : List Char) (st : IStream StringBuf) (rest : List Char) : Prop where
  at_ : At s st.buf rest
  end_ : st.buf.readEnd_ = s.length

theorem At.open_ (h : At s st.buf rest) : Open s (Containers.opened s st) rest := ⟨h.opened, rfl⟩

theorem Open.opened_eq (h : Open s st rest) : opened s st = st := by
  rw [opened, ← h.end_]

theorem Open.advanced (h : Open s st (cs ++ rest)) : Open s (advanced cs.length st) rest := by
  have hrest := h.at_.rest_eq
  have hlen : cs.length + rest.length = s.length - st.buf.readPtr_ := by
    rw [← List.length_append, hrest, List.length_drop]
  refine ⟨⟨h.at_.pos, ?_, .inr ⟨h.end_, ?_⟩⟩, h.end_⟩
  · change rest = s.drop (st.buf.readPtr_ + cs.length)
    rw [← List.drop_drop, ← hrest, List.drop_left]
  · change st.buf.readPtr_ + cs.length ≤ s.length
    rcases h.at_.window with ⟨h0, -⟩ | ⟨-, hle⟩ <;> omega

theorem At.length_le (h : At s st.buf rest) : rest.length ≤ s.length := by
  rw [h.rest_eq, List.length_drop]
  exact Nat.sub_le _ _

theorem At.look (h : At s st.buf rest) (hne : rest ≠ []) :
    Reads (sgetc (stringBuf s)) st rest rest.head? (Containers.opened s st) rest := by
  obtain ⟨c, cs, rfl⟩ := List.exists_cons_of_ne_nil hne
  exact sgetc_reads h

theorem Open.look (h : Open s st rest) (hne : rest ≠ []) :
    Reads (sgetc (stringBuf s)) st rest rest.head? st rest := by
  have hlook := h.at_.look hne
  rwa [h.opened_eq] at hlook

theorem Open.bump (h : Open s st (c :: rest)) :
    Reads (gbump (stringBuf s) 1) st (c :: rest) () (Containers.advanced 1 st) rest ∧
      Open s (Containers.advanced 1 st) rest := by
  have hc : Open s st ([c] ++ rest) := h
  exact ⟨gbump_reads hc.at_ (by simp), hc.advanced⟩

end

/-! ## Loops -/

section
variable {s rest xs tl : List Char} {st : IStream StringBuf} {c : Char} {α : Type}
  {J : α → World Char → Prop} {p : Char → Bool} {act : α → Char → Reader StringBuf α} {a : α}

/-- The body of a loop changes the accumulator and the strings only, and keeps `J`. -/
def Acts (J : α → World Char → Prop) (act : α → Char → Reader StringBuf α) : Prop :=
  ∀ a c w, J a w → ∃ a' w', J a' w' ∧
    ∀ st, st.strings = w → act a c st = some (a', { st with strings := w' }, [])

theorem scan_reads (hact : Acts J act) (hp : ∀ x ∈ xs, p x) (hc : p c = false)
    (h : Open s st (xs ++ c :: tl)) (hJ : J a st.strings) :
    ∃ a' st', Open s st' (c :: tl) ∧ J a' st'.strings ∧ st'.failbit = st.failbit ∧
      ∀ fuel > xs.length, Reads (scanWhile (stringBuf s) p act fuel a (xs ++ c :: tl).head?) st
        (xs ++ c :: tl) (a', some c) st' (c :: tl) := by
  induction xs generalizing a st with
  | nil =>
    refine ⟨a, st, h, hJ, rfl, fun fuel hfuel => ?_⟩
    obtain ⟨fuel, rfl⟩ := Nat.exists_eq_add_one.mpr hfuel
    simp only [List.nil_append, List.head?_cons, scanWhile, hc]
    exact reads_pure _ _ _
  | cons x xs ih =>
    obtain ⟨a₁, w₁, hJ₁, hact₁⟩ := hact a x st.strings hJ
    have hx : p x = true := hp x List.mem_cons_self
    have h₁ : Open s { st with strings := w₁ } (x :: (xs ++ c :: tl)) := ⟨h.at_, h.end_⟩
    obtain ⟨hbump, h₂⟩ := h₁.bump
    obtain ⟨a', st', hopen, hJ', hfail, hreads⟩ :=
      ih (fun y hy => hp y (List.mem_cons_of_mem _ hy)) h₂ hJ₁
    refine ⟨a', st', hopen, hJ', hfail, fun fuel hfuel => ?_⟩
    obtain ⟨fuel, rfl⟩ := Nat.exists_eq_add_one.mpr (Nat.zero_lt_of_lt hfuel)
    rw [List.length_cons] at hfuel
    simp only [List.cons_append, List.head?_cons, scanWhile, hx, if_true]
    refine Reads.bind ⟨[], hact₁ st rfl, rfl⟩ (Reads.bind hbump (Reads.bind (h₂.look (by simp)) ?_))
    exact hreads fuel (by omega)

/-- Where every character left belongs to the loop, it looks behind the last one. -/
theorem scan_misreads (hact : Acts J act) (hp : ∀ x ∈ c :: xs, p x) (hs : s ≠ [])
    (h : Open s st (c :: xs)) (hJ : J a st.strings) (fuel : ℕ) :
    Misreads (scanWhile (stringBuf s) p act fuel a (some c)) st (c :: xs) := by
  induction fuel generalizing a c xs st with
  | zero =>
    intro _ _ _ heq
    cases heq
  | succ fuel ih =>
    obtain ⟨a₁, w₁, hJ₁, hact₁⟩ := hact a c st.strings hJ
    have hc : p c = true := hp c List.mem_cons_self
    have h₁ : Open s { st with strings := w₁ } (c :: xs) := ⟨h.at_, h.end_⟩
    obtain ⟨hbump, h₂⟩ := h₁.bump
    simp only [scanWhile, hc, if_true]
    refine Reads.bind_misreads ⟨[], hact₁ st rfl, rfl⟩ (Reads.bind_misreads hbump ?_)
    cases xs with
    | nil => exact (sgetc_misreads hs h₂.at_).bind _
    | cons y ys =>
      exact Reads.bind_misreads (h₂.look (by simp))
        (ih (fun x hx => hp x (List.mem_cons_of_mem _ hx)) h₂ hJ₁)

theorem dropWhile_split (p : Char → Bool) (rest : List Char) :
    rest.takeWhile p ++ rest.dropWhile p = rest := List.takeWhile_append_dropWhile

theorem loop_reads (hact : Acts J act) (h : Open s st rest) (hJ : J a st.strings)
    (hstop : rest.dropWhile p ≠ []) :
    ∃ a' o st', Open s st' (rest.dropWhile p) ∧ J a' st'.strings ∧ st'.failbit = st.failbit ∧
      ∀ fuel > s.length, Reads (scanWhile (stringBuf s) p act fuel a rest.head?) st rest (a', o) st'
        (rest.dropWhile p) := by
  obtain ⟨c, tl, htl⟩ := List.exists_cons_of_ne_nil hstop
  have hsplit := dropWhile_split p rest
  have hlen := h.at_.length_le
  have hxs : ∀ x ∈ rest.takeWhile p, p x := fun x hx => List.mem_takeWhile_imp hx
  have hc : p c = false := by
    have hhead := List.head?_dropWhile_not p rest
    rw [htl] at hhead
    simpa using hhead
  rw [htl] at hsplit
  have hopen : Open s st (rest.takeWhile p ++ c :: tl) := by rwa [hsplit]
  obtain ⟨a', st', h', hJ', hfail, hreads⟩ := scan_reads hact hxs hc hopen hJ
  rw [hsplit] at hreads
  rw [htl]
  refine ⟨a', some c, st', h', hJ', hfail, fun fuel hfuel => hreads fuel ?_⟩
  have hle := congrArg List.length hsplit
  rw [List.length_append] at hle
  omega

theorem loop_misreads (hact : Acts J act) (hs : s ≠ []) (h : Open s st rest)
    (hJ : J a st.strings) (hne : rest ≠ []) (hstop : rest.dropWhile p = []) (fuel : ℕ) :
    Misreads (scanWhile (stringBuf s) p act fuel a rest.head?) st rest := by
  obtain ⟨c, xs, rfl⟩ := List.exists_cons_of_ne_nil hne
  exact scan_misreads hact (List.dropWhile_eq_nil_iff.mp hstop) hs h hJ fuel

theorem lookLoop_reads (hact : Acts J act) (h : At s st.buf rest) (hJ : J a st.strings)
    (hstop : rest.dropWhile p ≠ []) :
    ∃ a' o st', Open s st' (rest.dropWhile p) ∧ J a' st'.strings ∧ st'.failbit = st.failbit ∧
      ∀ fuel > s.length, Reads (sgetc (stringBuf s) >>= scanWhile (stringBuf s) p act fuel a)
        st rest (a', o) st' (rest.dropWhile p) := by
  have hne : rest ≠ [] := by
    rintro rfl
    exact hstop rfl
  obtain ⟨a', o, st', h', hJ', hfail, hreads⟩ := loop_reads (a := a) hact h.open_ hJ hstop
  exact ⟨a', o, st', h', hJ', hfail, fun fuel hfuel => (h.look hne).bind (hreads fuel hfuel)⟩

theorem lookLoop_misreads (hact : Acts J act) (hs : s ≠ []) (h : At s st.buf rest)
    (hJ : J a st.strings) (hstop : rest.dropWhile p = []) (fuel : ℕ) :
    Misreads (sgetc (stringBuf s) >>= scanWhile (stringBuf s) p act fuel a) st rest := by
  by_cases hne : rest = []
  · subst hne
    exact (sgetc_misreads hs h).bind _
  · exact Reads.bind_misreads (h.look hne) (loop_misreads hact hs h.open_ hJ hne hstop fuel)

theorem skipWs_reads (h : At s st.buf rest) (hstop : rest.dropWhile isspace ≠ []) :
    ∃ st', Open s st' (rest.dropWhile isspace) ∧ st'.strings = st.strings ∧
      st'.failbit = st.failbit ∧ ∀ fuel > s.length,
        Reads (skipWs (stringBuf s) fuel) st rest () st' (rest.dropWhile isspace) := by
  have hact : Acts (fun (_ : Unit) w => w = st.strings) fun _ _ => (pure () : Reader _ _) :=
    fun _ _ w hw => ⟨(), w, hw, fun st' hst' => by subst hst'; rfl⟩
  obtain ⟨_, o, st', h', hJ', hfail, hreads⟩ := lookLoop_reads (a := ()) hact h rfl hstop
  exact ⟨st', h', hJ', hfail, fun fuel hfuel => (hreads fuel hfuel).bind (reads_pure _ _ _)⟩

theorem skipWs_misreads (hs : s ≠ []) (h : At s st.buf rest)
    (hstop : rest.dropWhile isspace = []) (fuel : ℕ) :
    Misreads (skipWs (stringBuf s) fuel) st rest := by
  have hact : Acts (fun (_ : Unit) w => w = st.strings) fun _ _ => (pure () : Reader _ _) :=
    fun _ _ w hw => ⟨(), w, hw, fun st' hst' => by subst hst'; rfl⟩
  exact (lookLoop_misreads hact hs h rfl hstop fuel).bind _

end

/-! ## The strings that are read into -/

section
variable {w : World Char} {v : ℕ}

def Sane (w : World Char) : Prop := ∃ ds, Inv charType w ds

/-- The string has no elements, or characters before the last one. -/
def Started (v : ℕ) (w : World Char) : Prop :=
  ∃ ds, Inv charType w ds ∧ (ds v = [] ∨ 2 ≤ (ds v).length)

theorem Started.sane (h : Started v w) : Sane w := by
  obtain ⟨ds, hinv, -⟩ := h
  exact ⟨ds, hinv⟩

theorem Sane.clear (h : Sane w) (v : ℕ) :
    ∃ w', String.clear w v = some w' ∧ ∃ ds, Inv charType w' ds ∧ ds v = [] := by
  obtain ⟨ds, hinv⟩ := h
  obtain ⟨w', hw', hinv'⟩ := hinv.clear v
  exact ⟨w', hw', _, hinv', Function.update_self _ _ _⟩

/-- `push_back` never leaves the string without elements or with one alone. -/
theorem Started.pushBack (h : Started v w) (c : Char) :
    ∃ w', String.pushBack w v c = some w' ∧ ∃ ds, Inv charType w' ds ∧ 2 ≤ (ds v).length := by
  obtain ⟨ds, hinv, hlen⟩ := h
  have hsize := hinv.size_eq v
  have hstr := strSize_eq hinv v
  rcases hlen with hnil | hlen
  · obtain ⟨w', hw', hinv'⟩ := pushBack_leads hinv (by rw [hstr, hnil]; rfl) c
    refine ⟨w', hw', _, hinv', ?_⟩
    rw [Function.update_self, List.length_append, List.length_append]
    simp
  · obtain ⟨w', hw', hinv'⟩ := hinv.insert (Nat.sub_le (ds v).length 1) c
    refine ⟨w', ?_, _, hinv', ?_⟩
    · rw [String.pushBack, if_neg (by omega), String.insertAtEnd, String.endPos,
        if_neg (by omega), hsize]
      exact hw'
    · rw [Function.update_self]
      simp only [List.length_append, List.length_take, List.length_drop, List.length_singleton]
      omega

theorem appendRange_sane {ds : Lists Char} (hinv : Inv charType w ds) (hlen : 0 < (ds v).length)
    (cs : List Char) : ∃ w', String.appendRange w v (.elsewhere cs) = some w' ∧ Sane w' := by
  have hsize := hinv.size_eq v
  rw [String.appendRange, String.insertRange]
  by_cases hcs : cs.length = 0
  · exact ⟨w, by rw [if_pos hcs], ds, hinv⟩
  · obtain ⟨w', hw', hinv'⟩ := hinv.insertRange (Nat.sub_le (ds v).length 1) cs
    refine ⟨w', ?_, _, hinv'⟩
    rw [if_neg hcs, String.endPos, if_neg (by omega), hsize]
    exact hw'

end

/-! ## The calls -/

section
variable {s rest : List Char} {st : IStream StringBuf}

theorem reads_finish (o : Option Char) (read : Bool) (st : IStream StringBuf) (rest : List Char) :
    Reads (finish o read) st rest ()
      { st with eofbit := st.eofbit || o.isNone, failbit := st.failbit || !read } rest :=
  ⟨[], rfl, rfl⟩

theorem reads_stream (st : IStream StringBuf) (rest : List Char) :
    Reads Reader.stream st rest st st rest := ⟨[], rfl, rfl⟩

/-- The call is served with enough fuel, whatever the fuel is. -/
def Served {α : Type} (s : List Char) (m : ℕ → Reader StringBuf α) (st : IStream StringBuf)
    (rest : List Char) : Prop :=
  ∃ a st' rest', At s st'.buf rest' ∧ Sane st'.strings ∧
    ∀ fuel > s.length, Reads (m fuel) st rest a st' rest'

theorem Served.map {α β : Type} {m : ℕ → Reader StringBuf α} (h : Served s m st rest) (f : α → β) :
    Served s (fun fuel => m fuel >>= fun a => pure (f a)) st rest := by
  obtain ⟨a, st', rest', hat, hsane, hreads⟩ := h
  exact ⟨f a, st', rest', hat, hsane, fun fuel hfuel =>
    (hreads fuel hfuel).bind (reads_pure _ _ _)⟩

theorem sgetc_served (h : At s st.buf rest) (hw : Sane st.strings) (hne : rest ≠ []) :
    Served s (fun _ => sgetc (stringBuf s)) st rest :=
  ⟨_, _, _, h.opened, hw, fun _ _ => h.look hne⟩

theorem sbumpc_reads {c : Char} (h : At s st.buf (c :: rest)) :
    ∃ st', Reads (sbumpc (stringBuf s)) st (c :: rest) (some c) st' rest ∧ Open s st' rest ∧
      st'.strings = st.strings ∧ st'.failbit = st.failbit := by
  obtain ⟨hbump, hopen⟩ := h.open_.bump
  refine ⟨_, ?_, hopen, rfl, rfl⟩
  exact Reads.bind (sgetc_reads h) (Reads.bind hbump (reads_pure _ _ _))

theorem sbumpc_misreads (hs : s ≠ []) (h : At s st.buf []) :
    Misreads (sbumpc (stringBuf s)) st [] := (sgetc_misreads hs h).bind _

theorem acts_addDigit : Acts (fun (_ : BitVec 32 × Bool) w => Sane w) addDigit :=
  fun _ _ w hw => ⟨_, w, hw, fun st' hst' => by subst hst'; rfl⟩

theorem served_unless {α : Type} {m : ℕ → Reader StringBuf α} {a : α} (h : At s st.buf rest)
    (hw : Sane st.strings) (hm : st.failbit = false → Served s m st rest) :
    Served s (fun fuel => do
      if (← Reader.stream).failbit then return a
      m fuel) st rest := by
  cases hfail : st.failbit with
  | true =>
    refine ⟨a, st, rest, h, hw, fun fuel _ => (reads_stream st rest).bind ?_⟩
    simp only [hfail, if_true]
    exact reads_pure _ _ _
  | false =>
    obtain ⟨b, st', rest', hat, hsane, hreads⟩ := hm hfail
    refine ⟨b, st', rest', hat, hsane, fun fuel hfuel => (reads_stream st rest).bind ?_⟩
    simp only [hfail]
    exact hreads fuel hfuel

theorem misreads_unless {α : Type} {m : Reader StringBuf α} {a : α} (hfail : st.failbit = false)
    (hm : Misreads m st rest) :
    Misreads (do
      if (← Reader.stream).failbit then return a
      m) st rest := by
  refine Reads.bind_misreads (reads_stream st rest) ?_
  simp only [hfail]
  exact hm

theorem uint_served (h : At s st.buf rest) (hw : Sane st.strings)
    (henough : st.failbit ∨ (rest.dropWhile isspace).dropWhile isdigit ≠ []) :
    Served s (extractUint (stringBuf s)) st rest := by
  refine served_unless h hw fun hfail => ?_
  have hstop := henough.resolve_left (by simp [hfail])
  have hne : rest.dropWhile isspace ≠ [] := by
    intro hnil
    rw [hnil] at hstop
    exact hstop rfl
  obtain ⟨st₁, h₁, hw₁, -, hskip⟩ := skipWs_reads h hne
  obtain ⟨⟨v, digits⟩, o, st₂, h₂, hJ₂, -, hloop⟩ :=
    lookLoop_reads (a := (0, false)) acts_addDigit h₁.at_ (hw₁ ▸ hw) hstop
  refine ⟨some v, { st₂ with eofbit := st₂.eofbit || o.isNone, failbit := st₂.failbit || !digits },
    _, h₂.at_, hJ₂, fun fuel hfuel => ?_⟩
  exact (hskip fuel hfuel).bind ((hloop fuel hfuel).bind
    ((reads_finish o digits st₂ _).bind (reads_pure _ _ _)))

theorem uint_misreads {fuel : ℕ} (hs : s ≠ []) (h : At s st.buf rest) (hw : Sane st.strings)
    (hfail : st.failbit = false) (hstop : (rest.dropWhile isspace).dropWhile isdigit = [])
    (hfuel : fuel > s.length) : Misreads (extractUint (stringBuf s) fuel) st rest := by
  refine misreads_unless hfail ?_
  by_cases hne : rest.dropWhile isspace = []
  · exact (skipWs_misreads hs h hne fuel).bind _
  · obtain ⟨st₁, h₁, hw₁, -, hskip⟩ := skipWs_reads h hne
    refine (hskip fuel hfuel).bind_misreads (Misreads.bind ?_ _)
    exact lookLoop_misreads acts_addDigit hs h₁.at_ (hw₁ ▸ hw) hstop fuel

theorem acts_pushBack (v : ℕ) : Acts (fun (_ : Bool) w => Started v w) fun _ c => do
    Reader.onStrings fun w => String.pushBack w v c
    return true := by
  intro _ c w hJ
  obtain ⟨w', hw', ds, hinv, hlen⟩ := hJ.pushBack c
  refine ⟨true, w', ⟨ds, hinv, .inr hlen⟩, fun st' hst' => ?_⟩
  subst hst'
  change ((String.pushBack st'.strings v c).map _).bind _ = _
  rw [hw']
  rfl

theorem reads_clear (v : ℕ) (hw : Sane st.strings) (rest : List Char) :
    ∃ w', Reads (Reader.onStrings fun w => String.clear w v) st rest () { st with strings := w' }
      rest ∧ ∃ ds, Inv charType w' ds ∧ ds v = [] := by
  obtain ⟨w', hw', hds⟩ := hw.clear v
  refine ⟨w', ⟨[], ?_, rfl⟩, hds⟩
  simp only [Reader.onStrings, hw', Option.map_some]

theorem word_served (v : ℕ) (h : At s st.buf rest) (hw : Sane st.strings)
    (henough : st.failbit ∨ (rest.dropWhile isspace).dropWhile (fun c => !isspace c) ≠ []) :
    Served s (extractString (stringBuf s) v) st rest := by
  refine served_unless h hw fun hfail => ?_
  have hstop := henough.resolve_left (by simp [hfail])
  have hne : rest.dropWhile isspace ≠ [] := by
    intro hnil
    rw [hnil] at hstop
    exact hstop rfl
  obtain ⟨st₁, h₁, hw₁, -, hskip⟩ := skipWs_reads h hne
  obtain ⟨w₂, hclear, ds, hinv, hnil⟩ := reads_clear v (hw₁ ▸ hw : Sane st₁.strings)
    (rest.dropWhile isspace)
  have h₂ : At s { st₁ with strings := w₂ }.buf (rest.dropWhile isspace) := h₁.at_
  obtain ⟨read, o, st₃, h₃, hJ₃, -, hloop⟩ :=
    lookLoop_reads (a := false) (acts_pushBack v) h₂ ⟨ds, hinv, .inl hnil⟩ hstop
  refine ⟨(), { st₃ with eofbit := st₃.eofbit || o.isNone, failbit := st₃.failbit || !read },
    _, h₃.at_, hJ₃.sane, fun fuel hfuel => ?_⟩
  exact (hskip fuel hfuel).bind (hclear.bind ((hloop fuel hfuel).bind (reads_finish o read st₃ _)))

theorem word_misreads {fuel : ℕ} (v : ℕ) (hs : s ≠ []) (h : At s st.buf rest)
    (hw : Sane st.strings) (hfail : st.failbit = false)
    (hstop : (rest.dropWhile isspace).dropWhile (fun c => !isspace c) = [])
    (hfuel : fuel > s.length) : Misreads (extractString (stringBuf s) v fuel) st rest := by
  refine misreads_unless hfail ?_
  by_cases hne : rest.dropWhile isspace = []
  · exact (skipWs_misreads hs h hne fuel).bind _
  · obtain ⟨st₁, h₁, hw₁, -, hskip⟩ := skipWs_reads h hne
    obtain ⟨w₂, hclear, ds, hinv, hnil⟩ := reads_clear v (hw₁ ▸ hw : Sane st₁.strings)
      (rest.dropWhile isspace)
    have h₂ : At s { st₁ with strings := w₂ }.buf (rest.dropWhile isspace) := h₁.at_
    refine (hskip fuel hfuel).bind_misreads (hclear.bind_misreads (Misreads.bind ?_ _))
    exact lookLoop_misreads (acts_pushBack v) hs h₂ ⟨ds, hinv, .inl hnil⟩ hstop fuel

theorem afterSign_cons (c : Char) (cs : List Char) :
    afterSign (c :: cs) = if c = '-' ∨ c = '+' then cs else c :: cs := rfl

theorem readSign_reads (h : Open s st rest) (hne : afterSign rest ≠ []) :
    ∃ sign st', Open s st' (afterSign rest) ∧ st'.strings = st.strings ∧
      Reads (readSign (stringBuf s) rest.head?) st rest (sign, (afterSign rest).head?) st'
        (afterSign rest) := by
  obtain ⟨c, cs, rfl⟩ : ∃ c cs, rest = c :: cs := by
    cases rest with
    | nil => exact absurd rfl hne
    | cons c cs => exact ⟨c, cs, rfl⟩
  rw [afterSign_cons] at hne ⊢
  unfold readSign
  by_cases hminus : c = '-'
  · rw [if_pos (.inl hminus)] at hne ⊢
    obtain ⟨hbump, hopen⟩ := h.bump
    rw [if_pos (by simp [hminus])]
    exact ⟨-1, _, hopen, rfl, hbump.bind ((hopen.look hne).bind (reads_pure _ _ _))⟩
  · by_cases hplus : c = '+'
    · rw [if_pos (.inr hplus)] at hne ⊢
      obtain ⟨hbump, hopen⟩ := h.bump
      rw [if_neg (by simpa using hminus), if_pos (by simp [hplus])]
      exact ⟨1, _, hopen, rfl, hbump.bind ((hopen.look hne).bind (reads_pure _ _ _))⟩
    · rw [if_neg (by simp [hminus, hplus]), if_neg (by simpa using hminus),
        if_neg (by simpa using hplus)]
      exact ⟨1, st, h, rfl, reads_pure _ _ _⟩

theorem readSign_misreads (hs : s ≠ []) (h : Open s st rest) (hne : rest ≠ [])
    (hnil : afterSign rest = []) :
    Misreads (readSign (stringBuf s) rest.head?) st rest := by
  obtain ⟨c, cs, rfl⟩ := List.exists_cons_of_ne_nil hne
  rw [afterSign_cons] at hnil
  split at hnil
  · rename_i hsign
    subst hnil
    obtain ⟨hbump, hopen⟩ := h.bump
    have hlook := sgetc_misreads hs hopen.at_
    unfold readSign
    rcases hsign with rfl | rfl
    · exact hbump.bind_misreads (hlook.bind _)
    · exact hbump.bind_misreads (hlook.bind _)
  · cases hnil

theorem int_served (h : At s st.buf rest) (hw : Sane st.strings)
    (henough : st.failbit ∨ (afterSign (rest.dropWhile isspace)).dropWhile isdigit ≠ []) :
    Served s (extractInt (stringBuf s)) st rest := by
  refine served_unless h hw fun hfail => ?_
  have hstop := henough.resolve_left (by simp [hfail])
  have hsign : afterSign (rest.dropWhile isspace) ≠ [] := by
    intro hnil
    rw [hnil] at hstop
    exact hstop rfl
  have hne : rest.dropWhile isspace ≠ [] := by
    intro hnil
    rw [hnil] at hsign
    exact hsign rfl
  obtain ⟨st₁, h₁, hw₁, -, hskip⟩ := skipWs_reads h hne
  obtain ⟨sign, st₂, h₂, hw₂, hreadSign⟩ := readSign_reads h₁ hsign
  have hsane : Sane st₂.strings := by rwa [hw₂, hw₁]
  obtain ⟨⟨v, digits⟩, o, st₃, h₃, hJ₃, -, hloop⟩ :=
    loop_reads (a := (0, false)) acts_addDigit h₂ hsane hstop
  refine ⟨some (v * sign),
    { st₃ with eofbit := st₃.eofbit || o.isNone, failbit := st₃.failbit || !digits },
    _, h₃.at_, hJ₃, fun fuel hfuel => ?_⟩
  exact (hskip fuel hfuel).bind ((h₁.look hne).bind (hreadSign.bind ((hloop fuel hfuel).bind
    ((reads_finish o digits st₃ _).bind (reads_pure _ _ _)))))

theorem int_misreads {fuel : ℕ} (hs : s ≠ []) (h : At s st.buf rest) (hw : Sane st.strings)
    (hfail : st.failbit = false)
    (hstop : (afterSign (rest.dropWhile isspace)).dropWhile isdigit = [])
    (hfuel : fuel > s.length) : Misreads (extractInt (stringBuf s) fuel) st rest := by
  refine misreads_unless hfail ?_
  by_cases hne : rest.dropWhile isspace = []
  · exact (skipWs_misreads hs h hne fuel).bind _
  · obtain ⟨st₁, h₁, hw₁, -, hskip⟩ := skipWs_reads h hne
    refine (hskip fuel hfuel).bind_misreads ((h₁.look hne).bind_misreads ?_)
    by_cases hsign : afterSign (rest.dropWhile isspace) = []
    · exact (readSign_misreads hs h₁ hne hsign).bind _
    · obtain ⟨sign, st₂, h₂, hw₂, hreadSign⟩ := readSign_reads h₁ hsign
      have hsane : Sane st₂.strings := by rwa [hw₂, hw₁]
      exact hreadSign.bind_misreads
        ((loop_misreads acts_addDigit hs h₂ hsane hsign hstop fuel).bind _)

/-! ## Lines -/

theorem Open.window (h : Open s st rest) :
    Reads (Containers.window (stringBuf s)) st rest rest st rest := by
  have hlen : st.buf.readEnd_ - st.buf.readPtr_ = rest.length := by
    rw [h.end_, h.at_.rest_eq, List.length_drop]
  have hahead : (stringBuf s).ahead st.buf rest.length = some rest :=
    ahead_eq (by rw [List.append_nil]; exact h.at_)
  refine ⟨[], ?_, rfl⟩
  change ((stringBuf s).ahead st.buf (st.buf.readEnd_ - st.buf.readPtr_)).map _ = _
  rw [hlen, hahead]
  rfl

theorem Open.not_empty (h : Open s st rest) (hne : rest ≠ []) :
    ¬(stringBuf s).gptr st.buf = (stringBuf s).egptr st.buf := by
  change ¬st.buf.readPtr_ = st.buf.readEnd_
  intro heq
  rw [h.at_.rest_eq, heq, h.end_, List.drop_length] at hne
  exact hne rfl

theorem reads_onStrings {f : World Char → Option (World Char)} {w' : World Char}
    (hw : f st.strings = some w') (rest : List Char) :
    Reads (Reader.onStrings f) st rest () { st with strings := w' } rest :=
  ⟨[], by simp only [Reader.onStrings, hw, Option.map_some], rfl⟩

theorem misreads_onStrings {β : Type} {f : World Char → Option (World Char)}
    {g : Unit → Reader StringBuf β}
    (hg : ∀ w', f st.strings = some w' → Misreads (g ()) { st with strings := w' } rest) :
    Misreads (Reader.onStrings f >>= g) st rest := by
  cases hw : f st.strings with
  | none =>
    intro b st' t heq
    obtain ⟨r, hr, -⟩ := Option.bind_eq_some_iff.mp heq
    rw [Reader.onStrings, hw] at hr
    cases hr
  | some w' => exact (reads_onStrings hw rest).bind_misreads (hg w' hw)

theorem lt_length_of_idxOf? {delim : Char} {n : ℕ} (h : rest.idxOf? delim = some n) :
    n < rest.length := by
  obtain ⟨hlt, -⟩ := List.findIdx?_eq_some_iff_getElem.mp h
  exact hlt

/-- The part of the window before the delimiter is appended to the line. -/
theorem getlineLoop_reads {v n : ℕ} {delim : Char} {w' : World Char} (h : Open s st rest)
    (hn : rest.idxOf? delim = some n) (hint : n + 1 < 2 ^ 31)
    (happend : String.appendRange st.strings v (.elsewhere (rest.take n)) = some w')
    (hw' : Sane w') :
    ∃ st' rest', At s st'.buf rest' ∧ Sane st'.strings ∧ ∀ fuel,
      Reads (getlineLoop (stringBuf s) v delim (fuel + 1)) st rest true st' rest' := by
  have hlt := lt_length_of_idxOf? hn
  have hne : rest ≠ [] := List.ne_nil_of_length_pos (by omega)
  have htake : (rest.take (n + 1)).length = n + 1 := List.length_take_of_le (by omega)
  have hopen : Open s { st with strings := w' } (rest.take (n + 1) ++ rest.drop (n + 1)) := by
    rw [List.take_append_drop]
    exact ⟨h.at_, h.end_⟩
  have hbump := gbump_reads hopen.at_ (by omega)
  have hafter := hopen.advanced
  rw [List.take_append_drop, htake] at hbump
  rw [htake] at hafter
  refine ⟨_, _, hafter.at_, hw', fun fuel => (reads_stream st rest).bind ?_⟩
  rw [if_neg (h.not_empty hne)]
  refine h.window.bind ?_
  simp only [hn]
  exact (reads_onStrings happend rest).bind (hbump.bind (reads_pure _ _ _))

/-- With nothing left, the loop looks behind the last character. -/
theorem getlineLoop_end (hs : s ≠ []) (v : ℕ) (delim : Char) (h : Open s st []) (fuel : ℕ) :
    Misreads (getlineLoop (stringBuf s) v delim fuel) st [] := by
  cases fuel with
  | zero =>
    intro _ _ _ heq
    cases heq
  | succ fuel =>
    have hlen : s.length ≤ st.buf.readPtr_ := List.drop_eq_nil_iff.mp h.at_.rest_eq.symm
    have hempty : (stringBuf s).gptr st.buf = (stringBuf s).egptr st.buf := by
      change st.buf.readPtr_ = st.buf.readEnd_
      have hend := h.end_
      have hpos := List.length_pos_iff.mpr hs
      rcases h.at_.window with ⟨h0, -⟩ | ⟨-, hle⟩ <;> omega
    refine (reads_stream st []).bind_misreads ?_
    rw [if_pos hempty]
    exact (sbumpc_misreads hs h.at_).bind _

/-- An unfinished line of a window, or one too long for an `int`. -/
theorem getlineLoop_misreads {v : ℕ} {delim : Char} (hs : s ≠ []) (h : Open s st rest)
    (hbad : ¬∃ n ∈ rest.idxOf? delim, n + 1 < 2 ^ 31) (fuel : ℕ) :
    Misreads (getlineLoop (stringBuf s) v delim fuel) st rest := by
  by_cases hne : rest = []
  · subst hne
    exact getlineLoop_end hs v delim h fuel
  cases fuel with
  | zero =>
    intro _ _ _ heq
    cases heq
  | succ fuel =>
    refine (reads_stream st rest).bind_misreads ?_
    rw [if_neg (h.not_empty hne)]
    refine h.window.bind_misreads ?_
    cases hidx : rest.idxOf? delim with
    | some n =>
      have hlt := lt_length_of_idxOf? hidx
      have htake : (rest.take (n + 1)).length = n + 1 := List.length_take_of_le (by omega)
      have hlong : ¬(rest.take (n + 1)).length < 2 ^ 31 := by
        rw [htake]
        exact fun hint => hbad ⟨n, hidx, hint⟩
      refine misreads_onStrings fun w' _ => Misreads.bind ?_ _
      have hat : At s { st with strings := w' }.buf (rest.take (n + 1) ++ rest.drop (n + 1)) := by
        rw [List.take_append_drop]
        exact h.at_
      have hbump := gbump_misreads hat hlong
      rwa [htake, List.take_append_drop] at hbump
    | none =>
      refine misreads_onStrings fun w' _ => ?_
      have hopen : Open s { st with strings := w' } (rest ++ []) := by
        rw [List.append_nil]
        exact ⟨h.at_, h.end_⟩
      by_cases hint : rest.length < 2 ^ 31
      · have hbump := gbump_reads hopen.at_ hint
        rw [List.append_nil] at hbump
        exact hbump.bind_misreads (getlineLoop_end hs v delim hopen.advanced fuel)
      · have hbump := gbump_misreads hopen.at_ hint
        rw [List.append_nil] at hbump
        exact hbump.bind _

theorem At.first (h : At s st.buf rest) (hs : s ≠ []) (hfirst : st.buf.readEnd_ = 0) :
    (stringBuf s).gptr st.buf = (stringBuf s).egptr st.buf ∧ rest = s := by
  have hpos := List.length_pos_iff.mpr hs
  obtain ⟨hptr, -⟩ := h.window.resolve_right fun hopen => by omega
  refine ⟨?_, ?_⟩
  · change st.buf.readPtr_ = st.buf.readEnd_
    omega
  · rw [h.rest_eq, hptr, List.drop_zero]

theorem first_reads {v : ℕ} {c : Char} {ds : Lists Char} (h : At s st.buf (c :: rest))
    (hinv : Inv charType st.strings ds) (hnil : ds v = []) :
    ∃ st' w' ds', Reads (sbumpc (stringBuf s)) st (c :: rest) (some c) st' rest ∧
      Reads (Reader.onStrings fun w => String.pushBack w v c) st' rest () { st' with strings := w' }
        rest ∧
      Open s { st' with strings := w' } rest ∧ Inv charType w' ds' ∧ 2 ≤ (ds' v).length := by
  obtain ⟨st', hreads, hopen, hstrings, -⟩ := sbumpc_reads h
  have hstarted : Started v st'.strings := ⟨ds, by rwa [hstrings], .inl hnil⟩
  obtain ⟨w', hw', ds', hinv', hlen⟩ := hstarted.pushBack c
  exact ⟨st', w', ds', hreads, reads_onStrings hw' rest, ⟨hopen.at_, hopen.end_⟩, hinv', hlen⟩

theorem line_served (v : ℕ) (delim : Char) (hs : s ≠ []) (h : At s st.buf rest) (hw : Sane st.strings)
    (henough : st.failbit ∨ LineEnough st.buf.readEnd_ delim rest) :
    Served s (getline (stringBuf s) v delim) st rest := by
  refine served_unless h hw fun hfail => ?_
  have hline := henough.resolve_left (by simp [hfail])
  obtain ⟨w₁, hclear, ds, hinv, hnil⟩ := reads_clear v hw rest
  have h₁ : At s { st with strings := w₁ }.buf rest := h
  by_cases hfirst : st.buf.readEnd_ = 0
  · obtain ⟨hempty, hrest⟩ := h₁.first hs hfirst
    obtain ⟨c, cs, rfl⟩ := List.exists_cons_of_ne_nil (hrest ▸ hs)
    simp only [LineEnough, hfirst, if_true] at hline
    obtain ⟨st₂, w₂, ds₂, hbumpc, hpush, hopen, hinv₂, hlen₂⟩ := first_reads h₁ hinv hnil
    cases hc : sameInt c delim with
    | true =>
      obtain ⟨st₃, hread, hopen₃, hstrings, -⟩ := sbumpc_reads h₁
      refine ⟨true, st₃, cs, hopen₃.at_, ⟨ds, by rwa [hstrings]⟩, fun fuel hfuel => ?_⟩
      obtain ⟨fuel, rfl⟩ := Nat.exists_eq_add_one.mpr (Nat.zero_lt_of_lt hfuel)
      refine hclear.bind ((reads_stream _ _).bind ?_)
      rw [if_pos hempty]
      refine hread.bind ?_
      simp only [hc, if_true]
      exact reads_pure _ _ _
    | false =>
      obtain ⟨n, hn, hint⟩ := hline.resolve_left (by simp [hc])
      obtain ⟨w₃, happend, hsane₃⟩ := appendRange_sane hinv₂ (by omega : 0 < (ds₂ v).length)
        (cs.take n)
      obtain ⟨st', rest', hat, hsane, hreads⟩ := getlineLoop_reads hopen hn hint happend hsane₃
      refine ⟨true, st', rest', hat, hsane, fun fuel hfuel => ?_⟩
      have hpos := List.length_pos_iff.mpr hs
      obtain ⟨fuel, rfl⟩ : ∃ k, fuel = k + 1 + 1 := ⟨fuel - 2, by omega⟩
      refine hclear.bind ((reads_stream _ _).bind ?_)
      rw [if_pos hempty]
      refine hbumpc.bind ?_
      simp only [hc]
      exact hpush.bind (hreads fuel)
  · have hopen : Open s { st with strings := w₁ } rest :=
      ⟨h, (h.window.resolve_left fun h0 => hfirst h0.2).1⟩
    have hidx : rest.idxOf? delim = some 0 := by
      cases rest with
      | nil => exact hline.elim
      | cons c cs =>
        obtain rfl : c = delim := by simpa only [LineEnough, if_neg hfirst] using hline
        simp [List.idxOf?_cons]
    obtain ⟨st', rest', hat, hsane, hreads⟩ := getlineLoop_reads (v := v) hopen hidx
      (by omega) rfl ⟨ds, hinv⟩
    refine ⟨true, st', rest', hat, hsane, fun fuel hfuel => ?_⟩
    obtain ⟨fuel, rfl⟩ := Nat.exists_eq_add_one.mpr (Nat.zero_lt_of_lt hfuel)
    exact hclear.bind (hreads fuel)

theorem line_misreads {v fuel : ℕ} {delim : Char} (hs : s ≠ []) (h : At s st.buf rest)
    (hw : Sane st.strings) (hfail : st.failbit = false)
    (hline : ¬LineEnough st.buf.readEnd_ delim rest) :
    Misreads (getline (stringBuf s) v delim fuel) st rest := by
  refine misreads_unless hfail ?_
  obtain ⟨w₁, hclear, ds, hinv, hnil⟩ := reads_clear v hw rest
  have h₁ : At s { st with strings := w₁ }.buf rest := h
  refine hclear.bind_misreads ?_
  by_cases hfirst : st.buf.readEnd_ = 0
  · obtain ⟨hempty, hrest⟩ := h₁.first hs hfirst
    obtain ⟨c, cs, rfl⟩ := List.exists_cons_of_ne_nil (hrest ▸ hs)
    simp only [LineEnough, hfirst, if_true, not_or, Bool.not_eq_true] at hline
    obtain ⟨st₂, w₂, ds₂, hbumpc, hpush, hopen, -, -⟩ := first_reads h₁ hinv hnil
    cases fuel with
    | zero =>
      intro _ _ _ heq
      cases heq
    | succ fuel =>
      refine (reads_stream _ _).bind_misreads ?_
      rw [if_pos hempty]
      refine hbumpc.bind_misreads ?_
      simp only [hline.1]
      exact hpush.bind_misreads (getlineLoop_misreads hs hopen hline.2 fuel)
  · have hopen : Open s { st with strings := w₁ } rest :=
      ⟨h, (h.window.resolve_left fun h0 => hfirst h0.2).1⟩
    -- the line has no elements, so nothing can be appended to it
    have hnone : ∀ cs : List Char, cs.length ≠ 0 →
        String.appendRange w₁ v (.elsewhere cs) = none := fun cs hcs =>
      insertRange_none hcs (by rw [hinv.size_eq, hnil, List.length_nil])
    cases rest with
    | nil => exact getlineLoop_end hs v delim hopen fuel
    | cons c cs =>
      have hc : c ≠ delim := by simpa only [LineEnough, if_neg hfirst] using hline
      cases fuel with
      | zero =>
        intro _ _ _ heq
        cases heq
      | succ fuel =>
        refine (reads_stream _ _).bind_misreads ?_
        rw [if_neg (hopen.not_empty (List.cons_ne_nil _ _))]
        refine hopen.window.bind_misreads ?_
        cases hidx : (c :: cs).idxOf? delim with
        | none =>
          refine misreads_onStrings fun w' hw' => ?_
          rw [hnone _ (by simp)] at hw'
          cases hw'
        | some n =>
          have hlt := lt_length_of_idxOf? hidx
          have hn : n ≠ 0 := by
            rintro rfl
            simp [List.idxOf?_cons, hc] at hidx
          refine misreads_onStrings fun w' hw' => ?_
          rw [hnone _ (by rw [List.length_take]; omega)] at hw'
          cases hw'

theorem call_served {call : StreamCall} (hs : s ≠ []) (h : At s st.buf rest) (hw : Sane st.strings)
    (henough : Enough s st call) : Served s (call.run (stringBuf s)) st rest := by
  have hrest : unread s st = rest := h.rest_eq.symm
  cases call with
  | sgetc => exact (sgetc_served h hw (hrest ▸ henough)).map _
  | sbumpc =>
    obtain ⟨c, cs, rfl⟩ := List.exists_cons_of_ne_nil (hrest ▸ henough : rest ≠ [])
    obtain ⟨st', hreads, hopen, hstrings, -⟩ := sbumpc_reads h
    exact Served.map (m := fun _ => sbumpc (stringBuf s))
      ⟨some c, st', cs, hopen.at_, by rwa [hstrings], fun _ _ => hreads⟩ _
  | int =>
    simp only [Enough, hrest] at henough
    exact (int_served h hw henough).map _
  | uint =>
    simp only [Enough, hrest] at henough
    exact (uint_served h hw henough).map _
  | word v =>
    simp only [Enough, hrest] at henough
    exact (word_served v h hw henough).map fun _ => StreamAnswer.none
  | line v delim =>
    simp only [Enough, hrest] at henough
    exact (line_served v delim hs h hw henough).map _

theorem call_misreads {call : StreamCall} {fuel : ℕ} (hs : s ≠ []) (h : At s st.buf rest)
    (hw : Sane st.strings) (hbad : ¬Enough s st call) (hfuel : fuel > s.length) :
    Misreads (call.run (stringBuf s) fuel) st rest := by
  have hrest : unread s st = rest := h.rest_eq.symm
  cases call with
  | sgetc =>
    obtain rfl : rest = [] := hrest ▸ not_not.mp hbad
    exact (sgetc_misreads hs h).bind _
  | sbumpc =>
    obtain rfl : rest = [] := hrest ▸ not_not.mp hbad
    exact (sbumpc_misreads hs h).bind _
  | int =>
    simp only [Enough, hrest, not_or, Bool.not_eq_true, not_not] at hbad
    exact (int_misreads hs h hw hbad.1 hbad.2 hfuel).bind _
  | uint =>
    simp only [Enough, hrest, not_or, Bool.not_eq_true, not_not] at hbad
    exact (uint_misreads hs h hw hbad.1 hbad.2 hfuel).bind _
  | word v =>
    simp only [Enough, hrest, not_or, Bool.not_eq_true, not_not] at hbad
    exact (word_misreads v hs h hw hbad.1 hbad.2 hfuel).bind _
  | line v delim =>
    simp only [Enough, hrest, not_or, Bool.not_eq_true] at hbad
    exact (line_misreads hs h hw hbad.1 hbad.2).bind _

/-! ## Runs -/

theorem runs_iff {calls : List StreamCall} (hs : s ≠ []) (h : At s st.buf rest)
    (hw : Sane st.strings) :
    (∃ fuel, ∀ n ≥ fuel, ∃ as st' rest', Reads (runCalls (stringBuf s) n calls) st rest as st'
      rest') ↔ EnoughRun s st calls := by
  induction calls generalizing st rest with
  | nil => exact ⟨fun _ => trivial, fun _ => ⟨0, fun _ _ => ⟨[], st, rest, reads_pure _ _ _⟩⟩⟩
  | cons call calls ih =>
    by_cases henough : Enough s st call
    · obtain ⟨a, st₁, rest₁, hat, hsane, hreads⟩ := call_served hs h hw henough
      obtain ⟨t, hrun, -⟩ : Reads (call.run (stringBuf s) (s.length + 1)) st rest a st₁ rest₁ :=
        hreads (s.length + 1) (Nat.lt_succ_self _)
      have hrest := ih hat hsane
      rw [EnoughRun, hrun]
      constructor
      · rintro ⟨fuel, hall⟩
        refine ⟨henough, hrest.mp ⟨max fuel (s.length + 1), fun n hn => ?_⟩⟩
        obtain ⟨as, st', rest', hr⟩ := hall n (by omega)
        obtain ⟨a', st₂, rest₂, hcall, hcalls⟩ := hr.bind_left
        obtain ⟨rfl, rfl, rfl⟩ := (hreads n (by omega)).unique hcall
        obtain ⟨as', st₃, rest₃, htail, -⟩ := hcalls.bind_left
        exact ⟨as', st₃, rest₃, htail⟩
      · rintro ⟨-, hcalls⟩
        obtain ⟨fuel, hall⟩ := hrest.mpr hcalls
        refine ⟨max fuel (s.length + 1), fun n hn => ?_⟩
        obtain ⟨as, st', rest', hr⟩ := hall n (by omega)
        exact ⟨a :: as, st', rest', (hreads n (by omega)).bind (hr.bind (reads_pure _ _ _))⟩
    · constructor
      · rintro ⟨fuel, hall⟩
        obtain ⟨as, st', rest', hr⟩ := hall (max fuel (s.length + 1)) (by omega)
        exact absurd ((call_misreads hs h hw henough (by omega)).bind _) hr.not_misreads
      · exact fun hrun => absurd hrun.1 henough

end

/-- A run of calls on a stream over a non-empty string is served as it should be exactly if no call
looks behind the last character, and no line is appended to before it has elements. -/
theorem delivers_iff (s : List Char) (hs : s ≠ []) (calls : List StreamCall) :
    Delivers s calls ↔ EnoughRun s ⟨{}, false, false, {}⟩ calls := by
  have hstart : At s ({} : StringBuf) s := ⟨rfl, rfl, .inl ⟨rfl, rfl⟩⟩
  exact runs_iff hs hstart ⟨_, inv_init charType⟩

/-- A line, a number and a word, each with something behind it. -/
theorem delivers_iff_sample :
    Delivers ['a', 'b', '\n', '1', '2', ' ', 'c', ' ', 'd']
      [.line 0 '\n', .uint, .word 1, .sbumpc, .sgetc] :=
  (delivers_iff _ (by decide) _).mpr (by decide +kernel)

/-- The only character of a string is delivered twice, and the end of file never. -/
theorem stringStream_rereads :
    (runCalls (stringBuf ['a']) 2 [.sbumpc, .sbumpc] ⟨{}, false, false, {}⟩).map Prod.fst =
        some [.char (some 'a'), .char (some 'a')] ∧
      ¬Delivers ['a'] [.sbumpc, .sbumpc] := by
  refine ⟨by decide +kernel, ?_⟩
  have hstart : At ['a'] ({} : StringBuf) ['a'] := ⟨rfl, rfl, .inl ⟨rfl, rfl⟩⟩
  have hiff : Delivers ['a'] [.sbumpc, .sbumpc] ↔
      EnoughRun ['a'] ⟨{}, false, false, {}⟩ [.sbumpc, .sbumpc] :=
    runs_iff (by decide) hstart ⟨_, inv_init charType⟩
  exact fun h => absurd (hiff.mp h) (by decide +kernel)

end CritPath.Containers
