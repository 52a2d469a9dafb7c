import CritPath.Options.Grammar

/-!
# The parser accepts its grammar

One round of `parse_flags` skips separators and reads the token that `next` finds
at the position reached; where `next` finds none the parser reports a fatal
error. From this the whole call: `parseString` runs the handlers of the flags of
the decomposition, once each and in order, or ends with an error exactly if there
is no decomposition. The position never leaves the string and its NUL.
-/

namespace CritPath.Options

open Lib Lib.Scan

def At (s : CString) (pos : ℕ) (r : Text) : Prop := pos ≤ s.chars.length ∧ s.chars.drop pos = r

section
variable {s : CString} {pos : ℕ} {r : Text}

theorem At.zero (s : CString) : At s 0 s.chars := ⟨Nat.zero_le _, rfl⟩

theorem At.nul_ne (h : At s pos r) {c : Char} (hc : c ∈ r) : c ≠ nul := by
  rintro rfl
  rw [← h.2] at hc
  exact s.noNul (List.mem_of_mem_drop hc)

theorem At.add {a b : Text} (h : At s pos (a ++ b)) : At s (pos + a.length) b := by
  have hlen := congrArg List.length h.2
  simp only [List.length_drop, List.length_append] at hlen
  have hle := h.1
  refine ⟨by omega, ?_⟩
  rw [← List.drop_drop, h.2, List.drop_left]

theorem At.succ {c : Char} (h : At s pos (c :: r)) : At s (pos + 1) r := At.add (a := [c]) h

theorem At.dropWhile (h : At s pos r) (cond : Char → Bool) :
    At s (pos + (r.takeWhile cond).length) (r.dropWhile cond) := by
  apply At.add
  rw [List.takeWhile_append_dropWhile]
  exact h

theorem readAt_eq (h : At s pos r) : readAt s pos = .ok (r.head?.getD nul) := by
  simp only [readAt, charAt_eq h.1, h.2]

theorem scan_eq (h : At s pos r) {cond : Char → Bool} (hnul : cond nul = false) :
    scan cond s pos = .ok (pos + (r.takeWhile cond).length) := by
  have hsteps : s.chars.length - pos < s.chars.length + 1 := by omega
  simp only [scan, advance_eq hnul h.1 hsteps, h.2]

/-- The test for the NUL in a loop condition only makes it stop there. -/
theorem scan_ne_nul (h : At s pos r) {cond cond' : Char → Bool} (hnul : cond nul = false)
    (hcond : ∀ c, c ≠ nul → cond c = cond' c) :
    scan cond s pos = .ok (pos + (r.takeWhile cond').length) := by
  rw [scan_eq h hnul, takeWhile_congr_mem fun c hc => hcond c (h.nul_ne hc)]

theorem llStrndup_eq (h : At s pos r) (n : ℕ) : llStrndup s pos n = r.take n := by
  unfold llStrndup
  rw [h.2, List.takeWhile_eq_self_iff]
  intro c hc
  simpa using h.nul_ne (List.mem_of_mem_take hc)

end

/-! ## The pieces of `parse_flag` -/

section
variable {s : CString} {pos : ℕ} {r v : Text} (env : Option String)

/-- The fatal errors of a malformed string. -/
def syntaxErrors : Option String → List String
  | some env => ["OFTCPT: ERROR: expected '=' in " ++ env ++ "\n",
      "OFTCPT: ERROR: unterminated string\n"]
  | none => ["OFTCPT: ERROR: expected '='\n", "OFTCPT: ERROR: unterminated string\n"]

theorem scan_name (h : At s pos r) :
    scan (fun c => c != nul && c != '=' && !isSpace c) s pos =
      .ok (pos + (r.takeWhile nameChar).length) :=
  scan_ne_nul h (by decide) fun c hc => by rw [bne_iff_ne.mpr hc, Bool.true_and, nameChar]

theorem parseName_eq (h : At s pos r) (hd : r.dropWhile nameChar = '=' :: v) :
    parseName env s pos =
      .ok (r.takeWhile nameChar, pos + (r.takeWhile nameChar).length + 1) := by
  have hread := readAt_eq (h.dropWhile nameChar)
  rw [hd] at hread
  simp only [parseName, scan_name h, bind, Except.bind, hread, List.head?_cons, Option.getD_some,
    bne_self_eq_false, Bool.false_eq_true, if_false, Nat.add_sub_cancel_left, llStrndup_eq h,
    take_length_takeWhile]

theorem parseName_died (h : At s pos r) (hd : ∀ v, r.dropWhile nameChar ≠ '=' :: v) :
    ∃ message ∈ syntaxErrors env, parseName env s pos = .error (.died message) := by
  have hread := readAt_eq (h.dropWhile nameChar)
  have hne : ((r.dropWhile nameChar).head?.getD nul != '=') = true := by
    cases hr : r.dropWhile nameChar with
    | nil => decide
    | cons c v =>
      simp only [List.head?_cons, Option.getD_some, bne_iff_ne, ne_eq]
      rintro rfl
      exact hd v hr
  simp only [parseName, scan_name h, bind, Except.bind, hread, hne, if_true]
  cases env with
  | some env => exact ⟨_, List.mem_cons_self, rfl⟩
  | none => exact ⟨_, List.mem_cons_self, rfl⟩

theorem parseValue_plain (h : At s pos v) (hq : ∀ c, v.head? = some c → isQuote c = false) :
    parseValue s pos = .ok (v.takeWhile plainChar, pos + (v.takeWhile plainChar).length) := by
  have hscan : scan (fun c => c != nul && !isSpace c) s pos =
      .ok (pos + (v.takeWhile plainChar).length) :=
    scan_ne_nul h (by decide) fun c hc => by rw [bne_iff_ne.mpr hc, Bool.true_and, plainChar]
  have hread := readAt_eq (h.dropWhile plainChar)
  have hfirst : isQuote (v.head?.getD nul) = false := by
    cases hv : v.head? with
    | none => decide
    | some c => exact hq c hv
  -- the check behind the loop cannot fail
  have hend : ((v.dropWhile plainChar).head?.getD nul != nul &&
      !isSpace ((v.dropWhile plainChar).head?.getD nul)) = false := by
    cases hv : (v.dropWhile plainChar).head? with
    | none => decide
    | some c =>
      have := head?_dropWhile hv
      simp only [plainChar] at this
      simp [this]
  simp only [parseValue, readAt_eq h, bind, Except.bind, hfirst, Bool.false_eq_true, if_false,
    hscan, hread, hend, Nat.add_sub_cancel_left, llStrndup_eq h, take_length_takeWhile]

theorem scan_text {q : Char} (h : At s pos (q :: v)) :
    scan (fun c => c != nul && c != q) s (pos + 1) =
      .ok (pos + 1 + (v.takeWhile (textChar q)).length) :=
  scan_ne_nul h.succ (by simp) fun c hc => by rw [bne_iff_ne.mpr hc, Bool.true_and, textChar]

theorem parseValue_quoted {q : Char} {rest : Text} (h : At s pos (q :: v))
    (hq : isQuote q = true) (hd : v.dropWhile (textChar q) = q :: rest) :
    parseValue s pos =
      .ok (v.takeWhile (textChar q), pos + 1 + (v.takeWhile (textChar q)).length + 1) := by
  have hread := readAt_eq (h.succ.dropWhile (textChar q))
  rw [hd] at hread
  have hnul : (q == nul) = false := by simpa using h.nul_ne List.mem_cons_self
  have hlen : pos + 1 + (v.takeWhile (textChar q)).length - pos - 1 =
      (v.takeWhile (textChar q)).length := by omega
  simp only [parseValue, readAt_eq h, bind, Except.bind, List.head?_cons, Option.getD_some, hq,
    if_true, scan_text h, hread, hnul, Bool.false_eq_true, if_false, hlen, llStrndup_eq h.succ,
    take_length_takeWhile]

theorem parseValue_died {q : Char} (h : At s pos (q :: v)) (hq : isQuote q = true)
    (hd : v.dropWhile (textChar q) = []) :
    ∃ message ∈ syntaxErrors env, parseValue s pos = .error (.died message) := by
  have hread := readAt_eq (h.succ.dropWhile (textChar q))
  rw [hd] at hread
  simp only [parseValue, readAt_eq h, bind, Except.bind, List.head?_cons, Option.getD_some, hq,
    if_true, scan_text h, hread, List.head?_nil, Option.getD_none, beq_self_eq_true]
  refine ⟨_, ?_, rfl⟩
  cases env <;> exact List.mem_cons_of_mem _ List.mem_cons_self

/-- The value that `nextValue` finds is the one the parser reads. -/
theorem parseValue_of_nextValue {name mid : Text} {t : Token} (h : At s pos v)
    (hnext : nextValue name v = some (t, mid)) :
    ∃ value pos', t.flag = some (name, value) ∧ At s pos' mid ∧
      parseValue s pos = .ok (value, pos') := by
  cases v with
  | nil =>
    obtain ⟨rfl, rfl⟩ : Token.plain name [] = t ∧ [] = mid := by simpa [nextValue] using hnext
    exact ⟨[], pos, rfl, h, parseValue_plain h (by simp)⟩
  | cons c v =>
    simp only [nextValue] at hnext
    split at hnext
    · rename_i hq
      split at hnext
      · cases hnext
      · rename_i b rest hdrop
        obtain ⟨rfl, rfl⟩ : Token.quoted name c (v.takeWhile (textChar c)) = t ∧ rest = mid := by
          simpa using hnext
        have hb : textChar c b = false := head?_dropWhile (s := v) (by rw [hdrop]; rfl)
        obtain rfl : b = c := by simpa [textChar] using hb
        have hat := h.succ.dropWhile (textChar b)
        rw [hdrop] at hat
        exact ⟨_, _, rfl, hat.succ, parseValue_quoted h hq hdrop⟩
    · rename_i hq
      obtain ⟨rfl, rfl⟩ : Token.plain name ((c :: v).takeWhile plainChar) = t ∧
          (c :: v).dropWhile plainChar = mid := by simpa using hnext
      refine ⟨_, _, rfl, h.dropWhile plainChar, parseValue_plain h fun b hb => ?_⟩
      obtain rfl : c = b := by simpa using hb
      simpa using hq

theorem parseValue_of_nextValue_none {name : Text} (h : At s pos v)
    (hnext : nextValue name v = none) :
    ∃ message ∈ syntaxErrors env, parseValue s pos = .error (.died message) := by
  cases v with
  | nil => simp [nextValue] at hnext
  | cons c v =>
    simp only [nextValue] at hnext
    split at hnext
    · rename_i hq
      split at hnext
      · rename_i hdrop
        exact parseValue_died env h hq hdrop
      · cases hnext
    · cases hnext

end

/-! ## One round -/

section
variable {σ : Type} (T : FlagTable σ) (env : Option String) {s : CString} {r : Text}
  {p : FlagParser σ}

/-- Behind the separators, the parser reads the token that `next` finds. -/
theorem parseFlag_of_next {t : Token} {mid : Text} (h : At s p.pos r)
    (hhead : ∀ c, r.head? = some c → isSpace c = false) (hnext : next r = some (t, mid)) :
    ∃ name value pos', t.flag = some (name, value) ∧ At s pos' mid ∧
      parseFlag T env s p =
        (handle T p.effects name value).bind fun effects => .ok { p with pos := pos', effects } := by
  cases r with
  | nil => simp [next] at hnext
  | cons c r =>
    have hc := hhead c rfl
    simp only [next, hc, Bool.false_eq_true, if_false] at hnext
    split at hnext
    · cases hnext
    · rename_i e v hdrop
      split at hnext
      · rename_i he
        obtain rfl : e = '=' := by simpa using he
        have hat := h.dropWhile nameChar
        rw [hdrop] at hat
        obtain ⟨value, pos', hflag, hmid, hvalue⟩ := parseValue_of_nextValue hat.succ hnext
        refine ⟨_, value, pos', hflag, hmid, ?_⟩
        simp only [parseFlag, parseName_eq env h hdrop, hvalue, bind, Except.bind]
      · cases hnext

theorem parseFlag_of_next_none (h : At s p.pos r) (hnext : next r = none) (hne : r ≠ []) :
    ∃ message ∈ syntaxErrors env, parseFlag T env s p = .error (.died message) := by
  cases r with
  | nil => exact absurd rfl hne
  | cons c r =>
    by_cases hc : isSpace c = true
    · simp [next, hc] at hnext
    simp only [next, hc, Bool.false_eq_true, if_false] at hnext
    by_cases hd : ∃ v, (c :: r).dropWhile nameChar = '=' :: v
    · obtain ⟨v, hdrop⟩ := hd
      have hat := h.dropWhile nameChar
      rw [hdrop] at hat
      rw [hdrop] at hnext
      obtain ⟨message, hmem, hvalue⟩ :=
        parseValue_of_nextValue_none env hat.succ (by simpa using hnext)
      refine ⟨message, hmem, ?_⟩
      simp only [parseFlag, parseName_eq env h hdrop, hvalue, bind, Except.bind]
    · obtain ⟨message, hmem, hname⟩ := parseName_died env h fun v hv => hd ⟨v, hv⟩
      exact ⟨message, hmem, by simp only [parseFlag, hname, bind, Except.bind]⟩

theorem parseFlags_sep {c : Char} (h : At s p.pos (c :: r)) (hc : isSpace c = true) (steps : ℕ) :
    parseFlags T env s (steps + 1) p = parseFlags T env s (steps + 1) { p with pos := p.pos + 1 } := by
  have hnul : isSpace nul = false := by decide
  have hscan : scan isSpace s p.pos = scan isSpace s (p.pos + 1) := by
    rw [scan_eq h hnul, scan_eq h.succ hnul, List.takeWhile_cons_of_pos hc, List.length_cons]
    exact congrArg Except.ok (by omega)
  simp only [parseFlags, hscan]

/-- At a text that does not start with a separator the round starts at once. -/
theorem parseFlags_cons {c : Char} (h : At s p.pos (c :: r)) (hc : isSpace c = false) (steps : ℕ) :
    parseFlags T env s (steps + 1) p =
      (parseFlag T env s p).bind (parseFlags T env s steps) := by
  have hscan : scan isSpace s p.pos = .ok p.pos := by
    rw [scan_eq h (by decide), List.takeWhile_cons_of_neg (by simp [hc])]
    rfl
  have hnul : (c == nul) = false := by simpa using h.nul_ne List.mem_cons_self
  simp only [parseFlags, hscan, bind, Except.bind, readAt_eq h, List.head?_cons, Option.getD_some,
    hnul, Bool.false_eq_true, if_false]

theorem parseFlags_end (h : At s p.pos []) (steps : ℕ) :
    parseFlags T env s (steps + 1) p = .ok p := by
  have hscan : scan isSpace s p.pos = .ok p.pos := by
    rw [scan_eq h (by decide)]
    rfl
  simp only [parseFlags, hscan, bind, Except.bind, readAt_eq h, List.head?_nil, Option.getD_none,
    beq_self_eq_true, if_true]

end

/-! ## The whole call -/

section
variable {σ : Type} (T : FlagTable σ) (env : Option String)

def handleAll (e : Effects σ) : List (Text × Text) → Outcome (Effects σ)
  | [] => .ok e
  | f :: fs => (handle T e f.1 f.2).bind fun e => handleAll e fs

theorem length_lt_of_next {r mid : Text} {t : Token} (h : next r = some (t, mid)) :
    mid.length < r.length := by
  obtain ⟨rfl, -⟩ := of_next h
  cases t <;> simp [Token.render] <;> omega

theorem parseFlags_eq {s : CString} {ts : List Token} {r rest : Text} {p : FlagParser σ} {steps : ℕ}
    (h : At s p.pos r) (hts : Begins r ts rest) (hend : next rest = none)
    (hsteps : r.length < steps) :
    (rest = [] ∧ ∃ pos, parseFlags T env s steps p =
      (handleAll T p.effects (flags ts)).bind fun effects => .ok { p with pos, effects }) ∨
    (rest ≠ [] ∧ ∃ message ∈ syntaxErrors env, parseFlags T env s steps p =
      (handleAll T p.effects (flags ts)).bind fun _ => .error (.died message)) := by
  induction ts generalizing r p steps with
  | nil =>
    obtain rfl := begins_nil.mp hts
    obtain ⟨steps, rfl⟩ : ∃ n, steps = n + 1 := ⟨steps - 1, by omega⟩
    cases r with
    | nil => exact .inl ⟨rfl, p.pos, parseFlags_end T env h steps⟩
    | cons c r =>
      have hc : isSpace c = false := by
        cases hc : isSpace c with
        | false => rfl
        | true => simp [next, hc] at hend
      obtain ⟨message, hmem, hdied⟩ := parseFlag_of_next_none T env h hend (by simp)
      refine .inr ⟨by simp, message, hmem, ?_⟩
      rw [parseFlags_cons T env h hc, hdied]
      rfl
  | cons t ts ih =>
    obtain ⟨mid, hnext, hmid⟩ := begins_cons_iff.mp hts
    have hlt := length_lt_of_next hnext
    obtain ⟨steps, rfl⟩ : ∃ n, steps = n + 1 := ⟨steps - 1, by omega⟩
    cases r with
    | nil => simp [next] at hnext
    | cons c r =>
      by_cases hc : isSpace c = true
      · obtain ⟨rfl, rfl⟩ : Token.sep c = t ∧ r = mid := by simpa [next, hc] using hnext
        rw [parseFlags_sep T env h hc]
        exact ih (p := { p with pos := p.pos + 1 }) h.succ hmid (by omega)
      · have hc' : isSpace c = false := by simpa using hc
        obtain ⟨name, value, pos', hflag, hat, hparse⟩ :=
          parseFlag_of_next T env h (fun b hb => by
            obtain rfl : c = b := by simpa using hb
            exact hc') hnext
        have hflags : flags (t :: ts) = (name, value) :: flags ts := by simp [flags, hflag]
        rw [parseFlags_cons T env h hc', hparse, hflags]
        simp only [handleAll]
        cases hh : handle T p.effects name value with
        | error e =>
          by_cases hrest : rest = []
          · exact .inl ⟨hrest, pos', rfl⟩
          · obtain ⟨message, hmem⟩ : ∃ m, m ∈ syntaxErrors env := by
              cases env <;> exact ⟨_, List.mem_cons_self⟩
            exact .inr ⟨hrest, message, hmem, rfl⟩
        | ok effects => exact ih (p := { p with pos := pos', effects }) hat hmid (by omega)

/-- Every text can be read up to its end or to a text without a first token. -/
theorem exists_begins (r : Text) : ∃ ts rest, Begins r ts rest ∧ next rest = none := by
  cases hnext : next r with
  | none => exact ⟨[], r, begins_nil.mpr rfl, hnext⟩
  | some tm =>
    obtain ⟨t, mid⟩ := tm
    have hlt := length_lt_of_next hnext
    obtain ⟨ts, rest, hts, hend⟩ := exists_begins mid
    exact ⟨t :: ts, rest, begins_cons_iff.mpr ⟨mid, hnext, hts⟩, hend⟩
termination_by r.length

/-- What the handler of a flag is: the first one registered under the name, or none. -/
def event (f : Text × Text) : Event :=
  match T.index f.1 with
  | some i => .parse i f.2
  | none => .add f.1

/-- The names no handler is registered for. -/
def unknownNames (fs : List (Text × Text)) : List Text :=
  (fs.map Prod.fst).filter fun name => (T.index name).isNone

/-- The handlers of the flags were run, once each and in order. -/
structure Ran (e e' : Effects σ) (fs : List (Text × Text)) : Prop where
  events : e'.events = e.events ++ fs.map (event T)
  unknown : e'.unknown = e.unknown ++ unknownNames T fs
  pointers : e'.pointers = e.pointers ++ fs.map Prod.snd

def AllSucceed : σ → List (Text × Text) → Prop
  | _, [] => True
  | st, f :: fs =>
    match T.index f.1 with
    | some i => (T.parse i f.2 st).1 = true ∧ AllSucceed (T.parse i f.2 st).2 fs
    | none => AllSucceed st fs

/-- Every handler that the string runs succeeds. -/
def HandlersSucceed (st : σ) (s : CString) : Prop :=
  ∀ ts rest, Begins s.chars ts rest → AllSucceed T st (flags ts)

/-- No beginning of the string names more unknown flags than the table still takes. -/
def FewUnknown (e : Effects σ) (s : CString) : Prop :=
  ∀ ts rest, Begins s.chars ts rest →
    e.unknown.length + (unknownNames T (flags ts)).length ≤ kMaxUnknownFlags

variable {T}

def Effects.parsed (e : Effects σ) (i : ℕ) (value : Text) (st : σ) : Effects σ :=
  { e with settings := st, events := e.events ++ [.parse i value],
           pointers := e.pointers ++ [value] }

def Effects.noted (e : Effects σ) (name value : Text) : Effects σ :=
  { e with unknown := e.unknown ++ [name], events := e.events ++ [.add name],
           pointers := e.pointers ++ [value] }

theorem handle_known {e : Effects σ} {name value : Text} {i : ℕ} (hi : T.index name = some i)
    (hs : (T.parse i value e.settings).1 = true) :
    handle T e name value = .ok (e.parsed i value (T.parse i value e.settings).2) := by
  simp [handle, runHandler, hi, hs, bind, Except.bind, Effects.parsed]

theorem handle_unknown {e : Effects σ} {name value : Text} (hi : T.index name = none)
    (hroom : e.unknown.length < kMaxUnknownFlags) :
    handle T e name value = .ok (e.noted name value) := by
  simp [handle, runHandler, add, checkLt, hi, hroom, bind, Except.bind, Effects.noted]

/-- Handlers that succeed handle all flags, if there is room for the unknown ones. -/
theorem handleAll_eq {fs : List (Text × Text)} {e : Effects σ} (hs : AllSucceed T e.settings fs)
    (hroom : e.unknown.length + (unknownNames T fs).length ≤ kMaxUnknownFlags) :
    ∃ e', handleAll T e fs = .ok e' ∧ Ran T e e' fs := by
  induction fs generalizing e with
  | nil => exact ⟨e, rfl, ⟨by simp, by simp [unknownNames], by simp⟩⟩
  | cons f fs ih =>
    obtain ⟨name, value⟩ := f
    simp only [handleAll]
    cases hi : T.index name with
    | some i =>
      have hun : unknownNames T ((name, value) :: fs) = unknownNames T fs := by
        simp [unknownNames, hi]
      rw [hun] at hroom
      simp only [AllSucceed, hi] at hs
      obtain ⟨e', he', hran⟩ :=
        ih (e := e.parsed i value (T.parse i value e.settings).2) hs.2 hroom
      rw [handle_known hi hs.1]
      refine ⟨e', he', ⟨?_, ?_, ?_⟩⟩
      · simp [hran.events, event, hi, Effects.parsed]
      · simp [hran.unknown, hun, Effects.parsed]
      · simp [hran.pointers, Effects.parsed]
    | none =>
      have hun : unknownNames T ((name, value) :: fs) = name :: unknownNames T fs := by
        simp [unknownNames, hi]
      rw [hun, List.length_cons] at hroom
      simp only [AllSucceed, hi] at hs
      obtain ⟨e', he', hran⟩ := ih (e := e.noted name value) hs (by simp [Effects.noted]; omega)
      rw [handle_unknown hi (by omega)]
      refine ⟨e', he', ⟨?_, ?_, ?_⟩⟩
      · simp [hran.events, event, hi, Effects.noted]
      · simp [hran.unknown, hun, Effects.noted]
      · simp [hran.pointers, Effects.noted]

theorem begins_prefix {s rest : Text} {ts us : List Token} (h : Decomposes s ts)
    (hus : Begins s us rest) : us <+: ts := by
  induction us generalizing s ts with
  | nil => exact List.nil_prefix
  | cons u us ih =>
    obtain ⟨mid, hnext, hmid⟩ := begins_cons_iff.mp hus
    cases ts with
    | nil =>
      obtain rfl := decomposes_nil_iff.mp h
      simp [next] at hnext
    | cons t ts =>
      obtain ⟨mid', hnext', hts⟩ := decomposes_cons_iff.mp h
      obtain ⟨rfl, rfl⟩ : u = t ∧ mid = mid' := by simpa [hnext] using hnext'
      exact List.cons_prefix_cons.mpr ⟨rfl, ih hts hmid⟩

theorem flags_append (ts us : List Token) : flags (ts ++ us) = flags ts ++ flags us :=
  List.filterMap_append

theorem AllSucceed.of_append {fs gs : List (Text × Text)} {st : σ}
    (h : AllSucceed T st (fs ++ gs)) : AllSucceed T st fs := by
  induction fs generalizing st with
  | nil => trivial
  | cons f fs ih =>
    simp only [List.cons_append, AllSucceed] at h ⊢
    cases hi : T.index f.1 with
    | some i =>
      simp only [hi] at h ⊢
      exact ⟨h.1, ih h.2⟩
    | none =>
      simp only [hi] at h ⊢
      exact ih h

theorem handlersSucceed_of_decomposes {s : CString} {ts : List Token} {st : σ}
    (h : Decomposes s.chars ts) (hs : AllSucceed T st (flags ts)) : HandlersSucceed T st s := by
  intro us rest hus
  obtain ⟨vs, rfl⟩ := begins_prefix h hus
  rw [flags_append] at hs
  exact hs.of_append

theorem fewUnknown_of_decomposes {e : Effects σ} {s : CString} {ts : List Token}
    (h : Decomposes s.chars ts)
    (hle : e.unknown.length + (unknownNames T (flags ts)).length ≤ kMaxUnknownFlags) :
    FewUnknown T e s := by
  intro us rest hus
  obtain ⟨vs, rfl⟩ := begins_prefix h hus
  simp only [flags_append, unknownNames, List.map_append, List.filter_append,
    List.length_append] at hle ⊢
  omega

/-! ## Acceptance -/

/-- A flag printed with its value between quotes, behind some separators. -/
structure Printed where
  gap : Text
  name : Text
  quote : Char
  value : Text

namespace Printed

def text (x : Printed) : Text := x.gap ++ x.name ++ '=' :: x.quote :: (x.value ++ [x.quote])

/-- The quote is one that the value does not contain. -/
structure Valid (x : Printed) : Prop where
  gap : ∀ c ∈ x.gap, isSpace c = true
  name : IsName x.name
  quote : isQuote x.quote = true
  value : x.quote ∉ x.value

end Printed

theorem decomposes_gap {gap s : Text} {ts : List Token} (hgap : ∀ c ∈ gap, isSpace c = true)
    (h : Decomposes s ts) : ∃ us, Decomposes (gap ++ s) us ∧ flags us = flags ts := by
  induction gap with
  | nil => exact ⟨ts, h, rfl⟩
  | cons c gap ih =>
    obtain ⟨us, hus, hflags⟩ := ih fun b hb => hgap b (List.mem_cons_of_mem _ hb)
    have hc := hgap c List.mem_cons_self
    exact ⟨.sep c :: us, decomposes_cons_iff.mpr ⟨_, by simp [next, hc], hus⟩, hflags⟩

/-- A printed list of flags is a string of the grammar with these flags. -/
theorem exists_decomposes_printed {xs : List Printed} (h : ∀ x ∈ xs, x.Valid) :
    ∃ ts, Decomposes (xs.flatMap Printed.text) ts ∧
      flags ts = xs.map fun x => (x.name, x.value) := by
  induction xs with
  | nil => exact ⟨[], decomposes_nil_iff.mpr rfl, rfl⟩
  | cons x xs ih =>
    obtain ⟨ts, hts, hflags⟩ := ih fun y hy => h y (List.mem_cons_of_mem _ hy)
    have hx := h x List.mem_cons_self
    have hfirst : Decomposes ((Token.quoted x.name x.quote x.value).render ++
        xs.flatMap Printed.text) (.quoted x.name x.quote x.value :: ts) :=
      decomposes_cons_iff.mpr ⟨_, next_render ⟨hx.name, hx.quote, hx.value⟩, hts⟩
    obtain ⟨us, hus, husf⟩ := decomposes_gap hx.gap hfirst
    refine ⟨us, ?_, ?_⟩
    · simpa [Printed.text, Token.render] using hus
    · rw [husf, List.map_cons, ← hflags]
      rfl

/-- The parser accepts exactly its grammar: a string has at most one decomposition; with one, the
handlers of its flags are run, once each and in order, and `buf_` and `pos_` are restored; without
one, the call ends with a fatal error. A list of flags printed with quotes its values do not contain
is read back as it was. -/
theorem parseString_accepts_grammar (T : FlagTable σ) (env : Option String) (p : FlagParser σ)
    (s : CString) (hs : HandlersSucceed T p.effects.settings s)
    (hu : FewUnknown T p.effects s) :
    (∀ ts us, Decomposes s.chars ts → Decomposes s.chars us → ts = us) ∧
    (∀ ts, Decomposes s.chars ts → ∃ e, Ran T p.effects e (flags ts) ∧
      parseString T (some s) env p = .ok { p with effects := e }) ∧
    ((∃ message ∈ syntaxErrors env, parseString T (some s) env p = .error (.died message)) ↔
      ¬ ∃ ts, Decomposes s.chars ts) ∧
    ∀ xs : List Printed, (∀ x ∈ xs, x.Valid) → s.chars = xs.flatMap Printed.text →
      ∃ e, Ran T p.effects e (xs.map fun x => (x.name, x.value)) ∧
        parseString T (some s) env p = .ok { p with effects := e } := by
  have hparse : ∀ ts, Decomposes s.chars ts → ∃ e, Ran T p.effects e (flags ts) ∧
      parseString T (some s) env p = .ok { p with effects := e } := by
    intro ts hts
    obtain ⟨e, he, hran⟩ := handleAll_eq (hs ts [] hts) (hu ts [] hts)
    refine ⟨e, hran, ?_⟩
    rcases parseFlags_eq T env (p := { p with buf := some s, pos := 0 }) (At.zero s) hts rfl
      (Nat.lt_succ_self _) with ⟨-, pos, hpos⟩ | ⟨hne, -⟩
    · simp only [parseString, hpos, he, bind, Except.bind]
    · exact absurd rfl hne
  refine ⟨fun ts us => decomposes_unique, hparse, ⟨?_, ?_⟩, ?_⟩
  · rintro ⟨message, -, hdied⟩ ⟨ts, hts⟩
    obtain ⟨e, -, hok⟩ := hparse ts hts
    rw [hok] at hdied
    cases hdied
  · intro hnone
    obtain ⟨ts, rest, hts, hend⟩ := exists_begins s.chars
    obtain ⟨e, he, -⟩ := handleAll_eq (hs ts rest hts) (hu ts rest hts)
    rcases parseFlags_eq T env (p := { p with buf := some s, pos := 0 }) (At.zero s) hts hend
      (Nat.lt_succ_self _) with ⟨rfl, -⟩ | ⟨-, message, hmem, hdied⟩
    · exact absurd ⟨ts, hts⟩ hnone
    · exact ⟨message, hmem, by simp only [parseString, hdied, he, bind, Except.bind]⟩
  · intro xs hxs hprint
    obtain ⟨ts, hts, hflags⟩ := exists_decomposes_printed hxs
    rw [← hprint] at hts
    rw [← hflags]
    exact hparse ts hts

end

def sampleOptions : CString := ⟨"verbose=1, x='a b'".toList, by decide⟩

def sampleTokens : List Token :=
  [.plain "verbose".toList "1".toList, .sep ',', .sep ' ',
   .quoted "x".toList '\x27' "a b".toList]

theorem decomposes_sampleOptions : Decomposes sampleOptions.chars sampleTokens := by
  refine decomposes_cons_iff.mpr ⟨_, rfl, ?_⟩
  refine decomposes_cons_iff.mpr ⟨_, rfl, ?_⟩
  refine decomposes_cons_iff.mpr ⟨_, rfl, ?_⟩
  exact decomposes_cons_iff.mpr ⟨_, rfl, decomposes_nil_iff.mpr rfl⟩

/-- The registered flags, with numbers of any form accepted. -/
def sampleTable : FlagTable Bool := cptTable (fun _ => true) fun _ => true

theorem parseString_accepts_grammar_sample :
    ∃ e, Ran sampleTable ⟨[], [], [], true⟩ e
        [("verbose".toList, "1".toList), ("x".toList, "a b".toList)] ∧
      parseString sampleTable (some sampleOptions) none ⟨none, 0, ⟨[], [], [], true⟩⟩ =
        .ok ⟨none, 0, e⟩ :=
  (parseString_accepts_grammar sampleTable none ⟨none, 0, ⟨[], [], [], true⟩⟩ sampleOptions
    (handlersSucceed_of_decomposes (T := sampleTable) decomposes_sampleOptions ⟨rfl, trivial⟩)
    (fewUnknown_of_decomposes decomposes_sampleOptions (by decide))).2.1 _ decomposes_sampleOptions

end CritPath.Options
