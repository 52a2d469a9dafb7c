import CritPath.Options.Parsing

/-!
# The table of unknown flags

`UnknownFlags::Add` writes into an array of `kMaxUnknownFlags` names. Its only
guard is a `CHECK_LT`, and a failed check reports and returns as long as
`continue_on_error` is set, which is its default. `inTable_iff` says for which
strings the table is not overrun.
-/

namespace CritPath.Options

variable {σ : Type} {T : FlagTable σ}

structure InTable (o : Outcome (FlagParser σ)) : Prop where
  writes : ∀ i, o ≠ .error (.overrun i)
  count : ∀ p, o = .ok p → p.effects.unknown.length ≤ kMaxUnknownFlags

def settingsAfter (T : FlagTable σ) : σ → List (Text × Text) → σ
  | st, [] => st
  | st, f :: fs =>
    match T.index f.1 with
    | some i => settingsAfter T (T.parse i f.2 st).2 fs
    | none => settingsAfter T st fs

/-- While the string is parsed, `continue_on_error` is set: initially and after each flag read. -/
def DefaultInForce (T : FlagTable σ) (st : σ) (s : Text) : Prop :=
  ∀ ts rest, Begins s ts rest → AllSucceed T st (flags ts) →
    T.continueOnError (settingsAfter T st (flags ts)) = true

/-- The table has room for the unknown names in what is read of the text: up to a handler that
fails or to a text that is no flag. -/
def RoomFor (T : FlagTable σ) (e : Effects σ) (s : Text) : Prop :=
  ∀ ts rest, Begins s ts rest → AllSucceed T e.settings (flags ts) →
    e.unknown.length + (unknownNames T (flags ts)).length ≤ kMaxUnknownFlags

theorem forall_begins_iff {r mid : Text} {t : Token} (hnext : next r = some (t, mid))
    {q : List Token → Prop} :
    (∀ ts rest, Begins r ts rest → q ts) ↔ q [] ∧ ∀ ts rest, Begins mid ts rest → q (t :: ts) := by
  constructor
  · intro h
    exact ⟨h [] r (begins_nil.mpr rfl),
      fun ts rest hts => h (t :: ts) rest (begins_cons_iff.mpr ⟨mid, hnext, hts⟩)⟩
  · rintro ⟨h0, h⟩ ts rest hts
    cases ts with
    | nil => exact h0
    | cons u ts =>
      obtain ⟨mid', hnext', hmid⟩ := begins_cons_iff.mp hts
      obtain ⟨rfl, rfl⟩ : t = u ∧ mid = mid' := by simpa [hnext] using hnext'
      exact h ts rest hmid

theorem handle_failed {e : Effects σ} {name value : Text} {i : ℕ} (hi : T.index name = some i)
    (hs : (T.parse i value e.settings).1 = false) :
    ∃ message, handle T e name value = .error (.died message) := by
  simp only [handle, runHandler, hi, bind, Except.bind, hs, Bool.not_false, if_true]
  exact ⟨_, rfl⟩

/-- With `continue_on_error` the failed check does not keep `Add` from writing. -/
theorem handle_full {e : Effects σ} {name value : Text} (hi : T.index name = none)
    (hfull : ¬ e.unknown.length < kMaxUnknownFlags) (hc : T.continueOnError e.settings = true) :
    handle T e name value = .error (.overrun e.unknown.length) := by
  simp [handle, runHandler, add, checkLt, hi, hfull, hc, bind, Except.bind]

section
variable {r mid : Text} {t : Token} {e : Effects σ} {name value : Text} {i : ℕ}

theorem flags_cons_none (hf : t.flag = none) (ts : List Token) : flags (t :: ts) = flags ts := by
  simp [flags, hf]

theorem flags_cons_some (hf : t.flag = some (name, value)) (ts : List Token) :
    flags (t :: ts) = (name, value) :: flags ts := by
  simp [flags, hf]

theorem unknownNames_cons_known (hi : T.index name = some i) (fs : List (Text × Text)) :
    unknownNames T ((name, value) :: fs) = unknownNames T fs := by
  simp [unknownNames, hi]

theorem unknownNames_cons_unknown (hi : T.index name = none) (fs : List (Text × Text)) :
    unknownNames T ((name, value) :: fs) = name :: unknownNames T fs := by
  simp [unknownNames, hi]

theorem roomFor_iff (hnext : next r = some (t, mid)) (he : e.unknown.length ≤ kMaxUnknownFlags) :
    RoomFor T e r ↔ ∀ ts rest, Begins mid ts rest → AllSucceed T e.settings (flags (t :: ts)) →
      e.unknown.length + (unknownNames T (flags (t :: ts))).length ≤ kMaxUnknownFlags := by
  unfold RoomFor
  rw [forall_begins_iff hnext]
  exact and_iff_right fun _ => by simpa [flags, unknownNames] using he

theorem DefaultInForce.behind {st : σ} (hdef : DefaultInForce T st r)
    (hnext : next r = some (t, mid)) {ts : List Token} {rest : Text} (hts : Begins mid ts rest)
    (hall : AllSucceed T st (flags (t :: ts))) :
    T.continueOnError (settingsAfter T st (flags (t :: ts))) = true :=
  ((forall_begins_iff hnext).mp hdef).2 ts rest hts hall

/-- One flag: if its handler lets the parser go on, the question is that of the rest. -/
theorem handle_overrun_iff {fs : List (Text × Text)} (hnext : next r = some (t, mid))
    (hf : t.flag = some (name, value)) (he : e.unknown.length ≤ kMaxUnknownFlags)
    (hdef : DefaultInForce T e.settings r)
    (ih : ∀ e : Effects σ, e.unknown.length ≤ kMaxUnknownFlags → DefaultInForce T e.settings mid →
      ((∀ i, handleAll T e fs ≠ .error (.overrun i)) ↔ RoomFor T e mid)) :
    (∀ i, handleAll T e ((name, value) :: fs) ≠ .error (.overrun i)) ↔ RoomFor T e r := by
  have hbehind := fun ts rest (hts : Begins mid ts rest) => hdef.behind hnext hts
  rw [roomFor_iff hnext he, handleAll]
  simp only [flags_cons_some hf] at hbehind ⊢
  cases hi : T.index name with
  | some i =>
    simp only [AllSucceed, settingsAfter, hi, unknownNames_cons_known hi] at hbehind ⊢
    cases hs : (T.parse i value e.settings).1 with
    | false =>
      obtain ⟨message, hfail⟩ := handle_failed hi hs
      rw [hfail]
      refine ⟨fun _ _ _ _ h => by simp at h, fun _ i hi => by cases hi⟩
    | true =>
      rw [handle_known hi hs]
      simp only [hs, true_and] at hbehind ⊢
      exact ih (e.parsed i value (T.parse i value e.settings).2) he hbehind
  | none =>
    simp only [AllSucceed, settingsAfter, hi, unknownNames_cons_unknown hi, List.length_cons]
      at hbehind ⊢
    by_cases hroom : e.unknown.length < kMaxUnknownFlags
    · rw [handle_unknown hi hroom]
      have hlen : (e.noted name value).unknown.length = e.unknown.length + 1 := by
        simp [Effects.noted]
      refine (ih (e.noted name value) (by omega) hbehind).trans ?_
      unfold RoomFor
      simp only [hlen]
      refine ⟨fun h us rest' hus hsucc => ?_, fun h us rest' hus hsucc => ?_⟩
      · have := h us rest' hus hsucc
        omega
      · have := h us rest' hus hsucc
        omega
    · rw [handle_full hi hroom (hdef [] r (begins_nil.mpr rfl) trivial)]
      refine ⟨fun h => absurd rfl (h _), fun h => ?_⟩
      have := h [] mid (begins_nil.mpr rfl) trivial
      omega

end

theorem handleAll_overrun_iff {ts : List Token} {r rest : Text} {e : Effects σ}
    (hts : Begins r ts rest) (hend : next rest = none)
    (he : e.unknown.length ≤ kMaxUnknownFlags) (hdef : DefaultInForce T e.settings r) :
    (∀ i, handleAll T e (flags ts) ≠ .error (.overrun i)) ↔ RoomFor T e r := by
  induction ts generalizing r e with
  | nil =>
    obtain rfl := begins_nil.mp hts
    refine ⟨fun _ us rest' hus _ => ?_, fun _ i hi => by cases hi⟩
    cases us with
    | nil => simpa [flags, unknownNames] using he
    | cons u us =>
      obtain ⟨mid, hnext, -⟩ := begins_cons_iff.mp hus
      rw [hend] at hnext
      cases hnext
  | cons t ts ih =>
    obtain ⟨mid, hnext, hmid⟩ := begins_cons_iff.mp hts
    cases hf : t.flag with
    | none =>
      have hbehind : DefaultInForce T e.settings mid := fun us rest' hus hall => by
        have := hdef.behind hnext hus
        rw [flags_cons_none hf] at this
        exact this hall
      rw [flags_cons_none hf, ih hmid he hbehind, roomFor_iff hnext he]
      simp only [flags_cons_none hf]
      rfl
    | some f =>
      rw [flags_cons_some hf]
      exact handle_overrun_iff hnext hf he hdef fun e he hdef => ih hmid he hdef

theorem unknown_handle_le {e e' : Effects σ} {name value : Text}
    (h : handle T e name value = .ok e') (he : e.unknown.length ≤ kMaxUnknownFlags) :
    e'.unknown.length ≤ kMaxUnknownFlags := by
  cases hi : T.index name with
  | some i =>
    cases hs : (T.parse i value e.settings).1 with
    | false =>
      obtain ⟨message, hfail⟩ := handle_failed hi hs
      rw [hfail] at h
      cases h
    | true =>
      rw [handle_known hi hs] at h
      cases h
      exact he
  | none =>
    by_cases hroom : e.unknown.length < kMaxUnknownFlags
    · rw [handle_unknown hi hroom] at h
      cases h
      simp only [Effects.noted, List.length_append, List.length_singleton]
      omega
    · -- the check or the write behind it ends the run
      cases hc : T.continueOnError e.settings <;>
        simp [handle, runHandler, add, checkLt, hi, hroom, hc, bind, Except.bind] at h

theorem unknown_handleAll_le {fs : List (Text × Text)} {e e' : Effects σ}
    (h : handleAll T e fs = .ok e') (he : e.unknown.length ≤ kMaxUnknownFlags) :
    e'.unknown.length ≤ kMaxUnknownFlags := by
  induction fs generalizing e with
  | nil =>
    cases h
    exact he
  | cons f fs ih =>
    simp only [handleAll] at h
    cases hh : handle T e f.1 f.2 with
    | error stop => rw [hh] at h; cases h
    | ok e1 =>
      rw [hh] at h
      exact ih h (unknown_handle_le hh he)

/-- With the default settings in force, the table of unknown flags is not overrun exactly if it has
room for the unknown names that the parser reads. -/
theorem inTable_iff (T : FlagTable σ) (env : Option String) (p : FlagParser σ) (s : CString)
    (h0 : p.effects.unknown.length ≤ kMaxUnknownFlags)
    (hdef : DefaultInForce T p.effects.settings s.chars) :
    InTable (parseString T (some s) env p) ↔ RoomFor T p.effects s.chars := by
  obtain ⟨ts, rest, hts, hend⟩ := exists_begins s.chars
  rw [← handleAll_overrun_iff hts hend h0 hdef]
  have hparse := parseFlags_eq T env (p := { p with buf := some s, pos := 0 }) (At.zero s) hts hend
    (Nat.lt_succ_self _)
  cases hh : handleAll T p.effects (flags ts) with
  | error stop =>
    have hstop : parseString T (some s) env p = .error stop := by
      rcases hparse with ⟨-, pos, hpos⟩ | ⟨-, message, -, hdied⟩
      · simp only [parseString, hpos, hh, bind, Except.bind]
      · simp only [parseString, hdied, hh, bind, Except.bind]
    rw [hstop]
    exact ⟨fun h i hi => h.writes i (by cases hi; rfl),
      fun h => ⟨fun i hi => h i (by cases hi; rfl), fun q hq => by cases hq⟩⟩
  | ok e =>
    have hle := unknown_handleAll_le hh h0
    refine ⟨fun _ i hi => (by cases hi), fun _ => ?_⟩
    rcases hparse with ⟨-, pos, hpos⟩ | ⟨-, message, -, hdied⟩
    · have hok : parseString T (some s) env p = .ok { p with effects := e } := by
        simp only [parseString, hpos, hh, bind, Except.bind]
      rw [hok]
      refine ⟨fun i hi => (by cases hi), fun q hq => ?_⟩
      cases hq
      exact hle
    · have hstop : parseString T (some s) env p = .error (.died message) := by
        simp only [parseString, hdied, hh, bind, Except.bind]
      rw [hstop]
      exact ⟨fun i hi => (by cases hi), fun q hq => by cases hq⟩

/-! ## The registered flags -/

/-- Only the flag of that name changes `continue_on_error`. -/
theorem settingsAfter_cptTable {strtoll strtod : Text → Bool} {fs : List (Text × Text)}
    (h : ∀ f ∈ fs, f.1 ≠ "continue_on_error".toList) (st : Bool) :
    settingsAfter (cptTable strtoll strtod) st fs = st := by
  induction fs generalizing st with
  | nil => rfl
  | cons f fs ih =>
    have hfs := ih fun g hg => h g (List.mem_cons_of_mem _ hg)
    simp only [settingsAfter]
    split
    · rename_i i hi
      have hkeep : ((cptTable strtoll strtod).parse i f.2 st).2 = st := by
        simp only [cptTable]
        split
        · rename_i name hname
          have hne : name ≠ "continue_on_error" := by
            rintro rfl
            obtain ⟨hlt, hget, -⟩ := List.findIdx?_eq_some_iff_getElem.mp hi
            have hnames : (cptTable strtoll strtod).names[i] = "continue_on_error".toList := by
              simp only [cptTable, List.getElem_map]
              rw [(List.getElem?_eq_some_iff.mp hname).2]
            rw [hnames] at hget
            exact h f List.mem_cons_self (beq_iff_eq.mp hget).symm
          split <;> simp [hne]
        all_goals rfl
      rw [hkeep]
      exact hfs st
    · exact hfs st

theorem defaultInForce_of_decomposes {strtoll strtod : Text → Bool} {s : Text} {ts : List Token}
    (h : Decomposes s ts) (hf : ∀ f ∈ flags ts, f.1 ≠ "continue_on_error".toList) :
    DefaultInForce (cptTable strtoll strtod) true s := by
  intro us rest hus _
  obtain ⟨vs, rfl⟩ := begins_prefix h hus
  rw [flags_append] at hf
  rw [settingsAfter_cptTable fun f hmem => hf f (List.mem_append_left _ hmem)]
  rfl

theorem inTable_iff_sample :
    InTable (parseString sampleTable (some sampleOptions) none ⟨none, 0, ⟨[], [], [], true⟩⟩) ↔
      RoomFor sampleTable ⟨[], [], [], true⟩ sampleOptions.chars :=
  inTable_iff sampleTable none ⟨none, 0, ⟨[], [], [], true⟩⟩ sampleOptions (by decide)
    (defaultInForce_of_decomposes decomposes_sampleOptions (by decide))

/-- One unknown flag more than the table has entries. -/
def manyUnknown : CString := ⟨(List.replicate 21 "u=1 ".toList).flatten, by decide +kernel⟩

theorem manyUnknown_overruns :
    parseString sampleTable (some manyUnknown) none ⟨none, 0, ⟨[], [], [], true⟩⟩ =
      .error (.overrun 20) := by
  rfl

end CritPath.Options
