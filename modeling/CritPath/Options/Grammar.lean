import CritPath.Options.FlagParser

/-!
# The grammar of option strings

An option string is a sequence of separators and flags `name=value`. The value
is quoted, and ends with its closing quote, or plain, and ends before the next
separator. `Decomposes s ts` says that `s` is made of the tokens `ts`; a plain
value has to be judged together with what follows it, so beginnings of a string
(`Begins`) are stated with the text that remains.

`next` reads the first token off a text. It inverts `render`
(`next_render`, `of_next`), hence decompositions are unique, and it is what one
round of the parser does (`parseFlag_of_next`, `parseFlag_of_next_none`).
-/

namespace CritPath.Options

open Lib Lib.Scan

inductive Token
  | sep (c : Char)
  | quoted (name : Text) (quote : Char) (text : Text)
  | plain (name value : Text)
  deriving DecidableEq

def nameChar (c : Char) : Bool := c != '=' && !isSpace c

def plainChar (c : Char) : Bool := !isSpace c

def textChar (quote c : Char) : Bool := c != quote

def IsName (name : Text) : Prop := ∀ c ∈ name, nameChar c = true

namespace Token

def render : Token → Text
  | sep c => [c]
  | quoted name quote text => name ++ '=' :: quote :: (text ++ [quote])
  | plain name value => name ++ '=' :: value

/-- The token may stand before `rest`. -/
def Valid (rest : Text) : Token → Prop
  | sep c => isSpace c = true
  | quoted name quote text => IsName name ∧ isQuote quote = true ∧ quote ∉ text
  | plain name value =>
    IsName name ∧ (∀ c ∈ value, isSpace c = false) ∧
      (∀ c, value.head? = some c → isQuote c = false) ∧ ∀ c, rest.head? = some c → isSpace c = true

def flag : Token → Option (Text × Text)
  | sep _ => none
  | quoted name _ text => some (name, text)
  | plain name value => some (name, value)

end Token

def renderAll (ts : List Token) : Text := ts.flatMap Token.render

def flags (ts : List Token) : List (Text × Text) := ts.filterMap Token.flag

def WellFormed (rest : Text) : List Token → Prop
  | [] => True
  | t :: ts => t.Valid (renderAll ts ++ rest) ∧ WellFormed rest ts

def Begins (s : Text) (ts : List Token) (rest : Text) : Prop :=
  s = renderAll ts ++ rest ∧ WellFormed rest ts

def Decomposes (s : Text) (ts : List Token) : Prop := Begins s ts []

theorem begins_nil {s rest : Text} : Begins s [] rest ↔ s = rest := by
  simp [Begins, renderAll, WellFormed]

theorem begins_cons {s rest : Text} {t : Token} {ts : List Token} :
    Begins s (t :: ts) rest ↔
      ∃ mid, s = t.render ++ mid ∧ t.Valid mid ∧ Begins mid ts rest := by
  simp only [Begins, renderAll, WellFormed, List.flatMap_cons, List.append_assoc]
  constructor
  · rintro ⟨rfl, ht, hts⟩
    exact ⟨_, rfl, ht, rfl, hts⟩
  · rintro ⟨mid, rfl, ht, rfl, hts⟩
    exact ⟨rfl, ht, hts⟩

/-! ## The first token -/

/-- The token whose value starts the text. -/
def nextValue (name : Text) : Text → Option (Token × Text)
  | [] => some (.plain name [], [])
  | c :: v =>
    if isQuote c then
      match v.dropWhile (textChar c) with
      | [] => none
      | _ :: rest => some (.quoted name c (v.takeWhile (textChar c)), rest)
    else some (.plain name ((c :: v).takeWhile plainChar), (c :: v).dropWhile plainChar)

/-- The first token of a text and what remains. -/
def next : Text → Option (Token × Text)
  | [] => none
  | c :: s =>
    if isSpace c then some (.sep c, s)
    else match (c :: s).dropWhile nameChar with
      | [] => none
      | e :: v => if e == '=' then nextValue ((c :: s).takeWhile nameChar) v else none

section
variable {name v s rest : Text} {t : Token}

theorem isSpace_of_isQuote {c : Char} (h : isQuote c = true) : isSpace c = false := by
  simp only [isQuote, Bool.or_eq_true, beq_iff_eq] at h
  rcases h with rfl | rfl <;> decide

theorem nameChar_eq : nameChar '=' = false := by decide

theorem takeWhile_name (h : IsName name) : (name ++ '=' :: v).takeWhile nameChar = name :=
  takeWhile_append_eq h fun c hc => by
    obtain rfl : '=' = c := by simpa using hc
    exact nameChar_eq

theorem dropWhile_name (h : IsName name) : (name ++ '=' :: v).dropWhile nameChar = '=' :: v :=
  dropWhile_append_eq h fun c hc => by
    obtain rfl : '=' = c := by simpa using hc
    exact nameChar_eq

theorem next_name (h : IsName name) : next (name ++ '=' :: v) = nextValue name v := by
  have hd := dropWhile_name (v := v) h
  have ht := takeWhile_name (v := v) h
  obtain ⟨c, s, hcs⟩ : ∃ c s, name ++ '=' :: v = c :: s := by
    cases name with
    | nil => exact ⟨'=', v, rfl⟩
    | cons c name => exact ⟨c, name ++ '=' :: v, rfl⟩
  have hc : isSpace c = false := by
    cases name with
    | nil =>
      obtain ⟨rfl, -⟩ : '=' = c ∧ v = s := by simpa using hcs
      decide
    | cons b name =>
      obtain ⟨rfl, -⟩ : b = c ∧ name ++ '=' :: v = s := by simpa using hcs
      have := h b List.mem_cons_self
      simp only [nameChar, Bool.and_eq_true, Bool.not_eq_true'] at this
      exact this.2
  rw [hcs] at hd ht ⊢
  simp only [next, hc, hd, ht]
  simp

theorem nextValue_quoted {q : Char} {text : Text} (hq : isQuote q = true) (htext : q ∉ text) :
    nextValue name (q :: (text ++ q :: rest)) = some (.quoted name q text, rest) := by
  have hall : ∀ c ∈ text, textChar q c = true := fun c hc => by
    simp only [textChar, bne_iff_ne, ne_eq]
    rintro rfl
    exact htext hc
  have hstop : ∀ c, (q :: rest).head? = some c → textChar q c = false := fun c hc => by
    obtain rfl : q = c := by simpa using hc
    simp [textChar]
  simp only [nextValue, hq, if_true, takeWhile_append_eq hall hstop,
    dropWhile_append_eq hall hstop]

theorem nextValue_plain {value : Text} (hval : ∀ c ∈ value, isSpace c = false)
    (hquote : ∀ c, value.head? = some c → isQuote c = false)
    (hrest : ∀ c, rest.head? = some c → isSpace c = true) :
    nextValue name (value ++ rest) = some (.plain name value, rest) := by
  have hall : ∀ c ∈ value, plainChar c = true := fun c hc => by simp [plainChar, hval c hc]
  have hstop : ∀ c, rest.head? = some c → plainChar c = false := fun c hc => by
    simp [plainChar, hrest c hc]
  have htake := takeWhile_append_eq hall hstop
  have hdrop := dropWhile_append_eq hall hstop
  cases hv : value ++ rest with
  | nil =>
    obtain ⟨rfl, rfl⟩ := List.append_eq_nil_iff.mp hv
    rfl
  | cons c v =>
    have hc : isQuote c = false := by
      cases value with
      | nil =>
        obtain rfl : rest = c :: v := by simpa using hv
        cases hq : isQuote c with
        | false => rfl
        | true => exact absurd (isSpace_of_isQuote hq) (by rw [hrest c rfl]; decide)
      | cons b value =>
        obtain ⟨rfl, -⟩ : b = c ∧ value ++ rest = v := by simpa using hv
        exact hquote b rfl
    rw [hv] at htake hdrop
    simp only [nextValue, hc, htake, hdrop]
    simp

theorem next_render (h : t.Valid rest) : next (t.render ++ rest) = some (t, rest) := by
  cases t with
  | sep c =>
    have hc : isSpace c = true := h
    simp [next, Token.render, hc]
  | quoted name q text =>
    obtain ⟨hname, hq, htext⟩ := h
    simp only [Token.render, List.append_assoc, List.cons_append, List.nil_append]
    rw [next_name hname, nextValue_quoted hq htext]
  | plain name value =>
    obtain ⟨hname, hval, hquote, hrest⟩ := h
    simp only [Token.render, List.append_assoc, List.cons_append]
    rw [next_name hname, nextValue_plain hval hquote hrest]

theorem isName_takeWhile (s : Text) : IsName (s.takeWhile nameChar) :=
  fun _ hc => List.mem_takeWhile_imp hc

theorem of_nextValue (hname : IsName name) (h : nextValue name v = some (t, rest)) :
    name ++ '=' :: v = t.render ++ rest ∧ t.Valid rest ∧ t.flag.isSome := by
  cases v with
  | nil =>
    obtain ⟨rfl, rfl⟩ : Token.plain name [] = t ∧ [] = rest := by simpa [nextValue] using h
    exact ⟨by simp [Token.render], ⟨hname, by simp, by simp, by simp⟩, rfl⟩
  | cons c v =>
    simp only [nextValue] at h
    split at h
    · rename_i hq
      split at h
      · cases h
      · rename_i b rest' hdrop
        obtain ⟨rfl, rfl⟩ : Token.quoted name c (v.takeWhile (textChar c)) = t ∧ rest' = rest := by
          simpa using h
        have hb : textChar c b = false := head?_dropWhile (s := v) (by rw [hdrop]; rfl)
        obtain rfl : b = c := by simpa [textChar] using hb
        have hv : v.takeWhile (textChar b) ++ b :: rest' = v := by
          rw [← hdrop]; exact List.takeWhile_append_dropWhile
        refine ⟨?_, ⟨hname, hq, fun hmem => ?_⟩, rfl⟩
        · simp only [Token.render, List.append_assoc, List.cons_append, List.nil_append, hv]
        · have := List.mem_takeWhile_imp hmem
          simp [textChar] at this
    · rename_i hq
      obtain ⟨rfl, rfl⟩ : Token.plain name ((c :: v).takeWhile plainChar) = t ∧
          (c :: v).dropWhile plainChar = rest := by simpa using h
      refine ⟨?_, ⟨hname, fun b hb => ?_, fun b hb => ?_, fun b hb => ?_⟩, rfl⟩
      · simp only [Token.render, List.append_assoc, List.cons_append,
          List.takeWhile_append_dropWhile]
      · have := List.mem_takeWhile_imp hb
        simpa [plainChar] using this
      · by_cases hc : plainChar c = true
        · rw [List.takeWhile_cons_of_pos hc] at hb
          obtain rfl : c = b := by simpa using hb
          simpa using hq
        · rw [List.takeWhile_cons_of_neg hc] at hb
          simp at hb
      · have := head?_dropWhile hb
        simpa [plainChar] using this

theorem of_next (h : next s = some (t, rest)) : s = t.render ++ rest ∧ t.Valid rest := by
  cases s with
  | nil => simp [next] at h
  | cons c s =>
    simp only [next] at h
    split at h
    · rename_i hc
      obtain ⟨rfl, rfl⟩ : Token.sep c = t ∧ s = rest := by simpa using h
      exact ⟨rfl, hc⟩
    · split at h
      · cases h
      · rename_i e v hdrop
        split at h
        · rename_i he
          obtain rfl : e = '=' := by simpa using he
          obtain ⟨heq, hvalid, -⟩ := of_nextValue (isName_takeWhile _) h
          refine ⟨?_, hvalid⟩
          rw [← heq, ← hdrop, List.takeWhile_append_dropWhile]
        · cases h

end

/-! ## Decompositions -/

section
variable {s rest : Text} {t : Token} {ts us : List Token}

theorem begins_cons_iff :
    Begins s (t :: ts) rest ↔ ∃ mid, next s = some (t, mid) ∧ Begins mid ts rest := by
  rw [begins_cons]
  constructor
  · rintro ⟨mid, rfl, hvalid, hts⟩
    exact ⟨mid, next_render hvalid, hts⟩
  · rintro ⟨mid, hnext, hts⟩
    obtain ⟨heq, hvalid⟩ := of_next hnext
    exact ⟨mid, heq, hvalid, hts⟩

theorem decomposes_cons_iff :
    Decomposes s (t :: ts) ↔ ∃ mid, next s = some (t, mid) ∧ Decomposes mid ts :=
  begins_cons_iff

@[simp] theorem decomposes_nil_iff : Decomposes s [] ↔ s = [] := begins_nil

/-- A string has at most one decomposition. -/
theorem decomposes_unique (h : Decomposes s ts) (h' : Decomposes s us) : ts = us := by
  induction ts generalizing s us with
  | nil =>
    obtain rfl := decomposes_nil_iff.mp h
    cases us with
    | nil => rfl
    | cons u us =>
      obtain ⟨mid, hnext, -⟩ := decomposes_cons_iff.mp h'
      simp [next] at hnext
  | cons t ts ih =>
    obtain ⟨mid, hnext, hts⟩ := decomposes_cons_iff.mp h
    cases us with
    | nil =>
      obtain rfl := decomposes_nil_iff.mp h'
      simp [next] at hnext
    | cons u us =>
      obtain ⟨mid', hnext', hus⟩ := decomposes_cons_iff.mp h'
      obtain ⟨rfl, rfl⟩ : t = u ∧ mid = mid' := by simpa [hnext] using hnext'
      rw [ih hts hus]

end

end CritPath.Options
