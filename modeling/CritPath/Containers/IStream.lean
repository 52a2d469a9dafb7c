import CritPath.Containers.String
import Mathlib.Data.Int.Notation

/-!
# Input streams

`StreamBuf` has a get area (`gptr` to `egptr`) and leaves it to the derived class
to fill it (`underflow`). `IStream` reads numbers, words and lines through it. The
functions are over any derived class with states `S`.

A call has no result where it reads or writes outside its storage, or where a
loop has not ended after `fuel` rounds. The characters a call is shown and takes
are recorded as events: `follows` says what a buffer that delivers a text, each
character once and then the end of file, may show.
-/

namespace CritPath.Containers

/-- `peek` is the answer to a look at the next character, `none` at the end of file; `take` are
characters handed out, with the distance the read pointer moves for them. -/
inductive Event
  | peek (o : Option Char)
  | take (cs : List Char) (k : ℤ)
  deriving DecidableEq

/-- A derived class of the stream buffer: its read pointers, the character at an address, and
`underflow`, whose answer is `none` at the end of file. -/
structure StreamBuf (S : Type) where
  gptr : S → ℕ
  egptr : S → ℕ
  setGptr : S → ℕ → S
  deref : S → ℕ → Option Char
  underflow : S → Option (Option Char × S)

/-- The buffer, the state bits and the strings that are read into. (`badbit` is never set.) -/
structure IStream (S : Type) where
  buf : S
  eofbit : Bool := false
  failbit : Bool := false
  strings : World Char := {}

/-- A call on a stream, with its answer, the stream afterwards and the events. -/
def Reader (S α : Type) := IStream S → Option (α × IStream S × List Event)

namespace Reader

variable {S α β : Type}

protected def pure (a : α) : Reader S α := fun st => some (a, st, [])

protected def bind (m : Reader S α) (f : α → Reader S β) : Reader S β := fun st =>
  (m st).bind fun r => (f r.1 r.2.1).map fun r' => (r'.1, r'.2.1, r.2.2 ++ r'.2.2)

instance : Monad (Reader S) where
  pure := Reader.pure
  bind := Reader.bind

def stream : Reader S (IStream S) := fun st => some (st, st, [])

def modify (f : IStream S → IStream S) : Reader S Unit := fun st => some ((), f st, [])

def onStrings (f : World Char → Option (World Char)) : Reader S Unit := fun st =>
  (f st.strings).map fun w => ((), { st with strings := w }, [])

def unfinished : Reader S α := fun _ => none

end Reader

open Reader

variable {S : Type} (B : StreamBuf S)

/-! ## The stream buffer -/

/-- `static_cast<int>`. -/
def toInt (n : ℕ) : ℤ := (BitVec.ofNat 32 n).toInt

theorem toInt_eq_iff (n : ℕ) : toInt n = n ↔ n < 2 ^ 31 := by
  constructor
  · intro h
    have hlt := (BitVec.ofNat 32 n).toInt_lt
    rw [toInt] at h
    omega
  · intro h
    rw [toInt, BitVec.toInt_eq_toNat_of_lt, BitVec.toNat_ofNat, Nat.mod_eq_of_lt (by omega)]
    rw [BitVec.toNat_ofNat, Nat.mod_eq_of_lt (by omega)]
    omega

def StreamBuf.ahead (b : S) (n : ℕ) : Option (List Char) :=
  ((List.range n).map fun i => B.deref b (B.gptr b + i)).mapM id

theorem StreamBuf.ahead_eq_some {B : StreamBuf S} {b : S} {cs : List Char}
    (h : ∀ i (hi : i < cs.length), B.deref b (B.gptr b + i) = some cs[i]) :
    B.ahead b cs.length = some cs := by
  have hmap : (List.range cs.length).map (fun i => B.deref b (B.gptr b + i)) = cs.map some := by
    refine List.ext_getElem (by simp) fun i hi hi' => ?_
    rw [List.length_map, List.length_range] at hi
    rw [List.getElem_map, List.getElem_map, List.getElem_range]
    exact h i hi
  rw [StreamBuf.ahead, hmap, mapM_some]

def gbump (n : ℕ) : Reader S Unit := fun st =>
  (B.ahead st.buf n).map fun cs =>
    ((), { st with buf := B.setGptr st.buf ((B.gptr st.buf : ℤ) + toInt n).toNat },
      [.take cs (toInt n)])

def sgetc : Reader S (Option Char) := fun st =>
  if B.gptr st.buf ≥ B.egptr st.buf then
    (B.underflow st.buf).bind fun (o, b) =>
      match o with
      | none => some (none, { st with buf := b }, [.peek none])
      | some _ => (B.deref b (B.gptr b)).map fun c =>
          (some c, { st with buf := b }, [.peek (some c)])
  else (B.deref st.buf (B.gptr st.buf)).map fun c => (some c, st, [.peek (some c)])

section
variable {B} {st : IStream S} {b : S} {c c' : Char}

theorem sgetc_of_area (h : B.gptr st.buf < B.egptr st.buf)
    (hc : B.deref st.buf (B.gptr st.buf) = some c) :
    sgetc B st = some (some c, st, [.peek (some c)]) := by
  unfold sgetc
  rw [if_neg (by omega), hc]
  rfl

theorem sgetc_of_underflow (h : B.gptr st.buf ≥ B.egptr st.buf)
    (hb : B.underflow st.buf = some (some c', b)) (hc : B.deref b (B.gptr b) = some c) :
    sgetc B st = some (some c, { st with buf := b }, [.peek (some c)]) := by
  unfold sgetc
  rw [if_pos h, hb]
  change (B.deref b (B.gptr b)).map _ = _
  rw [hc]
  rfl

theorem sgetc_of_eof (h : B.gptr st.buf ≥ B.egptr st.buf)
    (hb : B.underflow st.buf = some (none, b)) :
    sgetc B st = some (none, { st with buf := b }, [.peek none]) := by
  unfold sgetc
  rw [if_pos h, hb]
  rfl

end

def sbumpc : Reader S (Option Char) := do
  let o ← sgetc B
  match o with
  | none => return none
  | some c =>
    gbump B 1
    return some c

/-! ## Extraction -/

def isspace (c : Char) : Bool :=
  c == ' ' || c == '\t' || c == '\n' || c == '\x0b' || c == '\x0c' || c == '\r'

def isdigit (c : Char) : Bool := '0'.toNat ≤ c.toNat && c.toNat ≤ '9'.toNat

/-- `while (c != EOF && p(c)) { act; buf_->gbump(1); c = buf_->sgetc(); }`, with `a` what `act`
accumulates. The answer has the character that ends the loop. -/
def scanWhile {α : Type} (p : Char → Bool) (act : α → Char → Reader S α) :
    ℕ → α → Option Char → Reader S (α × Option Char)
  | 0, _, _ => unfinished
  | _ + 1, a, none => pure (a, none)
  | fuel + 1, a, some c =>
    if p c then do
      let a ← act a c
      gbump B 1
      let o ← sgetc B
      scanWhile p act fuel a o
    else pure (a, some c)

def skipWs (fuel : ℕ) : Reader S Unit := do
  let _ ← sgetc B >>= scanWhile B isspace (fun _ _ => pure ()) fuel ()
  return ()

/-- `v = v * 10 + (c - '0'); digits_read = true;` -/
def addDigit (v : BitVec 32 × Bool) (c : Char) : Reader S (BitVec 32 × Bool) :=
  pure (v.1 * 10 + (BitVec.ofNat 32 c.toNat - BitVec.ofNat 32 '0'.toNat), true)

/-- `setstate` after a loop: the end of file was reached, or nothing was read. -/
def finish (o : Option Char) (read : Bool) : Reader S Unit :=
  modify fun st =>
    { st with eofbit := st.eofbit || o.isNone, failbit := st.failbit || !read }

/-- The sign of a number and the character behind it, from the character `o` on. -/
def readSign (o : Option Char) : Reader S (BitVec 32 × Option Char) :=
  if o = some '-' then do
    gbump B 1
    let o ← sgetc B
    return (-1, o)
  else if o = some '+' then do
    gbump B 1
    let o ← sgetc B
    return (1, o)
  else return (1, o)

/-- The answer is the value of `v`, if it was assigned. -/
def extractInt (fuel : ℕ) : Reader S (Option (BitVec 32)) := do
  if (← stream).failbit then return none
  skipWs B fuel
  let o ← sgetc B
  let (sign, o) ← readSign B o
  let ((v, digits_read), o) ← scanWhile B isdigit addDigit fuel (0, false) o
  finish o digits_read
  return some (v * sign)

def extractUint (fuel : ℕ) : Reader S (Option (BitVec 32)) := do
  if (← stream).failbit then return none
  skipWs B fuel
  let ((v, digits_read), o) ← sgetc B >>= scanWhile B isdigit addDigit fuel (0, false)
  finish o digits_read
  return some v

def extractString (v fuel : ℕ) : Reader S Unit := do
  if (← stream).failbit then return ()
  skipWs B fuel
  onStrings fun w => String.clear w v
  let (chars_read, o) ← sgetc B >>= scanWhile B (fun c => !isspace c)
    (fun _ c => do
      onStrings fun w => String.pushBack w v c
      return true) fuel false
  finish o chars_read

/-- `c == delim` for a character that was read: it is not negative, a `char` above 127 is. -/
def sameInt (c delim : Char) : Bool := c == delim && decide (delim.toNat < 128)

/-- The characters from `gptr()` to `egptr()`. -/
def window : Reader S (List Char) := fun st =>
  (B.ahead st.buf (B.egptr st.buf - B.gptr st.buf)).map (·, st, [])

def getlineLoop (v : ℕ) (delim : Char) : ℕ → Reader S Bool
  | 0 => unfinished
  | fuel + 1 => do
    let st ← stream
    if B.gptr st.buf = B.egptr st.buf then do
      let o ← sbumpc B
      match o with
      | none =>
        let st ← stream
        let empty := String.size st.strings v = 0
        modify fun st => { st with eofbit := true, failbit := st.failbit || empty }
        return !empty
      | some c =>
        if sameInt c delim then return true
        else do
          onStrings fun w => String.pushBack w v c
          getlineLoop v delim fuel
    else do
      let chunk ← window B
      -- `memchr`
      match chunk.idxOf? delim with
      | some n =>
        onStrings fun w => String.appendRange w v (.elsewhere (chunk.take n))
        gbump B (n + 1)
        return true
      | none =>
        onStrings fun w => String.appendRange w v (.elsewhere chunk)
        gbump B chunk.length
        getlineLoop v delim fuel

def getline (v : ℕ) (delim : Char) (fuel : ℕ) : Reader S Bool := do
  if (← stream).failbit then return false
  onStrings fun w => String.clear w v
  getlineLoop B v delim fuel

/-! ## Runs of calls -/

inductive StreamCall
  | sgetc
  | sbumpc
  | int
  | uint
  | word (v : ℕ)
  | line (v : ℕ) (delim : Char)

inductive StreamAnswer
  | char (o : Option Char)
  | number (o : Option (BitVec 32))
  | none
  | bool (b : Bool)
  deriving DecidableEq

def StreamCall.run (fuel : ℕ) : StreamCall → Reader S StreamAnswer
  | sgetc => do return .char (← Containers.sgetc B)
  | sbumpc => do return .char (← Containers.sbumpc B)
  | int => do return .number (← extractInt B fuel)
  | uint => do return .number (← extractUint B fuel)
  | word v => do
    extractString B v fuel
    return .none
  | line v delim => do return .bool (← getline B v delim fuel)

def runCalls (fuel : ℕ) : List StreamCall → Reader S (List StreamAnswer)
  | [] => pure []
  | call :: calls => do
    let a ← call.run B fuel
    let as ← runCalls fuel calls
    return a :: as

/-! ## What the events may be -/

/-- What is left of a text after the events, if they are those of a buffer that delivers the text:
a look shows the next character, and the end of file exactly when there is none; what is handed out
is what comes next, and the read pointer moves with it. -/
def follows : List Char → List Event → Option (List Char)
  | rest, [] => some rest
  | rest, .peek o :: t => if o = rest.head? then follows rest t else none
  | rest, .take cs k :: t =>
    if cs <+: rest ∧ k = cs.length then follows (rest.drop cs.length) t else none

theorem follows_append (rest : List Char) (t t' : List Event) :
    follows rest (t ++ t') = (follows rest t).bind fun rest => follows rest t' := by
  induction t generalizing rest with
  | nil => rfl
  | cons e t ih =>
    cases e with
    | peek o =>
      simp only [List.cons_append, follows]
      split
      · exact ih rest
      · rfl
    | take cs k =>
      simp only [List.cons_append, follows]
      split
      · exact ih _
      · rfl

section
variable {α β : Type} {m : Reader S α} {f : α → Reader S β} {st st' st'' : IStream S}
  {rest rest' rest'' : List Char} {a : α} {b : β}

/-- The call returns, and shows and takes what it should. -/
def Reads (m : Reader S α) (st : IStream S) (rest : List Char) (a : α) (st' : IStream S)
    (rest' : List Char) : Prop :=
  ∃ t, m st = some (a, st', t) ∧ follows rest t = some rest'

/-- Where the call returns, it has shown or taken something else than it should. -/
def Misreads (m : Reader S α) (st : IStream S) (rest : List Char) : Prop :=
  ∀ a st' t, m st = some (a, st', t) → follows rest t = none

theorem reads_pure (a : α) (st : IStream S) (rest : List Char) :
    Reads (pure a : Reader S α) st rest a st rest := ⟨[], rfl, rfl⟩

theorem reads_peek {m : Reader S (Option Char)} {o : Option Char}
    (hm : m st = some (o, st', [.peek o])) (ho : o = rest.head?) : Reads m st rest o st' rest :=
  ⟨[.peek o], hm, by rw [follows, if_pos ho]; rfl⟩

theorem reads_gbump {cs : List Char} (hcs : B.ahead st.buf cs.length = some cs)
    (hlen : cs.length < 2 ^ 31) (rest : List Char) :
    Reads (gbump B cs.length) st (cs ++ rest) ()
      { st with buf := B.setGptr st.buf (B.gptr st.buf + cs.length) } rest := by
  have hint := (toInt_eq_iff cs.length).mpr hlen
  have hnat : ((B.gptr st.buf : ℤ) + (cs.length : ℤ)).toNat = B.gptr st.buf + cs.length := by omega
  refine ⟨[.take cs cs.length], ?_, ?_⟩
  · rw [gbump, hcs, hint, hnat]
    rfl
  · simp [follows]

theorem Reads.bind (hm : Reads m st rest a st' rest') (hf : Reads (f a) st' rest' b st'' rest'') :
    Reads (m >>= f) st rest b st'' rest'' := by
  obtain ⟨t, ht, hr⟩ := hm
  obtain ⟨t', ht', hr'⟩ := hf
  refine ⟨t ++ t', ?_, ?_⟩
  · change Reader.bind m f st = _
    simp only [Reader.bind, ht, Option.bind_some, ht', Option.map_some]
  · rw [follows_append, hr]
    exact hr'

theorem bind_eq_some {t : List Event} (h : (m >>= f) st = some (b, st'', t)) :
    ∃ a st' t₁ t₂, m st = some (a, st', t₁) ∧ f a st' = some (b, st'', t₂) ∧ t = t₁ ++ t₂ := by
  obtain ⟨⟨a, st', t₁⟩, hm, hmap⟩ := Option.bind_eq_some_iff.mp h
  obtain ⟨⟨b', st₂, t₂⟩, hf, heq⟩ := Option.map_eq_some_iff.mp hmap
  simp only [Prod.mk.injEq] at heq
  obtain ⟨rfl, rfl, rfl⟩ := heq
  exact ⟨a, st', t₁, t₂, hm, hf, rfl⟩

theorem Reads.bind_left (h : Reads (m >>= f) st rest b st'' rest'') :
    ∃ a st' rest', Reads m st rest a st' rest' ∧ Reads (f a) st' rest' b st'' rest'' := by
  obtain ⟨t, ht, hr⟩ := h
  obtain ⟨a, st', t₁, t₂, h₁, h₂, rfl⟩ := bind_eq_some ht
  rw [follows_append] at hr
  obtain ⟨rest', hr₁, hr₂⟩ := Option.bind_eq_some_iff.mp hr
  exact ⟨a, st', rest', ⟨t₁, h₁, hr₁⟩, ⟨t₂, h₂, hr₂⟩⟩

theorem Reads.unique {a' : α} (h : Reads m st rest a st' rest')
    (h' : Reads m st rest a' st'' rest'') : a = a' ∧ st' = st'' ∧ rest' = rest'' := by
  obtain ⟨t, ht, hr⟩ := h
  obtain ⟨t', ht', hr'⟩ := h'
  rw [ht, Option.some.injEq, Prod.mk.injEq, Prod.mk.injEq] at ht'
  obtain ⟨rfl, rfl, rfl⟩ := ht'
  exact ⟨rfl, rfl, Option.some.inj (hr.symm.trans hr')⟩

theorem Reads.not_misreads (h : Reads m st rest a st' rest') : ¬Misreads m st rest := by
  obtain ⟨t, ht, hr⟩ := h
  intro hm
  rw [hm a st' t ht] at hr
  cases hr

theorem Misreads.bind (hm : Misreads m st rest) (f : α → Reader S β) :
    Misreads (m >>= f) st rest := by
  intro b st'' t h
  obtain ⟨a, st', t₁, t₂, h₁, -, rfl⟩ := bind_eq_some h
  rw [follows_append, hm a st' t₁ h₁]
  rfl

theorem Reads.bind_misreads (hm : Reads m st rest a st' rest')
    (hf : Misreads (f a) st' rest') : Misreads (m >>= f) st rest := by
  obtain ⟨t, ht, hr⟩ := hm
  intro b st'' t' h
  obtain ⟨a', st₁, t₁, t₂, h₁, h₂, rfl⟩ := bind_eq_some h
  rw [ht, Option.some.injEq, Prod.mk.injEq, Prod.mk.injEq] at h₁
  obtain ⟨rfl, rfl, rfl⟩ := h₁
  rw [follows_append, hr]
  exact hf b st'' t₂ h₂

end

end CritPath.Containers
