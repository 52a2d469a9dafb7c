import CritPath.Lib.Scan

/-!
# The parser of the runtime options

`FlagParser` reads an option string through `buf_` and `pos_` and runs the
handler of each flag it finds. A string is given by its characters before the
terminating NUL (`CString`); reading behind the NUL, a loop that does not end and
a write outside the table of unknown flags are outcomes of their own (`Stop`), as
is `Die`, which ends the process.

The handlers are a parameter (`FlagTable`): they may read and change settings, of
which the parser itself depends on `continue_on_error` through the check in
`UnknownFlags::Add`. `cptTable` is the table that `InitializeCptFlags` registers.
-/

namespace CritPath.Options

open Lib Lib.Scan

abbrev Text := List Char

def nul : Char := '\x00'

/-- A NUL-terminated string. -/
structure CString where
  chars : Text
  noNul : nul ∉ chars

def kMaxUnknownFlags : ℕ := 20

/-- The registered flags: their names, and `Parse` of the handler of each: whether it succeeds,
and the settings it leaves. -/
structure FlagTable (σ : Type) where
  names : List Text
  parse : ℕ → Text → σ → Bool × σ
  continueOnError : σ → Bool

/-- What `run_handler` does: the handler of a flag is run, or an unknown name is put down. -/
inductive Event
  | parse (flag : ℕ) (value : Text)
  | add (name : Text)
  deriving DecidableEq

/-- What the flags read so far have left: the values kept in `pointers`, the global `unknown_flags`
(`n_unknown_flags_` is the length of the list), the handlers run and the settings behind them. -/
structure Effects (σ : Type) where
  pointers : List Text := []
  unknown : List Text := []
  events : List Event := []
  settings : σ

structure FlagParser (σ : Type) where
  buf : Option CString := none
  pos : ℕ := 0
  effects : Effects σ

/-- How a call can end other than by returning. -/
inductive Stop
  /-- `Die`, after this message. -/
  | died (message : String)
  /-- `buf_` is read behind its NUL. -/
  | overread
  | endless
  /-- `unknown_flags_` is written at an index it does not have; what follows is undefined. -/
  | overrun (index : ℕ)
  deriving DecidableEq

abbrev Outcome (α : Type) := Except Stop α

/-! ## Reading -/

def sanitizerToolName : String := "OFTCPT"

def fatalError {α : Type} (err : String) : Outcome α :=
  .error (.died (sanitizerToolName ++ ": ERROR: " ++ err ++ "\n"))

def isSpace (c : Char) : Bool :=
  c == ' ' || c == ',' || c == ':' || c == '\n' || c == '\t' || c == '\r'

def isQuote (c : Char) : Bool := c == '\x27' || c == '\x22'

def readAt (s : CString) (pos : ℕ) : Outcome Char :=
  match charAt nul s.chars pos with
  | none => .error .overread
  | some c => .ok c

/-- `while (cond(buf_[pos])) ++pos;` -/
def scan (cond : Char → Bool) (s : CString) (pos : ℕ) : Outcome ℕ :=
  match advance nul cond s.chars (s.chars.length + 1) pos with
  | .ok pos => .ok pos
  | .error .overread => .error .overread
  | .error .endless => .error .endless

def llStrndup (s : CString) (start n : ℕ) : Text :=
  ((s.chars.drop start).take n).takeWhile (· != nul)

/-- The part of `parse_flag` up to the `=`: the name and the position behind the `=`. -/
def parseName (envOptionName : Option String) (s : CString) (pos : ℕ) : Outcome (Text × ℕ) := do
  let nameStart := pos
  let pos ← scan (fun c => c != nul && c != '=' && !isSpace c) s pos
  let c ← readAt s pos
  if c != '=' then
    match envOptionName with
    | some env =>
      .error (.died (sanitizerToolName ++ ": ERROR: expected '=' in " ++ env ++ "\n"))
    | none => fatalError "expected '='"
  else .ok (llStrndup s nameStart (pos - nameStart), pos + 1)

/-- The part of `parse_flag` behind the `=`: the value and the position behind it. -/
def parseValue (s : CString) (pos : ℕ) : Outcome (Text × ℕ) := do
  let valueStart := pos
  let quote ← readAt s pos
  if isQuote quote then
    let pos ← scan (fun c => c != nul && c != quote) s (pos + 1)
    let c ← readAt s pos
    if c == nul then fatalError "unterminated string"
    else .ok (llStrndup s (valueStart + 1) (pos - valueStart - 1), pos + 1)
  else
    let pos ← scan (fun c => c != nul && !isSpace c) s pos
    let c ← readAt s pos
    if c != nul && !isSpace c then fatalError "expected separator or eol"
    else .ok (llStrndup s valueStart (pos - valueStart), pos)

/-! ## Handling -/

section
variable {σ : Type} (T : FlagTable σ)

/-- `CHECK_LT`: a failed check reports, and returns if `continue_on_error` is set. -/
def checkLt (e : Effects σ) (v1 v2 : ℕ) (cond : String) : Outcome Unit :=
  if v1 < v2 then .ok ()
  else if T.continueOnError e.settings then .ok ()
  else .error (.died ("Check failed " ++ cond))

def add (e : Effects σ) (name : Text) : Outcome (Effects σ) := do
  checkLt T e e.unknown.length kMaxUnknownFlags "(n_unknown_flags_) < (kMaxUnknownFlags)"
  if e.unknown.length < kMaxUnknownFlags then
    .ok { e with unknown := e.unknown ++ [name], events := e.events ++ [.add name] }
  else .error (.overrun e.unknown.length)

/-- The first registered flag of a name. -/
def FlagTable.index (name : Text) : Option ℕ := T.names.findIdx? (· == name)

def runHandler (e : Effects σ) (name value : Text) : Outcome (Bool × Effects σ) :=
  match T.index name with
  | some i =>
    let r := T.parse i value e.settings
    .ok (r.1, { e with settings := r.2, events := e.events ++ [.parse i value] })
  | none => do
    let e ← add T e name
    .ok (true, e)

/-- The end of `parse_flag`: the handler is run and the value kept. -/
def handle (e : Effects σ) (name value : Text) : Outcome (Effects σ) := do
  let (res, e) ← runHandler T e name value
  let e := { e with pointers := e.pointers ++ [value] }
  if !res then fatalError "Flag parsing failed." else .ok e

def parseFlag (envOptionName : Option String) (s : CString) (p : FlagParser σ) :
    Outcome (FlagParser σ) := do
  let (name, pos) ← parseName envOptionName s p.pos
  let (value, pos) ← parseValue s pos
  let effects ← handle T p.effects name value
  .ok { p with pos, effects }

/-- The loop of `parse_flags`, in at most `steps` rounds. -/
def parseFlags (envOptionName : Option String) (s : CString) :
    ℕ → FlagParser σ → Outcome (FlagParser σ)
  | 0, _ => .error .endless
  | steps + 1, p => do
    let pos ← scan isSpace s p.pos
    let c ← readAt s pos
    if c == nul then .ok { p with pos }
    else do
      let p ← parseFlag T envOptionName s { p with pos }
      parseFlags envOptionName s steps p

def parseString (s : Option CString) (envOptionName : Option String) (p : FlagParser σ) :
    Outcome (FlagParser σ) :=
  match s with
  | none => .ok p
  | some s => do
    let p' ← parseFlags T envOptionName s (s.chars.length + 1)
      { p with buf := some s, pos := 0 }
    .ok { p' with buf := p.buf, pos := p.pos }

end

/-! ## The registered flags -/

inductive FlagType
  | bool
  | int
  | double
  | text
  deriving DecidableEq

/-- `parse_flags.inc`. -/
def cptFlags : List (String × FlagType) :=
  [("print_max_rss", .bool), ("verbose", .bool), ("enabled", .bool), ("report_data_leak", .bool),
   ("stopped", .bool), ("start_with_library_constructor", .bool), ("dump_on_stop", .bool),
   ("barrier", .bool), ("colorize", .bool), ("help", .bool), ("stacktrace", .bool),
   ("abort_on_error", .bool), ("continue_on_error", .bool), ("metric_factor", .int),
   ("exitcode", .int), ("runtime", .double), ("log_path", .text), ("data_path", .text)]

def parseBool (value : Text) : Option Bool :=
  if value ∈ ["0".toList, "no".toList, "false".toList] then some false
  else if value ∈ ["1".toList, "yes".toList, "true".toList] then some true
  else none

/-- The handlers of these flags on the setting `continue_on_error`; `strtoll` and `strtod` say
whether the C library converts the whole text. -/
def cptTable (strtoll strtod : Text → Bool) : FlagTable Bool where
  names := cptFlags.map fun f => f.1.toList
  parse i value continueOnError :=
    match cptFlags[i]? with
    | some (name, .bool) =>
      match parseBool value with
      | some b => (true, if name = "continue_on_error" then b else continueOnError)
      | none => (false, continueOnError)
    | some (_, .int) => (strtoll value, continueOnError)
    | some (_, .double) => (strtod value, continueOnError)
    | some (_, .text) => (true, continueOnError)
    | none => (false, continueOnError)
  continueOnError := id

end CritPath.Options
