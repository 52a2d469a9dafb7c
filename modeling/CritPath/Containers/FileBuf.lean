import CritPath.Containers.IStream
import CritPath.Lib.Bytes

/-!
# File buffers

`FileBuf` derives from `StreamBuf`: a get area filled from the file by
`underflow`, and a put area that `sync` writes to the file. Each area is given by
pointers into a block of `bufSize` bytes. The pointers are spread over both
classes: `StreamBuf` has the read and write pointers and the ends, `FileBuf` the
blocks and the start of the put area, and `setg` and `setp` overwrite both.

The C library is modelled with its writes succeeding: `fwrite` fails only on a
stream that is not open for writing. A call has no result where it reads or
writes outside the block, aborts, or uses a file that is not open.
-/

namespace CritPath.Containers

open CritPath.Lib.Bytes

/-! ## The C library -/

/-- The mode strings of `fopen`. -/
inductive CMode
  | r | rPlus | w | wPlus | a | aPlus
  deriving DecidableEq

namespace CMode

def readable : CMode → Bool
  | r | rPlus | wPlus | aPlus => true
  | w | a => false

def writable : CMode → Bool
  | r => false
  | _ => true

def truncates : CMode → Bool
  | w | wPlus => true
  | _ => false

def appends : CMode → Bool
  | a | aPlus => true
  | _ => false

end CMode

/-- A stream of the C library: the bytes of the file, the position, and all bytes that were written
to the stream, in order. -/
structure CFile where
  mode : CMode
  content : List Char
  pos : ℕ := 0
  written : List Char := []

namespace CFile

def fopen (content : List Char) (mode : CMode) : CFile where
  mode := mode
  content := if mode.truncates then [] else content

/-- The stream after the bytes have been written: at the position, or at the end in append mode. A
gap behind the end of the file is filled with zeros. -/
def write (f : CFile) (bs : List Char) : CFile :=
  let start := if f.mode.appends then f.content.length else f.pos
  let padded := f.content ++ List.replicate (start - f.content.length) nul
  { f with
    content := padded.take start ++ bs ++ padded.drop (start + bs.length)
    pos := start + bs.length
    written := f.written ++ bs }

def next (f : CFile) (n : ℕ) : List Char :=
  if f.mode.readable then (f.content.drop f.pos).take n else []

end CFile

inductive Whence
  | set | cur | «end»

/-- The answer is 0, or -1 for a position before the start. -/
def CFile.fseek (f : CFile) (off : ℤ) (whence : Whence) : ℤ × CFile :=
  let target := off + match whence with
    | .set => 0
    | .cur => f.pos
    | .end => f.content.length
  if target < 0 then (-1, f) else (0, { f with pos := target.toNat })

/-! ## The buffer -/

/-- `readSize_` and `writeSize_`. -/
def bufSize : ℕ := 4096

/-- What `malloc` returns for the two blocks. -/
structure Layout where
  read : ℕ
  write : ℕ
  read_pos : 0 < read
  write_pos : 0 < write
  read_end : read + bufSize < 2 ^ 64
  write_end : write + bufSize < 2 ^ 64
  disjoint : read + bufSize ≤ write ∨ write + bufSize ≤ read

def sampleLayout : Layout where
  read := 4096
  write := 8192
  read_pos := by decide
  write_pos := by decide
  read_end := by decide
  write_end := by decide
  disjoint := .inl (by decide)

/-- The null pointer is 0. `file_` is null unless `isOpen`; `file` is then the stream that was open
last. -/
structure FileBuf where
  file : CFile := ⟨.r, [], 0, []⟩
  isOpen : Bool := false
  readPtr_ : ℕ := 0
  readEnd_ : ℕ := 0
  writePtr_ : ℕ := 0
  writeEnd_ : ℕ := 0
  readBuf_ : ℕ := 0
  writeBuf_ : ℕ := 0
  writeBase_ : ℕ := 0
  mem : ℕ → Char := fun _ => nul

/-- `ios_base::openmode`, with the bits that are looked at. -/
structure OpenMode where
  in_ : Bool := false
  out : Bool := false
  app : Bool := false
  trunc : Bool := false

def modeToCMode (mode : OpenMode) : Option CMode :=
  if mode.in_ && mode.out then
    if mode.app then some .aPlus
    else if mode.trunc then some .wPlus
    else some .rPlus
  else if mode.in_ then some .r
  else if mode.out then
    if mode.app then some .a
    else if mode.trunc then some .w
    else some .w
  else none

def ptrDiff (p q : ℕ) : ℕ := (p + 2 ^ 64 - q) % 2 ^ 64

namespace FileBuf

variable (L : Layout)

def setg (b : FileBuf) (base ptr end_ : ℕ) : FileBuf :=
  { b with readBuf_ := base, readPtr_ := ptr, readEnd_ := end_ }

def setp (b : FileBuf) (base end_ : ℕ) : FileBuf :=
  { b with writeBase_ := base, writePtr_ := base, writeEnd_ := end_ }

def initialiseBuffers (b : FileBuf) : FileBuf :=
  let b := { b with
    readBuf_ := if b.readBuf_ = 0 then L.read else b.readBuf_
    writeBuf_ := if b.writeBuf_ = 0 then L.write else b.writeBuf_ }
  let b := b.setg b.readBuf_ b.readBuf_ b.readBuf_
  let b := b.setp b.writeBuf_ (b.writeBuf_ + bufSize)
  { b with writeBase_ := b.writeBuf_ }

def invalidateBuffers (b : FileBuf) : FileBuf :=
  let b := b.setg 0 0 0
  let b := b.setp 0 0
  { b with writeBase_ := 0 }

/-- `open` of an existing file with the given content; `none` is the answer `nullptr`. -/
def open_ (b : FileBuf) (content : List Char) (mode : OpenMode) : Option FileBuf :=
  if b.isOpen then none
  else (modeToCMode mode).map fun m =>
    { b with file := .fopen content m, isOpen := true }.initialiseBuffers L

/-- `fread` into the read block; the answer is the number of bytes. -/
def fread (b : FileBuf) (base n : ℕ) : Option (ℕ × FileBuf) :=
  let bs := b.file.next n
  if bs = [] then some (0, b)
  else if L.read ≤ base ∧ base + n ≤ L.read + bufSize then
    some (bs.length, { b with
      mem := store b.mem base bs
      file := { b.file with pos := b.file.pos + bs.length } })
  else none

/-- `fwrite` from the write block; the answer is the number of bytes. -/
def fwrite (b : FileBuf) (base n : ℕ) : Option (ℕ × FileBuf) :=
  if !b.isOpen then none
  else if !b.file.mode.writable then some (0, b)
  else if L.write ≤ base ∧ base + n ≤ L.write + bufSize then
    some (n, { b with file := b.file.write (load b.mem base n) })
  else none

/-- The answer is 0 or `EOF`, which is -1. `fflush` succeeds. -/
def sync (b : FileBuf) : Option (ℤ × FileBuf) :=
  let pending := ptrDiff b.writePtr_ b.writeBase_
  if pending ≠ 0 then
    (b.fwrite L b.writeBase_ pending).map fun (n, b) =>
      if n ≠ pending then (-1, b) else (0, b)
  else some (0, b)

def underflow (b : FileBuf) : Option (Option Char × FileBuf) :=
  if !b.isOpen then some (none, b)
  else
    (b.fread L b.readBuf_ bufSize).map fun (n, b) =>
      if n = 0 then (none, b)
      else
        let b := b.setg b.readBuf_ b.readBuf_ (b.readBuf_ + n)
        (some (b.mem b.readPtr_), b)

/-- `fputc`, which fails on a stream that is not open for writing. -/
def fputc (b : FileBuf) (ch : Char) : Option FileBuf :=
  if b.isOpen && b.file.mode.writable then some { b with file := b.file.write [ch] } else none

def overflow (b : FileBuf) (ch : Char) : Option FileBuf :=
  (b.sync L).bind fun (rc, b) =>
    if rc ≠ 0 then none
    else (b.fputc ch).map fun b => b.setp 0 0

/-- `memcpy` to the write pointer, which then moves. -/
def copyIn (b : FileBuf) (cs : List Char) : Option FileBuf :=
  if L.write ≤ b.writePtr_ ∧ b.writePtr_ + cs.length ≤ L.write + bufSize then
    some { b with mem := store b.mem b.writePtr_ cs, writePtr_ := b.writePtr_ + cs.length }
  else none

def sputc (b : FileBuf) (c : Char) : Option FileBuf :=
  if b.writePtr_ = b.writeEnd_ then b.overflow L c else b.copyIn L [c]

/-- If there is no put area left, it is flushed and set up afresh. The answer is `false` for a write
error. -/
def refill (b : FileBuf) : Option (Bool × FileBuf) :=
  if b.writePtr_ = b.writeEnd_ then
    (b.sync L).map fun (rc, b) =>
      if rc ≠ 0 then (false, b) else (true, b.setp b.writeBuf_ (b.writeBuf_ + bufSize))
  else some (true, b)

def xsputnLoop : ℕ → FileBuf → List Char → ℕ → Option (ℕ × FileBuf)
  | _, b, [], total_written => some (total_written, b)
  | 0, _, _ :: _, _ => none
  | fuel + 1, b, s, total_written =>
    (b.refill L).bind fun (ok, b) =>
      if !ok then some (total_written, b)
      else
        let to_copy := min s.length (ptrDiff b.writeEnd_ b.writePtr_)
        (b.copyIn L (s.take to_copy)).bind fun b =>
          xsputnLoop fuel b (s.drop to_copy) (total_written + to_copy)

/-- Every round copies a byte, so that there are at most as many rounds as bytes. -/
def xsputn (b : FileBuf) (s : List Char) : Option (ℕ × FileBuf) := xsputnLoop L s.length b s 0

/-- The answer is `false` for `nullptr`. -/
def close (b : FileBuf) : Option (Bool × FileBuf) :=
  if !b.isOpen then some (false, b)
  else (b.sync L).map fun (rc, b) =>
    (rc == 0, { b with isOpen := false }.invalidateBuffers)

def doSeek (b : FileBuf) (off : ℤ) (whence : Whence) : Option (ℤ × FileBuf) :=
  (b.sync L).bind fun (rc, b) =>
    if rc ≠ 0 then some (-1, b)
    else if !b.isOpen then none
    else
      let (rc, file) := b.file.fseek off whence
      let b := { b with file := file }
      if rc ≠ 0 then some (-1, b) else some (0, b.setg 0 0 0)

def seekoff (b : FileBuf) (off : ℤ) (whence : Whence) : Option (ℤ × FileBuf) :=
  (b.sync L).bind fun (rc, b) =>
    if rc ≠ 0 then some (-1, b)
    else { b with readPtr_ := 0, readEnd_ := 0, writePtr_ := 0, writeEnd_ := 0 }.doSeek L off whence

end FileBuf

def fileBuf (L : Layout) : StreamBuf FileBuf where
  gptr b := b.readPtr_
  egptr b := b.readEnd_
  setGptr b p := { b with readPtr_ := p }
  deref b q := if L.read ≤ q ∧ q < L.read + bufSize then some (b.mem q) else none
  underflow b := b.underflow L

end CritPath.Containers
