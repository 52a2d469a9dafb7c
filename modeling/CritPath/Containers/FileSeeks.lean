import CritPath.Containers.FileBuf

/-!
# Seeking in a file

`StreamBuf::seekoff` clears the write pointers before it calls `do_seek`, but not
`writeBase_`, which only the derived class has. The `sync` in `do_seek` takes the
difference of the two as the length of what is pending and tries to write that
many bytes: on a file opened for reading `fwrite` fails, and so does the seek; on
a file opened for both it reads far behind the block. No seek succeeds
(`Get.seekoff`), and a run of reads and seeks is served as it should be exactly if
it has no seek.
-/

namespace CritPath.Containers

open CritPath.Lib.Bytes

inductive BufRead
  | sgetc
  | sbumpc
  | gbump (n : ℕ)

namespace BufRead

def run (L : Layout) : BufRead → Reader FileBuf (Option Char)
  | sgetc => Containers.sgetc (fileBuf L)
  | sbumpc => Containers.sbumpc (fileBuf L)
  | gbump n => do
    Containers.gbump (fileBuf L) n
    return none

def answer (rest : List Char) : BufRead → Option Char
  | sgetc | sbumpc => rest.head?
  | gbump _ => none

def taken : BufRead → ℕ
  | sgetc => 0
  | sbumpc => 1
  | gbump n => n

end BufRead

inductive FileCall
  | read (r : BufRead)
  /-- `seekoff(off, SEEK_SET)`. -/
  | seekoff (off : ℕ)

def FileCall.isSeek : FileCall → Bool
  | read _ => false
  | seekoff _ => true

def FileCall.run (L : Layout) (st : IStream FileBuf) : FileCall → Option (IStream FileBuf)
  | read r => (r.run L st).map fun (_, st, _) => st
  | seekoff off => (st.buf.seekoff L off .set).map fun (_, b) => { st with buf := b }

/-- The calls are served as they should be, where `rest` is left of the file: reads deliver what is
next, seeks succeed, write nothing, and make the bytes from the offset on the next ones. -/
def SeeksWork (L : Layout) (content : List Char) :
    IStream FileBuf → List Char → List FileCall → Prop
  | _, _, [] => True
  | st, rest, .read r :: calls => ∃ st',
    Reads (r.run L) st rest (r.answer rest) st' (rest.drop r.taken) ∧
      SeeksWork L content st' (rest.drop r.taken) calls
  | st, _, .seekoff off :: calls => ∃ b',
    st.buf.seekoff L off .set = some (0, b') ∧ b'.file.written = st.buf.file.written ∧
      SeeksWork L content { st with buf := b' } (content.drop off) calls

/-- `gbump` is only used inside the get area. -/
def InArea (b : FileBuf) : FileCall → Prop
  | .read (.gbump n) => n ≤ b.readEnd_ - b.readPtr_
  | _ => True

def InAreaRun (L : Layout) : IStream FileBuf → List FileCall → Prop
  | _, [] => True
  | st, call :: calls => InArea st.buf call ∧
    match call.run L st with
    | some st' => InAreaRun L st' calls
    | none => True

instance InArea.decidable (b : FileBuf) : ∀ call : FileCall, Decidable (InArea b call)
  | .read (.gbump n) => inferInstanceAs (Decidable (n ≤ b.readEnd_ - b.readPtr_))
  | .read .sgetc | .read .sbumpc | .seekoff _ => .isTrue trivial

instance InAreaRun.decidable (L : Layout) :
    ∀ (st : IStream FileBuf) (calls : List FileCall), Decidable (InAreaRun L st calls)
  | _, [] => .isTrue trivial
  | st, call :: calls =>
    have : Decidable (match call.run L st with
      | some st' => InAreaRun L st' calls
      | none => True) :=
      match call.run L st with
      | some st' => InAreaRun.decidable L st' calls
      | none => .isTrue trivial
    inferInstanceAs (Decidable (InArea st.buf call ∧ _))

/-! ## The get area -/

section
variable {L : Layout} {b : FileBuf} {st : IStream FileBuf} {rest : List Char} {n : ℕ}

structure Get (L : Layout) (b : FileBuf) (rest : List Char) : Prop where
  isOpen : b.isOpen = true
  readable : b.file.mode.readable = true
  readBuf : b.readBuf_ = L.read
  writeBase : b.writeBase_ = L.write
  writePtr : b.writePtr_ = L.write
  read_le : L.read ≤ b.readPtr_
  ptr_le : b.readPtr_ ≤ b.readEnd_
  le_end : b.readEnd_ ≤ L.read + bufSize
  rest_eq : rest = load b.mem b.readPtr_ (b.readEnd_ - b.readPtr_) ++
    b.file.content.drop b.file.pos

theorem Get.deref (h : Get L b rest) {i : ℕ} (hi : i < b.readEnd_ - b.readPtr_) :
    (fileBuf L).deref b (b.readPtr_ + i) = rest[i]? := by
  have hle := h.read_le
  have hend := h.le_end
  have hin : L.read ≤ b.readPtr_ + i ∧ b.readPtr_ + i < L.read + bufSize := by omega
  rw [h.rest_eq, List.getElem?_append_left (by rwa [length_load]), getElem?_load hi]
  exact if_pos hin

theorem Get.lt_length (h : Get L b rest) {i : ℕ} (hi : i < b.readEnd_ - b.readPtr_) :
    i < rest.length := by
  rw [h.rest_eq, List.length_append, length_load]
  omega

def FileBuf.filled (b : FileBuf) (bs : List Char) : FileBuf :=
  { b with
    mem := store b.mem b.readBuf_ bs
    file := { b.file with pos := b.file.pos + bs.length }
    readPtr_ := b.readBuf_
    readEnd_ := b.readBuf_ + bs.length }

/-- At the end of the get area, the next bytes of the file are read, if there are any. -/
theorem Get.underflow (h : Get L b rest) (hge : b.readPtr_ ≥ b.readEnd_) :
    (rest = [] ∧ b.underflow L = some (none, b)) ∨
      ∃ c bs, b.underflow L = some (some c, b.filled bs) ∧ Get L (b.filled bs) rest ∧
        0 < bs.length := by
  have hempty : b.readEnd_ - b.readPtr_ = 0 := by omega
  have hrest : rest = b.file.content.drop b.file.pos := by
    rw [h.rest_eq, hempty, load_zero, List.nil_append]
  obtain ⟨bs, hbs⟩ : ∃ bs, bs = b.file.next bufSize := ⟨_, rfl⟩
  have htake : bs = rest.take bufSize := by
    rw [hbs, CFile.next, if_pos h.readable, hrest]
  by_cases hnil : bs = []
  · refine .inl ⟨?_, ?_⟩
    · rw [hnil, eq_comm, List.take_eq_nil_iff] at htake
      exact htake.resolve_left (by decide)
    · simp [FileBuf.underflow, FileBuf.fread, h.isOpen, ← hbs, hnil]
  · have hpos : 0 < bs.length := List.length_pos_iff.mpr hnil
    have hle : bs.length ≤ bufSize := by
      rw [htake]
      exact List.length_take_le _ _
    refine .inr ⟨(b.filled bs).mem b.readBuf_, bs, ?_, ?_, hpos⟩
    · have hin : L.read ≤ b.readBuf_ ∧ b.readBuf_ + bufSize ≤ L.read + bufSize := by
        have hbuf := h.readBuf
        omega
      simp [FileBuf.underflow, FileBuf.fread, FileBuf.setg, FileBuf.filled, h.isOpen, ← hbs, hnil,
        hin]
    · refine ⟨h.isOpen, h.readable, h.readBuf, h.writeBase, h.writePtr, ?_, ?_, ?_, ?_⟩
      · exact Nat.le_of_eq h.readBuf.symm
      · exact Nat.le_add_right _ _
      · change b.readBuf_ + bs.length ≤ _
        rw [h.readBuf]
        omega
      · change rest = load (store b.mem b.readBuf_ bs) b.readBuf_
          (b.readBuf_ + bs.length - b.readBuf_) ++ b.file.content.drop (b.file.pos + bs.length)
        rw [Nat.add_sub_cancel_left, load_store_self, ← List.drop_drop, ← hrest, htake,
          List.length_take, ← List.drop_eq_drop_min]
        exact (List.take_append_drop _ _).symm

theorem Get.shows (h : Get L b rest) (hlt : 0 < b.readEnd_ - b.readPtr_) :
    ∃ c, (fileBuf L).deref b b.readPtr_ = some c ∧ rest.head? = some c := by
  have hlen := h.lt_length hlt
  have hderef := h.deref hlt
  rw [Nat.add_zero, List.getElem?_eq_getElem hlen] at hderef
  refine ⟨rest[0], hderef, ?_⟩
  rw [List.head?_eq_getElem?, List.getElem?_eq_getElem hlen]

theorem Get.look (h : Get L st.buf rest) :
    ∃ st', Reads (sgetc (fileBuf L)) st rest rest.head? st' rest ∧ Get L st'.buf rest ∧
      (rest ≠ [] → 0 < st'.buf.readEnd_ - st'.buf.readPtr_) := by
  by_cases hge : st.buf.readPtr_ ≥ st.buf.readEnd_
  · rcases h.underflow hge with ⟨rfl, heq⟩ | ⟨c, bs, heq, hget, hpos⟩
    · exact ⟨st, reads_peek (sgetc_of_eof hge heq) rfl, h, fun hne => absurd rfl hne⟩
    · have hlt : 0 < (st.buf.filled bs).readEnd_ - (st.buf.filled bs).readPtr_ := by
        change 0 < st.buf.readBuf_ + bs.length - st.buf.readBuf_
        omega
      obtain ⟨c', hderef, hhead⟩ := hget.shows hlt
      refine ⟨{ st with buf := st.buf.filled bs }, ?_, hget, fun _ => hlt⟩
      rw [hhead]
      exact reads_peek (sgetc_of_underflow hge heq hderef) hhead.symm
  · have hlt : 0 < st.buf.readEnd_ - st.buf.readPtr_ := by omega
    obtain ⟨c, hderef, hhead⟩ := h.shows hlt
    refine ⟨st, ?_, h, fun _ => hlt⟩
    rw [hhead]
    exact reads_peek (sgetc_of_area (Nat.lt_of_not_le hge) hderef) hhead.symm

theorem Get.gbump (h : Get L st.buf rest) (hn : n ≤ st.buf.readEnd_ - st.buf.readPtr_) :
    ∃ st', Reads (gbump (fileBuf L) n) st rest () st' (rest.drop n) ∧
      Get L st'.buf (rest.drop n) := by
  have hread := h.read_le
  have hend := h.le_end
  have hptr := h.ptr_le
  have hsize : bufSize < 2 ^ 31 := by decide
  have hlen : (rest.take n).length = n := by
    rw [List.length_take, h.rest_eq, List.length_append, length_load]
    omega
  have hahead : (fileBuf L).ahead st.buf (rest.take n).length = some (rest.take n) := by
    refine StreamBuf.ahead_eq_some fun i hi => ?_
    rw [hlen] at hi
    rw [List.getElem_take, ← List.getElem?_eq_getElem]
    exact h.deref (by omega)
  have hreads := reads_gbump (fileBuf L) hahead (by omega) (rest.drop n)
  rw [hlen, List.take_append_drop] at hreads
  refine ⟨_, hreads, h.isOpen, h.readable, h.readBuf, h.writeBase, h.writePtr, ?_, ?_, h.le_end, ?_⟩
  · exact Nat.le_add_right_of_le hread
  · change st.buf.readPtr_ + n ≤ st.buf.readEnd_
    omega
  · change rest.drop n = load st.buf.mem (st.buf.readPtr_ + n)
      (st.buf.readEnd_ - (st.buf.readPtr_ + n)) ++ st.buf.file.content.drop st.buf.file.pos
    rw [h.rest_eq, List.drop_append_of_le_length (by rwa [length_load]), drop_load hn,
      Nat.sub_add_eq]

theorem Get.read (h : Get L st.buf rest) (r : BufRead) (harea : InArea st.buf (.read r)) :
    ∃ st', Reads (r.run L) st rest (r.answer rest) st' (rest.drop r.taken) ∧
      Get L st'.buf (rest.drop r.taken) := by
  cases r with
  | sgetc =>
    obtain ⟨st', hreads, hget, -⟩ := h.look
    exact ⟨st', hreads, hget⟩
  | sbumpc =>
    obtain ⟨st₁, hlook, hget, hroom⟩ := h.look
    cases rest with
    | nil => exact ⟨st₁, hlook.bind (reads_pure _ _ _), hget⟩
    | cons c rest =>
      obtain ⟨st₂, hbump, hget₂⟩ := hget.gbump (hroom (by simp))
      exact ⟨st₂, hlook.bind (hbump.bind (reads_pure _ _ _)), hget₂⟩
  | gbump n =>
    obtain ⟨st', hbump, hget⟩ := h.gbump harea
    exact ⟨st', hbump.bind (reads_pure _ _ _), hget⟩

theorem Get.sync_cleared (h : Get L b rest) :
    { b with readPtr_ := 0, readEnd_ := 0, writePtr_ := 0, writeEnd_ := 0 }.sync L =
      if b.file.mode.writable then none
      else some (-1, { b with readPtr_ := 0, readEnd_ := 0, writePtr_ := 0, writeEnd_ := 0 }) := by
  have hend := L.write_end
  have hpos := L.write_pos
  have hpending : ptrDiff 0 b.writeBase_ = 2 ^ 64 - L.write := by
    rw [h.writeBase, ptrDiff]
    omega
  have hne : 2 ^ 64 - L.write ≠ 0 := by omega
  have hout : ¬(L.write ≤ b.writeBase_ ∧
      b.writeBase_ + (2 ^ 64 - L.write) ≤ L.write + bufSize) := by
    rw [h.writeBase]
    omega
  simp only [FileBuf.sync, hpending, if_pos hne, FileBuf.fwrite, h.isOpen, if_neg hout]
  cases b.file.mode.writable with
  | false => exact congrArg some (if_pos hne.symm)
  | true => rfl

/-- No seek succeeds, to whatever offset. -/
theorem Get.seekoff (h : Get L b rest) (off : ℤ) (whence : Whence) (b' : FileBuf) :
    b.seekoff L off whence ≠ some (0, b') := by
  have hsync : b.sync L = some (0, b) := by
    have hzero : ptrDiff b.writePtr_ b.writeBase_ = 0 := by
      rw [h.writeBase, h.writePtr, ptrDiff]
      omega
    simp [FileBuf.sync, hzero]
  rw [FileBuf.seekoff, hsync]
  change FileBuf.doSeek L { b with readPtr_ := 0, readEnd_ := 0, writePtr_ := 0, writeEnd_ := 0 }
    off whence ≠ _
  rw [FileBuf.doSeek, h.sync_cleared]
  cases b.file.mode.writable with
  | false => simp
  | true => simp

theorem get_of_open {content : List Char} {mode : OpenMode} (hin : mode.in_ = true)
    (hopen : ({} : FileBuf).open_ L content mode = some b) : Get L b b.file.content := by
  obtain ⟨m, hm, rfl⟩ := Option.map_eq_some_iff.mp hopen
  have hr : m.readable = true := by
    obtain ⟨i, o, a, t⟩ := mode
    obtain rfl : i = true := hin
    revert hm
    cases o <;> cases a <;> cases t <;> rintro ⟨⟩ <;> rfl
  refine ⟨rfl, hr, rfl, rfl, rfl, Nat.le_refl _, Nat.le_refl _, Nat.le_add_right _ _, ?_⟩
  simp [FileBuf.initialiseBuffers, FileBuf.setp, FileBuf.setg, CFile.fopen]

theorem Get.run (content : List Char) (h : Get L st.buf rest) {calls : List FileCall}
    (harea : InAreaRun L st calls) :
    SeeksWork L content st rest calls ↔ ∀ call ∈ calls, call.isSeek = false := by
  induction calls generalizing st rest with
  | nil => exact ⟨fun _ _ hmem => absurd hmem List.not_mem_nil, fun _ => trivial⟩
  | cons call calls ih =>
    obtain ⟨hcall, hcalls⟩ := harea
    cases call with
    | seekoff off =>
      constructor
      · rintro ⟨b', heq, -⟩
        exact absurd heq (h.seekoff off .set b')
      · intro hall
        cases hall _ List.mem_cons_self
    | read r =>
      obtain ⟨st', hreads, hget⟩ := h.read r hcall
      have hrun : (FileCall.read r).run L st = some st' := by
        obtain ⟨t, ht, -⟩ := hreads
        rw [FileCall.run, ht]
        rfl
      rw [hrun] at hcalls
      have hih := ih hget hcalls
      constructor
      · rintro ⟨st₂, hreads₂, hwork⟩
        obtain ⟨-, rfl, -⟩ := hreads.unique hreads₂
        exact List.forall_mem_cons.mpr ⟨rfl, hih.mp hwork⟩
      · intro hall
        exact ⟨st', hreads, hih.mpr (List.forall_mem_cons.mp hall).2⟩

end

/-! ## The result -/

theorem seeksWork_iff (L : Layout) (content : List Char) (mode : OpenMode) {b : FileBuf}
    (hin : mode.in_ = true) (hopen : ({} : FileBuf).open_ L content mode = some b)
    (calls : List FileCall) (harea : InAreaRun L { buf := b } calls) :
    SeeksWork L b.file.content { buf := b } b.file.content calls ↔
      ∀ call ∈ calls, call.isSeek = false :=
  (get_of_open hin hopen).run b.file.content harea

theorem seeksWork_iff_sample :
    ∃ b, ({} : FileBuf).open_ sampleLayout ['a', 'b'] { in_ := true } = some b ∧
      SeeksWork sampleLayout b.file.content { buf := b } b.file.content
        [.read .sgetc, .read (.gbump 1), .read .sbumpc, .read .sbumpc] :=
  ⟨_, rfl, (seeksWork_iff sampleLayout ['a', 'b'] { in_ := true } rfl rfl _
    (by decide +kernel)).mpr (by decide)⟩

/-- A seek to the start of a file opened for reading fails. -/
theorem seekToStart_fails :
    (({} : FileBuf).open_ sampleLayout ['a', 'b'] { in_ := true }).bind (fun b =>
      (b.seekoff sampleLayout 0 .set).map Prod.fst) = some (-1) := by
  decide +kernel

end CritPath.Containers
