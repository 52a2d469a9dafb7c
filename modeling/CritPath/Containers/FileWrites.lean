import CritPath.Containers.FileBuf

/-!
# Writing to a file

`sync` writes the put area to the file and leaves the write pointer where it is:
what was pending still is, and the next `sync` writes it again. `overflow` and
`xsputn` set up a new put area after their `sync` and lose nothing, whatever falls
on the boundary of the block; the last `sync` is that of `close`. So a run of
writes reaches the file as given exactly if no `flush` is called while bytes are
pending (`FlushesNothing`).
-/

namespace CritPath.Containers

open CritPath.Lib.Bytes

inductive WriteCall
  | sputc (c : Char)
  | sputn (s : List Char)
  | flush

namespace WriteCall

/-- The bytes given to the call. -/
def given : WriteCall → List Char
  | sputc c => [c]
  | sputn s => s
  | flush => []

def run (L : Layout) (b : FileBuf) : WriteCall → Option FileBuf
  | sputc c => b.sputc L c
  | sputn s => (b.xsputn L s).map Prod.snd
  | flush => (b.sync L).map Prod.snd

end WriteCall

def writeAll (L : Layout) (b : FileBuf) (calls : List WriteCall) : Option (Bool × FileBuf) :=
  (calls.foldlM (WriteCall.run L) b).bind fun b => b.close L

/-- All calls return, `close` succeeds, and the bytes that reached the file are those given. -/
def WritesOnce (L : Layout) (b : FileBuf) (calls : List WriteCall) : Prop :=
  ∃ b', writeAll L b calls = some (true, b') ∧ b'.file.written = calls.flatMap WriteCall.given

/-- Nothing is pending when `flush` is called. -/
def FlushesNothing (L : Layout) : FileBuf → List WriteCall → Prop
  | _, [] => True
  | b, call :: calls => (match call with
      | .flush => b.writePtr_ = b.writeBase_
      | _ => True) ∧
    match call.run L b with
    | some b' => FlushesNothing L b' calls
    | none => True

instance FlushesNothing.decidable (L : Layout) :
    ∀ (b : FileBuf) (calls : List WriteCall), Decidable (FlushesNothing L b calls)
  | _, [] => .isTrue trivial
  | b, call :: calls =>
    have : Decidable (match call with
      | .flush => b.writePtr_ = b.writeBase_
      | _ => True) := by cases call <;> infer_instance
    have : Decidable (match call.run L b with
      | some b' => FlushesNothing L b' calls
      | none => True) :=
      match call.run L b with
      | some b' => FlushesNothing.decidable L b' calls
      | none => .isTrue trivial
    inferInstanceAs (Decidable (_ ∧ _))

/-! ## The put area -/

section
variable {L : Layout} {b : FileBuf} {cs : List Char}

/-- The put area is the block, filled up to the write pointer, or there is none. -/
structure Put (L : Layout) (b : FileBuf) : Prop where
  isOpen : b.isOpen = true
  writable : b.file.mode.writable = true
  writeBuf : b.writeBuf_ = L.write
  area : b.writeBase_ = 0 ∧ b.writePtr_ = 0 ∧ b.writeEnd_ = 0 ∨
    b.writeBase_ = L.write ∧ b.writeEnd_ = L.write + bufSize ∧
      L.write ≤ b.writePtr_ ∧ b.writePtr_ ≤ L.write + bufSize

def FileBuf.pending (b : FileBuf) : List Char := load b.mem b.writeBase_ (b.writePtr_ - b.writeBase_)

def FileBuf.total (b : FileBuf) : List Char := b.file.written ++ b.pending

theorem ptrDiff_eq {p q : ℕ} (h : q ≤ p) (hp : p < 2 ^ 64) : ptrDiff p q = p - q := by
  unfold ptrDiff
  omega

theorem Put.ptrDiff (h : Put L b) :
    ptrDiff b.writePtr_ b.writeBase_ = b.writePtr_ - b.writeBase_ := by
  have hend := L.write_end
  refine ptrDiff_eq ?_ ?_ <;> rcases h.area with ⟨h1, h2, -⟩ | ⟨h1, -, h3, h4⟩ <;> omega

/-- What is pending is written, and stays pending. -/
theorem Put.sync (h : Put L b) :
    ∃ file, b.sync L = some (0, { b with file := file }) ∧ file.mode = b.file.mode ∧
      file.written = b.total := by
  unfold FileBuf.sync FileBuf.total FileBuf.pending
  rw [h.ptrDiff]
  by_cases h0 : b.writePtr_ - b.writeBase_ = 0
  · refine ⟨b.file, by simp [h0], rfl, by simp [h0]⟩
  · obtain ⟨hbase, -, hle, hge⟩ := h.area.resolve_left (by omega)
    have hin : L.write ≤ b.writeBase_ ∧
        b.writeBase_ + (b.writePtr_ - b.writeBase_) ≤ L.write + bufSize := by omega
    refine ⟨b.file.write (load b.mem b.writeBase_ (b.writePtr_ - b.writeBase_)), ?_, rfl, rfl⟩
    simp [h0, FileBuf.fwrite, h.isOpen, h.writable, hin]

/-- A call that leaves the put area in order, after `given` more bytes. -/
structure Put.Takes (L : Layout) (b : FileBuf) (given : List Char) (b' : FileBuf) : Prop where
  put : Put L b'
  total_eq : b'.total = b.total ++ given

theorem Put.fresh (h : Put L b) {file : CFile} (hmode : file.mode = b.file.mode) :
    Put L ({ b with file := file }.setp b.writeBuf_ (b.writeBuf_ + bufSize)) where
  isOpen := h.isOpen
  writable := hmode ▸ h.writable
  writeBuf := h.writeBuf
  area := by
    refine .inr ⟨h.writeBuf, congrArg (· + bufSize) h.writeBuf, ?_, ?_⟩
    · exact Nat.le_of_eq h.writeBuf.symm
    · change b.writeBuf_ ≤ _
      rw [h.writeBuf]
      exact Nat.le_add_right _ _

theorem total_setp (b : FileBuf) (base end_ : ℕ) : (b.setp base end_).total = b.file.written := by
  simp [FileBuf.total, FileBuf.pending, FileBuf.setp]

/-- `overflow` writes what is pending and the character behind it. -/
theorem Put.overflow (h : Put L b) (c : Char) :
    ∃ b', b.overflow L c = some b' ∧ Put.Takes L b [c] b' := by
  obtain ⟨file, hsync, hmode, hwritten⟩ := h.sync
  have hput : file.mode.writable = true := hmode ▸ h.writable
  refine ⟨{ b with file := file.write [c] }.setp 0 0, ?_, ?_, ?_⟩
  · simp [FileBuf.overflow, hsync, FileBuf.fputc, h.isOpen, hput]
  · exact ⟨h.isOpen, hput, h.writeBuf, .inl ⟨rfl, rfl, rfl⟩⟩
  · rw [total_setp, ← hwritten]
    rfl

theorem Put.copyIn (h : Put L b) (cs : List Char) (hne : b.writePtr_ ≠ b.writeEnd_)
    (hfit : b.writePtr_ + cs.length ≤ b.writeEnd_) :
    ∃ b', b.copyIn L cs = some b' ∧ Put.Takes L b cs b' := by
  obtain ⟨hbase, hend, hle, hge⟩ := h.area.resolve_left (by omega)
  have hin : L.write ≤ b.writePtr_ ∧ b.writePtr_ + cs.length ≤ L.write + bufSize := by omega
  refine ⟨{ b with mem := store b.mem b.writePtr_ cs, writePtr_ := b.writePtr_ + cs.length },
    by rw [FileBuf.copyIn, if_pos hin], ⟨h.isOpen, h.writable, h.writeBuf, ?_⟩, ?_⟩
  · exact .inr ⟨hbase, hend, Nat.le_add_right_of_le hle, hin.2⟩
  · obtain ⟨n, hn⟩ := Nat.exists_eq_add_of_le (hbase ▸ hle : b.writeBase_ ≤ b.writePtr_)
    simp only [FileBuf.total, FileBuf.pending, hn, Nat.add_assoc, Nat.add_sub_cancel_left,
      load_store_behind, List.append_assoc]

theorem Put.sputc (h : Put L b) (c : Char) :
    ∃ b', b.sputc L c = some b' ∧ Put.Takes L b [c] b' := by
  unfold FileBuf.sputc
  split
  · exact h.overflow c
  next hne =>
    have hlt : b.writePtr_ < b.writeEnd_ := by
      rcases h.area with ⟨-, h2, h3⟩ | ⟨-, h2, -, h4⟩ <;> omega
    exact h.copyIn [c] hne hlt

theorem Put.refill (h : Put L b) :
    ∃ b', b.refill L = some (true, b') ∧ Put.Takes L b [] b' ∧ b'.writePtr_ < b'.writeEnd_ := by
  unfold FileBuf.refill
  split
  · obtain ⟨file, hsync, hmode, hwritten⟩ := h.sync
    refine ⟨_, by simp only [hsync, Option.map_some]; rfl, ⟨h.fresh hmode, ?_⟩, ?_⟩
    · rw [total_setp, List.append_nil]
      exact hwritten
    · exact Nat.lt_add_of_pos_right (by decide)
  next hne =>
    refine ⟨b, rfl, ⟨h, (List.append_nil _).symm⟩, ?_⟩
    rcases h.area with ⟨-, h2, h3⟩ | ⟨-, h2, -, h4⟩ <;> omega

theorem Put.xsputnLoop (h : Put L b) {fuel : ℕ} (hfuel : cs.length ≤ fuel) (n : ℕ) :
    ∃ b', FileBuf.xsputnLoop L fuel b cs n = some (n + cs.length, b') ∧ Put.Takes L b cs b' := by
  induction fuel generalizing b cs n with
  | zero =>
    obtain rfl := List.length_eq_zero_iff.mp (Nat.le_zero.mp hfuel)
    exact ⟨b, by rw [FileBuf.xsputnLoop]; rfl, h, (List.append_nil _).symm⟩
  | succ fuel ih =>
    cases cs with
    | nil => exact ⟨b, by rw [FileBuf.xsputnLoop]; rfl, h, (List.append_nil _).symm⟩
    | cons c cs =>
      obtain ⟨b₁, h₁, ht₁, hroom⟩ := h.refill
      have hspace : Containers.ptrDiff b₁.writeEnd_ b₁.writePtr_ = b₁.writeEnd_ - b₁.writePtr_ := by
        have hend := L.write_end
        refine ptrDiff_eq (by omega) ?_
        rcases ht₁.put.area with ⟨-, -, h3⟩ | ⟨-, h2, -⟩ <;> omega
      -- a round copies `k` bytes, at least one
      obtain ⟨k, hk⟩ : ∃ k, k = min (c :: cs).length (b₁.writeEnd_ - b₁.writePtr_) := ⟨_, rfl⟩
      have hk0 : 0 < k := by rw [hk, List.length_cons]; omega
      have hlen : ((c :: cs).take k).length = k := by rw [List.length_take]; omega
      obtain ⟨b₂, h₂, ht₂⟩ :=
        ht₁.put.copyIn ((c :: cs).take k) (by omega) (by rw [hlen]; omega)
      have hrest : ((c :: cs).drop k).length ≤ fuel := by rw [List.length_drop]; omega
      obtain ⟨b₃, h₃, ht₃⟩ := ih ht₂.put hrest (n + k)
      refine ⟨b₃, ?_, ht₃.put, ?_⟩
      · have hcount : n + k + ((c :: cs).drop k).length = n + (c :: cs).length := by
          rw [List.length_drop]; omega
        simp only [FileBuf.xsputnLoop, h₁, Option.bind_some, hspace, ← hk, h₂, h₃, hcount,
          Bool.not_true]
        rfl
      · rw [ht₃.total_eq, ht₂.total_eq, ht₁.total_eq, List.append_nil, List.append_assoc,
          List.take_append_drop]

theorem Put.xsputn (h : Put L b) (cs : List Char) :
    ∃ b', b.xsputn L cs = some (cs.length, b') ∧ Put.Takes L b cs b' := by
  obtain ⟨b', h', ht⟩ := h.xsputnLoop (Nat.le_refl cs.length) 0
  exact ⟨b', by rw [FileBuf.xsputn, h', Nat.zero_add], ht⟩

/-- The pending bytes are counted twice from now on. -/
theorem Put.flush (h : Put L b) :
    ∃ b', (b.sync L).map Prod.snd = some b' ∧ Put.Takes L b b.pending b' := by
  obtain ⟨file, hsync, hmode, hwritten⟩ := h.sync
  refine ⟨{ b with file := file }, by rw [hsync]; rfl, ?_, ?_⟩
  · exact ⟨h.isOpen, hmode ▸ h.writable, h.writeBuf, h.area⟩
  · change file.written ++ b.pending = _
    rw [hwritten]

theorem Put.close (h : Put L b) :
    ∃ b', b.close L = some (true, b') ∧ b'.file.written = b.total := by
  obtain ⟨file, hsync, -, hwritten⟩ := h.sync
  exact ⟨_, by simp only [FileBuf.close, h.isOpen, hsync]; rfl, hwritten⟩

/-! ## Runs -/

/-- A run adds what it is given, and more if `flush` finds something pending. -/
structure Outcome (L : Layout) (b : FileBuf) (calls : List WriteCall) (b' : FileBuf) : Prop where
  put : Put L b'
  le : b.total.length + (calls.flatMap WriteCall.given).length ≤ b'.total.length
  of_eq : b.total.length + (calls.flatMap WriteCall.given).length = b'.total.length →
    FlushesNothing L b calls
  total_eq : FlushesNothing L b calls → b'.total = b.total ++ calls.flatMap WriteCall.given

theorem Put.call (h : Put L b) (call : WriteCall) :
    ∃ b' extra, call.run L b = some b' ∧ Put.Takes L b (call.given ++ extra) b' ∧
      (extra = [] ↔ match call with
        | .flush => b.writePtr_ = b.writeBase_
        | _ => True) := by
  cases call with
  | sputc c =>
    obtain ⟨b', h', ht⟩ := h.sputc c
    exact ⟨b', [], h', by rwa [List.append_nil], by simp⟩
  | sputn s =>
    obtain ⟨b', h', ht⟩ := h.xsputn s
    exact ⟨b', [], by rw [WriteCall.run, h']; rfl, by rwa [List.append_nil], by simp⟩
  | flush =>
    obtain ⟨b', h', ht⟩ := h.flush
    refine ⟨b', b.pending, h', ht, ?_⟩
    have hle : b.writeBase_ ≤ b.writePtr_ := by
      rcases h.area with ⟨h1, h2, -⟩ | ⟨h1, -, h3, -⟩ <;> omega
    rw [← List.length_eq_zero_iff, FileBuf.pending, length_load]
    omega

theorem Put.run (h : Put L b) (calls : List WriteCall) :
    ∃ b', calls.foldlM (WriteCall.run L) b = some b' ∧ Outcome L b calls b' := by
  induction calls generalizing b with
  | nil => exact ⟨b, rfl, h, Nat.le_refl _, fun _ => trivial, fun _ => (List.append_nil _).symm⟩
  | cons call calls ih =>
    obtain ⟨b₁, extra, h₁, ht, hextra⟩ := h.call call
    obtain ⟨b', h', out⟩ := ih ht.put
    have hlen : b₁.total.length = b.total.length + call.given.length + extra.length := by
      rw [ht.total_eq, List.length_append, List.length_append, Nat.add_assoc]
    have hle := out.le
    refine ⟨b', by rw [List.foldlM_cons, h₁]; exact h', out.put, ?_, ?_, ?_⟩
    · rw [List.flatMap_cons, List.length_append]
      omega
    · intro heq
      rw [List.flatMap_cons, List.length_append] at heq
      have hnil : extra = [] := List.length_eq_zero_iff.mp (by omega)
      refine ⟨hextra.mp hnil, ?_⟩
      rw [h₁]
      exact out.of_eq (by omega)
    · rintro ⟨hcall, hcalls⟩
      rw [h₁] at hcalls
      rw [out.total_eq hcalls, ht.total_eq, hextra.mpr hcall, List.append_nil, List.flatMap_cons,
        List.append_assoc]

theorem put_of_open {content : List Char} {mode : OpenMode} (hout : mode.out = true)
    (hopen : ({} : FileBuf).open_ L content mode = some b) : Put L b ∧ b.total = [] := by
  obtain ⟨m, hm, rfl⟩ := Option.map_eq_some_iff.mp hopen
  have hw : m.writable = true := by
    obtain ⟨i, o, a, t⟩ := mode
    obtain rfl : o = true := hout
    revert hm
    cases i <;> cases a <;> cases t <;> rintro ⟨⟩ <;> rfl
  refine ⟨⟨rfl, hw, rfl, .inr ⟨rfl, rfl, Nat.le_refl _, Nat.le_add_right _ _⟩⟩, ?_⟩
  simp [FileBuf.total, FileBuf.pending, FileBuf.initialiseBuffers, FileBuf.setp, FileBuf.setg,
    CFile.fopen]

end

/-! ## The result -/

theorem writesOnce_iff (L : Layout) (content : List Char) (mode : OpenMode) {b : FileBuf}
    (hout : mode.out = true) (hopen : ({} : FileBuf).open_ L content mode = some b)
    (calls : List WriteCall) : WritesOnce L b calls ↔ FlushesNothing L b calls := by
  obtain ⟨hput, htotal⟩ := put_of_open hout hopen
  obtain ⟨b₁, h₁, out⟩ := hput.run calls
  obtain ⟨b₂, h₂, hwritten⟩ := out.put.close
  have hall : writeAll L b calls = some (true, b₂) := by
    rw [writeAll, h₁]
    exact h₂
  have hle := out.of_eq
  rw [htotal, List.length_nil, Nat.zero_add] at hle
  constructor
  · rintro ⟨b', hb', heq⟩
    rw [hall] at hb'
    cases hb'
    apply hle
    rw [← heq, hwritten]
  · intro hflush
    refine ⟨b₂, hall, ?_⟩
    rw [hwritten, out.total_eq hflush, htotal, List.nil_append]

/-- A `flush` before the first byte does no harm, and the bytes do not fit into one put area. -/
theorem writesOnce_iff_sample :
    ∃ b, ({} : FileBuf).open_ sampleLayout [] { out := true } = some b ∧
      WritesOnce sampleLayout b [.flush, .sputc 'a', .sputn (List.replicate 4096 'b'), .sputc 'c'] :=
  ⟨_, rfl, (writesOnce_iff sampleLayout [] { out := true } rfl rfl _).mpr (by decide +kernel)⟩

/-- A byte that is flushed is written again by `close`. -/
theorem flushedByte_written_twice :
    ((({} : FileBuf).open_ sampleLayout [] { out := true }).bind fun b =>
      writeAll sampleLayout b [.sputc 'a', .flush]).map
        (fun (closed, b) => (closed, b.file.written, b.file.content)) =
      some (true, ['a', 'a'], ['a', 'a']) ∧
    [WriteCall.sputc 'a', .flush].flatMap WriteCall.given = ['a'] := by
  decide +kernel

end CritPath.Containers
