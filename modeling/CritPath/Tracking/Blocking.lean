import CritPath.Lib.Runs
import CritPath.Tracking.Buffers

/-!
# Blocking wrappers and their piggybacks

A blocking call has its piggyback object on the stack. The constructor posts the
piggyback into `rData` of that object and the destructor waits for it, each after
tests of its own. Threads are in one call at a time, and their constructors and
destructors come in any order. The tool is running throughout.
-/

namespace CritPath.Tracking

open Lib

/-- A call with a blocking piggyback class, with what its constructor and destructor test; `rank` is
the own rank. -/
inductive BlockingCall where
  | send (dest tag : ℤ)
  | recv (src tag : ℤ)
  | sendrecv (dest stag src rtag : ℤ)
  | bcast (root rank : ℤ)
  | allreduce
  | reduce (root rank : ℤ)
  deriving DecidableEq

/-- What a constructor or destructor does with `rData`. -/
inductive PbAccess where
  | load
  /-- Posts an operation on the values, with its request in `pb_reqs[0]`. -/
  | post
  /-- `PMPI_Waitall(2, rData.pb_reqs)`. -/
  | waitall
  /-- `PMPI_Recv` into the values. -/
  | recv
  | merge
  deriving DecidableEq

variable (E : Setting)

namespace BlockingCall

def mpiSendPB (dest : ℤ) : List PbAccess := if dest = E.procNull then [] else [.load, .post]

def mpiSendPBEnd (dest : ℤ) : List PbAccess := if dest ≠ E.procNull then [] else [.waitall]

def mpiRecvPB (src tag : ℤ) : List PbAccess :=
  if src = E.procNull then []
  else if src ≠ E.anySource ∧ tag ≠ E.anyTag then [.post]
  else []

def mpiRecvPBEnd (src tag : ℤ) : List PbAccess :=
  if src = E.procNull then []
  else if src = E.anySource ∨ tag = E.anyTag then [.recv, .merge]
  else [.waitall, .merge]

def mpiSendrecvPB (dest src : ℤ) : List PbAccess :=
  if src = E.procNull ∧ dest = E.procNull then [] else [.load, .post]

def mpiSendrecvPBEnd (dest src : ℤ) : List PbAccess :=
  if src = E.procNull ∧ dest = E.procNull then []
  else if src ≠ E.procNull then [.waitall, .merge]
  else [.waitall]

/-- A collective class, which loads or merges on some ranks and posts on all of them. -/
def mpiCollPB (loads : Bool) : List PbAccess := if loads then [.load, .post] else [.post]

def mpiCollPBEnd (merges : Bool) : List PbAccess := if merges then [.waitall, .merge] else [.waitall]

def mpiCollBcastPBImpl (root rank : ℤ) : List PbAccess := mpiCollPB (root = rank)

def mpiCollBcastPBImplEnd : List PbAccess := mpiCollPBEnd true

def mpiCollAllreducePBImpl : List PbAccess := mpiCollPB true

def mpiCollAllreducePBImplEnd : List PbAccess := mpiCollPBEnd true

def mpiCollReducePBImpl : List PbAccess := mpiCollPB true

def mpiCollReducePBImplEnd (root rank : ℤ) : List PbAccess := mpiCollPBEnd (root = rank)

def construct : BlockingCall → List PbAccess
  | .send dest _ => mpiSendPB E dest
  | .recv src tag => mpiRecvPB E src tag
  | .sendrecv dest _ src _ => mpiSendrecvPB E dest src
  | .bcast root rank => mpiCollBcastPBImpl root rank
  | .allreduce => mpiCollAllreducePBImpl
  | .reduce _ _ => mpiCollReducePBImpl

def destruct : BlockingCall → List PbAccess
  | .send dest _ => mpiSendPBEnd E dest
  | .recv src tag => mpiRecvPBEnd E src tag
  | .sendrecv dest _ src _ => mpiSendrecvPBEnd E dest src
  | .bcast _ _ => mpiCollBcastPBImplEnd
  | .allreduce => mpiCollAllreducePBImplEnd
  | .reduce root rank => mpiCollReducePBImplEnd root rank

/-- A send to a process. -/
def Leaves : BlockingCall → Prop
  | .send dest _ => dest ≠ E.procNull
  | _ => False

instance : ∀ c, Decidable (Leaves E c)
  | .send _ _ => inferInstanceAs (Decidable (_ ≠ _))
  | .recv _ _ | .sendrecv _ _ _ _ | .bcast _ _ | .allreduce | .reduce _ _ =>
    inferInstanceAs (Decidable False)

def Posts (c : BlockingCall) : Prop := .post ∈ c.construct E

def Waits (c : BlockingCall) : Prop := .waitall ∈ c.destruct E

instance (c : BlockingCall) : Decidable (c.Posts E) := inferInstanceAs (Decidable (_ ∈ _))

instance (c : BlockingCall) : Decidable (c.Waits E) := inferInstanceAs (Decidable (_ ∈ _))

variable {E} in
/-- The destructor waits for what the constructor has posted, except that of `mpiSendPB`. -/
theorem waits_iff {c : BlockingCall} (h : c.Posts E) : c.Waits E ↔ ¬ c.Leaves E := by
  cases c with
  | send dest tag =>
    by_cases hd : dest = E.procNull <;>
      simp [Waits, Leaves, destruct, mpiSendPBEnd, hd]
  | recv src tag =>
    by_cases hs : src = E.procNull
    · simp [Posts, construct, mpiRecvPB, hs] at h
    by_cases hw : src = E.anySource ∨ tag = E.anyTag
    · have hspecific : ¬ (src ≠ E.anySource ∧ tag ≠ E.anyTag) := by tauto
      simp [Posts, construct, mpiRecvPB, hs, hspecific] at h
    · simp [Waits, Leaves, destruct, mpiRecvPBEnd, hs, hw]
  | sendrecv dest stag src rtag =>
    by_cases hn : src = E.procNull ∧ dest = E.procNull
    · simp [Posts, construct, mpiSendrecvPB, hn] at h
    · by_cases hs : src = E.procNull <;>
        simp_all [Waits, Leaves, destruct, mpiSendrecvPBEnd]
  | bcast root rank => simp [Waits, Leaves, destruct, mpiCollBcastPBImplEnd, mpiCollPBEnd]
  | allreduce => simp [Waits, Leaves, destruct, mpiCollAllreducePBImplEnd, mpiCollPBEnd]
  | reduce root rank =>
    by_cases hr : root = rank <;>
      simp [Waits, Leaves, destruct, mpiCollReducePBImplEnd, mpiCollPBEnd, hr]

variable {E} in
theorem Leaves.posts {c : BlockingCall} (h : c.Leaves E) : c.Posts E := by
  cases c with
  | send dest tag =>
    have hd : dest ≠ E.procNull := h
    simp [Posts, construct, mpiSendPB, hd]
  | _ => exact absurd h id

end BlockingCall

/-- The piggyback object of a thread. -/
structure StackFrame where
  call : BlockingCall
  pbReqs : Option ℕ × Option ℕ := (none, none)
  deriving DecidableEq

structure Stacks (T : Type) where
  frames : T → Option StackFrame := fun _ => none
  made : ℕ := 0
  pending : List ℕ := []

inductive StackOp (T : Type) where
  | enter (t : T) (c : BlockingCall)
  | leave (t : T)
  deriving DecidableEq

namespace Stacks

variable {T : Type} [DecidableEq T]

/-- One access of a thread whose object is `f`. -/
def access (t : T) (σ : Stacks T) (a : PbAccess) : Stacks T :=
  match σ.frames t with
  | none => σ
  | some f =>
    match a with
    | .post =>
      { frames := Function.update σ.frames t (some { f with pbReqs := (some σ.made, f.pbReqs.2) })
        made := σ.made + 1
        pending := σ.made :: σ.pending }
    | .waitall =>
      { σ with
        frames := Function.update σ.frames t (some { f with pbReqs := (none, none) })
        pending := σ.pending.filter fun q => f.pbReqs.1 ≠ some q ∧ f.pbReqs.2 ≠ some q }
    | .load | .recv | .merge => σ

def enter (t : T) (c : BlockingCall) (σ : Stacks T) : Stacks T :=
  (c.construct E).foldl (access t) { σ with frames := Function.update σ.frames t (some { call := c }) }

def leave (t : T) (σ : Stacks T) : Stacks T :=
  match σ.frames t with
  | none => σ
  | some f =>
    let σ := (f.call.destruct E).foldl (access t) σ
    { σ with frames := Function.update σ.frames t none }

def step (σ : Stacks T) : StackOp T → Stacks T
  | .enter t c => σ.enter E t c
  | .leave t => σ.leave E t

/-- A thread is in one call at a time. -/
def Allowed (σ : Stacks T) : StackOp T → Prop
  | .enter t _ => σ.frames t = none
  | .leave t => σ.frames t ≠ none

def machine (T : Type) [DecidableEq T] : Machine (Stacks T) (StackOp T) where
  step := step E
  guard := Allowed

instance (σ : Stacks T) : ∀ l, Decidable ((machine E T).guard σ l)
  | .enter t _ => inferInstanceAs (Decidable (σ.frames t = none))
  | .leave t => inferInstanceAs (Decidable (σ.frames t ≠ none))

/-- Every piggyback request that was not waited for is one of a call that has not returned. -/
def NoneOutlives (σ : Stacks T) : Prop :=
  ∀ q ∈ σ.pending, ∃ t f, σ.frames t = some f ∧ (f.pbReqs.1 = some q ∨ f.pbReqs.2 = some q)

def Finishes (σ : Stacks T) : StackOp T → Prop
  | .enter _ _ => True
  | .leave t => ∀ f ∈ σ.frames t, ¬ f.call.Leaves E

instance (σ : Stacks T) : ∀ l, Decidable (Finishes E σ l)
  | .enter _ _ => inferInstanceAs (Decidable True)
  | .leave t => inferInstanceAs (Decidable (∀ f ∈ σ.frames t, ¬ f.call.Leaves E))

variable {E} {σ : Stacks T} {t : T} {f : StackFrame}

/-! ## What a constructor and a destructor do -/

def Has (f : StackFrame) (q : ℕ) : Prop := f.pbReqs.1 = some q ∨ f.pbReqs.2 = some q

theorem access_load : σ.access t .load = σ := by unfold access; split <;> rfl

theorem access_recv : σ.access t .recv = σ := by unfold access; split <;> rfl

theorem access_merge : σ.access t .merge = σ := by unfold access; split <;> rfl

theorem foldl_construct (c : BlockingCall) :
    (c.construct E).foldl (access t) σ = if c.Posts E then σ.access t .post else σ := by
  unfold BlockingCall.Posts
  cases c with
  | send dest tag =>
    by_cases hd : dest = E.procNull <;>
      simp [BlockingCall.construct, BlockingCall.mpiSendPB, hd, access_load]
  | recv src tag =>
    simp only [BlockingCall.construct, BlockingCall.mpiRecvPB]
    split
    · simp
    · split <;> simp
  | sendrecv dest stag src rtag =>
    simp only [BlockingCall.construct, BlockingCall.mpiSendrecvPB]
    split <;> simp [access_load]
  | bcast root rank =>
    by_cases hr : root = rank <;>
      simp [BlockingCall.construct, BlockingCall.mpiCollBcastPBImpl, BlockingCall.mpiCollPB, hr,
        access_load]
  | allreduce =>
    simp [BlockingCall.construct, BlockingCall.mpiCollAllreducePBImpl, BlockingCall.mpiCollPB,
      access_load]
  | reduce root rank =>
    simp [BlockingCall.construct, BlockingCall.mpiCollReducePBImpl, BlockingCall.mpiCollPB,
      access_load]

theorem foldl_destruct (c : BlockingCall) :
    (c.destruct E).foldl (access t) σ = if c.Waits E then σ.access t .waitall else σ := by
  unfold BlockingCall.Waits
  cases c with
  | send dest tag =>
    by_cases hd : dest = E.procNull <;> simp [BlockingCall.destruct, BlockingCall.mpiSendPBEnd, hd]
  | recv src tag =>
    simp only [BlockingCall.destruct, BlockingCall.mpiRecvPBEnd]
    split
    · simp
    · split <;> simp [access_recv, access_merge]
  | sendrecv dest stag src rtag =>
    simp only [BlockingCall.destruct, BlockingCall.mpiSendrecvPBEnd]
    split
    · simp
    · split <;> simp [access_merge]
  | bcast root rank =>
    simp [BlockingCall.destruct, BlockingCall.mpiCollBcastPBImplEnd, BlockingCall.mpiCollPBEnd,
      access_merge]
  | allreduce =>
    simp [BlockingCall.destruct, BlockingCall.mpiCollAllreducePBImplEnd, BlockingCall.mpiCollPBEnd,
      access_merge]
  | reduce root rank =>
    by_cases hr : root = rank <;>
      simp [BlockingCall.destruct, BlockingCall.mpiCollReducePBImplEnd, BlockingCall.mpiCollPBEnd, hr,
        access_merge]

def opened (σ : Stacks T) (c : BlockingCall) : StackFrame :=
  { call := c, pbReqs := (if c.Posts E then some σ.made else none, none) }

theorem enter_spec (c : BlockingCall) (σ : Stacks T) (t : T) :
    (σ.enter E t c).frames = Function.update σ.frames t (some (opened (E := E) σ c)) ∧
      (σ.enter E t c).pending = (if c.Posts E then [σ.made] else []) ++ σ.pending ∧
      (σ.enter E t c).made = σ.made + if c.Posts E then 1 else 0 := by
  unfold enter
  rw [foldl_construct]
  by_cases hp : c.Posts E
  · simp [access, hp, opened]
  · simp [hp, opened]

theorem leave_spec (hf : σ.frames t = some f) :
    (σ.leave E t).frames = Function.update σ.frames t none ∧
      (∀ q, q ∈ (σ.leave E t).pending ↔ q ∈ σ.pending ∧ ¬ (f.call.Waits E ∧ Has f q)) ∧
      (σ.leave E t).made = σ.made := by
  unfold leave
  simp only [hf]
  rw [foldl_destruct]
  by_cases hw : f.call.Waits E
  · simp [access, hw, hf, Has]
  · simp [hw]

/-! ## Requests and their objects -/

variable (E) in
structure Inv (σ : Stacks T) : Prop where
  frames : ∀ t f q, σ.frames t = some f → Has f q → f.call.Posts E ∧ q < σ.made
  pending : ∀ q ∈ σ.pending, q < σ.made
  posted : ∀ t f, σ.frames t = some f → f.call.Posts E → ∃ q ∈ σ.pending, Has f q
  apart : ∀ t t' f f' q, σ.frames t = some f → σ.frames t' = some f' → Has f q → Has f' q → t = t'

structure Lost (q : ℕ) (σ : Stacks T) : Prop where
  pending : q ∈ σ.pending
  lt : q < σ.made
  frames : ∀ t f, σ.frames t = some f → ¬ Has f q

omit [DecidableEq T] in
theorem has_opened {c : BlockingCall} {q : ℕ} :
    Has (opened (E := E) σ c) q ↔ c.Posts E ∧ q = σ.made := by
  by_cases hp : c.Posts E
  · simp [Has, opened, hp, eq_comm]
  · simp [Has, opened, hp]

theorem frames_enter {c : BlockingCall} {t' : T} (h : (σ.enter E t c).frames t' = some f) :
    t' = t ∧ f = opened (E := E) σ c ∨ t' ≠ t ∧ σ.frames t' = some f := by
  rw [(enter_spec c σ t).1] at h
  by_cases ht : t' = t
  · subst ht
    rw [Function.update_self] at h
    exact .inl ⟨rfl, (Option.some.inj h).symm⟩
  · rw [Function.update_of_ne ht] at h
    exact .inr ⟨ht, h⟩

theorem frames_leave {f' : StackFrame} {t' : T} (hf : σ.frames t = some f)
    (h : (σ.leave E t).frames t' = some f') : t' ≠ t ∧ σ.frames t' = some f' := by
  rw [(leave_spec hf).1] at h
  by_cases ht : t' = t
  · subst ht
    rw [Function.update_self] at h
    cases h
  · rw [Function.update_of_ne ht] at h
    exact ⟨ht, h⟩

theorem mem_pending_enter {c : BlockingCall} {q : ℕ} :
    q ∈ (σ.enter E t c).pending ↔ c.Posts E ∧ q = σ.made ∨ q ∈ σ.pending := by
  rw [(enter_spec c σ t).2.1]
  by_cases hp : c.Posts E <;> simp [hp]

theorem le_made_enter (c : BlockingCall) (σ : Stacks T) (t : T) :
    σ.made ≤ (σ.enter E t c).made := by
  rw [(enter_spec c σ t).2.2]
  exact Nat.le_add_right _ _

theorem lt_made_enter {c : BlockingCall} (h : c.Posts E) : σ.made < (σ.enter E t c).made := by
  rw [(enter_spec c σ t).2.2, if_pos h]
  exact Nat.lt_succ_self _

theorem Inv.enter (hi : σ.Inv E) (t : T) (c : BlockingCall) : (σ.enter E t c).Inv E where
  frames t' f q hf hq := by
    rcases frames_enter hf with ⟨-, rfl⟩ | ⟨-, hf⟩
    · obtain ⟨hp, rfl⟩ := has_opened.mp hq
      exact ⟨hp, lt_made_enter hp⟩
    · obtain ⟨hp, hlt⟩ := hi.frames t' f q hf hq
      exact ⟨hp, lt_of_lt_of_le hlt (le_made_enter c σ t)⟩
  pending q hq := by
    rcases mem_pending_enter.mp hq with ⟨hp, rfl⟩ | hq
    · exact lt_made_enter hp
    · exact lt_of_lt_of_le (hi.pending q hq) (le_made_enter c σ t)
  posted t' f hf hp := by
    rcases frames_enter hf with ⟨-, rfl⟩ | ⟨-, hf⟩
    · exact ⟨σ.made, mem_pending_enter.mpr (.inl ⟨hp, rfl⟩), has_opened.mpr ⟨hp, rfl⟩⟩
    · obtain ⟨q, hq, hhas⟩ := hi.posted t' f hf hp
      exact ⟨q, mem_pending_enter.mpr (.inr hq), hhas⟩
  apart t₁ t₂ f₁ f₂ q h₁ h₂ hq₁ hq₂ := by
    -- The request of the new object has a number that no other object has.
    rcases frames_enter h₁ with ⟨ht₁, rfl⟩ | ⟨-, hσ₁⟩
    · rcases frames_enter h₂ with ⟨ht₂, -⟩ | ⟨-, hσ₂⟩
      · exact ht₁.trans ht₂.symm
      · obtain ⟨-, rfl⟩ := has_opened.mp hq₁
        exact absurd (hi.frames t₂ f₂ _ hσ₂ hq₂).2 (lt_irrefl _)
    · rcases frames_enter h₂ with ⟨-, rfl⟩ | ⟨-, hσ₂⟩
      · obtain ⟨-, rfl⟩ := has_opened.mp hq₂
        exact absurd (hi.frames t₁ f₁ _ hσ₁ hq₁).2 (lt_irrefl _)
      · exact hi.apart t₁ t₂ f₁ f₂ q hσ₁ hσ₂ hq₁ hq₂

theorem Inv.leave (hi : σ.Inv E) (hf : σ.frames t = some f) : (σ.leave E t).Inv E where
  frames t' f' q hf' hq := by
    rw [(leave_spec hf).2.2]
    exact hi.frames t' f' q (frames_leave hf hf').2 hq
  pending q hq := by
    rw [(leave_spec hf).2.2]
    exact hi.pending q (((leave_spec hf).2.1 q).mp hq).1
  posted t' f' hf' hp := by
    obtain ⟨hne, hf'⟩ := frames_leave hf hf'
    obtain ⟨q, hq, hhas⟩ := hi.posted t' f' hf' hp
    refine ⟨q, ((leave_spec hf).2.1 q).mpr ⟨hq, fun hw => hne ?_⟩, hhas⟩
    exact hi.apart t' t f' f q hf' hf hhas hw.2
  apart t₁ t₂ f₁ f₂ q h₁ h₂ :=
    hi.apart t₁ t₂ f₁ f₂ q (frames_leave hf h₁).2 (frames_leave hf h₂).2

theorem NoneOutlives.enter (h : σ.NoneOutlives) (hfree : σ.frames t = none) (c : BlockingCall) :
    (σ.enter E t c).NoneOutlives := by
  intro q hq
  rcases mem_pending_enter.mp hq with ⟨hp, rfl⟩ | hq
  · refine ⟨t, opened (E := E) σ c, ?_, has_opened.mpr ⟨hp, rfl⟩⟩
    rw [(enter_spec c σ t).1, Function.update_self]
  · obtain ⟨t', f, hf, hhas⟩ := h q hq
    refine ⟨t', f, ?_, hhas⟩
    rw [(enter_spec c σ t).1, Function.update_of_ne, hf]
    rintro rfl
    exact nomatch hfree.symm.trans hf

theorem NoneOutlives.leave (h : σ.NoneOutlives) (hi : σ.Inv E) (hf : σ.frames t = some f)
    (hfinishes : ¬ f.call.Leaves E) : (σ.leave E t).NoneOutlives := by
  intro q hq
  obtain ⟨hq, hkept⟩ := ((leave_spec hf).2.1 q).mp hq
  obtain ⟨t', f', hf', hhas⟩ := h q hq
  refine ⟨t', f', ?_, hhas⟩
  rw [(leave_spec hf).1, Function.update_of_ne, hf']
  rintro rfl
  obtain rfl : f = f' := Option.some.inj (hf.symm.trans hf')
  exact hkept ⟨(BlockingCall.waits_iff (hi.frames t' f q hf hhas).1).mpr hfinishes, hhas⟩

/-- The request of a send to a process is lost with the object. -/
theorem Inv.lost (hi : σ.Inv E) (hf : σ.frames t = some f) (hleaves : f.call.Leaves E) :
    ∃ q, (σ.leave E t).Lost q := by
  obtain ⟨q, hq, hhas⟩ := hi.posted t f hf hleaves.posts
  refine ⟨q, ((leave_spec hf).2.1 q).mpr ⟨hq, fun hw => ?_⟩, ?_, fun t' f' hf' hhas' => ?_⟩
  · exact (BlockingCall.waits_iff hleaves.posts).mp hw.1 hleaves
  · rw [(leave_spec hf).2.2]
    exact hi.pending q hq
  · obtain ⟨hne, hf'⟩ := frames_leave hf hf'
    exact hne (hi.apart t' t f' f q hf' hf hhas' hhas)

theorem Lost.step {q : ℕ} (h : σ.Lost q) {l : StackOp T} (hg : σ.Allowed l) :
    (step E σ l).Lost q := by
  cases l with
  | enter t c =>
    refine ⟨mem_pending_enter.mpr (.inr h.pending), lt_of_lt_of_le h.lt (le_made_enter c σ t), ?_⟩
    intro t' f hf hhas
    rcases frames_enter hf with ⟨-, rfl⟩ | ⟨-, hf⟩
    · obtain ⟨-, rfl⟩ := has_opened.mp hhas
      exact absurd h.lt (lt_irrefl _)
    · exact h.frames t' f hf hhas
  | leave t =>
    obtain ⟨f, hf⟩ := Option.ne_none_iff_exists'.mp hg
    refine ⟨((leave_spec hf).2.1 q).mpr ⟨h.pending, fun hw => h.frames t f hf hw.2⟩, ?_, ?_⟩
    · exact ((leave_spec (E := E) hf).2.2).symm ▸ h.lt
    · exact fun t' f' hf' => h.frames t' f' (frames_leave hf hf').2

omit [DecidableEq T] in
theorem Lost.outlives {q : ℕ} (h : σ.Lost q) : ¬ σ.NoneOutlives := fun hnone =>
  have ⟨t, f, hf, hhas⟩ := hnone q h.pending
  h.frames t f hf hhas

theorem noneOutlives_run_iff (hi : σ.Inv E) (h : σ.NoneOutlives) {ops : List (StackOp T)}
    (hv : (machine E T).Valid σ ops) :
    ((machine E T).run σ ops).NoneOutlives ↔ (machine E T).Along (Finishes E) σ ops := by
  induction ops generalizing σ with
  | nil => exact iff_of_true h trivial
  | cons l ops ih =>
    obtain ⟨hg, hv⟩ := hv
    cases l with
    | enter t c => exact (ih (hi.enter t c) (h.enter hg c) hv).trans (and_iff_right trivial).symm
    | leave t =>
      obtain ⟨f, hf⟩ := Option.ne_none_iff_exists'.mp hg
      by_cases hleaves : f.call.Leaves E
      · obtain ⟨q, hq⟩ := hi.lost hf hleaves
        have hrun := hv.inv (I := fun σ => σ.Lost q) (fun _ _ h hg => h.step hg) hq
        exact iff_of_false hrun.outlives fun hs => hs.1 f hf hleaves
      · have hfinishes : Finishes E σ (.leave t) := fun f' hf' =>
          Option.some.inj (hf.symm.trans hf') ▸ hleaves
        exact (ih (hi.leave hf) (h.leave hi hf hleaves) hv).trans (and_iff_right hfinishes).symm

omit [DecidableEq T] in
theorem inv_empty : ({} : Stacks T).Inv E where
  frames _ _ _ hf := by cases hf
  pending _ hq := absurd hq List.not_mem_nil
  posted _ _ hf := by cases hf
  apart _ _ _ _ _ hf := by cases hf

end Stacks

open Stacks in
/-- The piggybacks of blocking calls end with their calls exactly if no call that returned is a send
to a process. -/
theorem blocking_piggybacks_end_iff {T : Type} [DecidableEq T] (E : Setting)
    (ops : List (StackOp T)) (hv : (machine E T).Valid {} ops) :
    ((machine E T).run {} ops).NoneOutlives ↔ (machine E T).Along (Finishes E) {} ops :=
  noneOutlives_run_iff inv_empty (fun _ hq => absurd hq List.not_mem_nil) hv

def overlappingCalls : List (StackOp Bool) :=
  [.enter false (.recv 0 5), .enter true .allreduce, .leave false, .leave true,
    .enter true (.send (-1) 5), .leave true]

theorem blocking_piggybacks_end_iff_overlappingCalls :
    (Stacks.machine twoDatas Bool).Valid {} overlappingCalls ∧
      ((Stacks.machine twoDatas Bool).run {} overlappingCalls).NoneOutlives :=
  ⟨by decide +kernel, (blocking_piggybacks_end_iff twoDatas overlappingCalls (by decide +kernel)).mpr
    (by decide +kernel)⟩

/-- `MPI_Send` to rank 0. -/
theorem send_outlives_wrapper :
    (Stacks.machine twoDatas Unit).Valid {} [.enter () (.send 0 5), .leave ()] ∧
      ¬ ((Stacks.machine twoDatas Unit).run {} [.enter () (.send 0 5), .leave ()]).NoneOutlives := by
  refine ⟨by decide +kernel, fun hnone => ?_⟩
  obtain ⟨t, f, hf, -⟩ := hnone 0 (by decide +kernel)
  cases hf

end CritPath.Tracking
