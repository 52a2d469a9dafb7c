import CritPath.Measure.Session

/-!
# Jobs

A job has one session for each process and one time for all of them. A label is
a command of one process at a time: a call of a session, a thread that begins,
the start or stop of the tool, or the merges of `MPI_Finalize`. `loaded` records
the values that `MpiHappensBefore` has loaded in `STATE_MPI`, in any process;
nothing of the tool reads it.
-/

namespace CritPath

open Lib

namespace Session

variable {T S B : Type} [DecidableEq T]

/-- `startTool` once past its test of `stopped`, as far as the session goes. -/
def startTool (now : ℚ) (th : T) (cs : ClockState) (σ : Session T S B) : Session T S B :=
  if σ.running then σ
  else
    let σ := { σ with running := true }
    let c := σ.sys.thread th
    -- for the initialisation of MPI
    let c := if cs = .mpi ∧ c.getState = .init then c.enterState true now .useful now else c
    { σ with sys := σ.sys.setThread th (c.enterState true now cs now) }

/-- `stopTool`; with `dump_on_stop` a `finishMeasurement` follows. -/
def stopTool (now : ℚ) (th : T) (σ : Session T S B) : Session T S B :=
  if σ.running then (σ.stopMeasurement now).close now th else σ

/-- `ompt_tsan_thread_begin`. Worker threads enter `STATE_OMP` at `startProgrammTime`. -/
def threadBegin (startProgrammTime now : ℚ) (th : T) (initial : Bool) (σ : Session T S B) :
    Session T S B :=
  let time := if initial then 0 else startProgrammTime
  { σ with
    threadClocks := σ.threadClocks ++ [th]
    sys := σ.sys.setThread th ((σ.sys.thread th).enterState σ.running time .omp now) }

/-- The `maxUpdate`s of `MPI_Finalize`: those of `MpiHappensAfter` without its test of
`running`. -/
def mpiFinalize (th : T) (b : B) (σ : Session T S B) : Session T S B :=
  { σ with sys := σ.sys.setThread th ((σ.sys.thread th).mpiHappensAfter true (σ.ipc b)) }

def loads (σ : Session T S B) : Action T S B → List IpcData
  | .mpiHappensBefore th _ =>
    if σ.topState th = .mpi then [(σ.sys.thread th).mpiHappensBefore] else []
  | _ => []

end Session

structure Job (P T S B : Type) where
  rank : P → Session T S B
  startProgrammTime : P → ℚ
  now : ℚ
  loaded : List IpcData

inductive Command (T S B : Type) where
  | act (a : Action T S B)
  | threadBegin (th : T) (initial : Bool)
  | startTool (th : T) (cs : ClockState)
  | stopTool (th : T)
  | mpiFinalize (th : T) (b : B)

structure JobEvent (P T S B : Type) where
  time : ℚ
  rank : P
  command : Command T S B

namespace Job

variable {P T S B : Type}

/-- The job before anything is started; the library was loaded at the times `load`. -/
def start (T S B : Type) (load : P → ℚ) : Job P T S B where
  rank _ := { Session.start S B [] with running := false }
  startProgrammTime := load
  now := 0
  loaded := []

variable [DecidableEq T] [DecidableEq S] [DecidableEq B]

/-- What a command does to the session of its process. -/
def perform (startProgrammTime now : ℚ) (σ : Session T S B) : Command T S B → Session T S B
  | .act a => σ.step (now, a)
  | .threadBegin th initial => σ.threadBegin startProgrammTime now th initial
  | .startTool th cs => σ.startTool now th cs
  | .stopTool th => σ.stopTool now th
  | .mpiFinalize th b => σ.mpiFinalize th b

/-- `startMeasurement(time)` in `startTool`. -/
def startsAt (σ : Session T S B) (old now : ℚ) : Command T S B → ℚ
  | .startTool _ _ => if σ.running then old else now
  | _ => old

def loadsOf (σ : Session T S B) : Command T S B → List IpcData
  | .act a => σ.loads a
  | _ => []

variable [DecidableEq P]

def step (j : Job P T S B) (e : JobEvent P T S B) : Job P T S B :=
  let σ := j.rank e.rank
  let old := j.startProgrammTime e.rank
  { rank := Function.update j.rank e.rank (perform old e.time σ e.command)
    startProgrammTime :=
      Function.update j.startProgrammTime e.rank (startsAt σ old e.time e.command)
    now := e.time
    loaded := j.loaded ++ loadsOf σ e.command }

def machine (P T S B : Type) [DecidableEq P] [DecidableEq T] [DecidableEq S] [DecidableEq B] :
    Machine (Job P T S B) (JobEvent P T S B) where
  step := step

def afterRun (load : P → ℚ) (es : List (JobEvent P T S B)) : Job P T S B :=
  (machine P T S B).run (start T S B load) es

end Job

end CritPath
