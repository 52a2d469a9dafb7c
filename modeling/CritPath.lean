import CritPath.Clock.Atomics
import CritPath.Clock.Unsignalled
import CritPath.Omp.Barrier
import CritPath.Omp.DependRuns
import CritPath.Omp.LockHandover
import CritPath.Omp.Locks
import CritPath.Omp.PoolRuns
import CritPath.Omp.RefCount
import CritPath.Omp.StartInTask
import CritPath.Omp.WaitJoin
import CritPath.Mpi.Balance
import CritPath.Mpi.GlobalPath
import CritPath.Mpi.Hybrid
import CritPath.Mpi.Maxloc
import CritPath.Mpi.Pairing
import CritPath.Containers.FileSeeks
import CritPath.Containers.FileWrites
import CritPath.Containers.StringBuf
import CritPath.Measure.Order
import CritPath.Measure.RealTime
import CritPath.Measure.ThreadClocks
import CritPath.Measure.TimeBase
import CritPath.Options.UnknownFlags
import CritPath.Tracking.Classes
import CritPath.Tracking.Communicators
import CritPath.Tracking.FortranHandles
import CritPath.Tracking.FortranWrappers
import CritPath.Tracking.PoolOwnership
import CritPath.Tracking.Statuses
