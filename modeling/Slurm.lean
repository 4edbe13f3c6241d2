import Slurm.Port.Counter
import Slurm.Port.Config
import Slurm.Depend.Cycle
import Slurm.Job.ArrayTasks
import Slurm.Job.Submitted
import Slurm.Pack.Cancel
import Slurm.Port.Life
import Slurm.Pack.AllOrNothing
import Slurm.Gang.Fair
import Slurm.FairTree.Rank
import Slurm.Licenses.Conserve
import Slurm.ConsRes.Usage
import Slurm.Fed.Submit
import Slurm.Fed.Lock
import Slurm.Cred.Revoke
import Slurm.Cred.Sbcast
import Slurm.ReverseTree.Wrap
import Slurm.Srun
import Slurm.Pmi2.Address
import Slurm.Pmi2.Combine
import Slurm.Pmi2.RingRun
import Slurm.Pmi2.FenceRun
import Slurm.Locks.Fed
import Slurm.Bitstring.Sets
import Slurm.Wire.Escape
import Slurm.Resv.Watts
import Slurm.Sched.Attempt
import Slurm.Pack.Complete
import Slurm.EnvArray
import Slurm.JobResources.CpuArray
import Slurm.Bitstring.Runs
import Slurm.Gres.Typed
import Slurm.Job.NextId
import Slurm.Hostlist
import Slurm.Squeue
