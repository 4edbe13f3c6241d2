import Mathlib.Data.List.Range
import Slurm.Lib.CString

/-!
# Sockets of PMI2

One `srun` launches a step, or the steps of a job pack as one MPI program. On each node of a step a
`slurmstepd` serves PMI2, and binds a socket in the spool directory of `slurmd`; its name has the
id of the job and the index of the step among the steps of the `srun` (`boundPath`). The indexes of
the steps, node by node, are a text that the `srun` of the first step writes and hands to the others
through a pipe (`srunStepIndexListOf`), and that each `slurmstepd` reads
(`srunStepIndexArr`).

A message is addressed to the name of a socket on a node, and `slurmd` there passes it on
(`rpcForwardData`). The address is made from the name that the sender keeps (`treeMsgAddress`), or
is that name (`pmixStepdSend`).
-/

namespace Slurm

open CString

/-! ## Spool directory -/

/-- `_xstrsubstitute`: the first occurrence of a pattern is replaced. -/
def xstrsubstitute (str pattern replacement : List Char) : List Char :=
  match strstr str pattern with
  | none => str
  | some rest => str.take (str.length - rest.length) ++ (replacement ++ rest.drop pattern.length)

/-- A text of the configuration for a node. -/
def substituteNode (nodeName str : List Char) : List Char :=
  xstrsubstitute (xstrsubstitute str ['%', 'n'] nodeName) ['%', 'h'] nodeName

/-- What `snprintf` leaves of a text in a buffer. -/
def snprintf (size : ℕ) (str : List Char) : List Char := str.take (size - 1)

/-- The size of `sun_path`. -/
def sunPathSize : ℕ := 108

/-- The size of `tree_sock_addr`. -/
def treeSockAddrSize : ℕ := 128

/-- The size of the buffers for what other steps send. -/
def vectMaxSize : ℕ := 128

/-- The name of a socket up to the numbers. -/
def sockName : List Char := "/sock.pmi2.".toList

/-- A string in an array of a size. It has no end there if it fills the array, and what is taken for
    it then is undefined. -/
def inArray (size : ℕ) (s : List Char) : Option (List Char) :=
  if s.length + 1 ≤ size then some s else none

/-- `PMI2_SOCK_ADDR_FMT`. -/
def sockAddrFmt (spool : List Char) (jobid index : ℕ) : List Char :=
  spool ++ (sockName ++ (fmtU jobid ++ '.' :: fmtU index))

/-! ## Launches -/

/-- A launch by one `srun`. -/
structure PmiLaunch where
  /-- `pmi_stepid`: the id of the first step, or what the spawning program has set. -/
  pmiStepid : List Char
  /-- `srun_mpi_combine`. -/
  mpiCombine : Bool
  /-- The nodes of each of the steps. -/
  steps : List (List (List Char))
  steps_pos : 0 < steps.length
  /-- The number of steps is an `int`. -/
  steps_lt : steps.length < 2 ^ 31
  nodes_ne : ∀ nodes ∈ steps, nodes ≠ []
  /-- Steps that are not combined are served apart from each other. -/
  apart : mpiCombine = false → steps.length = 1

/-- A `slurmstepd`: the index of its step, its node in the list of all of them, and its name. -/
structure PmiStepd where
  step : ℕ
  nodeid : ℕ
  nodeName : List Char
deriving DecidableEq

namespace PmiLaunch

variable (l : PmiLaunch)

/-- The index of the step of each node, with the name of the node. -/
def nodes : List (ℕ × List Char) :=
  l.steps.zipIdx.flatMap fun s => s.1.map fun nodeName => (s.2, nodeName)

def stepds : List PmiStepd := l.nodes.zipIdx.map fun n => ⟨n.1.1, n.2, n.1.2⟩

/-- The list of indexes that `_combine_srun_job_info` makes. It is `n` if there is nothing to
    combine. -/
def srunStepIndexList : List Char :=
  if l.mpiCombine then [','].intercalate (l.nodes.map fun n => fmtU n.1) else ['n']

/-- The list of indexes as the `srun` of a step has it. All but the first read it from a pipe. -/
def srunStepIndexListOf (step : ℕ) : Option (List Char) :=
  if step = 0 then some l.srunStepIndexList else inArray vectMaxSize l.srunStepIndexList

/-- The loop of `_setup_stepd_job_info` over the list. It goes on after the next comma; if there is
    none and more nodes are expected, it reads what is not there. -/
def readIndexes : ℕ → List Char → Option (List ℤ)
  | 0, _ => some []
  | 1, p => some [atoi p]
  | n + 2, p =>
    match p.dropWhile (· ≠ ',') with
    | [] => none
    | _ :: rest => (readIndexes (n + 1) rest).map (atoi p :: ·)

/-- `srun_step_index_arr`: it is zero if the list is `n`. -/
def srunStepIndexArr (step : ℕ) : Option (List ℤ) :=
  (l.srunStepIndexListOf step).bind fun text =>
    if text.head? = some 'n' then some (List.replicate l.nodes.length 0)
    else readIndexes l.nodes.length text

/-- The index of the step of a node, as a `slurmstepd` knows it. -/
def indexOf (d : PmiStepd) (nodeid : ℕ) : Option ℕ :=
  (l.srunStepIndexArr d.step).map fun arr => toUInt (arr.getD nodeid 0)

/-! ## Names of sockets -/

variable (spool : List Char) (jobid : ℕ)

/-- The path that a `slurmstepd` binds in `_setup_stepd_sockets`, which is its `tree_sock_addr`. -/
def boundPath (d : PmiStepd) : Option (List Char) :=
  (l.indexOf d d.nodeid).map fun stepIndex =>
    snprintf sunPathSize (sockAddrFmt (substituteNode d.nodeName spool) jobid stepIndex)

/-- `tree_sock_addr` of `srun`. -/
def srunTreeSockAddr : List Char :=
  snprintf treeSockAddrSize (sockAddrFmt spool jobid (toUInt (atoi l.pmiStepid)))

/-- The address of a message of `tree_msg_to_stepds` from a process with a `tree_sock_addr`. The
    loop that looks for the last dot is to run while `i > slen`, so it ends at once, and what is cut
    off is the last character. -/
def treeMsgAddress (treeSockAddr : List Char) (index : ℕ) : List Char :=
  treeSockAddr.take (treeSockAddr.length - 1) ++ fmtU index

/-- `_rpc_forward_data`: the path that `slurmd` on a node connects to. -/
def rpcForwardData (nodeName address : List Char) : Option (List Char) :=
  let address := substituteNode nodeName address
  if sunPathSize - 1 < address.length then none else some address

/-- Where a message of `tree_msg_to_stepds` goes that `srun` addresses to a `slurmstepd`. -/
def treeMsgFromSrun (d : PmiStepd) : Option (List Char) :=
  rpcForwardData d.nodeName (treeMsgAddress (l.srunTreeSockAddr spool jobid) d.step)

/-- Where a message of `tree_msg_to_stepds` goes that a `slurmstepd` addresses to its parent. -/
def treeMsgFromStepd (d parent : PmiStepd) : Option (List Char) :=
  (l.boundPath spool jobid d).bind fun treeSockAddr =>
    (l.indexOf d parent.nodeid).bind fun index =>
      rpcForwardData parent.nodeName (treeMsgAddress treeSockAddr index)

/-- Where a message of `pmix_stepd_send` goes, from a `slurmstepd` to another. -/
def pmixStepdSend (d target : PmiStepd) : Option (List Char) :=
  (l.boundPath spool jobid d).bind fun treeSockAddr => rpcForwardData target.nodeName treeSockAddr

/-- Each message reaches the socket of the `slurmstepd` it is for. The tree may have any shape. -/
def MessagesReach : Prop :=
  ∀ d ∈ l.stepds, ∃ path, l.boundPath spool jobid d = some path ∧
    l.treeMsgFromSrun spool jobid d = some path ∧
    ∀ e ∈ l.stepds, e ≠ d → l.treeMsgFromStepd spool jobid e d = some path ∧
      l.pmixStepdSend spool jobid e d = some path

end PmiLaunch

/-- The launches of a job at one time serve their programs apart from each other: no path is bound
    twice on a node, and each message reaches the `slurmstepd` it is for. -/
def PmiApart (spool : List Char) (jobid : ℕ) (launches : List PmiLaunch) : Prop :=
  (launches.flatMap fun l =>
      l.stepds.map fun d => (d.nodeName, l.boundPath spool jobid d)).Nodup ∧
    ∀ l ∈ launches, l.MessagesReach spool jobid

end Slurm
