import Mathlib.Algebra.Order.Group.Int.Sum

/-!
# The records of the controller

The data the controller keeps on jobs, job steps and nodes
(`slurmctld.h`), with the fields that the modelled functions read or write.

* Pointers to records are addresses (`Ptr`), and a pointer that may be `NULL`
  is an `Option Ptr`. The records they point to are in `Slurm.Ctld`.
* A C string is the list of its characters (`CStr`), the final `NUL` left out.
* A bitmap over the nodes (or over the tasks of a job array) is the set of the
  bits that are set.
* The default value of every field is the one of a record fresh from
  `xmalloc`: zero, or `NULL`.
-/

namespace Slurm

/-- The characters of a C string, up to its final `NUL`. -/
abbrev CStr := List Char

/-- The address of a record. -/
abbrev Ptr := ℕ

/-- A bitmap: the set of its bits that are set. -/
abbrev Bitmap := Finset ℕ

/-- `NO_VAL`: no value in a field of 32 bits. -/
def noVal : ℕ := 0xfffffffe

/-- `INFINITE`: all the tasks of a job array, or no time limit. -/
def infinite : ℕ := 0xffffffff

/-! ## Return codes -/

/-- The return codes of the modelled functions (`slurm_errno.h`). There is no code at a `fault`:
    the function uses memory outside of a table, and need not return. -/
inductive Rc
  | fault
  | success
  | error
  | accessDenied
  | jobScriptMissing
  | userIdMissing
  | nodesBusy
  | invalidJobId
  | transitionStateNoUpdate
  | alreadyDone
  | dependency
  | portsBusy
  | portsInvalid
  | circularDependency
  | packNeverRun
  | packBadMember
  | packCancelMember
  | packBadDependency
  | einval
  deriving DecidableEq, Repr

/-- The value of a return code, for the places that compare them (`MAX(rc, rc2)`). -/
def Rc.code : Rc → ℤ
  | success => 0
  | error | fault => -1
  | einval => 22
  | accessDenied => 2002
  | jobScriptMissing => 2009
  | userIdMissing => 2010
  | nodesBusy => 2016
  | invalidJobId => 2017
  | transitionStateNoUpdate => 2020
  | alreadyDone => 2021
  | dependency => 2038
  | portsBusy => 2059
  | portsInvalid => 2060
  | circularDependency => 2071
  | packNeverRun => 9000
  | packBadMember => 9001
  | packCancelMember => 9002
  | packBadDependency => 9003

/-! ## Job states -/

/-- The base state of a job (`enum job_states`), in the order of its values. -/
inductive JobBase
  | pending
  | running
  | suspended
  | complete
  | cancelled
  | failed
  | timeout
  | nodeFail
  | preempted
  | bootFail
  | deadline
  | oom
  deriving DecidableEq, Repr

/-- The flags beside the base state in `job_state`. -/
inductive JobFlag
  | launchFailed
  | updateDb
  | requeue
  | requeueHold
  | specialExit
  | resizing
  | configuring
  | completing
  | stopped
  | reconfigFail
  | powerUpNode
  | revoked
  | requeueFed
  deriving DecidableEq, Repr

/-- A job state: its base state and its flags. -/
@[ext]
structure JobState where
  base : JobBase := .pending
  flags : Finset JobFlag := ∅
  deriving DecidableEq

namespace JobState

variable (s : JobState)

/-- `IS_JOB_PENDING`. -/
def isPending : Prop := s.base = .pending
  deriving Decidable

/-- `IS_JOB_RUNNING`. -/
def isRunning : Prop := s.base = .running
  deriving Decidable

/-- `IS_JOB_SUSPENDED`. -/
def isSuspended : Prop := s.base = .suspended
  deriving Decidable

/-- `IS_JOB_FINISHED`: the base state is past `JOB_SUSPENDED`. -/
def isFinished : Prop := s.base ≠ .pending ∧ s.base ≠ .running ∧ s.base ≠ .suspended
  deriving Decidable

/-- `IS_JOB_COMPLETING`. -/
def isCompleting : Prop := .completing ∈ s.flags
  deriving Decidable

/-- `IS_JOB_CONFIGURING`. -/
def isConfiguring : Prop := .configuring ∈ s.flags
  deriving Decidable

/-- `IS_JOB_RESIZING`. -/
def isResizing : Prop := .resizing ∈ s.flags
  deriving Decidable

/-- Set a flag. -/
def set (f : JobFlag) : JobState := { s with flags := insert f s.flags }

/-- Clear a flag. -/
def clear (f : JobFlag) : JobState := { s with flags := s.flags.erase f }

@[simp] theorem clear_base (f : JobFlag) : (s.clear f).base = s.base := rfl

end JobState

/-- The reasons of a job state the modelled functions set (`enum job_state_reason`);
    all others by their number. -/
inductive StateReason
  | waitNoReason
  | waitDependency
  | waitHeld
  | waitHeldUser
  | waitMaxRequeue
  | failLaunch
  | failOom
  | failExitCode
  | failTimeout
  | other (code : ℕ)
  deriving DecidableEq, Repr

/-! ## Dependencies -/

/-- The type of a dependency (`SLURM_DEPEND_*`). -/
inductive DependType
  | after
  | afterAny
  | afterNotOk
  | afterOk
  | singleton
  | expand
  | afterCorrespond
  | packleader
  | pack
  deriving DecidableEq, Repr

/-- A dependency of a job (`struct depend_spec`). -/
structure DependSpec where
  arrayTaskId : ℕ := 0
  dependType : DependType
  dependFlags : ℕ := 0
  jobId : ℕ := 0
  jobPtr : Option Ptr := none
  alloc : Bool := false
  submitTime : ℤ := 0
  deriving DecidableEq

/-! ## Jobs, steps and nodes -/

/-- The details of a job (`struct job_details`). -/
structure JobDetails where
  dependList : Option (List DependSpec) := none
  dependency : Option CStr := none
  expandingJobid : ℕ := 0
  minNodes : ℕ := 0
  shareRes : ℕ := 0
  wholeNode : ℕ := 0
  deriving DecidableEq

/-- The record of a job array, kept with its base job (`struct job_array_struct`). -/
structure ArrayRecs where
  taskCnt : ℕ := 0
  taskIdBitmap : Option Bitmap := none
  taskIdStr : Option CStr := none
  maxRunTasks : ℕ := 0
  totRunTasks : ℕ := 0
  minExitCode : ℕ := 0
  maxExitCode : ℕ := 0
  totCompTasks : ℕ := 0
  deriving DecidableEq

/-- What a federated job knows of its siblings (`job_fed_details_t`). -/
structure FedDetails where
  clusterLock : ℕ := 0
  deriving DecidableEq

/-- A license a job asks for (`licenses_t` in its `license_list`). -/
structure LicenseEntry where
  name : CStr
  total : UInt32
  used : UInt32 := 0
  deriving DecidableEq

/-- A job (`struct job_record`). -/
structure JobRecord where
  account : Option CStr := none
  arrayJobId : ℕ := 0
  arrayTaskId : ℕ := noVal
  arrayRecs : Option ArrayRecs := none
  assocId : ℕ := 0
  assocPtr : Option Ptr := none
  batchFlag : ℕ := 0
  derivedEc : ℕ := 0
  details : Option JobDetails := none
  endTime : ℤ := 0
  endTimeExp : ℤ := 0
  epilogRunning : Bool := false
  exitCode : ℕ := 0
  fedDetails : Option FedDetails := none
  gres : Option CStr := none
  gresList : Option (List (CStr × ℕ)) := none
  jobId : ℕ := 0
  jobState : JobState := {}
  licenseList : List LicenseEntry := []
  mailArrayTasks : Bool := false
  name : Option CStr := none
  nodes : Option CStr := none
  nodeBitmap : Option Bitmap := none
  nodeBitmapCg : Option Bitmap := none
  nodeCnt : UInt32 := 0
  packLeader : ℕ := 0
  partPtr : Option Ptr := none
  priority : ℕ := 0
  qosId : ℕ := 0
  qosPtr : Option Ptr := none
  requid : ℕ := 0
  restartCnt : ℕ := 0
  resvPortFlag : Bool := false
  resvPortArray : Option (List ℕ) := none
  resvPortCnt : ℕ := 0
  resvPorts : Option CStr := none
  startTime : ℤ := 0
  stateReason : StateReason := .waitNoReason
  stateDesc : Option CStr := none
  stepList : List Ptr := []
  suspendTime : ℤ := 0
  timeLastActive : ℤ := 0
  timeLimit : ℕ := 0
  totSusTime : ℤ := 0
  tresAllocCnt : ℕ → UInt64 := fun _ => 0
  tresReqCnt : ℕ → UInt64 := fun _ => 0
  tresReqStr : Option CStr := none
  userId : ℕ := 0
  warnSent : Bool := false

/-- The list of the dependencies of a job, if it has one. -/
def JobRecord.deps (j : JobRecord) : Option (List DependSpec) := j.details.bind (·.dependList)

/-- A job step (`struct step_record`). -/
structure StepRecord where
  exitCode : ℕ := 0
  cleaning : Bool := false
  resvPortArray : Option (List ℕ) := none
  resvPortCnt : ℕ := 0
  resvPorts : Option CStr := none
  state : JobState := {}
  stepId : ℕ := 0
  stepNodeBitmap : Bitmap := ∅

/-- The base state of a node (`enum node_states`). -/
inductive NodeBase
  | unknown
  | down
  | idle
  | allocated
  | error
  | mixed
  | future
  deriving DecidableEq, Repr

/-- A node (`struct node_record`). -/
structure NodeRecord where
  base : NodeBase := .unknown
  cloud : Bool := false
  completing : Bool := false
  runJobCnt : UInt16 := 0
  compJobCnt : UInt16 := 0
  susJobCnt : UInt16 := 0
  noShareJobCnt : UInt16 := 0
  ownerJobCnt : UInt16 := 0
  owner : ℕ := noVal
  deriving DecidableEq

end Slurm
