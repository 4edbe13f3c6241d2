import Slurm.Record

/-!
# The state of the controller

The tables `slurmctld` keeps in memory (`Ctld`), and what it takes from outside
of the modelled code (`Env`): the configuration, the answers of the accounting
database on who may do what, and the plugins.

Records are reached through their addresses: `c.job p` is the job record at
`p`. Which of the addresses hold a job of the system is in the job list; a
record that is not in it is one that was purged, or was never created.
-/

namespace Slurm

open Function

/-- The table of reserved ports (the globals of `port_mgr.c`, and the `static`
    variables of `resv_port_alloc`). The row of the port `portResvMin + i` is
    `portResvTable i`: the nodes on which this port is reserved.

    The counter of the ports of job packs is an `int`, whose sums wrap around. The
    cursors and `hport` are never negative: the cursors are below the size of the table
    they were last moved in, but for one that is set to `hport`. -/
structure PortMgr where
  portResvTable : ℕ → Bitmap := fun _ => ∅
  portResvCnt : ℕ := 0
  portResvMin : ℕ := 0
  portResvMax : ℕ := 0
  portResvCntJobpack : ℤ := 0
  lastPortAllocJobpack : ℕ := 0
  lastPortAlloc : ℕ := 0
  hport : ℕ := 0

/-- What a user or an account uses of a QOS (`slurmdb_used_limits_t`). -/
structure UsedLimits where
  jobs : UInt32 := 0
  submitJobs : UInt32 := 0
  tres : ℕ → UInt64 := fun _ => 0

/-- A QOS, with its usage (`slurmdb_qos_rec_t`). The usage by user and by
    account is created, as zero, when it is first looked up. -/
structure QosRecord where
  overPartQos : Bool := false
  grpUsedJobs : UInt32 := 0
  grpUsedSubmitJobs : UInt32 := 0
  grpUsedTres : ℕ → UInt64 := fun _ => 0
  grpUsedTresRunSecs : ℕ → UInt64 := fun _ => 0
  userLimit : ℕ → UsedLimits := fun _ => {}
  acctLimit : Option CStr → UsedLimits := fun _ => {}

/-- An association, with its usage (`slurmdb_assoc_rec_t`), and the chain of its
    parents up to the root. -/
structure AssocRecord where
  id : ℕ := 0
  uid : ℕ := 0
  acct : Option CStr := none
  parents : List Ptr := []
  usedJobs : UInt32 := 0
  usedSubmitJobs : UInt32 := 0
  grpUsedTres : ℕ → UInt64 := fun _ => 0
  grpUsedTresRunSecs : ℕ → UInt64 := fun _ => 0

/-- A partition (`struct part_record`). -/
structure PartRecord where
  overTimeLimit : Option ℕ := none
  qosPtr : Option Ptr := none

/-- The state of the controller. -/
structure Ctld where
  job : Ptr → JobRecord := fun _ => {}
  jobList : List Ptr := []
  jobArrayHash : List Ptr := []
  step : Ptr → StepRecord := fun _ => {}
  node : ℕ → NodeRecord := fun _ => {}
  nodeRecordCount : ℕ := 0
  port : PortMgr := {}
  /-- How much of a configured license is used; `none` if it is not configured. -/
  licenseUsed : CStr → Option UInt32 := fun _ => none
  assoc : Ptr → AssocRecord := fun _ => {}
  qos : Ptr → QosRecord := fun _ => {}
  part : Ptr → PartRecord := fun _ => {}
  jobCount : ℤ := 0
  lastJobUpdate : ℤ := 0
  lastNodeUpdate : ℤ := 0

/-- What the controller takes from outside of the modelled code: its
    configuration, the accounting database, the plugins, and the library of
    host lists. -/
structure Env where
  /-- The ports of a list as a string of ranges, sorted, without brackets
      (`hostlist_ranged_string_xmalloc_dims`). -/
  rangedPorts : List ℕ → CStr := fun _ => []
  /-- The hosts a string of ranges names (`hostlist_create`, `hostlist_shift`);
      `none` if it is not well formed. -/
  hostlist : CStr → Option (List CStr) := fun _ => none
  /-- The limits of associations and QOS are enforced (`ACCOUNTING_ENFORCE_LIMITS`). -/
  enforceLimits : Bool := false
  /-- The association of a user, an account and a partition (`assoc_mgr_fill_in_assoc`):
      the record and the id it fills in, `none` if it fails. -/
  fillInAssoc : ℕ → Option CStr → Option Ptr → Option (Option Ptr × ℕ) := fun _ _ _ => none
  /-- The user is an operator (`validate_operator`). -/
  validateOperator : ℕ → Bool := fun _ => false
  /-- The user is a coordinator of the account (`assoc_mgr_is_user_acct_coord`). -/
  isUserAcctCoord : ℕ → Option CStr → Bool := fun _ _ => false
  /-- The user is the one the controller runs as (`validate_slurm_user`). -/
  validateSlurmUser : ℕ → Bool := fun _ => false
  /-- The id of this cluster in its federation (`fed_mgr_cluster_rec`), if it is in one. -/
  fedId : Option ℕ := none
  /-- The exit codes that requeue a job (`RequeueExit`, `RequeueExitHold`). -/
  requeueExit : Bitmap := ∅
  requeueExitHold : Bitmap := ∅
  /-- A program is run when a job ends (`EpilogSlurmctld`). -/
  epilogSlurmctld : Bool := false
  /-- The prolog of a job is run when it is allocated (`PrologFlags` with `Alloc` or `Contain`). -/
  prologAlloc : Bool := false
  /-- How many minutes a job may go on past its time limit (`OverTimeLimit`). -/
  overTimeLimit : ℕ := 0
  /-- One more than the largest task id of a job array (`MaxArraySize`). -/
  maxArraySize : ℕ := 1001
  /-- The number of buckets of the tables of jobs. -/
  hashTableSize : ℕ := 10000
  /-- The tasks that a text like `1-5,9` names, in a bitmap of the given size (`bit_unfmt`). -/
  bitUnfmt : ℕ → CStr → Option Bitmap := fun _ _ => none
  /-- The select plugin can expand a running job (`select_g_job_expand_allow`). -/
  jobExpandAllow : Bool := false
  /-- The generic resources of a job as the plugins read them, and their list
      (`gres_plugin_job_state_validate`). -/
  gresValidate : Option CStr → Option CStr × Option (List (CStr × ℕ)) := fun g => (g, none)
  /-- The trackable resources of a job with this list on so many nodes
      (`gres_set_job_tres_cnt`). -/
  gresTresCnt : Option (List (CStr × ℕ)) → ℕ → (ℕ → UInt64) → ℕ → UInt64 := fun _ _ t => t
  /-- Trackable resources as a string (`assoc_mgr_make_tres_str_from_array`). -/
  tresStr : (ℕ → UInt64) → Option CStr := fun _ => none
  /-- How many lists of dependencies are searched for a circle (`max_depend_depth`). -/
  maxDependDepth : ℕ := 10

namespace Ctld

/-- Replace the job record at `p`. -/
@[simps port]
def setJob (c : Ctld) (p : Ptr) (j : JobRecord) : Ctld :=
  { c with job := update c.job p j }

/-- Change the job record at `p`. -/
def modJob (c : Ctld) (p : Ptr) (f : JobRecord → JobRecord) : Ctld := c.setJob p (f (c.job p))

/-- Replace the step record at `p`. -/
def setStep (c : Ctld) (p : Ptr) (s : StepRecord) : Ctld :=
  { c with step := update c.step p s }

/-- Replace the table of ports. -/
@[simps port job step jobList]
def setPort (c : Ctld) (m : PortMgr) : Ctld := { c with port := m }

/-- The job with the given id (`find_job_record`). -/
def findJobRecord (c : Ctld) (jobId : ℕ) : Option Ptr :=
  c.jobList.find? fun p => (c.job p).jobId = jobId

/-- The tasks of an array that have a record of their own. -/
def arrayTasks (c : Ctld) (jobId : ℕ) : List Ptr :=
  c.jobArrayHash.filter fun p => (c.job p).arrayJobId = jobId

/-- The record of an array: that of its pending tasks if there is one, else that of a task,
    of one that has not finished before all others. -/
def findArray (c : Ctld) (jobId : ℕ) : Option Ptr :=
  ((c.findJobRecord jobId).filter fun p =>
      (c.job p).arrayRecs.isSome ∧ (c.job p).arrayJobId = jobId).or
    (((c.arrayTasks jobId).find? fun p => ¬(c.job p).jobState.isFinished).or
      (c.arrayTasks jobId).getLast?)

/-- The record of a task of an array: its own, or that of the pending tasks. -/
def findTask (c : Ctld) (jobId taskId : ℕ) : Option Ptr :=
  ((c.arrayTasks jobId).find? fun p => (c.job p).arrayTaskId = taskId).or
    ((c.findJobRecord jobId).filter fun p =>
      (c.job p).arrayRecs.any fun r => r.taskIdBitmap.any fun b => taskId ∈ b)

/-- The record of a job, of a whole array or of a task of one (`find_job_array_rec`). -/
def findJobArrayRec (c : Ctld) (jobId taskId : ℕ) : Option Ptr :=
  if taskId = noVal then c.findJobRecord jobId
  else if taskId = infinite then c.findArray jobId
  else c.findTask jobId taskId

section

variable (c : Ctld) (p q : Ptr) (j : JobRecord) (f : JobRecord → JobRecord) (s : StepRecord)

@[simp] theorem setJob_job_self : (c.setJob p j).job p = j := update_self ..

@[simp] theorem modJob_job_self : (c.modJob p f).job p = f (c.job p) := update_self ..

@[simp] theorem setStep_step_self : (c.setStep p s).step p = s := update_self ..

variable {p q}

@[simp] theorem setJob_job_of_ne (h : q ≠ p) : (c.setJob p j).job q = c.job q :=
  update_of_ne h ..

@[simp] theorem modJob_job_of_ne (h : q ≠ p) : (c.modJob p f).job q = c.job q :=
  update_of_ne h ..

@[simp] theorem setStep_step_of_ne (h : q ≠ p) : (c.setStep p s).step q = c.step q :=
  update_of_ne h ..

/-- What an update of the record of `p` leaves as it is. -/
theorem modJob_part {α : Type*} (g : JobRecord → α) {f : JobRecord → JobRecord}
    (h : g (f (c.job p)) = g (c.job p)) (q : Ptr) : g ((c.modJob p f).job q) = g (c.job q) := by
  rcases eq_or_ne q p with rfl | hq
  · rw [modJob_job_self, h]
  · rw [modJob_job_of_ne _ _ hq]

variable (p)

@[simp] theorem modJob_jobList : (c.modJob p f).jobList = c.jobList := rfl

end

end Ctld

end Slurm
