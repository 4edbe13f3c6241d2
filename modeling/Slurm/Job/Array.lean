import Slurm.Job.Create
import Slurm.Job.StrSignal
import Mathlib.Data.Finset.Max

/-!
# Job arrays

A job array is submitted as one record with a bitmap of its tasks. To schedule
it, the first task in the bitmap is tried (`job_array_pre_sched`). If it gets
its resources, it becomes the job of the record, and the tasks that are left go
on with a copy (`job_array_post_sched`, `job_array_split` in `job_mgr.c`). If
not, `select_nodes` takes the task back. The record of the last task is not
copied, and keeps the counts of the array.

The number of tasks that run at a time may be limited (`job_array_start`,
`job_array_start_test`).

Of the functions of the other modules, `SameTasks` says that they leave the
tasks of arrays where they are: `jobSignalPtr_sameTasks`, and from there on up to
the requests that name jobs by a string. What these do to the tasks that wait in
a bitmap is in `cancelTasks_takesTasks`.
-/

namespace Slurm

open JobRecord Ctld Option JobState

namespace ArrayRecs

/-- The first of the waiting tasks has left for a record of its own. -/
def split (task : ℕ) (r : ArrayRecs) : ArrayRecs :=
  { r with
    taskCnt := r.taskCnt - 1
    taskIdBitmap := r.taskIdBitmap.map (·.erase task)
    taskIdStr := none }

/-- The last of the waiting tasks stays in the record. -/
def last (r : ArrayRecs) : ArrayRecs :=
  { r with taskCnt := r.taskCnt - 1, taskIdBitmap := none, taskIdStr := none }

end ArrayRecs

namespace JobRecord

/-- The tasks of an array that wait in the record of a job. -/
def waiting (j : JobRecord) : Option Bitmap := j.arrayRecs.bind (·.taskIdBitmap)

/-- How many jobs the record of a job counts for. -/
def jobCnt (j : JobRecord) : ℕ := max 1 (j.arrayRecs.elim 1 (·.taskCnt))

/-- The first waiting task is tried (`job_array_pre_sched`). -/
def arrayPreSched (j : JobRecord) : JobRecord :=
  match j.waiting with
  | none => j
  | some b =>
    if h : b.Nonempty then { j with arrayJobId := j.jobId, arrayTaskId := b.min' h }
    else
      { j with
        arrayRecs := j.arrayRecs.map fun (r : ArrayRecs) => { r with taskIdBitmap := none } }

/-- A task that was tried and did not start is taken back (at the end of `select_nodes`). -/
def arrayReset (j : JobRecord) : JobRecord :=
  if j.jobState.isPending ∧ j.waiting.any (· ≠ ∅) then { j with arrayTaskId := noVal } else j

/-- The copy of a record for the tasks that are left. -/
def splitPend (j : JobRecord) : JobRecord :=
  { j with
    arrayRecs := j.arrayRecs.map (ArrayRecs.split j.arrayTaskId)
    arrayTaskId := noVal
    licenseList := (j.licenseList.map fun (e : LicenseEntry) => { e with used := 0 }).reverse
    nodeBitmap := none
    nodeBitmapCg := none
    nodes := none
    stepList := [] }

/-- The record of a task that has left its array, with the id it got. -/
def splitTask (newId : ℕ) (j : JobRecord) : JobRecord := { j with jobId := newId, arrayRecs := none }

end JobRecord

namespace Ctld

/-- Add a task of an array to the tables of tasks (`_add_job_array_hash`). -/
def addJobArrayHash (c : Ctld) (p : Ptr) : Ctld :=
  if (c.job p).arrayTaskId = noVal then c else { c with jobArrayHash := p :: c.jobArrayHash }

section

variable (c : Ctld) (p : Ptr)

theorem addJobArrayHash_job : (c.addJobArrayHash p).job = c.job := by
  unfold addJobArrayHash
  split_ifs <;> rfl

theorem addJobArrayHash_jobList : (c.addJobArrayHash p).jobList = c.jobList := by
  unfold addJobArrayHash
  split_ifs <;> rfl

theorem addJobArrayHash_jobCount : (c.addJobArrayHash p).jobCount = c.jobCount := by
  unfold addJobArrayHash
  split_ifs <;> rfl

end

/-- Delete the record of a job (`_list_delete_job`). -/
def listDeleteJob (c : Ctld) (p : Ptr) : Ctld :=
  { c with
    jobList := c.jobList.erase p
    jobArrayHash :=
      if (c.job p).arrayTaskId = noVal then c.jobArrayHash else c.jobArrayHash.erase p
    jobCount := if c.jobCount < (c.job p).jobCnt then 0 else c.jobCount - (c.job p).jobCnt }

end Ctld

/-- Make a new record, at the address `q`, for the tasks that are left when the task of
    `p` has its resources (`job_array_split`). It keeps the id of the array, and `p`
    gets the id `newId`. -/
def jobArraySplit (now : ℤ) (c : Ctld) (p q : Ptr) (newId : ℕ) : Ctld :=
  let c := { c with jobList := c.jobList ++ [q], lastJobUpdate := now }
  let c := c.setJob q (c.job p).splitPend
  (c.modJob p (splitTask newId)).addJobArrayHash p

/-- The record of the last task, which is the one that has its resources. -/
def JobRecord.lastTask (j : JobRecord) : JobRecord :=
  { j with arrayRecs := j.arrayRecs.map ArrayRecs.last, jobState := j.jobState.set .updateDb }

/-- The task of `p` has its resources (`job_array_post_sched`). -/
def jobArrayPostSched (now : ℤ) (c : Ctld) (p q : Ptr) (newId : ℕ) : Ctld :=
  if (c.job p).waiting = none then c
  else if (c.job p).arrayRecs.elim 0 (·.taskCnt) ≤ 1 then
    let c := c.modJob p lastTask
    match c.findJobArrayRec (c.job p).arrayJobId (c.job p).arrayTaskId with
    | some _ => c
    | none => c.addJobArrayHash p
  else
    (jobArraySplit now c p q newId).modJob q fun j =>
      { j with jobState := ⟨.pending, ∅⟩, startTime := 0 }

/-- Count a task that starts (`job_array_start`). -/
def jobArrayStart (c : Ctld) (p : Ptr) : Ctld :=
  match c.arrayBase (c.job p) with
  | none => c
  | some (b, r) =>
    c.setJob b { c.job b with arrayRecs := some { r with totRunTasks := r.totRunTasks + 1 } }

/-- A task may not start now: as many tasks of its array run as may. -/
def Ctld.throttled (c : Ctld) (p : Ptr) : Prop :=
  ∃ br ∈ c.arrayBase (c.job p), br.2.maxRunTasks ≠ 0 ∧ br.2.maxRunTasks ≤ br.2.totRunTasks
  deriving Decidable

/-- Whether a task may start (`job_array_start_test`). If not, its reason to wait is
    `WAIT_ARRAY_TASK_LIMIT`. -/
def jobArrayStartTest (c : Ctld) (p : Ptr) : Bool × Ctld :=
  if c.throttled p then
    (false, c.modJob p fun j => { j with stateReason := .other 71, stateDesc := none })
  else (true, c)

/-- A controller without jobs. -/
structure Ctld.NoJobs (c : Ctld) : Prop where
  jobList : c.jobList = []
  jobArrayHash : c.jobArrayHash = []
  jobCount : c.jobCount = 0

/-- Where no two jobs have one id, the job with an id is found by it. -/
theorem Ctld.findJobRecord_eq_some {c : Ctld}
    (hids : ∀ p ∈ c.jobList, ∀ q ∈ c.jobList, (c.job p).jobId = (c.job q).jobId → p = q)
    {jobId : ℕ} {p : Ptr} :
    c.findJobRecord jobId = some p ↔ p ∈ c.jobList ∧ (c.job p).jobId = jobId := by
  refine ⟨findJobRecord_mem, fun ⟨hp, hid⟩ => ?_⟩
  have hsome : (c.findJobRecord jobId).isSome := by
    simp only [findJobRecord, List.find?_isSome, decide_eq_true_eq]
    exact ⟨p, hp, hid⟩
  obtain ⟨q, hq⟩ := isSome_iff_exists.1 hsome
  obtain ⟨hqmem, hqid⟩ := findJobRecord_mem hq
  rw [hq, hids q hqmem p hp (hqid.trans hid.symm)]

/-! ## What scheduling does to the records -/

theorem JobRecord.lastTask_waiting (j : JobRecord) : j.lastTask.waiting = none := by
  cases h : j.arrayRecs <;> simp [lastTask, waiting, ArrayRecs.last, h]

section

variable (now : ℤ) {c : Ctld} {p q : Ptr} (newId : ℕ)

theorem jobArrayPostSched_last (hwait : (c.job p).waiting ≠ none)
    (hcnt : (c.job p).arrayRecs.elim 0 (·.taskCnt) ≤ 1) (htask : (c.job p).arrayTaskId ≠ noVal)
    (hfind : (c.modJob p lastTask).findJobArrayRec (c.job p).arrayJobId
      (c.job p).arrayTaskId = none) :
    jobArrayPostSched now c p q newId =
      { c.modJob p lastTask with jobArrayHash := p :: c.jobArrayHash } := by
  have hself : (c.modJob p lastTask).job p = (c.job p).lastTask := modJob_job_self ..
  have hfind' : (c.modJob p lastTask).findJobArrayRec ((c.modJob p lastTask).job p).arrayJobId
      ((c.modJob p lastTask).job p).arrayTaskId = none := by
    rw [hself]
    exact hfind
  rw [jobArrayPostSched, if_neg hwait, if_pos hcnt]
  change (match (c.modJob p lastTask).findJobArrayRec ((c.modJob p lastTask).job p).arrayJobId
      ((c.modJob p lastTask).job p).arrayTaskId with
    | some _ => c.modJob p lastTask
    | none => (c.modJob p lastTask).addJobArrayHash p) = _
  rw [hfind']
  exact if_neg (by rw [hself]; exact htask)

/-- Without other tasks that wait, the record stays that of the task. Whether the task is in the
    table of tasks already does not matter here. -/
theorem jobArrayPostSched_of_last
    (hlast : (c.job p).waiting = none ∨ (c.job p).arrayRecs.elim 0 (·.taskCnt) ≤ 1) :
    jobArrayPostSched now c p q newId = c ∨ (c.job p).arrayRecs.elim 0 (·.taskCnt) ≤ 1 ∧
      ∃ hash, jobArrayPostSched now c p q newId =
        { c.modJob p lastTask with jobArrayHash := hash } := by
  by_cases hwait : (c.job p).waiting = none
  · exact .inl (if_pos hwait)
  refine .inr ⟨hlast.resolve_left hwait, ?_⟩
  rw [jobArrayPostSched, if_neg hwait, if_pos (hlast.resolve_left hwait)]
  dsimp only
  split
  · exact ⟨_, rfl⟩
  · rw [addJobArrayHash]
    split_ifs
    · exact ⟨_, rfl⟩
    · exact ⟨_, rfl⟩

/-- From `c` to `c'` the task of `p` gets a record of its own, and those that are left go
    to `q`. -/
structure SplitsOff (p q : Ptr) (newId : ℕ) (c c' : Ctld) : Prop where
  jobList : c'.jobList = c.jobList ++ [q]
  jobArrayHash : (c.job p).arrayTaskId ≠ noVal → c'.jobArrayHash = p :: c.jobArrayHash
  jobCount : c'.jobCount = c.jobCount
  task : c'.job p = (c.job p).splitTask newId
  pend : c'.job q = { (c.job p).splitPend with jobState := ⟨.pending, ∅⟩, startTime := 0 }
  others : ∀ r, r ≠ p → r ≠ q → c'.job r = c.job r

theorem jobArrayPostSched_splitsOff (hwait : (c.job p).waiting ≠ none)
    (hcnt : ¬(c.job p).arrayRecs.elim 0 (·.taskCnt) ≤ 1) (hne : p ≠ q) :
    SplitsOff p q newId c (jobArrayPostSched now c p q newId) := by
  rw [jobArrayPostSched, if_neg hwait, if_neg hcnt]
  simp only [jobArraySplit]
  refine ⟨?_, fun htask => ?_, ?_, ?_, ?_, fun r hrp hrq => ?_⟩
  · rw [modJob_jobList, addJobArrayHash_jobList]
    rfl
  · have htask' : (((setJob { c with jobList := c.jobList ++ [q], lastJobUpdate := now } q
        (c.job p).splitPend).modJob p (splitTask newId)).job p).arrayTaskId ≠ noVal := by
      rw [modJob_job_self, setJob_job_of_ne _ _ hne]
      exact htask
    rw [addJobArrayHash, if_neg htask']
    rfl
  · exact addJobArrayHash_jobCount ..
  · rw [modJob_job_of_ne _ _ hne, addJobArrayHash_job, modJob_job_self, setJob_job_of_ne _ _ hne]
  · rw [modJob_job_self, addJobArrayHash_job, modJob_job_of_ne _ _ hne.symm, setJob_job_self]
  · rw [modJob_job_of_ne _ _ hrq, addJobArrayHash_job, modJob_job_of_ne _ _ hrp,
      setJob_job_of_ne _ _ hrq]

end

/-! ## What leaves the tasks where they are -/

/-- The part of a record that says which tasks of arrays it stands for. -/
def JobRecord.taskFields (j : JobRecord) : ℕ × ℕ × ℕ × Option (ℕ × Option Bitmap) :=
  (j.jobId, j.arrayJobId, j.arrayTaskId, j.arrayRecs.map fun r => (r.taskCnt, r.taskIdBitmap))

/-- From `c` to `c'` no job comes or goes, and every task of an array stays where it is. -/
structure SameTasks (c c' : Ctld) : Prop where
  jobList : c'.jobList = c.jobList
  jobArrayHash : c'.jobArrayHash = c.jobArrayHash
  jobCount : c'.jobCount = c.jobCount
  fields : ∀ q, (c'.job q).taskFields = (c.job q).taskFields

namespace SameTasks

variable {c c' c'' : Ctld} {p : Ptr}

theorem refl (c : Ctld) : SameTasks c c := ⟨rfl, rfl, rfl, fun _ => rfl⟩

theorem trans (h : SameTasks c c') (h' : SameTasks c' c'') : SameTasks c c'' where
  jobList := h'.jobList.trans h.jobList
  jobArrayHash := h'.jobArrayHash.trans h.jobArrayHash
  jobCount := h'.jobCount.trans h.jobCount
  fields q := (h'.fields q).trans (h.fields q)

theorem setJob {j : JobRecord} (h : j.taskFields = (c.job p).taskFields) :
    SameTasks c (c.setJob p j) := by
  refine ⟨rfl, rfl, rfl, fun q => ?_⟩
  rcases eq_or_ne q p with rfl | hq
  · rw [setJob_job_self, h]
  · rw [setJob_job_of_ne _ _ hq]

theorem modJob {f : JobRecord → JobRecord} (h : ∀ j, (f j).taskFields = j.taskFields) :
    SameTasks c (c.modJob p f) :=
  setJob (h _)

/-- A change outside of the jobs. -/
theorem ofJobEq (hjob : c'.job = c.job) (hlist : c'.jobList = c.jobList)
    (hhash : c'.jobArrayHash = c.jobArrayHash) (hcount : c'.jobCount = c.jobCount) :
    SameTasks c c' :=
  ⟨hlist, hhash, hcount, fun q => by rw [hjob]⟩

theorem releaseFrame (p : Ptr) : ReleaseFrame p SameTasks :=
  ⟨.trans, fun _ _ _ _ _ _ _ => .ofJobEq rfl rfl rfl rfl, fun h => .setJob (of_part (·.taskFields) h)⟩

theorem jobId (h : SameTasks c c') (q : Ptr) : (c'.job q).jobId = (c.job q).jobId :=
  congrArg (·.1) (h.fields q)

end SameTasks

/-- The tasks that wait in a record are a matter of its fields for tasks. -/
theorem JobRecord.waiting_eq (j : JobRecord) : j.waiting = j.taskFields.2.2.2.bind (·.2) := by
  simp only [waiting, taskFields]
  cases j.arrayRecs <;> rfl

theorem JobRecord.jobCnt_eq (j : JobRecord) : j.jobCnt = max 1 (j.taskFields.2.2.2.elim 1 (·.1)) := by
  simp only [jobCnt, taskFields]
  cases j.arrayRecs <;> rfl

section

variable (env : Env) (now : ℤ) (c : Ctld) (p : Ptr)

theorem adjustLimitUsage_sameTasks (type : PolicyType) :
    SameTasks c (adjustLimitUsage env type c p) := by
  have hassoc : SameTasks c (validJobAssoc env c p).2 := by
    simp only [validJobAssoc]
    split
    · exact .refl c
    · exact .setJob rfl
  simp only [adjustLimitUsage]
  split
  · exact .refl c
  · split
    · exact hassoc.trans (.ofJobEq rfl rfl rfl rfl)
    · exact hassoc

theorem acctPolicyJobFini_sameTasks : SameTasks c (acctPolicyJobFini env c p) := by
  simp only [acctPolicyJobFini]
  split_ifs
  · exact adjustLimitUsage_sameTasks env c p .jobFini
  · exact .refl c

theorem jobArrayComp_sameTasks (wasRunning : Bool) :
    SameTasks c (jobArrayComp c p wasRunning) := by
  simp only [jobArrayComp]
  split
  · exact .refl c
  · next b r hbase =>
    refine .setJob ?_
    simp only [taskFields, arrayBase_recs hbase]
    rfl

theorem jobCompletionLogger_sameTasks : SameTasks c (jobCompletionLogger env c p) :=
  (adjustLimitUsage_sameTasks env c p .remSubmit).trans
    ((jobArrayComp_sameTasks ..).trans (.modJob fun j => by simp only [logEnd]; split_ifs <;> rfl))

theorem killAllocated_sameTasks (suspended : Bool) {flags : KillFlags} {f : JobRecord → JobRecord}
    (hf : Kills flags f) : SameTasks c (killAllocated env now c p f suspended flags) := by
  have hstart : SameTasks c (c.modJob p fun j => (f j).buildCgBitmap) :=
    .modJob fun j => of_part (·.taskFields) ((buildCgBitmap_lasting _).trans (hf.lasting j))
  exact hstart.trans ((jobCompletionLogger_sameTasks env _ p).trans
    ((SameTasks.releaseFrame p).killAllocated env now
      (fun c => acctPolicyJobFini_sameTasks env c p) f suspended flags))

theorem killUnallocated_sameTasks (flags : KillFlags) :
    SameTasks c (killUnallocated env now c p flags) := by
  have hkill : SameTasks c (c.modJob p (killPending now flags)) := .modJob fun _ => rfl
  exact hkill.trans ((jobCompletionLogger_sameTasks ..).trans
    (.modJob fun j => of_part (·.taskFields) (j.clearFedRequeue_lasting flags)))

variable (signal : ℕ) (flags : KillFlags) (uid : ℕ) (preempt : Bool)

/-- A signal to a job leaves the tasks of arrays where they are. -/
theorem jobSignalPtr_sameTasks :
    SameTasks c (jobSignalPtr env now c p signal flags uid preempt).2 := by
  have hupdate : SameTasks c { c with lastJobUpdate := now } := .ofJobEq rfl rfl rfl rfl
  have hrequid : SameTasks c (modJob { c with lastJobUpdate := now } p (cancelledBy uid)) :=
    hupdate.trans (.modJob fun _ => rfl)
  have hstop (j : JobRecord) : (j.stopOrContinue signal).taskFields = j.taskFields :=
    of_part (·.taskFields) (j.stopOrContinue_lasting signal)
  refine jobSignalPtr_elim env now c p signal flags uid preempt _ rfl _ rfl (.refl c)
    (fun _ _ => hrequid.trans (.modJob fun _ => rfl)) (fun f suspended hf _ _ _ => ?_)
    (fun _ _ => ?_) hrequid (fun _ => hupdate.trans (.modJob hstop)) hupdate
  · exact hrequid.trans (killAllocated_sameTasks env now _ p suspended hf)
  · exact hrequid.trans (killUnallocated_sameTasks ..)

end

/-! ## Requests -/

/-- From `c` to `c'` every task of an array stays where it is, and no job that has finished
    starts over. -/
structure KeepsTasks (c c' : Ctld) : Prop extends SameTasks c c' where
  finished : ∀ q, (c.job q).jobState.isFinished → (c'.job q).jobState.isFinished

namespace KeepsTasks

variable {c c' c'' : Ctld} {p : Ptr}

theorem refl (c : Ctld) : KeepsTasks c c := ⟨.refl c, fun _ h => h⟩

theorem trans (h : KeepsTasks c c') (h' : KeepsTasks c' c'') : KeepsTasks c c'' :=
  ⟨h.toSameTasks.trans h'.toSameTasks, fun q hq => h'.finished q (h.finished q hq)⟩

/-- A record changes in nothing that is about tasks, and not in its state. -/
theorem modJob {f : JobRecord → JobRecord}
    (h : ∀ j, (f j).taskFields = j.taskFields ∧ (f j).jobState = j.jobState) :
    KeepsTasks c (c.modJob p f) := by
  refine ⟨.modJob fun j => (h j).1, fun q hq => ?_⟩
  rcases eq_or_ne q p with rfl | hne
  · rwa [modJob_job_self, (h _).2]
  · rwa [modJob_job_of_ne _ _ hne]

theorem ofSansRequest (h : c'.sansRequest = c.sansRequest) : KeepsTasks c c' := by
  have hjob := sansRequest_job h
  have hlist : c'.sansRequest.jobList = c.sansRequest.jobList := by rw [h]
  have hhash : c'.sansRequest.jobArrayHash = c.sansRequest.jobArrayHash := by rw [h]
  have hcount : c'.sansRequest.jobCount = c.sansRequest.jobCount := by rw [h]
  refine ⟨⟨hlist, hhash, hcount, fun q => of_part (·.taskFields) (hjob q)⟩, fun q hq => ?_⟩
  rwa [of_part (·.jobState) (hjob q)]

/-- A loop keeps the tasks when each of its rounds does. -/
theorem foldl {α β : Type*} (state : β → Ctld) (f : β → α → β)
    (hf : ∀ b a, KeepsTasks (state b) (state (f b a))) (l : List α) (b : β) :
    KeepsTasks (state b) (state (l.foldl f b)) := by
  induction l generalizing b with
  | nil => exact .refl _
  | cons a l ih => exact (hf b a).trans (ih _)

end KeepsTasks

theorem Touches.jobState {p q : Ptr} {c c' : Ctld} (h : Touches p c c') (hq : q ≠ p) :
    (c'.job q).jobState = (c.job q).jobState := by
  rcases h with h | h
  · rw [h.job q hq]
  · by_cases hb : c.baseOf p = some q
    · obtain ⟨r, hr, -⟩ := h.base q hq hb
      rw [hr]
    · rw [h.other q hq hb]

section

variable (env : Env) (now : ℤ) (c : Ctld) (signal jobId : ℕ) (flags : KillFlags) (uid : ℕ)
  (preempt : Bool)

theorem jobSignalPtr_keepsTasks (p : Ptr) :
    KeepsTasks c (jobSignalPtr env now c p signal flags uid preempt).2 := by
  refine ⟨jobSignalPtr_sameTasks .., fun q hq => ?_⟩
  rcases eq_or_ne q p with rfl | hne
  · rw [jobSignalPtr]
    simpa only [if_pos hq] using hq
  · rwa [(jobSignalPtr_touches ..).jobState hne]

theorem killJobPack_keepsTasks (packId : ℕ) (p : Ptr) :
    KeepsTasks c (killJobPack env now c packId p signal flags uid preempt).2 := by
  have hmember (c : Ctld) (q : Ptr) :
      KeepsTasks c (signalMember env now signal flags uid preempt c q) := by
    simp only [signalMember]
    split_ifs
    · exact .refl c
    · exact jobSignalPtr_keepsTasks ..
  simp only [killJobPack]
  split
  · exact jobSignalPtr_keepsTasks ..
  · split
    · exact jobSignalPtr_keepsTasks ..
    · next deps _ =>
      have hloop : KeepsTasks c
          ((reached deps).foldl (signalMember env now signal flags uid preempt) c) :=
        .foldl id _ hmember _ _
      split_ifs
      · exact hloop
      · exact hloop.trans (jobSignalPtr_keepsTasks ..)

theorem jobSignal_keepsTasks :
    KeepsTasks c (jobSignal env now c jobId signal flags uid preempt).2 := by
  simp only [jobSignal]
  split
  · exact .refl c
  · split_ifs
    · exact killJobPack_keepsTasks ..
    · exact jobSignalPtr_keepsTasks ..
    · exact .refl c

theorem signalArray_keepsTasks (base : Option Ptr) :
    KeepsTasks c (signalArray env now c jobId base signal flags uid preempt).2 := by
  have hbase : KeepsTasks c (signalBase env now signal flags uid preempt c base).ctld := by
    cases base with
    | none => exact .refl c
    | some p =>
      simp only [signalBase]
      split_ifs
      all_goals exact jobSignalPtr_keepsTasks ..
  have htask (l : SignalLoop) (q : Ptr) :
      KeepsTasks l.ctld (signalTask env now signal flags uid preempt base l q).ctld := by
    simp only [signalTask]
    split_ifs
    · exact .refl _
    · exact jobSignalPtr_keepsTasks ..
    · exact jobSignalPtr_keepsTasks ..
  have hloop (tasks : List Ptr) (start : SignalLoop) := KeepsTasks.foldl (·.ctld) _ htask tasks start
  simp only [signalArray]
  split_ifs
  · exact hbase
  · exact .refl c
  · exact hbase.trans (hloop _ _)
  · exact hbase.trans (hloop _ _)

/-- A signal to a job or to a whole array leaves the tasks where they are. -/
theorem signalWhole_keepsTasks :
    KeepsTasks c (signalWhole env now c jobId signal flags uid preempt).2 := by
  simp only [signalWhole]
  split
  · exact signalArray_keepsTasks ..
  · next p _ =>
    have hleave : KeepsTasks c (c.modJob p leavePack) := .modJob fun _ => ⟨rfl, rfl⟩
    split_ifs
    · exact signalArray_keepsTasks ..
    · exact signalArray_keepsTasks ..
    · exact .refl c
    · exact hleave.trans (jobSignal_keepsTasks ..)
    · exact .refl c
    · exact jobSignal_keepsTasks ..

theorem signalTaskRecords_keepsTasks (tasks : List ℕ) (rc : Rc) :
    KeepsTasks c (signalTaskRecords env now jobId signal flags uid preempt tasks (rc, c)).2 := by
  refine KeepsTasks.foldl Prod.snd _ (fun l i => ?_) tasks (rc, c)
  split
  · exact .refl _
  · exact jobSignalPtr_keepsTasks ..

theorem JobState.isFinished_of_base {s s' : JobState} (h : s'.base = s.base) :
    s'.isFinished ↔ s.isFinished := by
  simp [isFinished, h]

theorem jobArrayComp_jobState (p q : Ptr) (wasRunning : Bool) :
    ((jobArrayComp c p wasRunning).job q).jobState = (c.job q).jobState := by
  rcases eq_or_ne q p with rfl | hq
  · obtain ⟨r, hr⟩ := jobArrayComp_self c q wasRunning
    rw [hr]
  · exact Touches.jobState (.inr (jobArrayComp_logged ..)) hq

theorem jobCompletionLogger_base (p q : Ptr) :
    ((jobCompletionLogger env c p).job q).jobState.base = (c.job q).jobState.base := by
  rcases eq_or_ne q p with rfl | hq
  · obtain ⟨r, s, hself, hs⟩ := jobCompletionLogger_self env c q
    have hstate := of_part (·.jobState) hself
    rw [hstate]
    rcases hs with rfl | rfl <;> rfl
  · rw [Touches.jobState (.inr (jobCompletionLogger_logged ..)) hq]

/-- What a request to cancel tasks does to those that wait: they are taken out of the bitmap
    and off the counts. A record without a task left has ended, and counts as one job. -/
structure TakesTasks (p : Ptr) (left : Bitmap) (c c' : Ctld) : Prop where
  jobList : c'.jobList = c.jobList
  jobArrayHash : c'.jobArrayHash = c.jobArrayHash
  jobCount : c'.jobCount =
    c.jobCount - ((c.job p).arrayRecs.elim 0 (·.taskCnt) : ℕ) + (max 1 left.card : ℕ)
  others : ∀ q, q ≠ p → (c'.job q).taskFields = (c.job q).taskFields
  self : (c'.job p).taskFields = ((c.job p).jobId, (c.job p).arrayJobId, (c.job p).arrayTaskId,
    some (left.card, some left))
  finished : ∀ q, (c.job q).jobState.isFinished → (c'.job q).jobState.isFinished
  ended : left = ∅ → (c'.job p).jobState.isFinished

theorem cancelTasks_takesTasks {p : Ptr} (pending tasks : Bitmap)
    (hrecs : (c.job p).arrayRecs ≠ none) :
    TakesTasks p (pending \ tasks) c (cancelTasks env now c p pending tasks uid) := by
  obtain ⟨r, hr⟩ := ne_none_iff_exists'.1 hrecs
  have hcancelled : isFinished ⟨.cancelled, ∅⟩ := by decide
  -- Between the change of the bitmap and that of the count the end of the tasks is logged.
  obtain ⟨m, hsame, hfin, hend, hm⟩ : ∃ m : Ctld,
      SameTasks (c.modJob p (leaveTasks (pending \ tasks))) m ∧
      (∀ q, (c.job q).jobState.isFinished → (m.job q).jobState.isFinished) ∧
      (pending \ tasks = ∅ → (m.job p).jobState.isFinished) ∧
      cancelTasks env now c p pending tasks uid =
        modJob { m with
          jobCount := m.jobCount - ((r.taskCnt : ℤ) - (max 1 (pending \ tasks).card : ℕ)) }
          p (setTaskCnt (pending \ tasks).card) := by
    have hstate (q : Ptr) : ((c.modJob p (leaveTasks (pending \ tasks))).job q).jobState =
        (c.job q).jobState := c.modJob_part (·.jobState) rfl q
    simp only [cancelTasks, hr, elim_some]
    generalize c.modJob p (leaveTasks (pending \ tasks)) = c1 at *
    by_cases hleft : (pending \ tasks).card = 0
    · have hupdate : SameTasks c1 { c1 with lastJobUpdate := now } := .ofJobEq rfl rfl rfl rfl
      have hcancel : SameTasks c1 (modJob { c1 with lastJobUpdate := now } p
          (cancelPending now uid)) := hupdate.trans (.modJob fun _ => rfl)
      refine ⟨_, hcancel.trans (jobCompletionLogger_sameTasks env _ p), fun q hq => ?_, fun _ => ?_, ?_⟩
      · rw [isFinished_of_base (jobCompletionLogger_base ..)]
        rcases eq_or_ne q p with rfl | hne
        · rw [modJob_job_self]
          exact hcancelled
        · rw [modJob_job_of_ne _ _ hne]
          exact (hstate q).symm ▸ hq
      · rw [isFinished_of_base (jobCompletionLogger_base ..), modJob_job_self]
        exact hcancelled
      · rw [if_pos hleft, hleft]
        rfl
    · refine ⟨_, jobArrayComp_sameTasks c1 p false, fun q hq => ?_, fun h => ?_, ?_⟩
      · rwa [jobArrayComp_jobState, hstate]
      · exact absurd (Finset.card_eq_zero.2 h) hleft
      · rw [if_neg hleft, max_eq_right (Nat.one_le_iff_ne_zero.2 hleft)]
  have hself := hsame.fields p
  rw [modJob_job_self] at hself
  refine ⟨?_, ?_, ?_, fun q hq => ?_, ?_, fun q hq => ?_, fun h => ?_⟩
  · rw [hm]
    exact hsame.jobList
  · rw [hm]
    exact hsame.jobArrayHash
  · have hcount : m.jobCount = c.jobCount := hsame.jobCount
    rw [hm, hr, elim_some, ← hcount]
    simp only [modJob, setJob]
    omega
  · rw [hm, modJob_job_of_ne _ _ hq]
    exact (hsame.fields q).trans (by rw [modJob_job_of_ne _ _ hq])
  · rw [hm, modJob_job_self]
    simp only [taskFields, leaveTasks, hr, map_some, Prod.mk.injEq] at hself
    obtain ⟨hid, harray, htask, hrecs⟩ := hself
    obtain ⟨r', hr', hmap⟩ := map_eq_some_iff.1 hrecs
    simp [taskFields, setTaskCnt, hr', hid, harray, htask, (Prod.mk.inj hmap).2]
  · rw [hm]
    rcases eq_or_ne q p with rfl | hne
    · rw [modJob_job_self]
      exact hfin q hq
    · rw [modJob_job_of_ne _ _ hne]
      exact hfin q hq
  · rw [hm, modJob_job_self]
    exact hend h

end

end Slurm
