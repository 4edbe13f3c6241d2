import Slurm.Port
import Slurm.Usage

/-!
# The end of a job

What the functions that end a job share: the record of its array and of its
usage (`job_completion_logger`), the release of its nodes (`deallocate_nodes`),
and the clean-up once no node is left to wait for (`cleanup_completing`), which
may put the job into the queue again (`job_hold_requeue`).

What these functions do outside of the tables is left out: messages to nodes,
to `srun` and to other clusters, mails, the records in the database, and the
plugins for burst buffers, scheduling and priorities.
-/

namespace Slurm

open JobRecord Ctld Finset Option

/-- `WIFEXITED`: a status of `wait` that is no signal. -/
def wifExited (status : ℕ) : Prop := status % 128 = 0
  deriving Decidable

/-- `WEXITSTATUS`. -/
def wExitStatus (status : ℕ) : ℕ := status / 256 % 256

/-! ## The record of the end -/

namespace JobRecord

/-- The nodes that complete the job (`build_cg_bitmap`); it is not completing
    when there are none. -/
def buildCgBitmap (j : JobRecord) : JobRecord :=
  match j.nodeBitmap with
  | some b =>
    { j with
      nodeBitmapCg := some b
      jobState := if b.card = 0 then j.jobState.clear .completing else j.jobState }
  | none => { j with nodeBitmapCg := some ∅, jobState := j.jobState.clear .completing }

/-- The job is a task of a job array, or holds the record of one. -/
def isArray (j : JobRecord) : Prop := j.arrayTaskId ≠ noVal ∨ j.arrayRecs.isSome
  deriving Decidable

/-- The cluster a federated job was submitted to (`fed_mgr_get_cluster_id`). -/
def fedOrigin (j : JobRecord) : ℕ := j.jobId / 2 ^ 26

/-- The job was submitted to this cluster (`fed_mgr_is_origin_job`). -/
def isOriginJob (env : Env) (j : JobRecord) : Prop :=
  match env.fedId with
  | none => True
  | some id => j.fedDetails = none ∨ j.fedOrigin = 0 ∨ id = j.fedOrigin

instance (env : Env) (j : JobRecord) : Decidable (j.isOriginJob env) := by
  unfold isOriginJob
  cases env.fedId <;> infer_instance

/-- Whether the exit code asks for the job to be run again
    (`_set_job_requeue_exit_value`). -/
def setRequeueExitValue (env : Env) (j : JobRecord) : JobRecord :=
  if wExitStatus j.exitCode ∈ env.requeueExit then
    { j with jobState := j.jobState.set .requeue }
  else if wExitStatus j.exitCode ∈ env.requeueExitHold then
    { j with jobState := (j.jobState.set .requeue).set .specialExit }
  else j

/-- Put the job into the queue again, if that is asked for (`job_hold_requeue`). -/
def holdRequeue (env : Env) (j : JobRecord) : JobRecord :=
  if j.jobState.isPending ∧ .revoked ∉ j.jobState.flags then j
  else if ¬j.isOriginJob env then j
  else
    let j := j.setRequeueExitValue env
    if .requeue ∉ j.jobState.flags then j
    else
      let hold := .specialExit ∈ j.jobState.flags
      { j with
        jobState := { base := .pending, flags := j.jobState.flags.erase .requeue }
        restartCnt := j.restartCnt + 1
        warnSent := false
        stateReason := if hold then .waitHeldUser else j.stateReason
        priority := if hold then 0 else j.priority }

end JobRecord

/-- The count of a task that ends, in the record of its array. -/
def ArrayRecs.comp (r : ArrayRecs) (status : ℕ) (wasRunning : Bool) : ArrayRecs :=
  { r with
    minExitCode := if r.totCompTasks = 0 then status else min status r.minExitCode
    maxExitCode := if r.totCompTasks = 0 then status else max status r.maxExitCode
    totRunTasks := if wasRunning then r.totRunTasks - 1 else r.totRunTasks
    totCompTasks := r.totCompTasks + 1 }

/-- The record of the array a job is a task of, with the job that holds it. -/
def Ctld.arrayBase (c : Ctld) (j : JobRecord) : Option (Ptr × ArrayRecs) :=
  if j.isArray then
    (c.findJobRecord j.arrayJobId).bind fun b => (c.job b).arrayRecs.map fun r => (b, r)
  else none

/-- The exit status of a task in the record of its array: one that did not run to
    its end does not count as one that exits with zero. -/
def JobRecord.arrayStatus (j : JobRecord) : ℕ :=
  if j.exitCode = 0 ∧ j.jobState.base ≠ .complete then 9 else j.exitCode

/-- Count a task that ends (`_job_array_comp`). -/
def jobArrayComp (c : Ctld) (p : Ptr) (wasRunning : Bool) : Ctld :=
  match c.arrayBase (c.job p) with
  | none => c
  | some (b, r) =>
    c.setJob b { c.job b with arrayRecs := some (r.comp (c.job p).arrayStatus wasRunning) }

/-- All tasks of a job array have finished (`test_job_array_finished`). -/
def testJobArrayFinished (c : Ctld) (arrayJobId : ℕ) : Bool :=
  (c.findJobRecord arrayJobId).all (fun p => (c.job p).jobState.isFinished) &&
    c.jobArrayHash.all fun p =>
      (c.job p).arrayJobId ≠ arrayJobId ∨ (c.job p).jobState.isFinished

/-- The job is not shown as configuring any more, and its association is looked
    up if it has none. -/
def logEnd (env : Env) (arrayFinished : Bool) (j : JobRecord) : JobRecord :=
  if j.jobState.isResizing then j
  else
    let j :=
      if j.arrayTaskId = noVal ∨ j.mailArrayTasks ∨ arrayFinished then
        { j with jobState := j.jobState.clear .configuring }
      else j
    if j.assocId ≠ 0 then j else j.lookUpAssoc env

/-- Log the end of a job (`job_completion_logger`). -/
def jobCompletionLogger (env : Env) (c : Ctld) (p : Ptr) : Ctld :=
  let c := adjustLimitUsage env .remSubmit c p
  let c := jobArrayComp c p true
  c.modJob p (logEnd env (testJobArrayFinished c (c.job p).arrayJobId))

/-! ## The release of the nodes -/

/-- `SLURM_PENDING_STEP`, `SLURM_EXTERN_CONT`: steps that are none of the job's own. -/
def pendingStep : ℕ := 0xfffffffd

@[inherit_doc pendingStep] def externCont : ℕ := 0xffffffff

/-- End a step of a job, with its ports, unless it is already being cleaned up. -/
def deleteStepRecord (c : Ctld) (p sp : Ptr) : Ctld :=
  let s := c.step sp
  if s.stepId ≠ pendingStep ∧ s.cleaning then c
  else
    let c := resvPortFree c sp
    c.modJob p fun j =>
      { j with
        derivedEc := if s.stepId = pendingStep ∨ s.stepId = externCont then j.derivedEc
          else max j.derivedEc s.exitCode
        stepList := j.stepList.erase sp }

/-- End all steps of a job (`delete_step_records`). -/
def deleteStepRecords (now : ℤ) (c : Ctld) (p : Ptr) : Ctld :=
  let c := { c with lastJobUpdate := now }
  (c.job p).stepList.foldl (fun c sp => deleteStepRecord c p sp) c

/-- The job has no node left to wait for (`cleanup_completing`). -/
def cleanupCompleting (env : Env) (now : ℤ) (c : Ctld) (p : Ptr) : Ctld :=
  let c := licenseJobReturn c p
  let c := deleteStepRecords now c p
  c.modJob p fun j =>
    holdRequeue env { j with jobState := j.jobState.clear .completing }

/-- The epilog of the job is started, and it knows the nodes to wait for. -/
def JobRecord.startEpilog (env : Env) (j : JobRecord) : JobRecord :=
  let j := { j with epilogRunning := j.epilogRunning || env.epilogSlurmctld }
  if j.nodeBitmapCg = none then j.buildCgBitmap else j

/-- The nodes `cg` complete the job `j`. -/
def Ctld.completeNodes (c : Ctld) (now : ℤ) (j : JobRecord) (suspended : Bool) (cg : Bitmap) :
    Ctld :=
  { c with
    lastNodeUpdate := now
    node := fun i => if i ∈ cg then makeNodeComp j suspended false (c.node i) else c.node i }

/-- The nodes of a job complete it. Those that are down are not waited for. -/
def releaseNodes (env : Env) (now : ℤ) (c : Ctld) (p : Ptr) (suspended : Bool) : Ctld :=
  let c := (acctPolicyJobFini env c p).modJob p (startEpilog env)
  let j := c.job p
  let cg := j.nodeBitmapCg.getD ∅
  let up := cg.filter fun i => (c.node i).base ≠ .down
  (c.completeNodes now j suspended cg).setJob p
    { j with nodeBitmapCg := some up, nodeCnt := j.nodeCnt - UInt32.ofNat (cg.card - up.card) }

/-- Release the nodes of a job (`deallocate_nodes`), and clean up at once when there is
    none to wait for. -/
def deallocateNodes (env : Env) (now : ℤ) (c : Ctld) (p : Ptr) (suspended : Bool) : Ctld :=
  let c := releaseNodes env now c p suspended
  if (c.job p).nodeBitmapCg = some ∅ then cleanupCompleting env now c p else c

/-! ## What is left alone -/

variable {j j' : JobRecord}

/-- Two records that agree on a part of them agree on every field in it. -/
theorem JobRecord.of_part {α : Type*} {part : JobRecord → JobRecord} (f : JobRecord → α)
    (h : part j' = part j)
    (hf : ∀ k : JobRecord, f (part k) = f k := by intro; rfl) : f j' = f j := by
  rw [← hf, h, hf]

/-- The record of a job apart from its account of steps and usage. -/
def JobRecord.sansUsage (j : JobRecord) : JobRecord :=
  { j with
    assocId := 0, assocPtr := none, derivedEc := 0, epilogRunning := false, licenseList := []
    stepList := [] }

/-- The record of a job apart from what changes when it ends. -/
def JobRecord.identity (j : JobRecord) : JobRecord :=
  { j.sansUsage with
    arrayRecs := none, endTime := 0, jobState := {}, nodeBitmapCg := none, nodeCnt := 0
    priority := 0, requid := 0, restartCnt := 0, startTime := 0, stateReason := .waitNoReason
    timeLastActive := 0, totSusTime := 0, warnSent := false }

/-- The record of a job apart from what changes when its nodes are released. -/
def JobRecord.lasting (j : JobRecord) : JobRecord :=
  { j.identity with arrayRecs := j.arrayRecs, assocId := j.assocId, assocPtr := j.assocPtr }

/-- The record of a job apart from its account of nodes, steps and usage. -/
def JobRecord.sansNodes (j : JobRecord) : JobRecord :=
  { j.sansUsage with nodeBitmapCg := none, nodeCnt := 0 }

/-- From `c` to `c'` no job comes or goes, no node goes down or up, and no port is
    taken. -/
structure Quiet (c c' : Ctld) : Prop where
  jobList : c'.jobList = c.jobList
  jobArrayHash : c'.jobArrayHash = c.jobArrayHash
  down : ∀ i, (c'.node i).base = .down ↔ (c.node i).base = .down
  range : SameRange c.port c'.port
  table : ∀ i, c'.port.portResvTable i ⊆ c.port.portResvTable i

theorem Quiet.refl (c : Ctld) : Quiet c c :=
  ⟨rfl, rfl, fun _ => Iff.rfl, .refl _, fun _ => subset_rfl⟩

variable {c c' c'' : Ctld}

theorem Quiet.trans (h : Quiet c c') (h' : Quiet c' c'') : Quiet c c'' where
  jobList := h'.jobList.trans h.jobList
  jobArrayHash := h'.jobArrayHash.trans h.jobArrayHash
  down i := (h'.down i).trans (h.down i)
  range := h.range.trans h'.range
  table i := (h'.table i).trans (h.table i)

/-- From `c` to `c'` no job record but that of `p` changes. -/
structure OnlyJob (p : Ptr) (c c' : Ctld) : Prop extends Quiet c c' where
  job : ∀ q, q ≠ p → c'.job q = c.job q

namespace OnlyJob

variable {p : Ptr} {c c' c'' : Ctld}

theorem refl (p : Ptr) (c : Ctld) : OnlyJob p c c := ⟨.refl c, fun _ _ => rfl⟩

theorem trans (h : OnlyJob p c c') (h' : OnlyJob p c' c'') : OnlyJob p c c'' :=
  ⟨h.toQuiet.trans h'.toQuiet, fun q hq => (h'.job q hq).trans (h.job q hq)⟩

theorem setJob (p : Ptr) (c : Ctld) (j : JobRecord) : OnlyJob p c (c.setJob p j) :=
  { refl p c with job := fun _ hq => c.setJob_job_of_ne j hq }

theorem modJob (p : Ptr) (c : Ctld) (f : JobRecord → JobRecord) : OnlyJob p c (c.modJob p f) :=
  setJob p c _

end OnlyJob

/-- From `c` to `c'` the record of `p` changes too, but only in its account of steps
    and usage. -/
structure Bookkeeping (p : Ptr) (c c' : Ctld) : Prop extends OnlyJob p c c' where
  self : (c'.job p).sansUsage = (c.job p).sansUsage

namespace Bookkeeping

variable {p : Ptr} {c c' c'' : Ctld}

theorem refl (p : Ptr) (c : Ctld) : Bookkeeping p c c := ⟨.refl p c, rfl⟩

theorem trans (h : Bookkeeping p c c') (h' : Bookkeeping p c' c'') : Bookkeeping p c c'' :=
  ⟨h.toOnlyJob.trans h'.toOnlyJob, h'.self.trans h.self⟩

/-- A change outside of the jobs, the nodes and the ports. -/
theorem ofJobEq (hjob : c'.job = c.job) (hlist : c'.jobList = c.jobList)
    (hhash : c'.jobArrayHash = c.jobArrayHash) (hnode : c'.node = c.node)
    (hport : c'.port = c.port) : Bookkeeping p c c' := by
  refine ⟨⟨⟨hlist, hhash, fun i => by rw [hnode], ?_, fun i => ?_⟩, fun q _ => by rw [hjob]⟩,
    by rw [hjob]⟩
  · rw [hport]
    exact .refl _
  · rw [hport]

theorem setJob {j : JobRecord} (h : j.sansUsage = (c.job p).sansUsage) :
    Bookkeeping p c (c.setJob p j) :=
  ⟨.setJob p c j, by rw [setJob_job_self, h]⟩

theorem modJob {f : JobRecord → JobRecord} (h : ∀ j, (f j).sansUsage = j.sansUsage) :
    Bookkeeping p c (c.modJob p f) :=
  setJob (h _)

end Bookkeeping

section

variable (env : Env) (now : ℤ) (c : Ctld) (p : Ptr)

theorem validJobAssoc_bookkeeping : Bookkeeping p c (validJobAssoc env c p).2 := by
  simp only [validJobAssoc]
  split
  · exact .refl p c
  · exact .setJob rfl

theorem adjustLimitUsage_bookkeeping (type : PolicyType) :
    Bookkeeping p c (adjustLimitUsage env type c p) := by
  have hassoc := validJobAssoc_bookkeeping env c p
  simp only [adjustLimitUsage]
  split
  · exact .refl p c
  · split
    · exact hassoc.trans (.ofJobEq rfl rfl rfl rfl rfl)
    · exact hassoc

theorem acctPolicyJobFini_bookkeeping : Bookkeeping p c (acctPolicyJobFini env c p) := by
  simp only [acctPolicyJobFini]
  split_ifs
  · exact adjustLimitUsage_bookkeeping env c p .jobFini
  · exact .refl p c

theorem licenseJobReturn_bookkeeping : Bookkeeping p c (licenseJobReturn c p) := by
  have hused (used : LicenseUsed) : Bookkeeping p c { c with licenseUsed := used } :=
    .ofJobEq rfl rfl rfl rfl rfl
  exact (hused _).trans (.setJob rfl)

theorem resvPortFree_bookkeeping (sp : Ptr) : Bookkeeping p c (resvPortFree c sp) := by
  simp only [resvPortFree]
  split
  · exact .refl p c
  · refine ⟨⟨⟨rfl, rfl, fun _ => Iff.rfl, ⟨rfl, rfl, rfl⟩, fun i n hn => ?_⟩, fun _ _ => rfl⟩, rfl⟩
    exact (PortMgr.mem_release.1 hn).1

theorem deleteStepRecord_bookkeeping (sp : Ptr) : Bookkeeping p c (deleteStepRecord c p sp) := by
  simp only [deleteStepRecord]
  split
  · exact .refl p c
  · exact (resvPortFree_bookkeeping ..).trans (.modJob fun _ => rfl)

theorem deleteStepRecords_bookkeeping : Bookkeeping p c (deleteStepRecords now c p) := by
  have hsteps : ∀ (steps : List Ptr) (c : Ctld),
      Bookkeeping p c (steps.foldl (fun c sp => deleteStepRecord c p sp) c) := by
    intro steps
    induction steps with
    | nil => exact .refl p
    | cons sp steps ih => exact fun c => (deleteStepRecord_bookkeeping ..).trans (ih _)
  have hupdate : Bookkeeping p c { c with lastJobUpdate := now } := .ofJobEq rfl rfl rfl rfl rfl
  exact hupdate.trans (hsteps _ _)

end

/-! ## Clean-up -/

namespace JobRecord

variable (env : Env) (j : JobRecord)

/-- The job is run again when it ends with its exit code. -/
def requeuesOnExit : Prop :=
  j.isOriginJob env ∧
    (wExitStatus j.exitCode ∈ env.requeueExit ∨ wExitStatus j.exitCode ∈ env.requeueExitHold)
  deriving Decidable

theorem holdRequeue_lasting : (j.holdRequeue env).lasting = j.lasting := by
  simp only [holdRequeue, setRequeueExitValue]
  split_ifs <;> rfl

variable {env j}

theorem holdRequeue_eq_self (hflag : .requeue ∉ j.jobState.flags) (hexit : ¬j.requeuesOnExit env) :
    j.holdRequeue env = j := by
  simp only [requeuesOnExit, not_and_or, not_or] at hexit
  simp only [holdRequeue, setRequeueExitValue]
  split_ifs <;> tauto

theorem holdRequeue_requeues (hbase : ¬j.jobState.isPending) (hexit : j.requeuesOnExit env) :
    (j.holdRequeue env).jobState.isPending ∧
      (j.holdRequeue env).jobState.flags ⊆ insert .specialExit j.jobState.flags ∧
      (j.holdRequeue env).restartCnt = j.restartCnt + 1 := by
  obtain ⟨horigin, hexit⟩ := hexit
  have hset : .requeue ∈ (j.setRequeueExitValue env).jobState.flags ∧
      (j.setRequeueExitValue env).jobState.flags ⊆
        insert .requeue (insert .specialExit j.jobState.flags) ∧
      (j.setRequeueExitValue env).restartCnt = j.restartCnt := by
    simp only [setRequeueExitValue]
    split_ifs
    · exact ⟨mem_insert_self .., insert_subset_insert _ (subset_insert ..), rfl⟩
    · exact ⟨by simp [JobState.set], (insert_comm ..).subset, rfl⟩
    · tauto
  simp only [holdRequeue, hbase, false_and, if_false, horigin, not_true, hset.1]
  refine ⟨rfl, fun f hf => ?_, by rw [hset.2.2]⟩
  obtain ⟨hne, hmem⟩ := mem_erase.1 hf
  exact (mem_insert.1 (hset.2.1 hmem)).resolve_left hne

end JobRecord

theorem makeNodeComp_down (j : JobRecord) (suspended pack : Bool) (n : NodeRecord) :
    (makeNodeComp j suspended pack n).base = .down ↔ n.base = .down := by
  have hbase : ∀ n' : NodeRecord, n'.base = n.base → ((if n'.base = .down then n'
        else if n'.runJobCnt ≠ 0 then { n' with base := .allocated }
        else { n' with base := .idle } : NodeRecord).base = .down ↔ n.base = .down) := by
    intro n' h
    split_ifs <;> simp_all
  apply hbase
  split_ifs <;> rfl

theorem OnlyJob.completeNodes (p : Ptr) (c : Ctld) (now : ℤ) (j : JobRecord) (suspended : Bool)
    (cg : Bitmap) : OnlyJob p c (c.completeNodes now j suspended cg) := by
  refine { refl p c with down := fun i => ?_ }
  simp only [Ctld.completeNodes]
  split_ifs
  · exact makeNodeComp_down ..
  · rfl

section

variable (env : Env) (now : ℤ) (p : Ptr) (suspended : Bool) {c : Ctld} {cg : Bitmap}

/-- The release of the nodes leaves those that are not down to be waited for. -/
theorem releaseNodes_spec (hcg : (c.job p).nodeBitmapCg = some cg) :
    OnlyJob p c (releaseNodes env now c p suspended) ∧
      ((releaseNodes env now c p suspended).job p).sansNodes = (c.job p).sansNodes ∧
      ((releaseNodes env now c p suspended).job p).nodeBitmapCg =
        some (cg.filter fun i => (c.node i).base ≠ .down) := by
  have hfini := acctPolicyJobFini_bookkeeping env c p
  have hcg' : ((acctPolicyJobFini env c p).job p).nodeBitmapCg = some cg :=
    (of_part (·.nodeBitmapCg) hfini.self).trans hcg
  have hstart : Bookkeeping p c ((acctPolicyJobFini env c p).modJob p (startEpilog env)) := by
    refine hfini.trans (.setJob ?_)
    rw [startEpilog, if_neg (by simp [hcg'])]
    rfl
  have hcg'' := (of_part (·.nodeBitmapCg) hstart.self).trans hcg
  simp only [releaseNodes]
  generalize (acctPolicyJobFini env c p).modJob p (startEpilog env) = c' at *
  refine ⟨hstart.toOnlyJob.trans ((OnlyJob.completeNodes ..).trans (.setJob ..)), ?_, ?_⟩
  · rw [setJob_job_self]
    exact congrArg (fun j : JobRecord => { j with nodeBitmapCg := none, nodeCnt := 0 }) hstart.self
  · simp [setJob_job_self, hcg'', filter_congr fun i _ => not_congr (hstart.down i)]

/-- A job that is cleaned up is put into the queue again, if that is asked for. -/
theorem cleanupCompleting_spec (c : Ctld) :
    OnlyJob p c (cleanupCompleting env now c p) ∧
      ∃ j : JobRecord, (cleanupCompleting env now c p).job p = j.holdRequeue env ∧
        j.sansUsage = sansUsage { c.job p with jobState := (c.job p).jobState.clear .completing } := by
  have hclean := (licenseJobReturn_bookkeeping c p).trans
    (deleteStepRecords_bookkeeping now (licenseJobReturn c p) p)
  simp only [cleanupCompleting]
  refine ⟨hclean.toOnlyJob.trans (.modJob ..), _, modJob_job_self .., ?_⟩
  exact congrArg (fun j : JobRecord => { j with jobState := j.jobState.clear .completing })
    hclean.self

/-- A job whose nodes are all down is cleaned up when its nodes are released; another
    one goes on completing. -/
theorem deallocateNodes_spec (hcg : (c.job p).nodeBitmapCg = some cg) :
    OnlyJob p c (deallocateNodes env now c p suspended) ∧ if ∀ i ∈ cg, (c.node i).base = .down then
        ∃ j : JobRecord, (deallocateNodes env now c p suspended).job p = j.holdRequeue env ∧
          j.sansNodes = sansNodes { c.job p with jobState := (c.job p).jobState.clear .completing }
      else
        ((deallocateNodes env now c p suspended).job p).sansNodes = (c.job p).sansNodes := by
  obtain ⟨hothers, hself, hleft⟩ := releaseNodes_spec env now p suspended hcg
  have hdown : some (cg.filter fun i => (c.node i).base ≠ .down) = some ∅ ↔
      ∀ i ∈ cg, (c.node i).base = .down := by
    simp [filter_eq_empty_iff]
  simp only [deallocateNodes, hleft, hdown]
  generalize releaseNodes env now c p suspended = c' at *
  split_ifs
  · obtain ⟨hclean, j, hj, hsame⟩ := cleanupCompleting_spec env now p c'
    refine ⟨hothers.trans hclean, j, hj, ?_⟩
    have hnodes := congrArg (fun j : JobRecord => { j with nodeBitmapCg := none, nodeCnt := 0 })
      hsame
    exact Eq.trans hnodes (congrArg
      (fun j : JobRecord => { j with jobState := j.jobState.clear .completing }) hself)
  · exact ⟨hothers, hself⟩

end

/-! ## The end as a step -/

/-- How many tasks of its array have ended, by the record of a job. -/
def JobRecord.compTasks (j : JobRecord) : ℕ := j.arrayRecs.elim 0 (·.totCompTasks)

/-- The job that holds the record of the array `p` is a task of. -/
def Ctld.baseOf (c : Ctld) (p : Ptr) : Option Ptr := (c.arrayBase (c.job p)).map Prod.fst

theorem Ctld.findJobRecord_congr (hlist : c'.jobList = c.jobList)
    (hid : ∀ q, (c'.job q).jobId = (c.job q).jobId) (id : ℕ) :
    c'.findJobRecord id = c.findJobRecord id := by
  simp [findJobRecord, hlist, hid]

/-- Who holds the record of an array is a matter of the ids. -/
theorem Ctld.baseOf_of_ids (hlist : c'.jobList = c.jobList)
    (hid : ∀ q, (c'.job q).jobId = (c.job q).jobId)
    (hrecs : ∀ q, (c'.job q).arrayRecs.isSome = (c.job q).arrayRecs.isSome) {p : Ptr}
    (harray : (c'.job p).arrayJobId = (c.job p).arrayJobId)
    (hisArray : (c'.job p).isArray ↔ (c.job p).isArray) : c'.baseOf p = c.baseOf p := by
  have hfind := findJobRecord_congr hlist hid
  have hholder (b : Ptr) : ((c'.job b).arrayRecs.map fun r => (b, r)).map Prod.fst =
      ((c.job b).arrayRecs.map fun r => (b, r)).map Prod.fst := by
    have hb := hrecs b
    cases hr : (c.job b).arrayRecs <;> cases hr' : (c'.job b).arrayRecs <;> simp_all
  simp only [baseOf, arrayBase, hisArray, harray, hfind]
  by_cases h : (c.job p).isArray
  · simp only [if_pos h]
    cases c.findJobRecord (c.job p).arrayJobId with
    | none => rfl
    | some b => exact hholder b
  · simp [h]

/-- No end of a job changes who holds the record of an array. -/
theorem Ctld.baseOf_congr (hlist : c'.jobList = c.jobList)
    (hident : ∀ q, (c'.job q).identity = (c.job q).identity)
    (hrecs : ∀ q, (c'.job q).arrayRecs.isSome = (c.job q).arrayRecs.isSome) (p : Ptr) :
    c'.baseOf p = c.baseOf p := by
  have htask := of_part (·.arrayTaskId) (hident p)
  exact baseOf_of_ids hlist (fun q => of_part (·.jobId) (hident q)) hrecs
    (of_part (·.arrayJobId) (hident p)) (by simp [isArray, htask, hrecs])

/-- From `c` to `c'` the record of `p` changes, but only in what changes when it ends. -/
structure Alters (p : Ptr) (c c' : Ctld) : Prop extends OnlyJob p c c' where
  identity : (c'.job p).identity = (c.job p).identity
  arrayRecs : (c'.job p).arrayRecs = (c.job p).arrayRecs

variable {p : Ptr}

theorem Alters.trans (h : Alters p c c') (h' : Alters p c' c'') :
    Alters p c c'' :=
  ⟨h.toOnlyJob.trans h'.toOnlyJob, h'.identity.trans h.identity, h'.arrayRecs.trans h.arrayRecs⟩

theorem Bookkeeping.alters (h : Bookkeeping p c c') : Alters p c c' :=
  ⟨h.toOnlyJob, of_part (·.identity) h.self, of_part (·.arrayRecs) h.self⟩

theorem Alters.modJob {f : JobRecord → JobRecord}
    (hident : ∀ j, (f j).identity = j.identity) (hrecs : ∀ j, (f j).arrayRecs = j.arrayRecs) :
    Alters p c (c.modJob p f) :=
  ⟨.modJob .., by rw [modJob_job_self, hident], by rw [modJob_job_self, hrecs]⟩

/-- From `c` to `c'` the end of `p` is counted in the record of its array, whoever holds
    it, and the record of `p` changes in what changes when it ends. -/
structure Logged (p : Ptr) (c c' : Ctld) : Prop extends Quiet c c' where
  other : ∀ q, q ≠ p → c.baseOf p ≠ some q → c'.job q = c.job q
  base : ∀ q, q ≠ p → c.baseOf p = some q → ∃ r : ArrayRecs,
    c'.job q = { c.job q with arrayRecs := some r } ∧ r.totCompTasks = (c.job q).compTasks + 1
  identity : (c'.job p).identity = (c.job p).identity
  isSome : ∀ q, (c'.job q).arrayRecs.isSome = (c.job q).arrayRecs.isSome
  compTasks : (c.job p).compTasks ≤ (c'.job p).compTasks

theorem Alters.baseOf (h : Alters p c c') : c'.baseOf p = c.baseOf p := by
  refine baseOf_congr h.jobList (fun q => ?_) (fun q => ?_) p
  all_goals
    rcases eq_or_ne q p with rfl | hq
    · simp [h.identity, h.arrayRecs]
    · rw [h.job q hq]

namespace Logged

variable {p : Ptr} {c c' c'' : Ctld}

theorem alters_trans (h : Alters p c c') (h' : Logged p c' c'') : Logged p c c'' where
  toQuiet := h.toQuiet.trans h'.toQuiet
  other q hq hb := (h'.other q hq (by rwa [h.baseOf])).trans (h.job q hq)
  base q hq hb := by
    have hlog := h'.base q hq (by rwa [h.baseOf])
    rwa [h.job q hq] at hlog
  identity := h'.identity.trans h.identity
  isSome q := by
    rcases eq_or_ne q p with rfl | hq
    · rw [h'.isSome, h.arrayRecs]
    · rw [h'.isSome, h.job q hq]
  compTasks := by
    have hlog := h'.compTasks
    rwa [JobRecord.compTasks, h.arrayRecs] at hlog

theorem trans_alters (h : Logged p c c') (h' : Alters p c' c'') : Logged p c c'' where
  toQuiet := h.toQuiet.trans h'.toQuiet
  other q hq hb := (h'.job q hq).trans (h.other q hq hb)
  base q hq hb := by
    rw [h'.job q hq]
    exact h.base q hq hb
  identity := h'.identity.trans h.identity
  isSome q := by
    rw [← h.isSome]
    rcases eq_or_ne q p with rfl | hq
    · rw [h'.arrayRecs]
    · rw [h'.job q hq]
  compTasks := by
    rw [compTasks.eq_1 (c''.job p), h'.arrayRecs]
    exact h.compTasks

/-- Nobody changes but in what changes at an end. -/
theorem identity_all (h : Logged p c c') (q : Ptr) : (c'.job q).identity = (c.job q).identity := by
  rcases eq_or_ne q p with rfl | hq
  · exact h.identity
  · by_cases hb : c.baseOf p = some q
    · obtain ⟨r, hr, -⟩ := h.base q hq hb
      rw [hr]
      rfl
    · rw [h.other q hq hb]

end Logged

theorem Ctld.arrayBase_recs {b : Ptr} {r : ArrayRecs}
    (h : c.arrayBase j = some (b, r)) : (c.job b).arrayRecs = some r := by
  simp only [arrayBase] at h
  split_ifs at h
  simp only [bind_eq_some_iff, map_eq_some_iff, Prod.mk.injEq] at h
  obtain ⟨b', -, r', hr', rfl, rfl⟩ := h
  exact hr'

theorem jobArrayComp_logged (c : Ctld) (p : Ptr) (wasRunning : Bool) :
    Logged p c (jobArrayComp c p wasRunning) := by
  simp only [jobArrayComp]
  cases hbase : c.arrayBase (c.job p) with
  | none =>
    have hnone : c.baseOf p = none := by rw [Ctld.baseOf, hbase, map_none]
    exact ⟨.refl c, fun _ _ _ => rfl, fun q _ hb => by simp [hnone] at hb, rfl, fun _ => rfl, le_rfl⟩
  | some br =>
    obtain ⟨b, r⟩ := br
    have hb : c.baseOf p = some b := by rw [Ctld.baseOf, hbase, map_some]
    have hr := arrayBase_recs hbase
    have htasks : (r.comp (c.job p).arrayStatus wasRunning).totCompTasks =
        (c.job b).compTasks + 1 := by
      simp [ArrayRecs.comp, compTasks, hr]
    -- The job may be the one that holds the record of its array itself.
    refine ⟨(OnlyJob.setJob b c _).toQuiet, fun q _ hq => ?_, fun q _ hq => ?_, ?_, fun q => ?_, ?_⟩
    · exact c.setJob_job_of_ne _ fun h => hq (h ▸ hb)
    · obtain rfl : b = q := some.inj (hb.symm.trans hq)
      exact ⟨_, setJob_job_self .., htasks⟩
    · rcases eq_or_ne p b with rfl | hne
      · rw [setJob_job_self]
        rfl
      · rw [setJob_job_of_ne _ _ hne]
    · rcases eq_or_ne q b with rfl | hne
      · rw [setJob_job_self, hr]
        rfl
      · rw [setJob_job_of_ne _ _ hne]
    · rcases eq_or_ne p b with rfl | hne
      · rw [setJob_job_self]
        exact (Nat.le_succ _).trans_eq htasks.symm
      · rw [setJob_job_of_ne _ _ hne]

theorem jobArrayComp_self (c : Ctld) (p : Ptr) (wasRunning : Bool) :
    ∃ r, (jobArrayComp c p wasRunning).job p = { c.job p with arrayRecs := r } := by
  simp only [jobArrayComp]
  split
  · exact ⟨_, rfl⟩
  · next b r _ =>
    rcases eq_or_ne p b with rfl | hne
    · exact ⟨_, setJob_job_self ..⟩
    · exact ⟨_, setJob_job_of_ne _ _ hne⟩

theorem logEnd_cases (env : Env) (arrayFinished : Bool) (j : JobRecord) :
    ∃ s, (logEnd env arrayFinished j).sansUsage = sansUsage { j with jobState := s } ∧
      (s = j.jobState ∨ s = j.jobState.clear .configuring) := by
  simp only [logEnd]
  split_ifs
  all_goals first | exact ⟨_, rfl, .inl rfl⟩ | exact ⟨_, rfl, .inr rfl⟩

section

variable (env : Env) (c : Ctld) (p : Ptr)

theorem jobCompletionLogger_logged : Logged p c (jobCompletionLogger env c p) := by
  refine .alters_trans (adjustLimitUsage_bookkeeping env c p .remSubmit).alters
    ((jobArrayComp_logged ..).trans_alters (.modJob (fun j => ?_) fun j => ?_))
  all_goals
    simp only [logEnd]
    split_ifs <;> rfl

/-- The log of an end changes the record of an array, and shows the job as configuring
    no more. -/
theorem jobCompletionLogger_self :
    ∃ r s, ((jobCompletionLogger env c p).job p).sansUsage =
        sansUsage { c.job p with arrayRecs := r, jobState := s } ∧
      (s = (c.job p).jobState ∨ s = (c.job p).jobState.clear .configuring) := by
  have husage := (adjustLimitUsage_bookkeeping env c p .remSubmit).self
  simp only [jobCompletionLogger, modJob_job_self]
  generalize adjustLimitUsage env .remSubmit c p = c1 at *
  obtain ⟨r, hr⟩ := jobArrayComp_self c1 p true
  generalize jobArrayComp c1 p true = c2 at *
  obtain ⟨s, hs, hstate⟩ :=
    logEnd_cases env (testJobArrayFinished c2 (c2.job p).arrayJobId) (c2.job p)
  have hbefore : (c1.job p).jobState = (c.job p).jobState := of_part (·.jobState) husage
  refine ⟨r, s, ?_, ?_⟩
  · rw [hs, hr]
    exact congrArg (fun j : JobRecord => { j with arrayRecs := r, jobState := s }) husage
  · rwa [hr, hbefore] at hstate

theorem jobCompletionLogger_jobState :
    ((jobCompletionLogger env c p).job p).jobState.base = (c.job p).jobState.base ∧
      ((jobCompletionLogger env c p).job p).jobState.flags ⊆ (c.job p).jobState.flags := by
  obtain ⟨r, s, hself, hs⟩ := jobCompletionLogger_self env c p
  rw [of_part (·.jobState) hself]
  obtain rfl | rfl := hs
  · exact ⟨rfl, subset_rfl⟩
  · exact ⟨rfl, erase_subset ..⟩

end

end Slurm
