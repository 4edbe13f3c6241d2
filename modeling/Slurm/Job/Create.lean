import Slurm.Depend

/-!
# New jobs

How the record of a new job is made from the request of a user (`_job_create`,
`_copy_job_desc_to_job_record` and `_create_job_array` in `job_mgr.c`), from the
place on where all values in the request have been checked.

The dependencies are read when the record is in the job list already. If they, or
one of the checks that follow, are wrong, the record is purged again; what the
dependencies have changed in other records stays.
-/

namespace Slurm

open Ctld

/-- The request for a new job (`job_desc_msg_t`), with the association, QOS and partition that
    were found for it. -/
structure JobDesc where
  account : Option CStr := none
  arrayBitmap : Bitmap := ∅
  assocId : ℕ := 0
  assocPtr : Option Ptr := none
  batchScript : Bool := false
  dependency : Option CStr := none
  gres : Option CStr := none
  jobId : ℕ
  licenses : List LicenseEntry := []
  maxRunTasks : ℕ := 0
  minNodes : ℕ := 1
  name : Option CStr := none
  packLeader : ℕ := 0
  partPtr : Option Ptr := none
  priority : ℕ := noVal
  qosId : ℕ := 0
  qosPtr : Option Ptr := none
  resvPort : Bool := false
  shareRes : ℕ := 0
  timeLimit : ℕ := 0
  tresReqCnt : ℕ → UInt64 := fun _ => 0
  userId : ℕ
  userSubmitPriority : ℕ := noVal
  wholeNode : ℕ := 0

namespace JobDesc

/-- The record of a new job, before its dependencies are read. -/
def record (env : Env) (now : ℤ) (desc : JobDesc) : JobRecord where
  account := desc.account
  assocId := desc.assocId
  assocPtr := desc.assocPtr
  details := some {
    minNodes := desc.minNodes
    shareRes := desc.shareRes
    wholeNode := desc.wholeNode }
  gres := (env.gresValidate desc.gres).1
  jobId := desc.jobId
  name := desc.name
  packLeader := desc.packLeader
  partPtr := desc.partPtr
  priority := desc.priority
  qosId := desc.qosId
  qosPtr := desc.qosPtr
  requid := infinite
  resvPortFlag := desc.resvPort
  stateReason :=
    if desc.priority ≠ 0 then .waitNoReason
    else if desc.userSubmitPriority = 0 then .waitHeldUser
    else .waitHeld
  timeLastActive := now
  timeLimit := desc.timeLimit
  tresReqCnt := desc.tresReqCnt
  tresReqStr := env.tresStr desc.tresReqCnt
  userId := desc.userId

/-- The record of the tasks of an array that is submitted (`_create_job_array`). -/
def arrayRecs (desc : JobDesc) : ArrayRecs where
  taskCnt := desc.arrayBitmap.card
  taskIdBitmap := some desc.arrayBitmap
  maxRunTasks := desc.maxRunTasks

end JobDesc

namespace JobRecord

/-- What is set when the dependencies were accepted. A job that expands another has its
    list of generic resources already. -/
def setRequests (env : Env) (desc : JobDesc) (j : JobRecord) : JobRecord :=
  { j with
    batchFlag := if desc.batchScript then 1 else 0
    gresList :=
      if (j.details.elim 0 (·.expandingJobid)) = 0 then (env.gresValidate desc.gres).2
      else j.gresList
    licenseList := desc.licenses }

/-- The job is the record of the tasks of an array. -/
def setArray (desc : JobDesc) (j : JobRecord) : JobRecord :=
  { j with arrayJobId := j.jobId, arrayRecs := some desc.arrayRecs }

end JobRecord

namespace Ctld

variable (env : Env) (now : ℤ) (c : Ctld) (p : Ptr) (desc : JobDesc)

/-- Add the record of a new job to the job list. -/
def addJob : Ctld :=
  { c.setJob p (desc.record env now) with
    jobList := c.jobList ++ [p]
    jobCount := c.jobCount + 1
    lastJobUpdate := now }

/-- Take the record of the job `jobId` off the job list (`purge_job_record`). -/
def purgeJob (jobId : ℕ) : Ctld :=
  { c with
    jobList := c.jobList.filter fun q => (c.job q).jobId ≠ jobId
    jobCount := c.jobCount - 1 }

/-- The tasks of an array count as jobs. -/
def createArray : Ctld :=
  if desc.arrayBitmap.card = 0 then c
  else
    let c := c.modJob p (·.setArray desc)
    { c with jobCount := c.jobCount + (desc.arrayBitmap.card - 1 : ℕ) }

end Ctld

/-- Make a job at the address `p` (`_job_create`, `_create_job_array`). `rejected` tells
    whether one of the checks after the dependencies fails (features, reservations, the
    script, burst buffers). -/
def jobCreate (env : Env) (now : ℤ) (c : Ctld) (p : Ptr) (desc : JobDesc) (rejected : Bool) :
    Rc × Ctld :=
  let (rc, c) := updateJobDependency env now (c.addJob env now p desc) p desc.dependency
  if rc ≠ .success then (rc, c.purgeJob desc.jobId)
  else if rejected then (.error, c.purgeJob desc.jobId)
  else (.success, (c.modJob p (·.setRequests env desc)).createArray p desc)

/-! ## What a new job changes -/

namespace JobRecord

/-- A job without what its dependencies and the request for it set. -/
def sansRequest (j : JobRecord) : JobRecord :=
  { j.sansDepend with details := none, batchFlag := 0, licenseList := [] }

end JobRecord

namespace Ctld

/-- A controller without what the dependencies of its jobs and the requests for them set. -/
def sansRequest (c : Ctld) : Ctld := { c with job := fun q => (c.job q).sansRequest }

variable {c c' : Ctld} {p : Ptr}

theorem sansRequest_of_sansDepend (h : c'.sansDepend = c.sansDepend) :
    c'.sansRequest = c.sansRequest := by
  have hrequest (c : Ctld) : c.sansRequest = c.sansDepend.sansRequest := by
    have hdetails (j : JobRecord) : j.sansRequest = j.sansDepend.sansRequest := rfl
    simp only [sansRequest, sansDepend, ← hdetails]
  rw [hrequest, h, ← hrequest]

theorem modJob_sansRequest {f : JobRecord → JobRecord}
    (hf : ∀ j, (f j).sansRequest = j.sansRequest) :
    (c.modJob p f).sansRequest = c.sansRequest := by
  have hjob : (fun q => ((c.modJob p f).job q).sansRequest) = fun q => (c.job q).sansRequest :=
    funext (c.modJob_part _ (hf _))
  rw [sansRequest, hjob]
  rfl

theorem sansRequest_job (h : c'.sansRequest = c.sansRequest) (q : Ptr) :
    (c'.job q).sansRequest = (c.job q).sansRequest := by
  have hq : c'.sansRequest.job q = c.sansRequest.job q := by rw [h]
  exact hq

variable (c p) (desc : JobDesc)

theorem createArray_jobList : (c.createArray p desc).jobList = c.jobList := by
  simp only [createArray]
  split_ifs <;> rfl

theorem createArray_job_self : (c.createArray p desc).job p =
    if desc.arrayBitmap.card = 0 then c.job p else (c.job p).setArray desc := by
  simp only [createArray]
  split_ifs
  · rfl
  · exact modJob_job_self ..

theorem createArray_job_of_ne {q : Ptr} (hq : q ≠ p) : (c.createArray p desc).job q = c.job q := by
  simp only [createArray]
  split_ifs
  · rfl
  · exact modJob_job_of_ne _ _ hq

variable {c p desc} {env : Env} {now : ℤ}

theorem addJob_job_of_mem (hp : p ∉ c.jobList) {q : Ptr} (hq : q ∈ c.jobList) :
    (c.addJob env now p desc).job q = c.job q :=
  setJob_job_of_ne _ _ (ne_of_mem_of_not_mem hq hp)

theorem addJob_job_self : (c.addJob env now p desc).job p = desc.record env now :=
  setJob_job_self ..

/-- Of the records that are there with a new one, only this one is purged. -/
theorem purgeJob_jobList {jobId : ℕ} (hlist : c'.jobList = c.jobList ++ [p])
    (hself : (c'.job p).jobId = jobId) (hid : ∀ q ∈ c.jobList, (c'.job q).jobId ≠ jobId) :
    (c'.purgeJob jobId).jobList = c.jobList := by
  have hkept : c.jobList.filter (fun q => (c'.job q).jobId ≠ jobId) = c.jobList :=
    List.filter_eq_self.2 fun q hq => decide_eq_true (hid q hq)
  rw [purgeJob, hlist, List.filter_append, hkept, List.filter_singleton, hself]
  simp

end Ctld

section

variable (env : Env) (now : ℤ) (c : Ctld) (p : Ptr)

theorem updateJobDependency_sansRequest (newDepend : Option CStr) :
    (updateJobDependency env now c p newDepend).2.sansRequest = c.sansRequest := by
  have hexpanding : (c.modJob p (·.setExpandingJobid 0)).sansRequest = c.sansRequest :=
    modJob_sansRequest fun _ => rfl
  have hclear : ((c.modJob p (·.setExpandingJobid 0)).modJob p
      JobRecord.clearDepend).sansRequest = c.sansRequest :=
    (modJob_sansRequest (f := JobRecord.clearDepend) fun _ => rfl).trans hexpanding
  have hnew (c : Ctld) (s : CStr) : (c.setNewDepend env now p s).2.sansRequest = c.sansRequest := by
    have hlink (rc : Rc) (l : DependLoop) :
        ((c.expandJob env p l.expand).linkPack p rc l).2.sansRequest = c.sansRequest :=
      sansRequest_of_sansDepend ((sansDepend_linkPack ..).trans (sansDepend_expandJob ..))
    have hset (c' : Ctld) (l : DependLoop) :
        (c'.modJob p (JobRecord.setDepend l.dependList l.orFlag)).sansRequest = c'.sansRequest :=
      modJob_sansRequest fun _ => rfl
    simp only [Ctld.setNewDepend]
    split_ifs
    · exact (hset _ _).trans (hlink _ _)
    · exact hlink _ _
    · exact (hset _ _).trans (hlink _ _)
    · exact hlink _ _
  simp only [updateJobDependency]
  split_ifs
  · rfl
  · split
    · exact hclear
    · split_ifs
      · exact hclear
      · exact (hnew _ _).trans hexpanding

/-- A new job is added to the list, and then purged again or accepted. -/
theorem jobCreate_cases (desc : JobDesc) (rejected : Bool) :
    ∃ c' : Ctld, c'.sansRequest = (c.addJob env now p desc).sansRequest ∧
      (((jobCreate env now c p desc rejected).1 ≠ .success ∧
          (jobCreate env now c p desc rejected).2 = c'.purgeJob desc.jobId) ∨
        ((jobCreate env now c p desc rejected).1 = .success ∧
          (jobCreate env now c p desc rejected).2 = c'.createArray p desc)) := by
  have hupdate := updateJobDependency_sansRequest env now (c.addJob env now p desc) p
    desc.dependency
  simp only [jobCreate]
  generalize updateJobDependency env now (c.addJob env now p desc) p desc.dependency = r at *
  by_cases hrc : r.1 = .success
  · rw [if_neg (not_not.2 hrc)]
    split_ifs
    · exact ⟨r.2, hupdate, .inl ⟨by simp, rfl⟩⟩
    · have hset : (r.2.modJob p (·.setRequests env desc)).sansRequest = r.2.sansRequest :=
        modJob_sansRequest fun _ => rfl
      exact ⟨_, hset.trans hupdate, .inr ⟨rfl, rfl⟩⟩
  · rw [if_pos hrc]
    exact ⟨r.2, hupdate, .inl ⟨hrc, rfl⟩⟩

end

end Slurm
