import Slurm.Record

/-!
# Federated jobs

The clusters of a federation have ids, and a set of clusters is a word of 64 bits, one for each
id; here it is the set of the bits that are on (`SiblingBits`). The cluster a job was submitted to
is its *origin*.

The origin decides which clusters get a job (`fedMgrJobAllocate`): it asks those that are on the
list of the job when they could start it, takes the first one that can start it now, and else all
those that answered. Then it submits the job to each of them, and takes those out of the set that
did not get it.

When the job is to start, a cluster asks the origin for the lock of the job, starts the job, and
tells the origin (`fedMgrJobLock`, `fedMgrJobUnlock`, `fedMgrJobStart`).
-/

namespace Slurm

/-- A set of clusters, as the bits of an unsigned number of 64 bits. -/
abbrev SiblingBits := Finset (Fin 64)

/-- `FED_SIBLING_BIT(x)`. The number `x` is unsigned, and a shift takes its width modulo 64. -/
def fedSiblingBit (id : ℕ) : SiblingBits := {Fin.ofNat 64 (id + 63)}

/-! ## Submission -/

/-- `slurmdb_cluster_rec_t`. -/
structure FedCluster where
  name : CStr
  id : ℕ
  deriving DecidableEq

/-- The federation as one of its clusters sees it, `self`. -/
structure Federation where
  clusters : List FedCluster
  self : FedCluster
  self_mem : self ∈ clusters
  names_nodup : (clusters.map (·.name)).Nodup

/-- The text of the clusters of a job: `all`, or the names that `slurm_addto_char_list` finds. -/
inductive ClusterNames
  | all
  | names (l : List CStr)
  deriving DecidableEq

/-- What is read of a job description, `job_desc_msg_t`. -/
structure FedJobDesc where
  clusters : Option ClusterNames
  priority : ℕ
  beginTime : ℕ
  /-- The bits that the description comes with. -/
  fedSiblings : SiblingBits := ∅

/-- `sib_willrun_t`: a cluster that was asked, with the start time it answered. -/
structure SibWillRun where
  sibling : FedCluster
  resp : Option ℕ

/-- What happens around a submission: the times at its beginning and when the answers are looked
    at, the answers of the clusters (none also if there was no thread to ask it), their order, and
    which submissions fail. -/
structure SubmitEnv where
  now : ℕ
  later : ℕ
  willRun : FedCluster → Option ℕ
  sortSibWillRuns : List SibWillRun → List SibWillRun
  sort_perm : ∀ l, (sortSibWillRuns l).Perm l
  /-- `job_allocate` made the job, and it did not fail. -/
  jobAllocated : Bool
  submitFails : FedCluster → Bool

variable (fed : Federation) (env : SubmitEnv)

/-- `_cluster_names_to_ids`. -/
def clusterNamesToIds : ClusterNames → SiblingBits
  | .all => Finset.univ
  | .names l => l.foldl (fun ids name =>
      match fed.clusters.find? (·.name = name) with
      | some sibling => ids ∪ fedSiblingBit sibling.id
      | none => ids) ∅

/-- `_get_sib_will_runs`. -/
def getSibWillRuns (desc : FedJobDesc) : List SibWillRun :=
  let clusterList := match desc.clusters with
    | some names => clusterNamesToIds fed names
    | none => Finset.univ
  (fed.clusters.filter fun sibling => (clusterList ∩ fedSiblingBit sibling.id).Nonempty).map
    fun sibling => ⟨sibling, env.willRun sibling⟩

/-- The loop of `_find_start_now_sib`: the clusters that answered, up to the first one that can
    start the job now. -/
def findStartNow (now : ℕ) : List SibWillRun → SiblingBits × Option FedCluster
  | [] => (∅, none)
  | w :: ws =>
    match w.resp with
    | none => findStartNow now ws
    | some startTime =>
      if startTime ≤ now then (fedSiblingBit w.sibling.id, some w.sibling)
      else
        let (avail, sib) := findStartNow now ws
        (fedSiblingBit w.sibling.id ∪ avail, sib)

/-- `_find_start_now_sib`. -/
def findStartNowSib (desc : FedJobDesc) : SiblingBits × Option FedCluster :=
  findStartNow env.later (env.sortSibWillRuns (getSibWillRuns fed env desc))

/-- `_get_all_sibling_bits`. -/
def getAllSiblingBits : SiblingBits :=
  fed.clusters.foldl (fun bits cluster => bits ∪ fedSiblingBit cluster.id) ∅

/-- The clusters whose submission is tried and fails in `_submit_sibling_jobs`. -/
def failedSiblings (siblings : SiblingBits) : List FedCluster :=
  fed.clusters.filter fun sibling =>
    sibling ≠ fed.self && (siblings ∩ fedSiblingBit sibling.id).Nonempty && env.submitFails sibling

/-- The set that is left after `_submit_sibling_jobs`. -/
def submitSiblingJobs (siblings : SiblingBits) : SiblingBits :=
  (failedSiblings fed env siblings).foldl (fun bits sibling => bits \ fedSiblingBit sibling.id)
    siblings

/-- The set `fed_mgr_job_allocate` submits the job with. -/
def chooseSiblings (desc : FedJobDesc) : SiblingBits :=
  let (availSibs, startNowSib) :=
    if desc.priority ≠ 0 ∧ desc.beginTime ≤ env.now then
      let (avail, sib) := findStartNowSib fed env desc
      (if avail = ∅ then fedSiblingBit fed.self.id else avail, sib)
    else (getAllSiblingBits fed, none)
  if desc.priority = 0 then ∅
  else
    match startNowSib with
    | none => availSibs
    | some sib => desc.fedSiblings ∪ fedSiblingBit sib.id

/-- The sets a submission gives a job: the one it is submitted with, and the one the job at the
    origin has in the end. -/
structure Submission where
  submitted : SiblingBits
  kept : SiblingBits

/-- `fed_mgr_job_allocate`. -/
def fedMgrJobAllocate (desc : FedJobDesc) : Submission :=
  let siblings := chooseSiblings fed env desc
  if env.jobAllocated = false then ⟨siblings, siblings⟩
  else if failedSiblings fed env siblings = [] then ⟨siblings, siblings⟩
  else
    let rest := submitSiblingJobs fed env siblings
    ⟨siblings, if rest = ∅ then fedSiblingBit fed.self.id else rest⟩

/-! ## The lock of a job -/

/-- `job_fed_details_t` at the origin. -/
structure JobFedDetails where
  siblings : SiblingBits
  clusterLock : ℕ := 0
  deriving DecidableEq

namespace JobFedDetails

/-- The cluster that a request is for: `INFINITE` stands for the origin itself. -/
def clusterId (selfId c : ℕ) : ℕ := if c = infinite then selfId else c

variable (d : JobFedDetails) (c : ℕ)

/-- The test that a cluster is the only sibling. -/
def OnlySibling : Prop := (d.siblings ∩ fedSiblingBit c).Nonempty ∧ d.siblings \ fedSiblingBit c = ∅
  deriving Decidable

/-- `fed_mgr_job_lock`, with whether it succeeds. -/
def fedMgrJobLock : JobFedDetails × Bool :=
  if d.OnlySibling c then (d, true)
  else if d.clusterLock ≠ 0 ∧ d.clusterLock ≠ c then (d, false)
  else ({ d with clusterLock := c }, true)

/-- `fed_mgr_job_unlock`. -/
def fedMgrJobUnlock : JobFedDetails × Bool :=
  if d.OnlySibling c then (d, true)
  else if d.clusterLock ≠ 0 ∧ d.clusterLock ≠ c then (d, false)
  else ({ d with clusterLock := 0 }, true)

/-- `fed_mgr_job_start`. -/
def fedMgrJobStart : JobFedDetails × Bool :=
  if d.OnlySibling c then (⟨fedSiblingBit c, c⟩, true)
  else if d.clusterLock = 0 then (d, false)
  else if d.clusterLock ≠ c then (d, false)
  else ({ d with siblings := fedSiblingBit c }, true)

/-- `set_job_fed_details`. -/
def setJobFedDetails (siblings : SiblingBits) : JobFedDetails := { d with siblings := siblings }

end JobFedDetails

end Slurm
