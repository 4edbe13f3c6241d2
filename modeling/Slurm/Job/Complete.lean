import Slurm.Job.Signal

/-!
# The completion of a job

A job that has come to its end by itself is recorded as such, or is requeued, and
gives back its nodes and ports (`_job_complete` in `job_mgr.c`). The entry point
for all callers is a wrapper that completes the members of a job pack with their
leader (`job_complete`).

`jobComplete_of_not_pack`: for a job that is in no job pack, the wrapper asks for
the completion of this job, but neither for its requeue nor as a failure of a
node, whatever the caller has asked for. `jobComplete_transparent` says when this
makes no difference.
-/

namespace Slurm

open JobRecord Ctld Finset

/-- `SIG_OOM`: the signal number that stands for a lack of memory. -/
def sigOom : ℕ := 253

/-- `MAX_BATCH_REQUEUE`: how often a batch job is requeued. -/
def maxBatchRequeue : ℕ := 5

/-! ## One job -/

namespace JobRecord

/-- The flag of a job that has run, and so has nodes to release. -/
def compFlag (j : JobRecord) : Finset JobFlag :=
  if j.jobState.isRunning ∨ j.jobState.isSuspended then {.completing} else ∅

/-- The job is a batch job. -/
def isBatch (j : JobRecord) : Prop := j.details.isSome ∧ j.batchFlag ≠ 0
  deriving Decidable

/-- The job is logged as if it had ended with its node. -/
def logAsNodeFail (now : ℤ) (j : JobRecord) : JobRecord :=
  { j with endTime := now, jobState := ⟨.nodeFail, ∅⟩ }

/-- The job is to be run again; a batch job not on a cloud node has one retry less. -/
def requeueAfter (useCloud : Bool) (comp : Finset JobFlag) (j : JobRecord) : JobRecord :=
  { j with
    batchFlag := if useCloud then j.batchFlag else j.batchFlag + 1
    restartCnt := j.restartCnt + 1
    warnSent := false
    jobState := ⟨.pending, comp⟩ }

/-- A job that was requeued too often is held. -/
def holdMaxRequeue (j : JobRecord) : JobRecord :=
  if j.batchFlag > maxBatchRequeue then
    { j with
      jobState := j.jobState.set .requeueHold
      stateReason := .waitMaxRequeue
      batchFlag := 1
      priority := 0 }
  else j

/-- The state of a job that has ended, by the return code `rc`. -/
def endState (now : ℤ) (uid overTimeLimit rc : ℕ) (nodeFail : Bool) (comp : Finset JobFlag)
    (j : JobRecord) : JobRecord :=
  if nodeFail then { j with jobState := ⟨.nodeFail, comp⟩, requid := uid }
  else if rc = noVal then { j with jobState := ⟨.cancelled, comp⟩, requid := uid }
  else if rc % 256 = sigOom then
    { j with
      jobState := ⟨.oom, comp⟩
      exitCode := rc / 256 * 256
      stateReason := .failOom
      stateDesc := none }
  else if wifExited rc ∧ wExitStatus rc ≠ 0 then
    { j with
      jobState := ⟨.failed, comp⟩
      exitCode := rc
      stateReason := .failExitCode
      stateDesc := none }
  else if comp ≠ ∅ ∧ j.endTime + overTimeLimit * 60 < now then
    { j with jobState := ⟨.timeout, comp⟩, stateReason := .failTimeout, stateDesc := none }
  else { j with jobState := ⟨.complete, comp⟩, exitCode := rc }

/-- The time at which a job has ended. -/
def setEndTime (now : ℤ) (suspended : Bool) (j : JobRecord) : JobRecord :=
  if suspended then
    { j with endTime := j.suspendTime, totSusTime := j.totSusTime + (now - j.suspendTime) }
  else { j with endTime := now }

/-- The time at which a job that was not started counts as started. -/
def startedAt (now : ℤ) (j : JobRecord) : JobRecord := { j with startTime := now }

/-- The time from which on the nodes are told again to end the job. -/
def activeAt (now : ℤ) (j : JobRecord) : JobRecord := { j with timeLastActive := now }

/-- The record of a job does not name ports any more. -/
def forgetPorts (j : JobRecord) : JobRecord := { j with resvPortArray := none, resvPorts := none }

end JobRecord

/-- The first node of the job is one of a cloud. -/
def Ctld.usesCloud (c : Ctld) (j : JobRecord) : Bool :=
  decide (∃ i ∈ j.nodeSet, (∀ k ∈ j.nodeSet, i ≤ k) ∧ (c.node i).cloud)

/-- How long the job may go on past its time limit. -/
def Ctld.overTimeLimit (env : Env) (c : Ctld) (j : JobRecord) : ℕ :=
  (j.partPtr.bind fun t => (c.part t).overTimeLimit).getD env.overTimeLimit

/-- Requeue a batch job that has ended. -/
def requeueBatch (env : Env) (now : ℤ) (c : Ctld) (p : Ptr) (comp : Finset JobFlag) : Ctld :=
  let c := c.modJob p (logAsNodeFail now)
  let c := jobCompletionLogger env c p
  let c := c.modJob p (requeueAfter (c.usesCloud (c.job p)) comp)
  let c := adjustLimitUsage env .addSubmit c p
  c.modJob p holdMaxRequeue

/-- Record the end of a job that is not requeued. -/
def endJob (env : Env) (now : ℤ) (c : Ctld) (p : Ptr) (uid rc : ℕ) (nodeFail suspended : Bool)
    (comp : Finset JobFlag) : Ctld :=
  let c := c.modJob p
    (endState now uid (c.overTimeLimit env (c.job p)) rc nodeFail comp)
  let c := c.modJob p (setEndTime now suspended)
  jobCompletionLogger env c p

/-- A job that has run gives back what it has. -/
def releaseEnded (env : Env) (now : ℤ) (c : Ctld) (p : Ptr) (suspended : Bool)
    (comp : Finset JobFlag) : Ctld :=
  let c := { c with lastJobUpdate := now }
  let c := c.modJob p (activeAt now)
  if comp = ∅ then c
  else
    let c := c.modJob p buildCgBitmap
    let c := deallocateNodes env now c p suspended
    let c := resvPortJobpackFree c p
    c.modJob p forgetPorts

/-- Complete a job that is not done yet. -/
def completeLive (env : Env) (now : ℤ) (c : Ctld) (p : Ptr) (uid : ℕ) (requeue nodeFail : Bool)
    (rc : ℕ) : Rc × Ctld :=
  let j := c.job p
  let comp := j.compFlag
  let suspended := decide j.jobState.isSuspended
  -- A job that was not started has no return code.
  let rc := if j.jobState.isPending then noVal else rc
  let c := if j.jobState.isPending then c.modJob p (startedAt now) else c
  if requeue ∧ j.isBatch then
    (.success, releaseEnded env now (requeueBatch env now c p comp) p suspended comp)
  else if j.jobState.isPending ∧ j.isBatch then
    -- A batch job that was requeued, and whose old node answers late.
    (.success, c)
  else
    (.success,
      releaseEnded env now (endJob env now c p uid rc nodeFail suspended comp) p suspended comp)

/-- Complete the job with the given id (`_job_complete`). -/
def jobCompleteOne (env : Env) (now : ℤ) (c : Ctld) (jobId uid : ℕ) (requeue nodeFail : Bool)
    (rc : ℕ) : Rc × Ctld :=
  match c.findJobRecord jobId with
  | none => (.invalidJobId, c)
  | some p =>
    let j := c.job p
    if j.jobState.isFinished then
      (.alreadyDone,
        c.modJob p fun j => { j with exitCode := if j.exitCode = 0 then rc else j.exitCode })
    else if j.userId ≠ uid ∧ !env.validateSlurmUser uid then (.userIdMissing, c)
    else if j.jobState.isCompleting then (.success, c)
    else completeLive env now c p uid requeue nodeFail rc

/-! ## The wrapper -/

/-- The whole state of a job is `JOB_COMPLETE`, or `JOB_COMPLETING`. -/
def JobRecord.skipsCompletion (j : JobRecord) : Prop :=
  j.jobState = ⟨.complete, ∅⟩ ∨ j.jobState = ⟨.pending, {.completing}⟩
  deriving Decidable

/-- Complete a member of a job pack with its leader `p`; in a pack of `srun` without a
    script, only if the leader has failed. An entry without a job, on which the code
    would fail, does not occur. -/
def completeMember (env : Env) (now : ℤ) (p : Ptr) (uid rc : ℕ) (c : Ctld) (d : DependSpec) : Ctld :=
  if d.jobPtr.any fun q => (c.job q).skipsCompletion then c
  else if (c.job p).batchFlag > 0 ∨ rc ≠ 0 then (jobCompleteOne env now c d.jobId uid false false rc).2
  else c

/-- The loop over the dependencies of the job `p`. It ends early, with a result, at an
    entry that says that `p` is a member of a job pack; otherwise it says whether `p` is a
    leader. -/
def completeEntries (env : Env) (now : ℤ) (p : Ptr) (jobId uid rc : ℕ) :
    List DependSpec → Bool → Ctld → Except (Rc × Ctld) (Bool × Ctld)
  | [], isLeader, c => .ok (isLeader, c)
  | d :: ds, isLeader, c =>
    match d.dependType with
    | .pack =>
      .error (if (c.job p).batchFlag > 0 then (.success, c)
        else jobCompleteOne env now c jobId uid false false rc)
    | .packleader =>
      completeEntries env now p jobId uid rc ds true (completeMember env now p uid rc c d)
    | _ => completeEntries env now p jobId uid rc ds isLeader c

/-- Complete the job with the given id, and the members of its job pack (`job_complete`). -/
def jobComplete (env : Env) (now : ℤ) (c : Ctld) (jobId uid : ℕ) (_requeue _nodeFail : Bool)
    (rc : ℕ) : Rc × Ctld :=
  match c.findJobRecord jobId with
  | none => (.alreadyDone, c)
  | some p =>
    let deps := ((c.job p).details.bind (·.dependList)).getD []
    match completeEntries env now p jobId uid rc deps false c with
    | .error result => result
    | .ok (isLeader, c) =>
      if isLeader ∧ (c.job p).skipsCompletion then (.success, c)
      else jobCompleteOne env now c jobId uid false false rc

/-! ## The wrapper and an ordinary job -/

section

variable (env : Env) (now : ℤ) (c : Ctld) (p : Ptr) (jobId uid rc : ℕ)

/-- The entries of the members that a job leads. -/
def packMembers (deps : List DependSpec) : List DependSpec :=
  deps.filter (·.dependType = .packleader)

theorem completeEntries_of_not_member {deps : List DependSpec}
    (hdeps : ∀ d ∈ deps, d.dependType ≠ .pack) (isLeader : Bool) :
    completeEntries env now p jobId uid rc deps isLeader c =
      .ok (isLeader || !(packMembers deps).isEmpty,
        (packMembers deps).foldl (completeMember env now p uid rc) c) := by
  induction deps generalizing isLeader c with
  | nil => simp [completeEntries, packMembers]
  | cons d ds ih =>
    obtain ⟨hpack, hrest⟩ := List.forall_mem_cons.1 hdeps
    cases htype : d.dependType
    case pack => exact absurd htype hpack
    all_goals simp [completeEntries, htype, ih _ hrest, packMembers]

/-- The job has no entry of a job pack in its dependency list. -/
def JobRecord.inNoPack (j : JobRecord) : Prop :=
  j.packLeader = 0 ∧ ∀ deps ∈ j.details.bind (·.dependList), ∀ d ∈ deps,
    d.dependType ≠ .pack ∧ d.dependType ≠ .packleader

variable {c p jobId}

/-- For a job in no job pack, the wrapper forwards neither the wish for a requeue nor the
    failure of a node. -/
theorem jobComplete_of_not_pack (hfind : c.findJobRecord jobId = some p)
    (hpack : (c.job p).inNoPack) (requeue nodeFail : Bool) :
    jobComplete env now c jobId uid requeue nodeFail rc =
      jobCompleteOne env now c jobId uid false false rc := by
  have hdeps : ∀ d ∈ ((c.job p).details.bind (·.dependList)).getD [],
      d.dependType ≠ .pack ∧ d.dependType ≠ .packleader := by
    intro d hd
    cases hlist : (c.job p).details.bind (·.dependList) with
    | none => simp [hlist] at hd
    | some deps =>
      rw [hlist] at hd
      exact hpack.2 deps hlist d hd
  have hnone : packMembers (((c.job p).details.bind (·.dependList)).getD []) = [] :=
    List.filter_eq_nil_iff.2 fun d hd => by simpa using (hdeps d hd).2
  simp only [jobComplete, hfind,
    completeEntries_of_not_member env now c p jobId uid rc fun d hd => (hdeps d hd).1, hnone]
  rfl

end

/-! ## Where the wrapper makes a difference -/

/-- From `c` to `c'` the job has the same nodes, and the same of them are down. -/
structure SameNodes (p : Ptr) (c c' : Ctld) : Prop where
  nodeBitmap : (c'.job p).nodeBitmap = (c.job p).nodeBitmap
  down : ∀ i, (c'.node i).base = .down ↔ (c.node i).base = .down

namespace SameNodes

variable {p : Ptr} {c c' c'' : Ctld}

theorem trans (h : SameNodes p c c') (h' : SameNodes p c' c'') : SameNodes p c c'' :=
  ⟨h'.nodeBitmap.trans h.nodeBitmap, fun i => (h'.down i).trans (h.down i)⟩

theorem modJob {f : JobRecord → JobRecord} (hf : ∀ j, (f j).nodeBitmap = j.nodeBitmap) :
    SameNodes p c (c.modJob p f) :=
  ⟨by rw [modJob_job_self, hf], fun _ => Iff.rfl⟩

theorem nodeSet (h : SameNodes p c c') : (c'.job p).nodeSet = (c.job p).nodeSet := by
  simp [JobRecord.nodeSet, h.nodeBitmap]

end SameNodes

theorem Logged.sameNodes {p : Ptr} {c c' : Ctld} (h : Logged p c c') : SameNodes p c c' :=
  ⟨of_part (·.nodeBitmap) h.identity, h.down⟩

/-- All nodes of a job that has run are down, and there are exit codes that have such a
    job run again at once, whatever it is to become otherwise. -/
def Ctld.mayRestart (env : Env) (c : Ctld) (p : Ptr) : Prop :=
  (c.job p).compFlag ≠ ∅ ∧ (∀ i ∈ (c.job p).nodeSet, (c.node i).base = .down) ∧
    (env.requeueExit.Nonempty ∨ env.requeueExitHold.Nonempty)

theorem JobRecord.endState_nodeBitmap (now : ℤ) (uid overTimeLimit rc : ℕ) (nodeFail : Bool)
    (comp : Finset JobFlag) (j : JobRecord) :
    (j.endState now uid overTimeLimit rc nodeFail comp).nodeBitmap = j.nodeBitmap := by
  simp only [endState]
  split_ifs <;> rfl

theorem JobRecord.setEndTime_cases (now : ℤ) (suspended : Bool) (j : JobRecord) :
    (j.setEndTime now suspended).nodeBitmap = j.nodeBitmap ∧
      (j.setEndTime now suspended).jobState = j.jobState := by
  simp only [setEndTime]
  split_ifs <;> exact ⟨rfl, rfl⟩

section

variable (env : Env) (now : ℤ) (c : Ctld) (p : Ptr) (uid rc : ℕ)

theorem endJob_spec (nodeFail suspended : Bool) (comp : Finset JobFlag) :
    SameNodes p c (endJob env now c p uid rc nodeFail suspended comp) ∧
      ((endJob env now c p uid rc nodeFail suspended comp).job p).jobState.base =
        ((c.job p).endState now uid (c.overTimeLimit env (c.job p)) rc nodeFail comp).jobState.base ∧
      ((endJob env now c p uid rc nodeFail suspended comp).job p).jobState.flags ⊆ comp := by
  have hflags : ((c.job p).endState now uid (c.overTimeLimit env (c.job p)) rc nodeFail
      comp).jobState.flags = comp := by
    simp only [endState]
    split_ifs <;> rfl
  simp only [endJob]
  generalize hf : endState now uid (c.overTimeLimit env (c.job p)) rc nodeFail comp = f
  rw [hf] at hflags
  have hlog := jobCompletionLogger_jobState env
    ((c.modJob p f).modJob p (setEndTime now suspended)) p
  rw [modJob_job_self, modJob_job_self, (setEndTime_cases ..).2, hflags] at hlog
  refine ⟨?_, hlog⟩
  have hstate : SameNodes p c (c.modJob p f) := .modJob fun j => hf ▸ endState_nodeBitmap ..
  exact hstate.trans (.trans (.modJob fun j => (setEndTime_cases ..).1)
    (jobCompletionLogger_logged ..).sameNodes)

theorem requeueBatch_spec (comp : Finset JobFlag) :
    SameNodes p c (requeueBatch env now c p comp) ∧
      ((requeueBatch env now c p comp).job p).jobState.base = .pending ∧
      ((requeueBatch env now c p comp).job p).jobState.flags ⊆ insert .requeueHold comp ∧
      ((requeueBatch env now c p comp).job p).restartCnt = (c.job p).restartCnt + 1 := by
  have hhold (j : JobRecord) (hj : j.jobState = ⟨.pending, comp⟩) :
      j.holdMaxRequeue.jobState.base = .pending ∧
        j.holdMaxRequeue.jobState.flags ⊆ insert .requeueHold comp ∧
        j.holdMaxRequeue.restartCnt = j.restartCnt := by
    simp only [holdMaxRequeue]
    split_ifs
    · simp [hj, JobState.set]
    · rw [hj]
      exact ⟨rfl, subset_insert .., rfl⟩
  have hfail : SameNodes p c (c.modJob p (logAsNodeFail now)) := .modJob fun _ => rfl
  have hrestart1 := congrArg restartCnt (c.modJob_job_self p (logAsNodeFail now))
  simp only [requeueBatch]
  generalize c.modJob p (logAsNodeFail now) = c1 at *
  have hlog := (jobCompletionLogger_logged env c1 p).sameNodes
  obtain ⟨r, s, hself, -⟩ := jobCompletionLogger_self env c1 p
  have hrestart2 := of_part (·.restartCnt) hself
  generalize jobCompletionLogger env c1 p = c2 at *
  have hagain : SameNodes p c2
      (c2.modJob p (requeueAfter (c2.usesCloud (c2.job p)) comp)) := .modJob fun _ => rfl
  have hjob3 := c2.modJob_job_self p (requeueAfter (c2.usesCloud (c2.job p)) comp)
  generalize c2.modJob p (requeueAfter (c2.usesCloud (c2.job p)) comp) = c3 at *
  have husage := adjustLimitUsage_bookkeeping env c3 p .addSubmit
  have hstate4 := of_part (·.jobState) husage.self
  have hrestart4 := of_part (·.restartCnt) husage.self
  generalize adjustLimitUsage env .addSubmit c3 p = c4 at *
  rw [hjob3] at hstate4 hrestart4
  obtain ⟨hbase, hflags, hrestart⟩ := hhold (c4.job p) hstate4
  rw [modJob_job_self]
  refine ⟨?_, hbase, hflags, ?_⟩
  · have hcharged := husage.alters
    refine hfail.trans (hlog.trans (hagain.trans (.trans
      ⟨of_part (·.nodeBitmap) hcharged.identity, hcharged.down⟩ (.modJob fun j => ?_))))
    simp only [holdMaxRequeue]
    split_ifs <;> rfl
  · rw [hrestart, hrestart4]
    exact congrArg (· + 1) (hrestart2.trans hrestart1)

theorem resvPortJobpackFree_jobState :
    ((resvPortJobpackFree c p).job p).jobState = (c.job p).jobState := by
  obtain ⟨-, h⟩ | ⟨ports, -, m, h, -⟩ := resvPortJobpackFree_cases c p
  · rw [h]
  · rw [h, setJob_job_self]

theorem deallocateNodes_base (suspended : Bool) {cg : Bitmap}
    (hcg : (c.job p).nodeBitmapCg = some cg) (hflag : .requeue ∉ (c.job p).jobState.flags)
    (hno : (∀ i ∈ cg, (c.node i).base = .down) →
      ¬(env.requeueExit.Nonempty ∨ env.requeueExitHold.Nonempty)) :
    ((deallocateNodes env now c p suspended).job p).jobState.base = (c.job p).jobState.base := by
  obtain ⟨-, hend⟩ := deallocateNodes_spec env now p suspended hcg
  split_ifs at hend with hdown
  · obtain ⟨j, hj, hsame⟩ := hend
    have hstate := of_part (·.jobState) hsame
    have hflag' : .requeue ∉ j.jobState.flags := by
      rw [hstate]
      exact fun h => hflag (mem_of_mem_erase h)
    have hexit : ¬j.requeuesOnExit env := by
      rintro ⟨-, h | h⟩
      · exact hno hdown (.inl ⟨_, h⟩)
      · exact hno hdown (.inr ⟨_, h⟩)
    rw [hj, holdRequeue_eq_self hflag' hexit, hstate]
    rfl
  · rw [of_part (·.jobState) hend]

/-- What a job has become is not changed by giving back what it has, unless its exit code
    has it run again. -/
theorem releaseEnded_base (suspended : Bool) {comp : Finset JobFlag}
    (hflag : .requeue ∉ (c.job p).jobState.flags)
    (hno : comp ≠ ∅ → (∀ i ∈ (c.job p).nodeSet, (c.node i).base = .down) →
      ¬(env.requeueExit.Nonempty ∨ env.requeueExitHold.Nonempty)) :
    ((releaseEnded env now c p suspended comp).job p).jobState.base = (c.job p).jobState.base := by
  have hactive : SameNodes p c (Ctld.modJob { c with lastJobUpdate := now } p (activeAt now)) :=
    ⟨by rw [modJob_job_self]; rfl, fun _ => Iff.rfl⟩
  have hstate1 : ((Ctld.modJob { c with lastJobUpdate := now } p
      (activeAt now)).job p).jobState = (c.job p).jobState := by
    rw [modJob_job_self]
    rfl
  simp only [releaseEnded]
  generalize Ctld.modJob { c with lastJobUpdate := now } p (activeAt now) = c1 at *
  split_ifs with hcomp
  · rw [hstate1]
  · obtain ⟨s, hs, hbase, hflags⟩ := (c1.job p).buildCgBitmap_cases
    have hjob2 := (c1.modJob_job_self p buildCgBitmap).trans hs
    have hnodes : SameNodes p c1 (c1.modJob p buildCgBitmap) :=
      .modJob fun j => of_part (·.nodeBitmap) j.buildCgBitmap_lasting
    rw [modJob_job_self]
    change ((resvPortJobpackFree _ p).job p).jobState.base = _
    rw [resvPortJobpackFree_jobState]
    generalize c1.modJob p buildCgBitmap = c2 at *
    have hcg : (c2.job p).nodeBitmapCg = some (c.job p).nodeSet := by
      rw [hjob2, ← hactive.nodeSet]
    have hflag2 : .requeue ∉ (c2.job p).jobState.flags := by
      rw [hjob2]
      exact fun h => hflag (hstate1 ▸ hflags h)
    rw [deallocateNodes_base env now c2 p suspended hcg hflag2 fun hdown => hno hcomp fun i hi =>
      ((hactive.trans hnodes).down i).1 (hdown i hi), hjob2, hbase, hstate1]

variable {c p} {requeue nodeFail : Bool}

/-- A request that the wrapper cannot spoil: it does not complete the job; or the job is
    no batch job that would be requeued, nor one that would be recorded as failed with its
    node. -/
def Ctld.forwardable (env : Env) (c : Ctld) (p : Ptr) (uid : ℕ) (requeue nodeFail : Bool) : Prop :=
  let j := c.job p
  j.jobState.isFinished ∨ (j.userId ≠ uid ∧ !env.validateSlurmUser uid) ∨ j.jobState.isCompleting ∨
    ((requeue → ¬j.isBatch) ∧ (nodeFail → j.jobState.isPending ∧ j.isBatch))

theorem JobRecord.endState_base (overTimeLimit : ℕ) (nodeFail : Bool) (comp : Finset JobFlag)
    (j : JobRecord) :
    (j.endState now uid overTimeLimit rc nodeFail comp).jobState.base ≠ .pending ∧
      ((j.endState now uid overTimeLimit rc nodeFail comp).jobState.base = .nodeFail ↔
        nodeFail = true) := by
  simp only [endState]
  split_ifs <;> simp_all

/-- A job that gives back what it has stays what it has become. -/
theorem releaseEnded_base_of_spec (hrestart : ¬c.mayRestart env p) (suspended : Bool) {c' : Ctld}
    (hnodes : SameNodes p c c') (hflags : (c'.job p).jobState.flags ⊆
      insert .requeueHold (c.job p).compFlag) :
    ((releaseEnded env now c' p suspended (c.job p).compFlag).job p).jobState.base =
      (c'.job p).jobState.base := by
  refine releaseEnded_base env now c' p suspended (fun h => ?_) fun hcomp hdown hexit => ?_
  · have hmem := hflags h
    simp only [compFlag] at hmem
    split_ifs at hmem <;> simp at hmem
  · refine hrestart ⟨hcomp, fun i hi => ?_, hexit⟩
    exact (hnodes.down i).1 (hdown i (hnodes.nodeSet ▸ hi))

/-- The completion of a job depends on what the wrapper does not forward. -/
theorem completeLive_ne (hrestart : ¬c.mayRestart env p) (hreq : ¬((requeue → ¬(c.job p).isBatch) ∧
      (nodeFail → (c.job p).jobState.isPending ∧ (c.job p).isBatch))) :
    completeLive env now c p uid false false rc ≠ completeLive env now c p uid requeue nodeFail rc := by
  intro heq
  have hstart : SameNodes p c (c.modJob p (startedAt now)) := .modJob fun _ => rfl
  simp only [completeLive, Bool.false_eq_true, false_and, if_false] at heq
  generalize (if (c.job p).jobState.isPending then noVal else rc) = rc' at heq
  generalize hc0 : (if (c.job p).jobState.isPending then c.modJob p (startedAt now)
    else c) = c0 at heq
  have hnodes : SameNodes p c c0 := by
    rw [← hc0]
    split_ifs
    · exact hstart
    · exact ⟨rfl, fun _ => Iff.rfl⟩
  -- What the job becomes when it is not requeued.
  have hend (fail : Bool) := by
    obtain ⟨hsame, hbase, hflags⟩ := endJob_spec env now c0 p uid rc' fail
      (decide (c.job p).jobState.isSuspended) (c.job p).compFlag
    have hkept := releaseEnded_base_of_spec env now hrestart
      (decide (c.job p).jobState.isSuspended) (hnodes.trans hsame)
      (hflags.trans (subset_insert ..))
    exact hkept.trans hbase
  by_cases hagain : requeue = true ∧ (c.job p).isBatch
  · obtain ⟨hsame, hbase, hflags, hcnt'⟩ := requeueBatch_spec env now c0 p (c.job p).compFlag
    have hkept := releaseEnded_base_of_spec env now hrestart
      (decide (c.job p).jobState.isSuspended) (hnodes.trans hsame) hflags
    split_ifs at heq with hpend
    · -- A job that is pending already is not requeued without the wish for it.
      have hcomp : (c.job p).compFlag = ∅ := by
        have hbase : (c.job p).jobState.base = .pending := hpend.1
        simp [compFlag, JobState.isRunning, JobState.isSuspended, hbase]
      have hjob := congrArg (fun r : Rc × Ctld => (r.2.job p).restartCnt) heq
      simp only [hcomp, releaseEnded, if_true, modJob_job_self] at hjob hcnt'
      exact absurd (hjob.trans hcnt') (Nat.succ_ne_self _).symm
    · have hjob := congrArg (fun r : Rc × Ctld => (r.2.job p).jobState.base) heq
      exact (endState_base ..).1 ((hend false).symm.trans (hjob.trans (hkept.trans hbase)))
  · have hfail : nodeFail = true ∧ ¬((c.job p).jobState.isPending ∧ (c.job p).isBatch) := by tauto
    rw [if_neg hagain, if_neg hfail.2, if_neg hfail.2] at heq
    have hjob := congrArg (fun r : Rc × Ctld => (r.2.job p).jobState.base) heq
    have hbase := (hend false).symm.trans (hjob.trans (hend nodeFail))
    have hwith := (endState_base now uid rc' (c0.overTimeLimit env (c0.job p)) nodeFail
      (c.job p).compFlag (c0.job p)).2.2 hfail.1
    have hwithout := (endState_base now uid rc' (c0.overTimeLimit env (c0.job p)) false
      (c.job p).compFlag (c0.job p)).2
    simp [hbase, hwith] at hwithout

theorem completeLive_eq (hreq : requeue → ¬(c.job p).isBatch)
    (hfail : nodeFail → (c.job p).jobState.isPending ∧ (c.job p).isBatch) :
    completeLive env now c p uid false false rc = completeLive env now c p uid requeue nodeFail rc := by
  have hnot : ¬(requeue = true ∧ (c.job p).isBatch) := fun h => hreq h.1 h.2
  simp only [completeLive, if_neg hnot, Bool.false_eq_true, false_and, if_false]
  cases nodeFail with
  | false => rfl
  | true => simp [(hfail rfl)]

/-- For a job in no job pack, the wrapper completes it as it was asked to just when the
    request is one it cannot spoil; and, whatever was asked for, possibly when all nodes of
    the job are down and an exit code has it run again at once. -/
theorem jobComplete_transparent {jobId : ℕ} {requeue nodeFail : Bool}
    (hfind : c.findJobRecord jobId = some p) (hpack : (c.job p).inNoPack) :
    (c.forwardable env p uid requeue nodeFail →
      jobComplete env now c jobId uid requeue nodeFail rc =
        jobCompleteOne env now c jobId uid requeue nodeFail rc) ∧
    (jobComplete env now c jobId uid requeue nodeFail rc =
        jobCompleteOne env now c jobId uid requeue nodeFail rc →
      c.forwardable env p uid requeue nodeFail ∨ c.mayRestart env p) := by
  rw [jobComplete_of_not_pack env now uid rc hfind hpack]
  simp only [jobCompleteOne, hfind, Ctld.forwardable]
  split_ifs with hfin huid hcompl
  · exact ⟨fun _ => rfl, fun _ => .inl (.inl hfin)⟩
  · exact ⟨fun _ => rfl, fun _ => .inl (.inr (.inl huid))⟩
  · exact ⟨fun _ => rfl, fun _ => .inl (.inr (.inr (.inl hcompl)))⟩
  · refine ⟨fun h => ?_, fun heq => ?_⟩
    · obtain ⟨hreq, hfail⟩ := ((h.resolve_left hfin).resolve_left huid).resolve_left hcompl
      exact completeLive_eq env now uid rc hreq hfail
    · by_contra hnot
      obtain ⟨hspoilt, hrestart⟩ := not_or.1 hnot
      exact completeLive_ne env now uid rc hrestart (fun hreq => hspoilt (.inr (.inr (.inr hreq)))) heq

end

/-- A running job with id 1 of user 1000 on node 0, with or without a batch script. -/
def runningJob (batchFlag : ℕ) : Ctld where
  job p := if p = 1 then
      { jobId := 1, userId := 1000, batchFlag := batchFlag, details := some {}
        jobState := ⟨.running, ∅⟩, nodeBitmap := some {0}, endTime := 100 }
    else {}
  jobList := [1]
  node _ := { base := .allocated, runJobCnt := 1 }

theorem jobComplete_transparent_runningJob :
    jobComplete {} 5 (runningJob 0) 1 1000 true false 0 =
      jobCompleteOne {} 5 (runningJob 0) 1 1000 true false 0 := by
  have hfind : (runningJob 0).findJobRecord 1 = some 1 := by decide
  refine (jobComplete_transparent {} 5 1000 0 hfind
    ⟨rfl, fun _ h => by simp [runningJob] at h⟩).1 ?_
  exact .inr (.inr (.inr ⟨fun _ => by decide, fun h => by simp at h⟩))

/-- A batch job on a node that fails is to be requeued, and is completed. -/
theorem jobComplete_not_transparent :
    ((jobComplete {} 5 (runningJob 1) 1 1000 true true 0).2.job 1).jobState.base = .complete ∧
      ((jobCompleteOne {} 5 (runningJob 1) 1 1000 true true 0).2.job 1).jobState.base = .pending ∧
      jobComplete {} 5 (runningJob 1) 1 1000 true true 0 ≠
        jobCompleteOne {} 5 (runningJob 1) 1 1000 true true 0 := by
  have hwrapper :
      ((jobComplete {} 5 (runningJob 1) 1 1000 true true 0).2.job 1).jobState.base = .complete := by
    decide
  have hdirect :
      ((jobCompleteOne {} 5 (runningJob 1) 1 1000 true true 0).2.job 1).jobState.base = .pending := by
    decide
  refine ⟨hwrapper, hdirect, fun heq => ?_⟩
  rw [heq, hdirect] at hwrapper
  exact absurd hwrapper (by decide)

end Slurm
