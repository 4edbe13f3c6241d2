import Slurm.Job.End

/-!
# Signals to jobs

How a job is signalled, and cancelled (`_job_signal`, `job_signal` in
`job_mgr.c`). A job pack is cancelled as a whole: a request to cancel one of its
jobs is passed on to the entries in the dependency list of the leader, and then
to the leader (`_kill_job_pack`). The permission of the user is asked for once,
for the job that the request names.

* `jobSignalPtr_touches`: a signal to a job changes other records only in the
  count of ended tasks of a job array.
* `jobSignalPtr_kill`: a job that is cancelled ends, unless its exit code has it
  run again at once.
-/

namespace Slurm

open JobRecord Finset Ctld JobState

/-- The flags of a request to signal a job (`KILL_*`). -/
inductive KillFlag
  | jobBatch
  | jobArray
  | stepsOnly
  | fullJob
  | fedRequeue
  deriving DecidableEq

/-- A set of flags. -/
abbrev KillFlags := Finset KillFlag

/-- `SIGKILL`, `SIGCONT` and `SIGSTOP`. -/
def sigKill : ℕ := 9

@[inherit_doc sigKill] def sigCont : ℕ := 18

@[inherit_doc sigKill] def sigStop : ℕ := 19

/-! ## One job -/

namespace JobRecord

/-- The job runs on another cluster of the federation, which is told to cancel it. -/
def runsRemotely (env : Env) (j : JobRecord) : Prop :=
  j.isOriginJob env ∧
    ∃ id ∈ env.fedId, ∃ fed ∈ j.fedDetails, fed.clusterLock ≠ id ∧ fed.clusterLock ≠ 0
  deriving Decidable

/-- The job is completing, or has finished. -/
def isDone (j : JobRecord) : Prop := j.jobState.isCompleting ∨ j.jobState.isFinished
  deriving Decidable

/-- The federation is done with the flag that keeps the job from being reported. -/
def clearFedRequeue (flags : KillFlags) (j : JobRecord) : JobRecord :=
  if .fedRequeue ∈ flags then { j with jobState := j.jobState.clear .requeue } else j

end JobRecord

/-- The state of a job that is killed with the given flags. -/
def killedState (base : JobBase) (state : Finset JobFlag) (flags : KillFlags) : JobState :=
  { base := base, flags := if .fedRequeue ∈ flags then insert .requeue state else state }

namespace JobRecord

/-- Who asked for the job to be cancelled. -/
def cancelledBy (uid : ℕ) (j : JobRecord) : JobRecord := { j with requid := uid }

/-- A job that completes before it is requeued is not requeued. -/
def preventRequeue (j : JobRecord) : JobRecord :=
  { j with jobState := ⟨.cancelled, {.completing}⟩ }

/-- The record of a job that is killed while its nodes are configured. -/
def killConfiguring (now : ℤ) (flags : KillFlags) (j : JobRecord) : JobRecord :=
  { j with endTime := now, jobState := killedState .cancelled {.completing} flags }

/-- The record of a job that is killed before it is started. -/
def killPending (now : ℤ) (flags : KillFlags) (j : JobRecord) : JobRecord :=
  { j with jobState := killedState .cancelled ∅ flags, startTime := now, endTime := now }

/-- The record of a suspended job that is killed. -/
def killSuspended (now : ℤ) (term : JobBase) (flags : KillFlags) (j : JobRecord) : JobRecord :=
  { j with
    endTime := j.suspendTime
    totSusTime := j.totSusTime + (now - j.suspendTime)
    jobState := killedState term {.completing} flags }

/-- The record of a running job that is killed. -/
def killRunning (now : ℤ) (term : JobBase) (flags : KillFlags) (j : JobRecord) : JobRecord :=
  { j with
    timeLastActive := now
    endTime := now
    jobState := killedState term {.completing} flags }

/-- A running job is stopped, or goes on. -/
def stopOrContinue (signal : ℕ) (j : JobRecord) : JobRecord :=
  if signal = sigStop then { j with jobState := j.jobState.set .stopped }
  else if signal = sigCont then { j with jobState := j.jobState.clear .stopped }
  else j

end JobRecord

/-- End a job that has nodes: `f` sets its state and its times. -/
def killAllocated (env : Env) (now : ℤ) (c : Ctld) (p : Ptr) (f : JobRecord → JobRecord)
    (suspended : Bool) (flags : KillFlags) : Ctld :=
  let c := c.modJob p fun j => (f j).buildCgBitmap
  let c := jobCompletionLogger env c p
  -- The flag of a suspended job is cleared before its nodes are released, that of
  -- another one after.
  let c := if suspended then c.modJob p (clearFedRequeue flags) else c
  let c := deallocateNodes env now c p suspended
  if suspended then c else c.modJob p (clearFedRequeue flags)

/-- End a job that has no nodes yet. -/
def killUnallocated (env : Env) (now : ℤ) (c : Ctld) (p : Ptr) (flags : KillFlags) : Ctld :=
  let c := c.modJob p (killPending now flags)
  let c := jobCompletionLogger env c p
  c.modJob p (clearFedRequeue flags)

/-- A batch script is to be signalled, but there is none. -/
def JobRecord.scriptMissing (flags : KillFlags) (j : JobRecord) : Prop :=
  .jobBatch ∈ flags ∧ j.batchFlag = 0
  deriving Decidable

/-- Signal a job (`_job_signal`). -/
def jobSignalPtr (env : Env) (now : ℤ) (c : Ctld) (p : Ptr) (signal : ℕ) (flags : KillFlags)
    (uid : ℕ) (preempt : Bool) : Rc × Ctld :=
  let j := c.job p
  let term : JobBase := if preempt then .preempted else .cancelled
  if j.jobState.isFinished then (.alreadyDone, c)
  else if j.runsRemotely env then (.success, c)
  else
    let c := { c with lastJobUpdate := now }
    if signal = sigKill then
      let c := c.modJob p (cancelledBy uid)
      if j.jobState.isPending ∧ j.jobState.isCompleting then
        (.success, c.modJob p preventRequeue)
      else if j.jobState.isConfiguring then
        (.success, killAllocated env now c p (killConfiguring now flags) false flags)
      else if j.jobState.isPending then (.success, killUnallocated env now c p flags)
      else if j.jobState.isSuspended then
        (.success, killAllocated env now c p (killSuspended now term flags) true flags)
      else if .stepsOnly ∉ flags ∧ .jobBatch ∉ flags then
        (.success, killAllocated env now c p (killRunning now term flags) false flags)
      else if j.scriptMissing flags then (.jobScriptMissing, c)
      else (.success, c)
    else if j.jobState.isRunning then
      let c := c.modJob p (stopOrContinue signal)
      if j.scriptMissing flags then (.jobScriptMissing, c) else (.success, c)
    else (.transitionStateNoUpdate, c)

/-- End a job that could not be launched (`job_fail`). -/
def jobFail (env : Env) (now : ℤ) (c : Ctld) (jobId : ℕ) (jobState : JobBase) : Rc × Ctld :=
  match c.findJobRecord jobId with
  | none => (.invalidJobId, c)
  | some p =>
    let j := c.job p
    let suspended := decide j.jobState.isSuspended
    if j.jobState.isFinished then (.alreadyDone, c)
    else if j.jobState.isConfiguring ∨ j.jobState.isRunning ∨ suspended then
      let c := { c with lastJobUpdate := now }
      let c := c.modJob p fun j =>
        { j with
          timeLastActive := now
          endTime := if suspended then j.suspendTime else now
          totSusTime := if suspended then j.totSusTime + (now - j.suspendTime) else j.totSusTime
          jobState := ⟨jobState, {.completing}⟩
          exitCode := 1
          stateReason := .failLaunch
          stateDesc := none }
      let c := jobCompletionLogger env c p
      if j.nodeBitmap.isSome then
        (.success, deallocateNodes env now (c.modJob p buildCgBitmap) p suspended)
      else (.success, c)
    else (.transitionStateNoUpdate, c)

/-! ## A request -/

/-- The user may cancel the job: its owner, an operator, or a coordinator of its account. -/
def mayCancel (env : Env) (uid : ℕ) (j : JobRecord) : Prop :=
  j.userId = uid ∨ env.validateOperator uid ∨ env.isUserAcctCoord uid j.account
  deriving Decidable

/-- The jobs of a dependency list, up to the first entry without a job. -/
def reached : List DependSpec → List Ptr
  | [] => []
  | d :: ds =>
    match d.jobPtr with
    | none => []
    | some q => q :: reached ds

/-- Signal a job of a job pack, unless it is done already. -/
def signalMember (env : Env) (now : ℤ) (signal : ℕ) (flags : KillFlags) (uid : ℕ) (preempt : Bool)
    (c : Ctld) (q : Ptr) : Ctld :=
  if (c.job q).isDone then c else (jobSignalPtr env now c q signal flags uid preempt).2

/-- Signal all jobs of a job pack, the leader last (`_kill_job_pack`). -/
def killJobPack (env : Env) (now : ℤ) (c : Ctld) (packId : ℕ) (p : Ptr) (signal : ℕ)
    (flags : KillFlags) (uid : ℕ) (preempt : Bool) : Rc × Ctld :=
  match c.findJobRecord packId with
  | none => jobSignalPtr env now c p signal flags uid preempt
  | some leader =>
    match (c.job leader).details.bind (·.dependList) with
    | none => jobSignalPtr env now c p signal flags uid preempt
    | some deps =>
      let c := (reached deps).foldl (signalMember env now signal flags uid preempt) c
      if (c.job leader).isDone then (.alreadyDone, c)
      else jobSignalPtr env now c leader signal flags uid preempt

/-- Signal the job with the given id (`job_signal`). -/
def jobSignal (env : Env) (now : ℤ) (c : Ctld) (jobId : ℕ) (signal : ℕ) (flags : KillFlags)
    (uid : ℕ) (preempt : Bool) : Rc × Ctld :=
  match c.findJobRecord jobId with
  | none => (.invalidJobId, c)
  | some p =>
    if ¬mayCancel env uid (c.job p) then (.accessDenied, c)
    else if signal = sigKill ∧ (c.job p).packLeader ≠ 0 then
      killJobPack env now c (c.job p).packLeader p signal flags uid preempt
    else jobSignalPtr env now c p signal flags uid preempt

/-! ## What a signal changes -/

namespace JobRecord

theorem buildCgBitmap_cases (j : JobRecord) :
    ∃ s, j.buildCgBitmap = { j with nodeBitmapCg := some j.nodeSet, jobState := s } ∧
      s.base = j.jobState.base ∧ s.flags ⊆ j.jobState.flags := by
  simp only [buildCgBitmap, nodeSet]
  cases j.nodeBitmap with
  | none => exact ⟨_, rfl, rfl, erase_subset ..⟩
  | some b =>
    refine ⟨_, rfl, ?_⟩
    split_ifs
    · exact ⟨rfl, erase_subset ..⟩
    · exact ⟨rfl, subset_rfl⟩

theorem buildCgBitmap_lasting (j : JobRecord) : j.buildCgBitmap.lasting = j.lasting := by
  obtain ⟨s, hs, -⟩ := j.buildCgBitmap_cases
  rw [hs]
  rfl

theorem clearFedRequeue_lasting (flags : KillFlags) (j : JobRecord) :
    (j.clearFedRequeue flags).lasting = j.lasting := by
  simp only [clearFedRequeue]
  split_ifs <;> rfl

theorem stopOrContinue_lasting (signal : ℕ) (j : JobRecord) :
    (j.stopOrContinue signal).lasting = j.lasting := by
  simp only [stopOrContinue]
  split_ifs <;> rfl

theorem clearFedRequeue_nodeBitmapCg (flags : KillFlags) (j : JobRecord) :
    (j.clearFedRequeue flags).nodeBitmapCg = j.nodeBitmapCg := by
  simp only [clearFedRequeue]
  split_ifs <;> rfl

end JobRecord

theorem Alters.ofLasting {p : Ptr} {c : Ctld} {f : JobRecord → JobRecord}
    (h : ∀ j, (f j).lasting = j.lasting) : Alters p c (c.modJob p f) :=
  .modJob (fun j => of_part (·.identity) (h j)) fun j => of_part (·.arrayRecs) (h j)

theorem deallocateNodes_alters (env : Env) (now : ℤ) (p : Ptr) (suspended : Bool) {c : Ctld}
    (hcg : (c.job p).nodeBitmapCg ≠ none) : Alters p c (deallocateNodes env now c p suspended) := by
  obtain ⟨cg, hcg⟩ := Option.ne_none_iff_exists'.1 hcg
  obtain ⟨hothers, hself⟩ := deallocateNodes_spec env now p suspended hcg
  split_ifs at hself with hdown
  · obtain ⟨j, hj, hstate⟩ := hself
    have hident := of_part (·.identity) hstate
    have hrecs := of_part (·.arrayRecs) hstate
    have hlast := j.holdRequeue_lasting env
    rw [← hj] at hlast
    exact ⟨hothers, (of_part (·.identity) hlast).trans hident,
      (of_part (·.arrayRecs) hlast).trans hrecs⟩
  · exact ⟨hothers, of_part (·.identity) hself, of_part (·.arrayRecs) hself⟩

/-- What the nodes of `p` are released by leads from a state to one in relation `R` to it. The
    end of the charges apart, it changes nothing about the jobs but the record of `p`. -/
structure ReleaseFrame (p : Ptr) (R : Ctld → Ctld → Prop) : Prop where
  trans : ∀ {c c' c'' : Ctld}, R c c' → R c' c'' → R c c''
  outside : ∀ (c : Ctld) step node port licenseUsed lastJobUpdate lastNodeUpdate,
    R c { c with step, node, port, licenseUsed, lastJobUpdate, lastNodeUpdate }
  setJob : ∀ {c : Ctld} {j : JobRecord}, j.lasting = (c.job p).lasting → R c (c.setJob p j)

namespace ReleaseFrame

variable {p : Ptr} {R : Ctld → Ctld → Prop} (hR : ReleaseFrame p R) (env : Env) (now : ℤ) (c : Ctld)
include hR

theorem deleteStepRecords : R c (deleteStepRecords now c p) := by
  have hfree (c : Ctld) (sp : Ptr) : R c (resvPortFree c sp) := by
    simp only [resvPortFree]
    split <;> exact hR.outside ..
  have hstep (c : Ctld) (sp : Ptr) : R c (deleteStepRecord c p sp) := by
    simp only [deleteStepRecord]
    split
    · exact hR.outside ..
    · exact hR.trans (hfree c sp) (hR.setJob rfl)
  have hsteps (steps : List Ptr) (c : Ctld) :
      R c (steps.foldl (fun c sp => deleteStepRecord c p sp) c) := by
    induction steps generalizing c with
    | nil => exact hR.outside ..
    | cons sp steps ih => exact hR.trans (hstep c sp) (ih _)
  exact hR.trans (hR.outside ..) (hsteps _ _)

theorem cleanupCompleting : R c (cleanupCompleting env now c p) := by
  have hreturn : R c (licenseJobReturn c p) := hR.trans (hR.outside ..) (hR.setJob rfl)
  exact hR.trans hreturn
    (hR.trans (hR.deleteStepRecords now _) (hR.setJob (holdRequeue_lasting env _)))

variable {c}

theorem deallocateNodes (hfini : R c (acctPolicyJobFini env c p)) (suspended : Bool) :
    R c (deallocateNodes env now c p suspended) := by
  have hepilog (j : JobRecord) : (j.startEpilog env).lasting = j.lasting := by
    simp only [startEpilog]
    split_ifs
    · exact buildCgBitmap_lasting _
    · rfl
  have hrelease : R c (releaseNodes env now c p suspended) :=
    hR.trans (hR.trans hfini (hR.setJob (hepilog _))) (hR.trans (hR.outside ..) (hR.setJob rfl))
  simp only [Slurm.deallocateNodes]
  split_ifs
  · exact hR.trans hrelease (hR.cleanupCompleting env now _)
  · exact hrelease

theorem killAllocated (hfini : ∀ c, R c (acctPolicyJobFini env c p)) (f : JobRecord → JobRecord)
    (suspended : Bool) (flags : KillFlags) :
    R (jobCompletionLogger env (c.modJob p fun j => (f j).buildCgBitmap) p)
      (killAllocated env now c p f suspended flags) := by
  have hclear (c : Ctld) : R c (c.modJob p (clearFedRequeue flags)) :=
    hR.setJob (clearFedRequeue_lasting flags _)
  simp only [Slurm.killAllocated]
  split_ifs
  · exact hR.trans (hclear _) (hR.deallocateNodes env now (hfini _) _)
  · exact hR.trans (hR.deallocateNodes env now (hfini _) _) (hclear _)

end ReleaseFrame

/-- From `c` to `c'` a job is signalled: it may end, and is then counted in the record of
    its array. -/
def Touches (p : Ptr) (c c' : Ctld) : Prop := Alters p c c' ∨ Logged p c c'

section

variable (env : Env) (now : ℤ) (c : Ctld) (p : Ptr) (signal : ℕ) (flags : KillFlags) (uid : ℕ)
  (preempt : Bool) {f : JobRecord → JobRecord}

theorem killUnallocated_logged : Logged p c (killUnallocated env now c p flags) := by
  have hkill : Alters p c (c.modJob p (killPending now flags)) :=
    .modJob (fun _ => rfl) fun _ => rfl
  exact .alters_trans hkill
    ((jobCompletionLogger_logged ..).trans_alters (.ofLasting (clearFedRequeue_lasting flags)))

/-- `f` changes only what changes when a job ends. -/
def EndsOnly (f : JobRecord → JobRecord) : Prop :=
  ∀ j, (f j).identity = j.identity ∧ (f j).arrayRecs = j.arrayRecs

/-- `f` ends a job that has nodes: only its state and its times are changed. -/
structure Kills (flags : KillFlags) (f : JobRecord → JobRecord) : Prop where
  lasting : ∀ j, (f j).lasting = j.lasting
  restartCnt : ∀ j, (f j).restartCnt = j.restartCnt
  state : ∃ base, isFinished ⟨base, ∅⟩ ∧ ∀ j, (f j).jobState = killedState base {.completing} flags

theorem Kills.endsOnly (hf : Kills flags f) : EndsOnly f := fun j =>
  ⟨of_part (·.identity) (hf.lasting j), of_part (·.arrayRecs) (hf.lasting j)⟩

theorem kills_of_isFinished {term : JobBase} (h : isFinished ⟨term, ∅⟩) :
    Kills flags (killConfiguring now flags) ∧ Kills flags (killSuspended now term flags) ∧
      Kills flags (killRunning now term flags) :=
  ⟨⟨fun _ => rfl, fun _ => rfl, .cancelled, by decide, fun _ => rfl⟩,
    ⟨fun _ => rfl, fun _ => rfl, term, h, fun _ => rfl⟩,
    ⟨fun _ => rfl, fun _ => rfl, term, h, fun _ => rfl⟩⟩

/-- The end of a job with nodes that is killed. Until its nodes are released, nothing but its
    flags tell of what happens to the job. -/
theorem killAllocated_logs (hf : EndsOnly f) :
    let c' := jobCompletionLogger env (c.modJob p fun j => (f j).buildCgBitmap) p
    Logged p c c' ∧ (c'.job p).nodeBitmapCg = some (c.job p).nodeSet ∧
      (c'.job p).restartCnt = (f (c.job p)).restartCnt ∧
      (c'.job p).jobState.base = (f (c.job p)).jobState.base ∧
      (c'.job p).jobState.flags ⊆ (f (c.job p)).jobState.flags := by
  have hstart : Alters p c (c.modJob p fun j => (f j).buildCgBitmap) :=
    .modJob (fun j => (of_part (·.identity) (buildCgBitmap_lasting _)).trans (hf j).1)
      fun j => (of_part (·.arrayRecs) (buildCgBitmap_lasting _)).trans (hf j).2
  obtain ⟨s, hs, hbase, hflags⟩ := (f (c.job p)).buildCgBitmap_cases
  have hjob := (c.modJob_job_self p fun j => (f j).buildCgBitmap).trans hs
  generalize (c.modJob p fun j => (f j).buildCgBitmap) = c1 at *
  obtain ⟨r, s', hself, -⟩ := jobCompletionLogger_self env c1 p
  obtain ⟨hbase', hflags'⟩ := jobCompletionLogger_jobState env c1 p
  rw [hjob] at hself hbase' hflags'
  have hcg := of_part (·.nodeBitmapCg) hself
  have hrestart := of_part (·.restartCnt) hself
  exact ⟨.alters_trans hstart (jobCompletionLogger_logged ..),
    hcg.trans (congrArg some (of_part (·.nodeSet) (hf _).1)),
    hrestart, hbase'.trans hbase, hflags'.trans hflags⟩

theorem killAllocated_logged (suspended : Bool) (hf : EndsOnly f) :
    Logged p c (killAllocated env now c p f suspended flags) := by
  obtain ⟨hlog, hcg, -⟩ := killAllocated_logs env c p hf
  simp only [killAllocated]
  generalize jobCompletionLogger env (c.modJob p fun j => (f j).buildCgBitmap) p = c2 at *
  have hsome : (c2.job p).nodeBitmapCg ≠ none := by simp [hcg]
  refine hlog.trans_alters ?_
  split_ifs
  · refine Alters.trans (.ofLasting (clearFedRequeue_lasting flags))
      (deallocateNodes_alters env now p _ ?_)
    rwa [modJob_job_self, clearFedRequeue_nodeBitmapCg]
  · exact (deallocateNodes_alters env now p _ hsome).trans
      (.ofLasting (clearFedRequeue_lasting flags))

/-- To show something of the state after a signal, show it for each way a signal is treated. -/
theorem jobSignalPtr_elim {P : Ctld → Prop}
    (c₀ : Ctld) (hc₀ : c₀ = { c with lastJobUpdate := now })
    (c₁ : Ctld) (hc₁ : c₁ = c₀.modJob p (cancelledBy uid))
    (same : P c)
    (prevented : signal = sigKill → (c.job p).jobState.isPending ∧ (c.job p).jobState.isCompleting →
      P (c₁.modJob p preventRequeue))
    (allocated : ∀ f suspended, Kills flags f → signal = sigKill → ¬(c.job p).jobState.isFinished →
      (c.job p).jobState.isConfiguring ∨ ¬(c.job p).jobState.isPending →
      P (killAllocated env now c₁ p f suspended flags))
    (pending : signal = sigKill → ¬(c.job p).jobState.isFinished →
      P (killUnallocated env now c₁ p flags))
    (steps : P c₁)
    (stopped : signal ≠ sigKill → P (c₀.modJob p (stopOrContinue signal)))
    (other : P c₀) : P (jobSignalPtr env now c p signal flags uid preempt).2 := by
  subst hc₀ hc₁
  have hterm : isFinished ⟨if preempt then .preempted else .cancelled, ∅⟩ := by
    cases preempt <;> decide
  obtain ⟨hconfiguring, hsuspended, hrunning⟩ := kills_of_isFinished now flags hterm
  rw [jobSignalPtr]
  by_cases hfin : (c.job p).jobState.isFinished
  · rw [if_pos hfin]
    exact same
  rw [if_neg hfin]
  by_cases hrem : (c.job p).runsRemotely env
  · rw [if_pos hrem]
    exact same
  rw [if_neg hrem]
  by_cases hkill : signal = sigKill
  · rw [if_pos hkill]
    by_cases hpc : (c.job p).jobState.isPending ∧ (c.job p).jobState.isCompleting
    · rw [if_pos hpc]
      exact prevented hkill hpc
    rw [if_neg hpc]
    by_cases hconf : (c.job p).jobState.isConfiguring
    · rw [if_pos hconf]
      exact allocated _ false hconfiguring hkill hfin (.inl hconf)
    rw [if_neg hconf]
    by_cases hpend : (c.job p).jobState.isPending
    · rw [if_pos hpend]
      exact pending hkill hfin
    rw [if_neg hpend]
    by_cases hsusp : (c.job p).jobState.isSuspended
    · rw [if_pos hsusp]
      exact allocated _ true hsuspended hkill hfin (.inr hpend)
    rw [if_neg hsusp]
    split
    · exact allocated _ false hrunning hkill hfin (.inr hpend)
    · split <;> exact steps
  · rw [if_neg hkill]
    split
    · split <;> exact stopped hkill
    · exact other

/-- A signal to a job either leaves all other records alone, or counts the end of the
    job in the record of its array. -/
theorem jobSignalPtr_touches : Touches p c (jobSignalPtr env now c p signal flags uid preempt).2 := by
  have hupdate : Alters p c { c with lastJobUpdate := now } :=
    Bookkeeping.alters (.ofJobEq rfl rfl rfl rfl rfl)
  have hrequid : Alters p c (Ctld.modJob { c with lastJobUpdate := now } p (cancelledBy uid)) :=
    hupdate.trans (.modJob (fun _ => rfl) fun _ => rfl)
  refine jobSignalPtr_elim env now c p signal flags uid preempt _ rfl _ rfl
    (.inl (Bookkeeping.refl p c).alters)
    (fun _ _ => .inl (hrequid.trans (.modJob (fun _ => rfl) fun _ => rfl)))
    (fun f suspended hf _ _ _ => ?_) (fun _ _ => ?_) (.inl hrequid)
    (fun _ => .inl (hupdate.trans (.ofLasting (stopOrContinue_lasting signal)))) (.inl hupdate)
  · exact .inr (.alters_trans hrequid
      (killAllocated_logged env now _ p flags suspended hf.endsOnly))
  · exact .inr (.alters_trans hrequid (killUnallocated_logged ..))

/-! ## What becomes of a job that is cancelled -/

/-- All nodes of the job are down, and its exit code has it run again. -/
def Ctld.requeuedAtEnd (env : Env) (c : Ctld) (p : Ptr) : Prop :=
  (∀ i ∈ (c.job p).nodeSet, (c.node i).base = .down) ∧ (c.job p).requeuesOnExit env
  deriving Decidable

/-- The job is one that is requeued at its end, and has nodes to release. -/
def Ctld.requeuedWhenKilled (env : Env) (c : Ctld) (p : Ptr) : Prop :=
  ((c.job p).jobState.isConfiguring ∨ ¬(c.job p).jobState.isPending) ∧ c.requeuedAtEnd env p
  deriving Decidable

/-- What becomes of a job that is killed: it finishes, or is pending once more. -/
structure Fate (requeued : Prop) (j j' : JobRecord) : Prop where
  again : requeued → j'.jobState.isPending ∧ ¬j'.jobState.isConfiguring ∧
    ¬j'.jobState.isCompleting ∧ j'.restartCnt = j.restartCnt + 1
  ended : ¬requeued → j'.jobState.isFinished ∧ j'.restartCnt = j.restartCnt

theorem Ctld.modJob_clearFedRequeue_empty :
    c.modJob p (clearFedRequeue ∅) = c := by
  simp [modJob, setJob, clearFedRequeue]

theorem JobRecord.requeuesOnExit_congr {j j' : JobRecord} (h : j'.identity = j.identity) :
    j'.requeuesOnExit env ↔ j.requeuesOnExit env := by
  have hexit := of_part (·.exitCode) h
  have horigin := of_part (isOriginJob env) h
  simp [requeuesOnExit, hexit, horigin]

/-- What becomes of a job of which only nodes to release are left. -/
theorem deallocateNodes_fate (suspended : Bool) {cg : Bitmap}
    (hcg : (c.job p).nodeBitmapCg = some cg) (hbase : (c.job p).jobState.isFinished)
    (hflags : (c.job p).jobState.flags ⊆ {.completing}) :
    Fate ((∀ i ∈ cg, (c.node i).base = .down) ∧ (c.job p).requeuesOnExit env) (c.job p)
      ((deallocateNodes env now c p suspended).job p) := by
  obtain ⟨-, hend⟩ := deallocateNodes_spec env now p suspended hcg
  split_ifs at hend with hdown
  · obtain ⟨j, hj, hsame⟩ := hend
    have hstate : j.jobState = ⟨(c.job p).jobState.base, ∅⟩ := by
      rw [of_part (·.jobState) hsame]
      refine JobState.ext rfl (eq_empty_of_forall_notMem fun f hf => ?_)
      obtain ⟨hne, hmem⟩ := mem_erase.1 hf
      exact hne (mem_singleton.1 (hflags hmem))
    have hrestart := of_part (·.restartCnt) hsame
    have hexit : j.requeuesOnExit env ↔ (c.job p).requeuesOnExit env :=
      requeuesOnExit_congr env (by rw [of_part (·.identity) hsame]; rfl)
    rw [hj]
    constructor
    · intro h
      have hpast : ¬j.jobState.isPending := by
        rw [hstate]
        exact hbase.1
      obtain ⟨hpend, hkept, hcnt⟩ := holdRequeue_requeues hpast (hexit.2 h.2)
      rw [hstate] at hkept
      refine ⟨hpend, fun hf => ?_, fun hf => ?_, by rw [hcnt, hrestart]⟩
      all_goals simpa using hkept hf
    · intro h
      have hstays : ¬j.requeuesOnExit env := fun h' => h ⟨hdown, hexit.1 h'⟩
      rw [holdRequeue_eq_self (by simp [hstate]) hstays, hstate]
      exact ⟨hbase, hrestart⟩
  · have hstate := of_part (·.jobState) hend
    exact ⟨fun h => absurd h.1 hdown, fun _ => ⟨by rwa [hstate], of_part (·.restartCnt) hend⟩⟩

/-- The end of a job with nodes that is killed without flags. -/
theorem killAllocated_fate (suspended : Bool) (hf : Kills ∅ f) :
    Fate (c.requeuedAtEnd env p) (c.job p) ((killAllocated env now c p f suspended ∅).job p) := by
  obtain ⟨base, hbase, hstate⟩ := hf.state
  obtain ⟨hlog, hcg, hrestart2, hbase2, hflags2⟩ := killAllocated_logs env c p hf.endsOnly
  simp only [killAllocated, modJob_clearFedRequeue_empty, ite_self]
  generalize jobCompletionLogger env (c.modJob p fun j => (f j).buildCgBitmap) p = c2 at *
  rw [hf.restartCnt] at hrestart2
  rw [hstate] at hbase2 hflags2
  have hfin2 : (c2.job p).jobState.isFinished := by
    rw [isFinished, hbase2]
    exact hbase
  have hrequeued : ((∀ i ∈ (c.job p).nodeSet, (c2.node i).base = .down) ∧
      (c2.job p).requeuesOnExit env) ↔ c.requeuedAtEnd env p := by
    rw [requeuesOnExit_congr env hlog.identity]
    simp [hlog.down, Ctld.requeuedAtEnd]
  have hfate := deallocateNodes_fate env now c2 p suspended hcg hfin2 hflags2
  rw [hrequeued] at hfate
  exact ⟨fun h => hrestart2 ▸ hfate.again h, fun h => hrestart2 ▸ hfate.ended h⟩

theorem killUnallocated_fate :
    ((killUnallocated env now c p ∅).job p).jobState.isFinished ∧
      ((killUnallocated env now c p ∅).job p).restartCnt = (c.job p).restartCnt := by
  obtain ⟨r, s, hself, -⟩ := jobCompletionLogger_self env (c.modJob p (killPending now ∅)) p
  have hbase := (jobCompletionLogger_jobState env (c.modJob p (killPending now ∅)) p).1
  rw [modJob_job_self] at hself hbase
  have hrestart := of_part (·.restartCnt) hself
  have hkilled : (killedState .cancelled ∅ ∅).isFinished := by decide
  rw [killUnallocated, modJob_clearFedRequeue_empty, isFinished, hbase]
  exact ⟨hkilled, hrestart⟩

/-- A job that is not done, and is cancelled without flags on this cluster, is counted in
    the record of its array and meets its fate. -/
theorem jobSignalPtr_kill (hlive : ¬(c.job p).isDone) (hlocal : ¬(c.job p).runsRemotely env) :
    let c' := (jobSignalPtr env now c p sigKill ∅ uid preempt).2
    Logged p c c' ∧ Fate (c.requeuedWhenKilled env p) (c.job p) (c'.job p) := by
  obtain ⟨hcompleting, hfinished⟩ := not_or.1 hlive
  have hupdate : Alters p c { c with lastJobUpdate := now } :=
    Bookkeeping.alters (.ofJobEq rfl rfl rfl rfl rfl)
  have hterm : isFinished ⟨if preempt then .preempted else .cancelled, ∅⟩ := by
    cases preempt <;> decide
  have hflags : KillFlag.stepsOnly ∉ (∅ : KillFlags) ∧ KillFlag.jobBatch ∉ (∅ : KillFlags) := by
    simp
  simp only [jobSignalPtr, if_neg hfinished, if_neg hlocal, if_true, hcompleting, and_false,
    if_false, if_pos hflags]
  generalize (if preempt then JobBase.preempted else .cancelled) = term at *
  obtain ⟨hconfiguring, hsuspended, hrunning⟩ := kills_of_isFinished now ∅ hterm
  generalize hc1 : Ctld.modJob { c with lastJobUpdate := now } p (cancelledBy uid) = c1
  have hrequid : Alters p c c1 := hc1 ▸ hupdate.trans (.modJob (fun _ => rfl) fun _ => rfl)
  have hjob1 : c1.job p = (c.job p).cancelledBy uid := hc1 ▸ modJob_job_self ..
  have hend : c1.requeuedAtEnd env p ↔ c.requeuedAtEnd env p := by
    rw [Ctld.requeuedAtEnd, requeuesOnExit_congr env hrequid.identity, hjob1]
    simp only [hrequid.down, Ctld.requeuedAtEnd]
    rfl
  have hallocated {f : JobRecord → JobRecord} (suspended : Bool) (hf : Kills ∅ f)
      (hhas : (c.job p).jobState.isConfiguring ∨ ¬(c.job p).jobState.isPending) :
      Logged p c (killAllocated env now c1 p f suspended ∅) ∧
        Fate (c.requeuedWhenKilled env p) (c.job p)
          ((killAllocated env now c1 p f suspended ∅).job p) := by
    have hfate := killAllocated_fate env now c1 p suspended hf
    rw [hend, hjob1, ← and_iff_right (b := c.requeuedAtEnd env p) hhas] at hfate
    exact ⟨.alters_trans hrequid (killAllocated_logged env now c1 p ∅ suspended hf.endsOnly),
      hfate.again, hfate.ended⟩
  split_ifs with hconf hpend hsusp
  · exact hallocated false hconfiguring (.inl hconf)
  · refine ⟨.alters_trans hrequid (killUnallocated_logged env now c1 p ∅), fun h => ?_, fun _ => ?_⟩
    · exact absurd h.1 (by tauto)
    · have hkilled := killUnallocated_fate env now c1 p
      rw [hjob1] at hkilled
      exact hkilled
  · exact hallocated true hsuspended (.inr hpend)
  · exact hallocated false hrunning (.inr hpend)

end

end Slurm
