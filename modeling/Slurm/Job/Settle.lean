import Slurm.Job.Complete
import Slurm.Job.StrSignal
import Slurm.Usage.Submit

/-!
# How a job ends

Several functions end a job: it is cancelled (`_job_signal`), it completes, or it is
requeued (`_job_complete`). All of them set its state, log its end once
(`job_completion_logger`), and release what it has. Here each of them is taken apart
into these steps, from which its effect on the counts of running and of submitted
jobs is read off.

What comes before and after the log is `Minor`: it changes one record, in nothing
that says of which array the job is, or who is charged for it. A function that ends
a job is then `Settles`, and one that requeues it `Requeues`. Whether the job has
finished is told apart (`Ended`): its exit code may have it run again at once.
-/

namespace Slurm

open JobRecord Ctld JobState

/-- The part of a record that says of which array a job is, and who is charged for it. The
    association may be looked up in between, and is left out. -/
def JobRecord.standing (j : JobRecord) : JobRecord :=
  { account := j.account, arrayJobId := j.arrayJobId, arrayRecs := j.arrayRecs
    arrayTaskId := j.arrayTaskId, jobId := j.jobId, partPtr := j.partPtr, qosPtr := j.qosPtr
    userId := j.userId }

/-- From `c` to `c'` the record of `p` changes, but not in its standing. Nobody is charged. -/
structure Minor (env : Env) (p : Ptr) (c c' : Ctld) : Prop where
  jobList : c'.jobList = c.jobList
  others : ∀ q, q ≠ p → c'.job q = c.job q
  standing : (c'.job p).standing = (c.job p).standing
  tables : SameTables c c'
  payer : c'.payer env (c'.job p) = c.payer env (c.job p)
  submitJobs : ∀ x, c'.submitJobs x = c.submitJobs x

namespace Minor

variable {env : Env} {p : Ptr} {c c' c'' : Ctld}

theorem trans (h : Minor env p c c') (h' : Minor env p c' c'') : Minor env p c c'' where
  jobList := h'.jobList.trans h.jobList
  others q hq := (h'.others q hq).trans (h.others q hq)
  standing := h'.standing.trans h.standing
  tables := h.tables.trans h'.tables
  payer := h'.payer.trans h.payer
  submitJobs x := (h'.submitJobs x).trans (h.submitJobs x)

theorem setJob {j : JobRecord} (hstanding : j.standing = (c.job p).standing)
    (hbilling : j.billing = (c.job p).billing) : Minor env p c (c.setJob p j) := by
  have hpayer (k : JobRecord) : c.payer env k = c.payer env k.billing := rfl
  have htables : SameTables c (c.setJob p j) := .ofEq rfl rfl rfl
  refine ⟨rfl, fun q hq => c.setJob_job_of_ne j hq, ?_, htables, ?_, fun x => ?_⟩
  · rw [setJob_job_self, hstanding]
  · rw [htables.payer, setJob_job_self, hpayer, hbilling, ← hpayer]
  · cases x <;> rfl

theorem modJob {f : JobRecord → JobRecord}
    (hf : ∀ j, (f j).standing = j.standing ∧ (f j).billing = j.billing) :
    Minor env p c (c.modJob p f) :=
  setJob (hf _).1 (hf _).2

/-- A change outside of the jobs and of the accounts. -/
theorem ofJobEq (hjob : c'.job = c.job) (hlist : c'.jobList = c.jobList) (hassoc : c'.assoc = c.assoc)
    (hqos : c'.qos = c.qos) (hpart : c'.part = c.part) : Minor env p c c' := by
  have htables : SameTables c c' := .ofEq hassoc hqos hpart
  refine ⟨hlist, fun q _ => by rw [hjob], by rw [hjob], htables, ?_, fun x => ?_⟩
  · rw [htables.payer, hjob]
  · cases x <;> simp only [Ctld.submitJobs, hassoc, hqos]

theorem refl (env : Env) (p : Ptr) (c : Ctld) : Minor env p c c := ofJobEq rfl rfl rfl rfl rfl

theorem releaseFrame (env : Env) (p : Ptr) : ReleaseFrame p (Minor env p) :=
  ⟨.trans, fun _ _ _ _ _ _ _ => .ofJobEq rfl rfl rfl rfl rfl,
    fun h => .setJob (of_part (·.standing) h) (of_part (·.billing) h)⟩

theorem buildCgBitmap {f : JobRecord → JobRecord} (hf : ∀ j, (f j).lasting = j.lasting) :
    Minor env p c (c.modJob p fun j => (f j).buildCgBitmap) :=
  (releaseFrame env p).setJob ((buildCgBitmap_lasting _).trans (hf _))

end Minor

/-! ## What is minor -/

section

variable (env : Env) (now : ℤ) (c : Ctld) (p : Ptr)

theorem acctPolicyJobFini_minor : Minor env p c (acctPolicyJobFini env c p) := by
  have husage := adjustLimitUsage_bookkeeping env c p .jobFini
  simp only [acctPolicyJobFini]
  split_ifs
  · exact ⟨husage.jobList, husage.job, of_part (·.standing) husage.self,
      adjustLimitUsage_sameTables env c p .jobFini, adjustLimitUsage_payer env c p .jobFini,
      adjustLimitUsage_submitJobs_eq_self env c p .jobFini (.inr rfl)⟩
  · exact .refl env p c

end

/-! ## Ends -/

/-- From `c` to `c'` the end of the job `p` is logged once. -/
def Settles (env : Env) (p : Ptr) (c c' : Ctld) : Prop :=
  ∃ c₁, Minor env p c c₁ ∧ Minor env p (jobCompletionLogger env c₁ p) c'

/-- From `c` to `c'` the job `p` ends, and is submitted again. -/
def Requeues (env : Env) (p : Ptr) (c c' : Ctld) : Prop :=
  ∃ c₁, Settles env p c c₁ ∧ Minor env p (adjustLimitUsage env .addSubmit c₁ p) c'

theorem Minor.settles {env : Env} {p : Ptr} {c c' c'' : Ctld} (h : Minor env p c c')
    (h' : Settles env p c' c'') : Settles env p c c'' := by
  obtain ⟨c1, hstart, hend⟩ := h'
  exact ⟨c1, h.trans hstart, hend⟩

theorem Settles.trans_minor {env : Env} {p : Ptr} {c c' c'' : Ctld} (h : Settles env p c c')
    (h' : Minor env p c' c'') : Settles env p c c'' := by
  obtain ⟨c1, hstart, hend⟩ := h
  exact ⟨c1, hstart, hend.trans h'⟩

/-- What becomes of a job that ends: it has finished, or waits again. It has finished if it
    stays so. -/
structure Ended (stays : Prop) (j : JobRecord) : Prop where
  past : j.jobState.isFinished ∨ j.jobState.isPending
  finished : stays → j.jobState.isFinished

theorem Ended.mono {stays stays' : Prop} {j : JobRecord} (h : Ended stays j)
    (himp : stays' → stays) : Ended stays' j :=
  ⟨h.past, fun hs => h.finished (himp hs)⟩

theorem Ended.of_base {stays : Prop} {j j' : JobRecord} (h : Ended stays j)
    (hbase : j'.jobState.base = j.jobState.base) : Ended stays j' := by
  have hfin : j'.jobState.isFinished ↔ j.jobState.isFinished := by
    simp [isFinished, hbase]
  have hpend : j'.jobState.isPending ↔ j.jobState.isPending := by
    simp [isPending, hbase]
  exact ⟨h.past.imp hfin.2 hpend.2, fun hs => hfin.2 (h.finished hs)⟩

/-- All nodes of the job are down, and there are exit codes that have such a job run again
    at once. -/
def Ctld.comesBack (env : Env) (c : Ctld) (p : Ptr) : Prop :=
  (∀ i ∈ (c.job p).nodeSet, (c.node i).base = .down) ∧
    (env.requeueExit.Nonempty ∨ env.requeueExitHold.Nonempty)
  deriving Decidable

section

variable (env : Env) (now : ℤ) (c : Ctld) (p : Ptr) {f : JobRecord → JobRecord} {cg : Bitmap}

theorem JobRecord.holdRequeue_base (j : JobRecord) :
    (j.holdRequeue env).jobState.base = j.jobState.base ∨
      (j.holdRequeue env).jobState.base = .pending := by
  simp only [holdRequeue, setRequeueExitValue]
  split_ifs
  all_goals first | exact .inl rfl | exact .inr rfl

/-- The release of its nodes puts a job into the queue again, or leaves it as it is. -/
theorem deallocateNodes_past (suspended : Bool) (hcg : (c.job p).nodeBitmapCg = some cg) :
    ((deallocateNodes env now c p suspended).job p).jobState.base = (c.job p).jobState.base ∨
      ((deallocateNodes env now c p suspended).job p).jobState.base = .pending := by
  obtain ⟨-, hend⟩ := deallocateNodes_spec env now p suspended hcg
  split_ifs at hend
  · obtain ⟨j, hj, hsame⟩ := hend
    have hstate : j.jobState = (c.job p).jobState.clear .completing := of_part (·.jobState) hsame
    have hhold := j.holdRequeue_base env
    rwa [← hj, hstate, clear_base] at hhold
  · exact .inl (congrArg base (of_part (·.jobState) hend))

theorem deallocateNodes_ended (suspended : Bool)
    (hcg : (c.job p).nodeBitmapCg = some cg) (hfin : (c.job p).jobState.isFinished) :
    Ended (.requeue ∉ (c.job p).jobState.flags ∧ ¬((∀ i ∈ cg, (c.node i).base = .down) ∧
        (env.requeueExit.Nonempty ∨ env.requeueExitHold.Nonempty)))
      ((deallocateNodes env now c p suspended).job p) := by
  have hsame {j : JobRecord} (hbase : j.jobState.base = (c.job p).jobState.base) :
      j.jobState.isFinished := by
    simpa [isFinished, hbase] using hfin
  refine ⟨(deallocateNodes_past env now c p suspended hcg).imp hsame id, fun hstay => ?_⟩
  exact hsame (deallocateNodes_base env now c p suspended hcg hstay.1 fun hdown hexit =>
    hstay.2 ⟨hdown, hexit⟩)

theorem JobRecord.clearFedRequeue_base (flags : KillFlags) (j : JobRecord) :
    (j.clearFedRequeue flags).jobState.base = j.jobState.base := by
  simp only [clearFedRequeue]
  split_ifs <;> rfl

/-- A job with nodes that is killed ends. -/
theorem killAllocated_settles (suspended : Bool) {flags : KillFlags} (hf : Kills flags f) :
    Settles env p c (killAllocated env now c p f suspended flags) :=
  ⟨_, .buildCgBitmap hf.lasting, (Minor.releaseFrame env p).killAllocated env now
    (fun c => acctPolicyJobFini_minor env c p) f suspended flags⟩

theorem killAllocated_ended (suspended : Bool) {flags : KillFlags} (hf : Kills flags f) :
    Ended (.fedRequeue ∉ flags ∧ ¬c.comesBack env p)
      ((killAllocated env now c p f suspended flags).job p) := by
  obtain ⟨base, hbase, hstate⟩ := hf.state
  obtain ⟨hlog, hcg, -, hbase2, hflags2⟩ := killAllocated_logs env c p hf.endsOnly
  simp only [killAllocated]
  generalize jobCompletionLogger env (c.modJob p fun j => (f j).buildCgBitmap) p = c2 at *
  have hfin2 : (c2.job p).jobState.isFinished := by
    rw [isFinished, hbase2, hstate]
    exact hbase
  have hflag2 (hfed : .fedRequeue ∉ flags) : .requeue ∉ (c2.job p).jobState.flags := by
    intro hmem
    have hkilled := hflags2 hmem
    simp [hstate, killedState, hfed] at hkilled
  -- The flag of the federation is cleared before or after the nodes are released.
  split_ifs
  · have hjob3 := c2.modJob_job_self p (clearFedRequeue flags)
    have hnode3 : (c2.modJob p (clearFedRequeue flags)).node = c2.node := rfl
    generalize c2.modJob p (clearFedRequeue flags) = c3 at *
    have hfin3 : (c3.job p).jobState.isFinished := by
      simpa only [isFinished, hjob3, clearFedRequeue_base] using hfin2
    refine (deallocateNodes_ended env now c3 p suspended
      (by rw [hjob3, clearFedRequeue_nodeBitmapCg, hcg]) hfin3).mono ?_
    rintro ⟨hfed, hno⟩
    refine ⟨?_, ?_⟩
    · rw [hjob3, clearFedRequeue, if_neg hfed]
      exact hflag2 hfed
    · simp only [hnode3, hlog.down]
      exact hno
  · rw [modJob_job_self]
    refine Ended.of_base ?_ (clearFedRequeue_base ..)
    refine (deallocateNodes_ended env now c2 p suspended hcg hfin2).mono ?_
    rintro ⟨hfed, hno⟩
    refine ⟨hflag2 hfed, ?_⟩
    simp only [hlog.down]
    exact hno

theorem killUnallocated_settles (flags : KillFlags) :
    Settles env p c (killUnallocated env now c p flags) ∧
      ((killUnallocated env now c p flags).job p).jobState.isFinished := by
  refine ⟨⟨_, .modJob (f := killPending now flags) fun _ => ⟨rfl, rfl⟩,
    (Minor.releaseFrame env p).setJob (clearFedRequeue_lasting flags _)⟩, ?_⟩
  have hlog := (jobCompletionLogger_jobState env (c.modJob p (killPending now flags)) p).1
  have hbase : ((killUnallocated env now c p flags).job p).jobState.base = .cancelled := by
    rw [killUnallocated, modJob_job_self, clearFedRequeue_base, hlog, modJob_job_self]
    rfl
  simp [isFinished, hbase]

/-- The nodes of the job are released when it is killed. -/
def Ctld.hasNodes (c : Ctld) (p : Ptr) : Prop :=
  (c.job p).jobState.isConfiguring ∨ ¬(c.job p).jobState.isPending
  deriving Decidable

/-- The job was requeued, and its nodes are still completing its last run. -/
def Ctld.completesAgain (c : Ctld) (p : Ptr) : Prop :=
  (c.job p).jobState.isPending ∧ (c.job p).jobState.isCompleting
  deriving Decidable

/-- From `c` to `c'` the job `p` is signalled: it ends, or the change is minor. Its state
    changes without a log of its end only if it is killed while its nodes complete its last
    run. -/
def Signalled (env : Env) (p : Ptr) (signal : ℕ) (flags : KillFlags) (c c' : Ctld) : Prop :=
  (signal = sigKill ∧ ¬(c.job p).jobState.isFinished ∧ Settles env p c c' ∧
      Ended (.fedRequeue ∉ flags ∧ (c.hasNodes p → ¬c.comesBack env p)) (c'.job p)) ∨
    (Minor env p c c' ∧ ((c'.job p).jobState.base = (c.job p).jobState.base ∨
      (signal = sigKill ∧ c.completesAgain p ∧ (c'.job p).jobState.base = .cancelled)))

theorem jobSignalPtr_signalled (signal : ℕ) (flags : KillFlags) (uid : ℕ) (preempt : Bool) :
    Signalled env p signal flags c (jobSignalPtr env now c p signal flags uid preempt).2 := by
  have hupdate : Minor env p c { c with lastJobUpdate := now } := .ofJobEq rfl rfl rfl rfl rfl
  have hnodes : SameNodes p c { c with lastJobUpdate := now } := ⟨rfl, fun _ => Iff.rfl⟩
  set c1 := modJob { c with lastJobUpdate := now } p (cancelledBy uid)
  have hrequid : Minor env p c c1 := hupdate.trans (.modJob fun _ => ⟨rfl, rfl⟩)
  have hnodes1 : SameNodes p c c1 := hnodes.trans (.modJob fun _ => rfl)
  have hbase1 : (c1.job p).jobState = (c.job p).jobState := by
    rw [modJob_job_self]
    rfl
  have hstop (j : JobRecord) : (j.stopOrContinue signal).jobState.base = j.jobState.base := by
    simp only [stopOrContinue]
    split_ifs <;> rfl
  have hstays (hhas : c.hasNodes p)
      (h : .fedRequeue ∉ flags ∧ (c.hasNodes p → ¬c.comesBack env p)) :
      .fedRequeue ∉ flags ∧ ¬c1.comesBack env p := by
    refine ⟨h.1, fun hback => h.2 hhas ⟨fun i hi => (hnodes1.down i).1 (hback.1 i ?_), hback.2⟩⟩
    rwa [hnodes1.nodeSet]
  refine jobSignalPtr_elim env now c p signal flags uid preempt _ rfl _ rfl ?_ (fun hkill hpc => ?_)
    (fun f suspended hf hkill hfin hhas => ?_) (fun hkill hfin => ?_) ?_ (fun _ => ?_) ?_
  · exact .inr ⟨.refl env p c, .inl rfl⟩
  · refine .inr ⟨hrequid.trans (.modJob fun _ => ⟨rfl, rfl⟩), .inr ⟨hkill, hpc, ?_⟩⟩
    rw [modJob_job_self]
    rfl
  · exact .inl ⟨hkill, hfin, hrequid.settles (killAllocated_settles env now _ p suspended hf),
      (killAllocated_ended env now _ p suspended hf).mono (hstays hhas)⟩
  · obtain ⟨hsettles, hended⟩ := killUnallocated_settles env now
      (modJob { c with lastJobUpdate := now } p (cancelledBy uid)) p flags
    exact .inl ⟨hkill, hfin, hrequid.settles hsettles, ⟨.inl hended, fun _ => hended⟩⟩
  · exact .inr ⟨hrequid, .inl (by rw [hbase1])⟩
  · refine .inr ⟨hupdate.trans ((Minor.releaseFrame env p).setJob
      (stopOrContinue_lasting signal _)), .inl ?_⟩
    rw [modJob_job_self]
    exact hstop _
  · exact .inr ⟨hupdate, .inl rfl⟩

theorem releaseEnded_minor (suspended : Bool) (comp : Finset JobFlag) :
    Minor env p c (releaseEnded env now c p suspended comp) := by
  have hupdate : Minor env p c { c with lastJobUpdate := now } := .ofJobEq rfl rfl rfl rfl rfl
  have hactive : Minor env p c (modJob { c with lastJobUpdate := now } p (activeAt now)) :=
    hupdate.trans (.modJob fun _ => ⟨rfl, rfl⟩)
  simp only [releaseEnded]
  generalize modJob { c with lastJobUpdate := now } p (activeAt now) = c1 at *
  split_ifs
  · exact hactive
  have hdealloc := hactive.trans ((Minor.buildCgBitmap fun _ => rfl).trans
    ((Minor.releaseFrame env p).deallocateNodes env now (acctPolicyJobFini_minor ..) suspended))
  refine hdealloc.trans (Minor.trans ?_ (.modJob fun _ => ⟨rfl, rfl⟩))
  obtain ⟨-, h⟩ | ⟨ports, -, m, h, -⟩ := resvPortJobpackFree_cases
    (deallocateNodes env now (c1.modJob p buildCgBitmap) p suspended) p
  · rw [h]
    exact .refl env p _
  · rw [h]
    generalize deallocateNodes env now (c1.modJob p buildCgBitmap) p suspended = c2
    have hport : Minor env p c2 (c2.setPort m) := .ofJobEq rfl rfl rfl rfl rfl
    exact hport.trans (.setJob rfl rfl)

/-- Giving back what it has puts a job into the queue again, or leaves it as it is. -/
theorem releaseEnded_past (suspended : Bool) (comp : Finset JobFlag) :
    ((releaseEnded env now c p suspended comp).job p).jobState.base = (c.job p).jobState.base ∨
      ((releaseEnded env now c p suspended comp).job p).jobState.base = .pending := by
  have hbase1 : ((modJob { c with lastJobUpdate := now } p
      (activeAt now)).job p).jobState.base = (c.job p).jobState.base := by
    rw [modJob_job_self]
    rfl
  simp only [releaseEnded]
  generalize modJob { c with lastJobUpdate := now } p (activeAt now) = c1 at *
  split_ifs
  · exact .inl hbase1
  obtain ⟨s, hs, hbase, -⟩ := (c1.job p).buildCgBitmap_cases
  have hjob2 := (c1.modJob_job_self p buildCgBitmap).trans hs
  generalize c1.modJob p buildCgBitmap = c2 at *
  have hpast := deallocateNodes_past env now c2 p suspended (by rw [hjob2])
  rw [modJob_job_self]
  change ((resvPortJobpackFree _ p).job p).jobState.base = _ ∨
    ((resvPortJobpackFree _ p).job p).jobState.base = _
  rw [resvPortJobpackFree_jobState]
  rwa [hjob2, hbase, hbase1] at hpast

theorem endJob_settles (uid rc : ℕ) (nodeFail suspended : Bool) (comp : Finset JobFlag) :
    Settles env p c (endJob env now c p uid rc nodeFail suspended comp) := by
  have hstate (limit : ℕ) :
      Minor env p c (c.modJob p (endState now uid limit rc nodeFail comp)) := by
    refine .modJob fun j => ?_
    simp only [endState]
    split_ifs <;> exact ⟨rfl, rfl⟩
  have htime (c : Ctld) : Minor env p c (c.modJob p (setEndTime now suspended)) := by
    refine .modJob fun j => ?_
    simp only [setEndTime]
    split_ifs <;> exact ⟨rfl, rfl⟩
  exact ⟨_, (hstate _).trans (htime _), .refl env p _⟩

theorem requeueBatch_requeues (comp : Finset JobFlag) :
    Requeues env p c (requeueBatch env now c p comp) := by
  have hfail : Minor env p c (c.modJob p (logAsNodeFail now)) := .modJob fun _ => ⟨rfl, rfl⟩
  have hagain (cloud : Bool) (c : Ctld) : Minor env p c (c.modJob p (requeueAfter cloud comp)) :=
    .modJob fun _ => ⟨rfl, rfl⟩
  have hhold (c : Ctld) : Minor env p c (c.modJob p holdMaxRequeue) := by
    refine .modJob fun j => ?_
    simp only [holdMaxRequeue]
    split_ifs <;> exact ⟨rfl, rfl⟩
  exact ⟨_, ⟨_, hfail, hagain _ _⟩, hhold _⟩

/-- From `c` to `c'` the job `p` completes: it ends, is requeued, or the change is minor. -/
def Completed (env : Env) (p : Ptr) (c c' : Ctld) : Prop :=
  (¬(c.job p).jobState.isFinished ∧ Settles env p c c' ∧ Ended (¬c.mayRestart env p) (c'.job p)) ∨
    (¬(c.job p).jobState.isFinished ∧ Requeues env p c c' ∧ (c'.job p).jobState.isPending) ∨
    (Minor env p c c' ∧ (c'.job p).jobState.base = (c.job p).jobState.base)

theorem jobCompleteOne_completed {jobId : ℕ} (hfind : c.findJobRecord jobId = some p) (uid : ℕ)
    (requeue nodeFail : Bool) (rc : ℕ) :
    Completed env p c (jobCompleteOne env now c jobId uid requeue nodeFail rc).2 := by
  simp only [jobCompleteOne, hfind]
  split_ifs with hfin hperm hcomp
  · have hexit : Minor env p c (c.modJob p fun j =>
        { j with exitCode := if j.exitCode = 0 then rc else j.exitCode }) := .setJob rfl rfl
    refine .inr (.inr ⟨hexit, ?_⟩)
    rw [modJob_job_self]
  · exact .inr (.inr ⟨.refl env p c, rfl⟩)
  · exact .inr (.inr ⟨.refl env p c, rfl⟩)
  simp only [completeLive]
  generalize (if (c.job p).jobState.isPending then noVal else rc) = rc'
  have hstart : ∃ c1, (if (c.job p).jobState.isPending then
      c.modJob p (startedAt now) else c) = c1 ∧ Minor env p c c1 ∧ SameNodes p c c1 ∧
      (c1.job p).jobState.base = (c.job p).jobState.base := by
    split_ifs
    · refine ⟨_, rfl, .modJob fun _ => ⟨rfl, rfl⟩, .modJob fun _ => rfl, ?_⟩
      rw [modJob_job_self]
      rfl
    · exact ⟨_, rfl, .refl env p c, ⟨rfl, fun _ => Iff.rfl⟩, rfl⟩
  obtain ⟨c1, hc1, hminor, hnodes, hbase⟩ := hstart
  rw [hc1]
  split_ifs
  · refine .inr (.inl ⟨hfin, ?_, ?_⟩)
    · obtain ⟨c2, hsettles, hend⟩ := requeueBatch_requeues env now c1 p (c.job p).compFlag
      exact ⟨c2, hminor.settles hsettles, hend.trans (releaseEnded_minor ..)⟩
    · have hpend := (requeueBatch_spec env now c1 p (c.job p).compFlag).2.1
      exact (releaseEnded_past ..).elim (fun h => h.trans hpend) id
  · exact .inr (.inr ⟨hminor, hbase⟩)
  · have hsettles := endJob_settles env now c1 p uid rc' nodeFail
      (decide (c.job p).jobState.isSuspended) (c.job p).compFlag
    obtain ⟨hnodes', hend, hflags⟩ := endJob_spec env now c1 p uid rc' nodeFail
      (decide (c.job p).jobState.isSuspended) (c.job p).compFlag
    generalize endJob env now c1 p uid rc' nodeFail (decide (c.job p).jobState.isSuspended)
      (c.job p).compFlag = c2 at *
    have hended : (c2.job p).jobState.isFinished := by
      simp only [isFinished, hend, endState]
      split_ifs <;> simp
    have hsame {j : JobRecord} (h : j.jobState.base = (c2.job p).jobState.base) :
        j.jobState.isFinished := by
      simpa [isFinished, h] using hended
    refine .inl ⟨hfin, (hminor.settles hsettles).trans_minor (releaseEnded_minor ..), ?_, fun hno => ?_⟩
    · exact (releaseEnded_past ..).imp hsame id
    · exact hsame (releaseEnded_base_of_spec env now hno _ (hnodes.trans hnodes')
        (hflags.trans (Finset.subset_insert ..)))

end

end Slurm
