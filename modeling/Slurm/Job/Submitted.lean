import Slurm.Job.ArrayThrottle

/-!
# The count of submitted jobs

Associations and QOS count the jobs that were submitted and have not ended
(`used_submit_jobs`). A job is added when it is submitted, an array with all its
tasks; it is taken off when its end is logged. In between, the tasks of an array get
records of their own, and the record of an array is taken off with the tasks that
are left in it then.

What an operation does to these counts is in one relation, `Charges`. The counts are
exact (`submitJobs_exact`) in every run in which

* of the tasks that wait in a record, all are cancelled at a time, or none: the ones
  cancelled from a record in which others are left stay in the counts;
* no job that has ended is put into the queue by its exit code: it is not added again;
* no job is cancelled while it is requeued and still completes: its end is not logged.
-/

namespace Slurm

open JobRecord List Ctld Option JobState UInt32

namespace JobRecord

/-- The tasks that wait in a record, and their count. -/
def taskRecs (j : JobRecord) : Option (ℕ × Option Bitmap) :=
  j.arrayRecs.map fun r => (r.taskCnt, r.taskIdBitmap)

/-- The count of waiting tasks is that of the bitmap. -/
def GoodCnt (j : JobRecord) : Prop := ∀ b ∈ j.waiting, j.arrayRecs.elim 0 (·.taskCnt) = b.card

theorem submitCnt_eq (j : JobRecord) :
    j.submitCnt = j.taskRecs.elim 1 fun t => if t.1 ≠ 0 then t.1 else 1 := by
  simp only [submitCnt, taskRecs]
  cases j.arrayRecs <;> rfl

theorem goodCnt_iff (j : JobRecord) :
    j.GoodCnt ↔ ∀ b ∈ j.taskRecs.bind (·.2), j.taskRecs.elim 0 (·.1) = b.card := by
  simp only [GoodCnt, waiting, taskRecs]
  cases j.arrayRecs <;> rfl

section

variable {j k : JobRecord}

theorem submitCnt_of_taskRecs (h : k.taskRecs = j.taskRecs) : k.submitCnt = j.submitCnt := by
  rw [submitCnt_eq, h, ← submitCnt_eq]

theorem GoodCnt.of_taskRecs (hj : j.GoodCnt) (h : k.taskRecs = j.taskRecs) : k.GoodCnt := by
  rwa [goodCnt_iff, h, ← goodCnt_iff]

end

end JobRecord

namespace Ctld

variable (env : Env) (c : Ctld)

/-- How many jobs that have not ended a record stands for. -/
def liveCnt (p : Ptr) : ℕ := if (c.job p).jobState.isFinished then 0 else (c.job p).submitCnt

/-- How many jobs that have not ended there are, the tasks of arrays counted as jobs. -/
def liveJobs : ℕ := (c.jobList.map c.liveCnt).sum

/-- How many of them are charged to an account. -/
def charged (x : SubmitAccount) : ℕ :=
  (c.jobList.map fun p => if x ∈ c.submitAccounts env (c.job p) then c.liveCnt p else 0).sum

/-- The counts of submitted jobs are exact. -/
structure SubmitExact : Prop where
  nodup : c.jobList.Nodup
  assocs : c.GoodAssocs
  small : c.liveJobs < 2 ^ 32
  count : ∀ x, (c.submitJobs x).toNat = c.charged env x
  tasks : ∀ p ∈ c.jobList, (c.job p).GoodCnt

end Ctld

/-! ## Changes of the counts -/

/-- From `c` to `c'` the counts of the accounts that the job `p` is charged to change by `f`.
    Other jobs than `p` do not end, and stand for as many tasks as before. -/
structure Charges (env : Env) (p : Ptr) (f : UInt32 → UInt32) (c c' : Ctld) : Prop where
  jobList : c'.jobList = c.jobList
  tables : SameTables c c'
  accounts : ∀ q, c'.submitAccounts env (c'.job q) = c.submitAccounts env (c.job q)
  taskRecs : ∀ q, q ≠ p → (c'.job q).taskRecs = (c.job q).taskRecs
  finished : ∀ q, q ≠ p → ((c'.job q).jobState.isFinished ↔ (c.job q).jobState.isFinished)
  submitJobs : ∀ x, c'.submitJobs x =
    if x ∈ c.submitAccounts env (c.job p) then f (c.submitJobs x) else c.submitJobs x

namespace Charges

variable {env : Env} {p : Ptr} {f g : UInt32 → UInt32} {c c' c'' : Ctld}

theorem trans (h : Charges env p f c c') (h' : Charges env p g c' c'') :
    Charges env p (g ∘ f) c c'' where
  jobList := h'.jobList.trans h.jobList
  tables := h.tables.trans h'.tables
  accounts q := (h'.accounts q).trans (h.accounts q)
  taskRecs q hq := (h'.taskRecs q hq).trans (h.taskRecs q hq)
  finished q hq := (h'.finished q hq).trans (h.finished q hq)
  submitJobs x := by
    rw [h'.submitJobs, h.accounts, h.submitJobs]
    split_ifs <;> rfl

/-- Whatever happens to the record of `p`, as long as the same are charged for it. -/
theorem ofJob (hlist : c'.jobList = c.jobList) (hothers : ∀ q, q ≠ p → c'.job q = c.job q)
    (htables : SameTables c c')
    (haccounts : c'.submitAccounts env (c'.job p) = c.submitAccounts env (c.job p))
    (hsubmit : ∀ x, c'.submitJobs x = if x ∈ c.submitAccounts env (c.job p) then
      f (c.submitJobs x) else c.submitJobs x) : Charges env p f c c' := by
  refine ⟨hlist, htables, fun q => ?_, fun q hq => by rw [hothers q hq],
    fun q hq => by rw [hothers q hq], hsubmit⟩
  rcases eq_or_ne q p with rfl | hq
  · exact haccounts
  · rw [hothers q hq, htables.submitAccounts]

theorem ofMinor (h : Minor env p c c') : Charges env p id c c' := by
  refine ofJob h.jobList h.others h.tables ?_ fun x => ?_
  · have hpayer : c.payer env (c'.job p) = c.payer env (c.job p) := by
      rw [← h.tables.payer, h.payer]
    rw [h.tables.submitAccounts]
    exact submitAccounts_congr hpayer (of_part (·.qosPtr) h.standing)
      (of_part (·.partPtr) h.standing) (of_part (·.userId) h.standing)
  · rw [h.submitJobs, id_eq, ite_self]

/-- The record of `p` changes in what does not matter for who is charged for it. -/
theorem setJob {j : JobRecord} (h : c.submitAccounts env j = c.submitAccounts env (c.job p)) :
    Charges env p id c (c.setJob p j) := by
  have htables : SameTables c (c.setJob p j) := .ofEq rfl rfl rfl
  refine ofJob rfl (fun q hq => c.setJob_job_of_ne j hq) htables ?_ fun x => ?_
  · rw [htables.submitAccounts, setJob_job_self, h]
  · rw [id_eq, ite_self]
    cases x <;> rfl

theorem modJob {f : JobRecord → JobRecord} (h : ∀ j, (f j).billing = j.billing) :
    Charges env p id c (c.modJob p f) :=
  setJob (of_part (c.submitAccounts env) (h _))

end Charges

section

variable (env : Env) (c : Ctld) (p : Ptr)

theorem adjustLimitUsage_charges (type : PolicyType) (h : c.GoodAssocs) :
    Charges env p (type.onSubmit (ofNat (c.job p).submitCnt)) c
      (adjustLimitUsage env type c p) := by
  have husage := adjustLimitUsage_bookkeeping env c p type
  have htables := adjustLimitUsage_sameTables env c p type
  refine .ofJob husage.jobList husage.job htables ?_ (adjustLimitUsage_submitJobs env c p type h)
  have hpayer := adjustLimitUsage_payer env c p type
  rw [htables.payer] at hpayer
  rw [htables.submitAccounts]
  exact submitAccounts_congr hpayer (of_part (·.qosPtr) husage.self)
    (of_part (·.partPtr) husage.self) (of_part (·.userId) husage.self)

section

variable {b : Ptr} {r r' : ArrayRecs} (hr : (c.job b).arrayRecs = some r)
  (hcnt : (r'.taskCnt, r'.taskIdBitmap) = (r.taskCnt, r.taskIdBitmap))

include hr hcnt

theorem setRecs_taskRecs (q : Ptr) :
    ((c.setJob b { c.job b with arrayRecs := some r' }).job q).taskRecs = (c.job q).taskRecs := by
  rcases eq_or_ne q b with rfl | hq
  · simp [taskRecs, hr, hcnt]
  · rw [setJob_job_of_ne _ _ hq]

/-- The record of an array counts its tasks apart from the accounts. -/
theorem setRecs_charges :
    Charges env p id c (c.setJob b { c.job b with arrayRecs := some r' }) := by
  have hset : Charges env b id c (c.setJob b { c.job b with arrayRecs := some r' }) := .setJob rfl
  refine ⟨rfl, hset.tables, hset.accounts, fun q _ => setRecs_taskRecs c hr hcnt q, fun q _ => ?_,
    fun x => ?_⟩
  · rcases eq_or_ne q b with rfl | hq
    · rw [setJob_job_self]
    · rw [setJob_job_of_ne _ _ hq]
  · rw [id_eq, ite_self]
    cases x <;> rfl

end

theorem jobArrayComp_charges (wasRunning : Bool) :
    Charges env p id c (jobArrayComp c p wasRunning) := by
  simp only [jobArrayComp]
  cases hbase : c.arrayBase (c.job p) with
  | none => exact .ofMinor (.refl env p c)
  | some br => exact setRecs_charges env c p (arrayBase_recs hbase) rfl

theorem jobArrayStart_charges : Charges env p id c (jobArrayStart c p) := by
  simp only [jobArrayStart]
  cases hbase : c.arrayBase (c.job p) with
  | none => exact .ofMinor (.refl env p c)
  | some br => exact setRecs_charges env c p (arrayBase_recs hbase) rfl

theorem jobArrayStart_taskRecs (q : Ptr) :
    ((jobArrayStart c p).job q).taskRecs = (c.job q).taskRecs := by
  simp only [jobArrayStart]
  cases hbase : c.arrayBase (c.job p) with
  | none => rfl
  | some br =>
    refine setRecs_taskRecs c (arrayBase_recs hbase) ?_ q
    rfl

theorem logEnd_charges (h : c.GoodAssocs) (arrayFinished : Bool) :
    Charges env p id c (c.modJob p (logEnd env arrayFinished)) := by
  -- The association of a job without an id is looked up once more, with the same result.
  have hlookUp {j : JobRecord} (hzero : j.assocId = 0) :
      c.submitAccounts env (j.lookUpAssoc env) = c.submitAccounts env j :=
    submitAccounts_congr (payer_lookUpAssoc h hzero) rfl rfl rfl
  refine .setJob ?_
  simp only [logEnd]
  split_ifs with hresize hconf hassoc hassoc
  · rfl
  · rfl
  · exact hlookUp (not_not.1 hassoc)
  · rfl
  · exact hlookUp (not_not.1 hassoc)

/-- The log of an end takes the job off the counts, with the tasks that its record stands
    for. -/
theorem jobCompletionLogger_charges (h : c.GoodAssocs) :
    Charges env p (takeOff · (ofNat (c.job p).submitCnt)) c (jobCompletionLogger env c p) := by
  have husage := adjustLimitUsage_charges env c p .remSubmit h
  have hcomp := jobArrayComp_charges env (adjustLimitUsage env .remSubmit c p) p true
  have hgood := (husage.trans hcomp).tables.goodAssocs h
  exact (husage.trans hcomp).trans (logEnd_charges env _ p hgood _)

end

section

variable {env : Env} {p : Ptr} {c c' : Ctld}

theorem Minor.submitCnt (h : Minor env p c c') : (c'.job p).submitCnt = (c.job p).submitCnt :=
  of_part (·.submitCnt) h.standing

theorem Settles.charges (h : Settles env p c c') (hgood : c.GoodAssocs) :
    Charges env p (takeOff · (ofNat (c.job p).submitCnt)) c c' := by
  obtain ⟨c1, hstart, hend⟩ := h
  have hlog := jobCompletionLogger_charges env c1 p (hstart.tables.goodAssocs hgood)
  rw [hstart.submitCnt] at hlog
  exact (Charges.ofMinor hstart).trans (hlog.trans (.ofMinor hend))

theorem Settles.taskRecs (h : Settles env p c c') : (c'.job p).taskRecs = (c.job p).taskRecs := by
  obtain ⟨c1, hstart, hend⟩ := h
  have hlog := congrArg (·.2.2.2) ((jobCompletionLogger_sameTasks env c1 p).fields p)
  exact (of_part (·.taskRecs) hend.standing).trans
    (hlog.trans (of_part (·.taskRecs) hstart.standing))

/-- A job that is submitted again is added as it was taken off. -/
theorem Requeues.charges (h : Requeues env p c c') (hgood : c.GoodAssocs) :
    Charges env p (fun u => takeOff u (ofNat (c.job p).submitCnt) +
      ofNat (c.job p).submitCnt) c c' ∧ (c'.job p).taskRecs = (c.job p).taskRecs := by
  obtain ⟨c1, hsettles, hend⟩ := h
  have hcharge := hsettles.charges hgood
  have husage := adjustLimitUsage_charges env c1 p .addSubmit (hcharge.tables.goodAssocs hgood)
  rw [submitCnt_of_taskRecs hsettles.taskRecs] at husage
  refine ⟨hcharge.trans (husage.trans (.ofMinor hend)), ?_⟩
  have hself := (adjustLimitUsage_bookkeeping env c1 p .addSubmit).self
  rw [of_part (·.taskRecs) hend.standing, of_part (·.taskRecs) hself, hsettles.taskRecs]

end

/-! ## What the counts mean -/

/-- From `c` to `c'` a record stands for the same jobs, and the same are charged for it. -/
structure SameCharge (env : Env) (c c' : Ctld) (r : Ptr) : Prop where
  accounts : c'.submitAccounts env (c'.job r) = c.submitAccounts env (c.job r)
  taskRecs : (c'.job r).taskRecs = (c.job r).taskRecs
  finished : (c'.job r).jobState.isFinished ↔ (c.job r).jobState.isFinished

section

variable {env : Env} {c c' : Ctld} {p r : Ptr} {f : UInt32 → UInt32}

theorem Charges.sameCharge (h : Charges env p f c c') (hr : r ≠ p) : SameCharge env c c' r :=
  ⟨h.accounts r, h.taskRecs r hr, h.finished r hr⟩

theorem SameCharge.liveCnt (h : SameCharge env c c' r) : c'.liveCnt r = c.liveCnt r := by
  simp [Ctld.liveCnt, h.finished, submitCnt_of_taskRecs h.taskRecs]

end

namespace Ctld

variable {env : Env} {c c' : Ctld} {p q : Ptr} {f : UInt32 → UInt32}

/-- How much a record adds to the count of an account. -/
def charge (env : Env) (c : Ctld) (x : SubmitAccount) (p : Ptr) : ℕ :=
  if x ∈ c.submitAccounts env (c.job p) then c.liveCnt p else 0

theorem charged_eq (env : Env) (c : Ctld) (x : SubmitAccount) :
    c.charged env x = (c.jobList.map (c.charge env x)).sum := rfl

theorem charged_le_liveJobs (env : Env) (c : Ctld) (x : SubmitAccount) :
    c.charged env x ≤ c.liveJobs := by
  rw [charged_eq, liveJobs]
  refine sum_le_sum fun p _ => ?_
  rw [charge]
  split_ifs
  · exact le_rfl
  · exact Nat.zero_le _

theorem charge_eq (h : SameCharge env c c' p) (x : SubmitAccount) :
    c'.charge env x p = c.charge env x p := by
  rw [charge, h.accounts, h.liveCnt, charge]

theorem liveCnt_of_live (h : ¬(c.job p).jobState.isFinished) : c.liveCnt p = (c.job p).submitCnt :=
  if_neg h

theorem liveCnt_of_finished (h : (c.job p).jobState.isFinished) : c.liveCnt p = 0 := if_pos h

namespace SubmitExact

section

variable (h : c.SubmitExact env) (hp : p ∈ c.jobList) {x : SubmitAccount}

include h hp

/-- What is charged for one job is in the count. -/
theorem liveCnt_le
    (hx : x ∈ c.submitAccounts env (c.job p)) : c.liveCnt p ≤ (c.submitJobs x).toNat := by
  have hle : c.charge env x p ≤ c.charged env x :=
    single_le_sum (fun _ _ => Nat.zero_le _) _ (mem_map_of_mem hp)
  rwa [charge, if_pos hx, ← h.count] at hle

theorem submitJobs_ne_zero (hlive : ¬(c.job p).jobState.isFinished)
    (hx : x ∈ c.submitAccounts env (c.job p)) : c.submitJobs x ≠ 0 := by
  intro hzero
  have hle := h.liveCnt_le hp hx
  rw [liveCnt_of_live hlive, hzero] at hle
  exact absurd (c.job p).submitCnt_pos (by simpa using hle)

/-- The counts stay right when those of the accounts of `p` change as `p` does. -/
theorem charges (hch : Charges env p f c c')
    (hgood : (c'.job p).GoodCnt) (hle : c'.liveCnt p ≤ c.liveCnt p)
    (hf : ∀ x ∈ c.submitAccounts env (c.job p),
      (f (c.submitJobs x)).toNat + c.liveCnt p = (c.submitJobs x).toNat + c'.liveCnt p) :
    c'.SubmitExact env := by
  refine ⟨hch.jobList ▸ h.nodup, hch.tables.goodAssocs h.assocs, ?_, fun x => ?_, fun r hr => ?_⟩
  · have hsum := Count.sum_map_change h.nodup hp fun r _ hr => (hch.sameCharge hr).liveCnt
    have hsmall := h.small
    rw [liveJobs] at hsmall ⊢
    rw [hch.jobList]
    omega
  · have hsum := Count.sum_map_change h.nodup hp fun r _ hr => charge_eq (hch.sameCharge hr) x
    have hcount := h.count x
    rw [charged_eq] at hcount ⊢
    rw [hch.jobList, hch.submitJobs]
    simp only [charge, hch.accounts] at hsum hcount ⊢
    split_ifs at hsum ⊢ with hx
    · have hfx := hf x hx
      omega
    · omega
  · rw [hch.jobList] at hr
    rcases eq_or_ne r p with rfl | hrp
    · exact hgood
    · exact (h.tasks r hr).of_taskRecs (hch.taskRecs r hrp)

/-- A job that ends is taken off. Its accounts have counted it. -/
theorem ends (hlive : ¬(c.job p).jobState.isFinished)
    (hch : Charges env p (takeOff · (UInt32.ofNat (c.job p).submitCnt)) c c')
    (hend : (c'.job p).jobState.isFinished) (hgood : (c'.job p).GoodCnt) : c'.SubmitExact env := by
  have hzero := liveCnt_of_finished hend
  refine h.charges hp hch hgood (by omega) fun x hx => ?_
  have hle := h.liveCnt_le hp hx
  have hlt := (c.submitJobs x).toNat_lt
  rw [liveCnt_of_live hlive] at hle ⊢
  have hcnt : (UInt32.ofNat (c.job p).submitCnt).toNat = (c.job p).submitCnt :=
    UInt32.toNat_ofNat_of_lt' (by simpa [UInt32.size] using lt_of_le_of_lt hle hlt)
  rw [takeOff, if_pos (h.submitJobs_ne_zero hp hlive hx),
    UInt32.toNat_sub_of_le _ _ (UInt32.le_iff_toNat_le.2 (hcnt.le.trans hle)), hcnt, hzero]
  omega

/-- A job that stays as it is, and whose accounts do, does not change the counts. -/
theorem stays (hch : Charges env p f c c')
    (hf : ∀ x ∈ c.submitAccounts env (c.job p), f (c.submitJobs x) = c.submitJobs x)
    (hlive : c'.liveCnt p = c.liveCnt p) (hgood : (c'.job p).GoodCnt) : c'.SubmitExact env := by
  refine h.charges hp hch hgood hlive.le fun x hx => ?_
  rw [hf x hx, hlive]

theorem minor (hm : Minor env p c c')
    (hfin : (c'.job p).jobState.isFinished ↔ (c.job p).jobState.isFinished) :
    c'.SubmitExact env := by
  refine h.stays hp (.ofMinor hm) (fun _ _ => rfl) ?_
    ((of_part (·.GoodCnt) hm.standing).symm ▸ h.tasks p hp)
  simp [liveCnt, hfin, hm.submitCnt]

theorem settles (hlive : ¬(c.job p).jobState.isFinished) (hs : Settles env p c c')
    (hend : (c'.job p).jobState.isFinished) : c'.SubmitExact env :=
  h.ends hp hlive (hs.charges h.assocs) hend ((h.tasks p hp).of_taskRecs hs.taskRecs)

/-- A job that is run again is taken off and added. -/
theorem requeues (hlive : ¬(c.job p).jobState.isFinished) (hr : Requeues env p c c')
    (hpend : (c'.job p).jobState.isPending) : c'.SubmitExact env := by
  obtain ⟨hch, hrecs⟩ := hr.charges h.assocs
  refine h.stays hp hch (fun x hx => ?_) ?_ ((h.tasks p hp).of_taskRecs hrecs)
  · rw [takeOff, if_pos (h.submitJobs_ne_zero hp hlive hx), sub_add_cancel]
  · have hlive' : ¬(c'.job p).jobState.isFinished := fun hfin => hfin.1 hpend
    rw [liveCnt_of_live hlive, liveCnt_of_live hlive', submitCnt_of_taskRecs hrecs]

end

end SubmitExact

end Ctld

/-! ## Tasks that are cancelled -/

/-- Nobody is charged for other numbers of jobs and of tasks. -/
theorem setCounts_charges (env : Env) (p : Ptr) (c : Ctld) (jobCount : ℤ) (taskCnt : ℕ) :
    Charges env p id c (Ctld.modJob { c with jobCount } p (setTaskCnt taskCnt)) := by
  have hcount : Charges env p id c { c with jobCount } := .ofMinor (.ofJobEq rfl rfl rfl rfl rfl)
  exact hcount.trans (.modJob (f := setTaskCnt taskCnt) fun _ => rfl)

section

variable (env : Env) (now : ℤ) (c : Ctld) (p : Ptr) {pending tasks : Bitmap}

/-- If no task is left, the record is taken off with all that waited in it. -/
theorem cancelTasks_charges_all (hleft : pending ⊆ tasks) (uid : ℕ) (hgood : c.GoodAssocs) :
    Charges env p (takeOff · (ofNat (c.job p).submitCnt)) c
      (cancelTasks env now c p pending tasks uid) := by
  have hempty : pending \ tasks = ∅ := Finset.sdiff_eq_empty_iff_subset.2 hleft
  have hset : Charges env p id c (c.modJob p (leaveTasks ∅)) := .modJob fun _ => rfl
  have hcancel (c : Ctld) : Charges env p id c (Ctld.modJob { c with lastJobUpdate := now } p
      (cancelPending now uid)) := by
    have hupdate : Charges env p id c { c with lastJobUpdate := now } :=
      .ofMinor (.ofJobEq rfl rfl rfl rfl rfl)
    exact hupdate.trans (.modJob (f := cancelPending now uid) fun _ => rfl)
  simp only [cancelTasks, hempty, Finset.card_empty, if_true]
  have hstart := hset.trans (hcancel _)
  -- The tasks are gone from the bitmap, but their count is still there when the end is logged.
  have hsame : ((Ctld.modJob { c.modJob p (leaveTasks ∅) with lastJobUpdate := now } p
      (cancelPending now uid)).job p).submitCnt = (c.job p).submitCnt := by
    simp only [submitCnt, cancelPending, modJob_job_self, leaveTasks]
    cases (c.job p).arrayRecs <;> rfl
  have hlog := jobCompletionLogger_charges env _ p (hstart.tables.goodAssocs hgood)
  rw [hsame] at hlog
  exact (hstart.trans hlog).trans (setCounts_charges ..)

/-- If all tasks are left, nothing changes. -/
theorem cancelTasks_charges_none (hleft : Disjoint pending tasks)
    (hpending : pending ≠ ∅) (uid : ℕ) :
    Charges env p id c (cancelTasks env now c p pending tasks uid) ∧
      ((cancelTasks env now c p pending tasks uid).job p).jobState = (c.job p).jobState := by
  have hall : pending \ tasks = pending := Finset.sdiff_eq_self_of_disjoint hleft
  have hset : Charges env p id c (c.modJob p (leaveTasks pending)) := .modJob fun _ => rfl
  simp only [cancelTasks, hall, Finset.card_eq_zero, if_neg hpending]
  refine ⟨hset.trans ((jobArrayComp_charges ..).trans (setCounts_charges ..)), ?_⟩
  rw [modJob_job_self]
  have hstate := jobArrayComp_jobState (c.modJob p (leaveTasks pending)) p p false
  rw [modJob_job_self] at hstate
  exact hstate

end

namespace Ctld.SubmitExact

variable {env : Env} {c c' : Ctld} {p q : Ptr}

theorem cancelTasks (h : c.SubmitExact env) (hp : p ∈ c.jobList)
    (hlive : ¬(c.job p).jobState.isFinished) {pending tasks : Bitmap}
    (hwait : (c.job p).waiting = some pending)
    (hleft : pending ⊆ tasks ∨ Disjoint pending tasks) (now : ℤ) (uid : ℕ) :
    (cancelTasks env now c p pending tasks uid).SubmitExact env := by
  have hrecs : (c.job p).arrayRecs ≠ none := by
    intro hnone
    simp [waiting, hnone] at hwait
  have htakes := cancelTasks_takesTasks env now c uid pending tasks hrecs
  have hself : ((Slurm.cancelTasks env now c p pending tasks uid).job p).taskRecs =
      some ((pending \ tasks).card, some (pending \ tasks)) := congrArg (·.2.2.2) htakes.self
  have hgood : ((Slurm.cancelTasks env now c p pending tasks uid).job p).GoodCnt := by
    rw [goodCnt_iff, hself]
    rintro b hb
    obtain rfl : pending \ tasks = b := some.inj hb
    rfl
  by_cases hall : pending ⊆ tasks
  · exact h.ends hp hlive (cancelTasks_charges_all env now c p hall uid h.assocs)
      (htakes.ended (Finset.sdiff_eq_empty_iff_subset.2 hall)) hgood
  · have hdisjoint := hleft.resolve_left hall
    have hpending : pending ≠ ∅ := by
      rintro rfl
      exact hall (Finset.empty_subset tasks)
    obtain ⟨hch, hstate⟩ := cancelTasks_charges_none env now c p hdisjoint hpending uid
    refine h.stays hp hch (fun _ _ => rfl) ?_ hgood
    -- The count is that of the bitmap, so setting it anew does not change it.
    have hcnt := h.tasks p hp
    rw [goodCnt_iff] at hcnt
    have hbefore : (c.job p).taskRecs = some (pending.card, some pending) := by
      cases hr : (c.job p).arrayRecs with
      | none => exact absurd hr hrecs
      | some r =>
        have hbitmap : r.taskIdBitmap = some pending := by simpa [waiting, hr] using hwait
        have hrec : (c.job p).taskRecs = some (r.taskCnt, some pending) := by
          simp [taskRecs, hr, hbitmap]
        rw [hrec] at hcnt
        have hcard : r.taskCnt = pending.card := hcnt pending rfl
        rw [hrec, hcard]
    simp [liveCnt, hstate, submitCnt_eq, hself, hbefore, Finset.sdiff_eq_self_of_disjoint hdisjoint]

end Ctld.SubmitExact

/-! ## Tasks that start -/

section

variable {env : Env} {c c' : Ctld} {p q : Ptr}

theorem JobRecord.arrayPreSched_taskRecs (j : JobRecord) (hgood : j.GoodCnt) :
    j.arrayPreSched.submitCnt = j.submitCnt ∧ j.arrayPreSched.GoodCnt ∧
      j.arrayPreSched.jobState = j.jobState ∧ j.arrayPreSched.billing = j.billing ∧
      ∀ b ∈ j.arrayPreSched.waiting, j.arrayPreSched.arrayTaskId ∈ b := by
  rw [arrayPreSched]
  cases hwait : j.waiting with
  | none => exact ⟨rfl, hgood, rfl, rfl, fun b hb => by rw [hwait] at hb; cases hb⟩
  | some b =>
    dsimp only
    split_ifs with hne
    · refine ⟨rfl, hgood, rfl, rfl, fun b' hb' => ?_⟩
      obtain rfl : b = b' := some.inj (hwait.symm.trans hb')
      exact b.min'_mem hne
    · -- Without a task left the bitmap is dropped, and the count stays.
      have hnone : waiting { j with
          arrayRecs := j.arrayRecs.map fun (r : ArrayRecs) => { r with taskIdBitmap := none } } =
          none := by
        cases hr : j.arrayRecs <;> simp [waiting]
      refine ⟨?_, ?_, rfl, rfl, ?_⟩
      · simp only [submitCnt]
        cases j.arrayRecs <;> rfl
      · intro b' hb'
        rw [hnone] at hb'
        cases hb'
      · intro b' hb'
        rw [hnone] at hb'
        cases hb'

theorem JobRecord.lastTask_submitCnt {j : JobRecord} (hcnt : j.arrayRecs.elim 0 (·.taskCnt) ≤ 1) :
    j.lastTask.submitCnt = j.submitCnt := by
  simp only [submitCnt, lastTask]
  cases hr : j.arrayRecs with
  | none => rfl
  | some r =>
    have hle : r.taskCnt ≤ 1 := by simpa [hr] using hcnt
    simp only [map_some, ArrayRecs.last]
    split_ifs <;> omega

/-- The last of the waiting tasks stays in the record, which stands for one job as before. -/
theorem postSched_last (env : Env) (now : ℤ) (newId : ℕ) (hgood : (c.job p).GoodCnt)
    (hlast : (c.job p).waiting = none ∨ (c.job p).arrayRecs.elim 0 (·.taskCnt) ≤ 1) :
    Charges env p id c (jobArrayPostSched now c p q newId) ∧
      ((jobArrayPostSched now c p q newId).job p).submitCnt = (c.job p).submitCnt ∧
      ((jobArrayPostSched now c p q newId).job p).GoodCnt ∧
      ((jobArrayPostSched now c p q newId).job p).jobState.base = (c.job p).jobState.base := by
  obtain heq | ⟨hcnt, hash, heq⟩ := jobArrayPostSched_of_last now newId hlast
  · rw [heq]
    exact ⟨.ofMinor (.refl env p c), rfl, hgood, rfl⟩
  have hjob : (jobArrayPostSched now c p q newId).job p = (c.job p).lastTask := by
    rw [heq]
    exact modJob_job_self ..
  have hch : Charges env p id c (c.modJob p lastTask) := .modJob fun _ => rfl
  have hhash (c : Ctld) : Charges env p id c { c with jobArrayHash := hash } :=
    .ofMinor (.ofJobEq rfl rfl rfl rfl rfl)
  rw [hjob, heq]
  refine ⟨hch.trans (hhash _), lastTask_submitCnt hcnt, fun b hb => ?_, rfl⟩
  rw [lastTask_waiting] at hb
  cases hb

theorem jobArrayPostSched_tables (now : ℤ) (c : Ctld) (p q : Ptr) (newId : ℕ) :
    let c' := jobArrayPostSched now c p q newId
    c'.assoc = c.assoc ∧ c'.qos = c.qos ∧ c'.part = c.part := by
  have hhash (c : Ctld) : (c.addJobArrayHash p).assoc = c.assoc ∧
      (c.addJobArrayHash p).qos = c.qos ∧ (c.addJobArrayHash p).part = c.part := by
    simp only [Ctld.addJobArrayHash]
    split_ifs <;> exact ⟨rfl, rfl, rfl⟩
  intro c'
  simp only [c', jobArrayPostSched, jobArraySplit]
  split_ifs
  · exact ⟨rfl, rfl, rfl⟩
  · split
    · exact ⟨rfl, rfl, rfl⟩
    · exact hhash _
  · exact hhash _

end

namespace Ctld.SubmitExact

variable {env : Env} {c c' : Ctld} {p q : Ptr}

/-- A task gets a record of its own. The two records stand for as many jobs as the one. -/
theorem splits (h : c.SubmitExact env) (hp : p ∈ c.jobList) (hq : q ∉ c.jobList)
    (hlive : ¬(c.job p).jobState.isFinished) {newId : ℕ} (hs : SplitsOff p q newId c c')
    (htables : c'.assoc = c.assoc ∧ c'.qos = c.qos ∧ c'.part = c.part)
    (hcnt : ¬(c.job p).arrayRecs.elim 0 (·.taskCnt) ≤ 1)
    (htask : ∀ b ∈ (c.job p).waiting, (c.job p).arrayTaskId ∈ b) : c'.SubmitExact env := by
  have hsame : SameTables c c' := .ofEq htables.1 htables.2.1 htables.2.2
  have hother (r : Ptr) (hr : r ∈ c.jobList) (hrp : r ≠ p) : SameCharge env c c' r := by
    have hjob : c'.job r = c.job r := hs.others r hrp fun hrq => hq (hrq ▸ hr)
    exact ⟨by rw [hjob, hsame.submitAccounts], by rw [hjob], by rw [hjob]⟩
  have hlive_p : c'.liveCnt p = 1 := by
    rw [liveCnt, hs.task]
    exact if_neg hlive
  have hlive_q : c'.liveCnt q + 1 = c.liveCnt p := by
    have hpend : ¬(c'.job q).jobState.isFinished := by
      rw [hs.pend]
      exact fun hfin => hfin.1 rfl
    rw [liveCnt_of_live hpend, liveCnt_of_live hlive, hs.pend]
    simp only [submitCnt, splitPend]
    cases hr : (c.job p).arrayRecs with
    | none => simp [hr] at hcnt
    | some r =>
      have hgt : ¬r.taskCnt ≤ 1 := by simpa [hr] using hcnt
      simp only [map_some, ArrayRecs.split]
      split_ifs <;> omega
  have hsubmit (x : SubmitAccount) : c'.submitJobs x = c.submitJobs x := by
    cases x <;> simp only [submitJobs, htables.1, htables.2.1]
  refine ⟨?_, hsame.goodAssocs h.assocs, ?_, fun x => ?_, fun r hr => ?_⟩
  · rw [hs.jobList, ← concat_eq_append]
    exact h.nodup.concat hq
  · have hsum := Count.sum_map_change h.nodup hp fun r hr hrp => (hother r hr hrp).liveCnt
    have hsmall := h.small
    rw [liveJobs] at hsmall ⊢
    rw [hs.jobList, map_append, sum_append, map_singleton, sum_singleton]
    omega
  · have hsum := Count.sum_map_change h.nodup hp fun r hr hrp => charge_eq (hother r hr hrp) x
    have hcount := h.count x
    have hacc_p : c'.submitAccounts env (c'.job p) = c.submitAccounts env (c.job p) := by
      rw [hsame.submitAccounts, hs.task]
      rfl
    have hacc_q : c'.submitAccounts env (c'.job q) = c.submitAccounts env (c.job p) := by
      rw [hsame.submitAccounts, hs.pend]
      rfl
    rw [charged_eq] at hcount ⊢
    rw [hs.jobList, map_append, sum_append, map_singleton, sum_singleton, hsubmit]
    simp only [charge, hacc_p, hacc_q] at hsum hcount ⊢
    split_ifs at hsum ⊢ <;> omega
  · rw [hs.jobList, mem_append, mem_singleton] at hr
    rcases hr with hr | rfl
    · rcases eq_or_ne r p with rfl | hrp
      · rw [hs.task]
        exact fun b hb => by cases hb
      · exact (h.tasks r hr).of_taskRecs (hother r hr hrp).taskRecs
    · -- The task was one of those that waited.
      have hgood := h.tasks p hp
      rw [hs.pend]
      intro b hb
      simp only [JobRecord.GoodCnt, waiting, splitPend] at *
      cases hr : (c.job p).arrayRecs with
      | none => simp [hr] at hcnt
      | some r =>
        simp only [hr, map_some, bind_some, elim_some, ArrayRecs.split] at *
        obtain ⟨b', hb', rfl⟩ := map_eq_some_iff.1 hb
        rw [Finset.card_erase_of_mem (htask b' hb'), hgood b' hb']

theorem startTask (h : c.SubmitExact env) (hp : p ∈ c.jobList) (hq : q ∉ c.jobList)
    (hpend : (c.job p).jobState.isPending) (now : ℤ) (newId : ℕ) :
    (startTask now c p q newId).SubmitExact env := by
  obtain ⟨hcnt1, hgood1, hstate1, hbilling1, htask⟩ :=
    (c.job p).arrayPreSched_taskRecs (h.tasks p hp)
  have hself : (c.modJob p arrayPreSched).job p = (c.job p).arrayPreSched := modJob_job_self ..
  have h1 : (c.modJob p arrayPreSched).SubmitExact env := by
    refine h.stays hp (.setJob (of_part (c.submitAccounts env) hbilling1)) (fun _ _ => rfl) ?_ ?_
    · rw [liveCnt, hself, hstate1, hcnt1, liveCnt]
    · rw [hself]
      exact hgood1
  have hp1 : p ∈ (c.modJob p arrayPreSched).jobList := hp
  have hq1 : q ∉ (c.modJob p arrayPreSched).jobList := hq
  rw [← hself] at htask hgood1
  have hlive1 : ¬((c.modJob p arrayPreSched).job p).jobState.isFinished := by
    rw [hself, hstate1]
    exact fun hfin => hfin.1 hpend
  simp only [Slurm.startTask]
  generalize c.modJob p arrayPreSched = c1 at *
  -- The task stays in its record or leaves it, and the job `p` has not finished after it.
  have hpost : (jobArrayPostSched now c1 p q newId).SubmitExact env ∧
      p ∈ (jobArrayPostSched now c1 p q newId).jobList ∧
      ¬((jobArrayPostSched now c1 p q newId).job p).jobState.isFinished := by
    by_cases hlast : (c1.job p).waiting = none ∨ (c1.job p).arrayRecs.elim 0 (·.taskCnt) ≤ 1
    · obtain ⟨hch, hcnt, hgood, hbase⟩ := postSched_last env now newId hgood1 hlast
      have hfin := isFinished_of_base hbase
      refine ⟨h1.stays hp1 hch (fun _ _ => rfl) ?_ hgood, hch.jobList ▸ hp1,
        fun hf => hlive1 (hfin.1 hf)⟩
      simp [liveCnt, hfin, hcnt]
    · rw [not_or] at hlast
      have hne : p ≠ q := fun hpq => hq1 (hpq ▸ hp1)
      have hs := jobArrayPostSched_splitsOff now newId hlast.1 hlast.2 hne
      refine ⟨h1.splits hp1 hq1 hlive1 hs (jobArrayPostSched_tables ..) hlast.2 htask, ?_, ?_⟩
      · rw [hs.jobList]
        exact mem_append_left _ hp1
      · rw [hs.task]
        exact hlive1
  obtain ⟨h2, hp2, hlive2⟩ := hpost
  generalize jobArrayPostSched now c1 p q newId = c2 at *
  have hstart := jobArrayStart_charges env c2 p
  have hrecs : ((jobArrayStart c2 p).job p).taskRecs = (c2.job p).taskRecs :=
    jobArrayStart_taskRecs c2 p p
  set c3 := (jobArrayStart c2 p).modJob p fun j => { j with jobState := ⟨.running, ∅⟩ } with hc3
  have hrun : Charges env p id (jobArrayStart c2 p) c3 := .setJob rfl
  have hrecs' : (c3.job p).taskRecs = (c2.job p).taskRecs := by
    rw [hc3, modJob_job_self]
    exact hrecs
  have hlive' : ¬(c3.job p).jobState.isFinished := by
    rw [hc3, modJob_job_self]
    exact fun hfin => hfin.2.1 rfl
  refine h2.stays hp2 (hstart.trans hrun) (fun _ _ => rfl) ?_ ((h2.tasks p hp2).of_taskRecs hrecs')
  rw [liveCnt_of_live hlive', liveCnt_of_live hlive2, submitCnt_of_taskRecs hrecs']

end Ctld.SubmitExact

/-! ## Jobs that come and go -/

/-- Submit a job (`job_allocate`): a job that is accepted is charged for. -/
def jobSubmit (env : Env) (now : ℤ) (c : Ctld) (p : Ptr) (desc : JobDesc) (rejected : Bool) :
    Rc × Ctld :=
  let (rc, c) := jobCreate env now c p desc rejected
  if rc = .success then (rc, adjustLimitUsage env .addSubmit c p) else (rc, c)

namespace Ctld.SubmitExact

variable {env : Env} {c c' : Ctld} {p q : Ptr}

/-- The records of a list are charged for as before. -/
theorem sums_congr {l : List Ptr} (hsame : ∀ r ∈ l, SameCharge env c c' r) :
    l.map c'.liveCnt = l.map c.liveCnt ∧ ∀ x, l.map (c'.charge env x) = l.map (c.charge env x) :=
  ⟨map_congr_left fun r hr => (hsame r hr).liveCnt,
    fun x => map_congr_left fun r hr => charge_eq (hsame r hr) x⟩

/-- A record is added to the list, and to the counts of those who are charged for it. -/
theorem add (h : c.SubmitExact env) (hq : q ∉ c.jobList) (hlist : c'.jobList = c.jobList ++ [q])
    (htables : SameTables c c') (hsame : ∀ r ∈ c.jobList, SameCharge env c c' r)
    (hgood : (c'.job q).GoodCnt) (hroom : c.liveJobs + c'.liveCnt q < 2 ^ 32)
    (hcount : ∀ x, (c'.submitJobs x).toNat = (c.submitJobs x).toNat + c'.charge env x q) :
    c'.SubmitExact env := by
  obtain ⟨hlive, hcharge⟩ := sums_congr hsame
  refine ⟨?_, htables.goodAssocs h.assocs, ?_, fun x => ?_, fun r hr => ?_⟩
  · rw [hlist, ← concat_eq_append]
    exact h.nodup.concat hq
  · rw [liveJobs, hlist, map_append, sum_append, hlive, map_singleton, sum_singleton]
    exact hroom
  · rw [charged_eq, hlist, map_append, sum_append, hcharge, map_singleton,
      sum_singleton, hcount, h.count, charged_eq]
  · rw [hlist, mem_append, mem_singleton] at hr
    rcases hr with hr | rfl
    · exact (h.tasks r hr).of_taskRecs (hsame r hr).taskRecs
    · exact hgood

/-- Nothing changes in what the counts depend on. -/
theorem congr (h : c.SubmitExact env) (hlist : c'.jobList = c.jobList) (htables : SameTables c c')
    (hsame : ∀ r ∈ c.jobList, SameCharge env c c' r)
    (hcount : ∀ x, c'.submitJobs x = c.submitJobs x) : c'.SubmitExact env := by
  obtain ⟨hlive, hcharge⟩ := sums_congr hsame
  refine ⟨hlist ▸ h.nodup, htables.goodAssocs h.assocs, ?_, fun x => ?_, fun r hr => ?_⟩
  · rw [liveJobs, hlist, hlive]
    exact h.small
  · rw [charged_eq, hlist, hcharge, hcount, h.count, charged_eq]
  · rw [hlist] at hr
    exact (h.tasks r hr).of_taskRecs (hsame r hr).taskRecs

/-- The record of a job that has finished leaves the list. -/
theorem delete (h : c.SubmitExact env) (hp : p ∈ c.jobList)
    (hfin : (c.job p).jobState.isFinished) : (c.listDeleteJob p).SubmitExact env := by
  have hmem {r : Ptr} (hr : r ∈ (c.listDeleteJob p).jobList) : r ∈ c.jobList := mem_of_mem_erase hr
  have hzero : c.liveCnt p = 0 := liveCnt_of_finished hfin
  have htables : SameTables c (c.listDeleteJob p) := .ofEq rfl rfl rfl
  refine ⟨h.nodup.erase p, htables.goodAssocs h.assocs, ?_, fun x => ?_,
    fun r hr => h.tasks r (hmem hr)⟩
  · have hsum := sum_map_erase c.liveCnt hp
    have hsmall := h.small
    have hlive : (c.listDeleteJob p).liveJobs = ((c.jobList.erase p).map c.liveCnt).sum := rfl
    rw [liveJobs] at hsmall
    omega
  · have hsum := sum_map_erase (c.charge env x) hp
    have hcharge : c.charge env x p = 0 := by rw [charge, hzero, ite_self]
    have hcharged : (c.listDeleteJob p).charged env x =
      ((c.jobList.erase p).map (c.charge env x)).sum := rfl
    have hsubmit : (c.listDeleteJob p).submitJobs x = c.submitJobs x := by cases x <;> rfl
    have hcount := h.count x
    rw [charged_eq] at hcount
    rw [hsubmit, hcharged]
    omega

theorem jobSubmit (h : c.SubmitExact env) (now : ℤ) {desc : JobDesc} (hp : p ∉ c.jobList)
    (hid : ∀ q ∈ c.jobList, (c.job q).jobId ≠ desc.jobId)
    (hroom : c.liveJobs + max 1 desc.arrayBitmap.card < 2 ^ 32) (rejected : Bool) :
    (jobSubmit env now c p desc rejected).2.SubmitExact env := by
  obtain ⟨c1, hsans, hcases⟩ := jobCreate_cases env now c p desc rejected
  obtain ⟨hassoc, hqos, hpart, hlist⟩ : c1.sansRequest.assoc = c.assoc ∧
      c1.sansRequest.qos = c.qos ∧ c1.sansRequest.part = c.part ∧
      c1.sansRequest.jobList = c.jobList ++ [p] := by
    rw [hsans]
    exact ⟨rfl, rfl, rfl, rfl⟩
  have hjob (q : Ptr) (hq : q ∈ c.jobList) : (c1.job q).sansRequest = (c.job q).sansRequest := by
    rw [sansRequest_job hsans, addJob_job_of_mem hp hq]
  have hself : (c1.job p).sansRequest = (desc.record env now).sansRequest := by
    rw [sansRequest_job hsans, addJob_job_self]
  -- For the other jobs, nothing has changed so far.
  have hsame (d : Ctld) (htables : SameTables c d) (hd : ∀ q ∈ c.jobList, d.job q = c1.job q)
      (q : Ptr) (hq : q ∈ c.jobList) : SameCharge env c d q := by
    have hstate : (c1.job q).jobState = (c.job q).jobState := of_part (·.jobState) (hjob q hq)
    refine ⟨?_, ?_, by rw [hd q hq, hstate]⟩
    · rw [htables.submitAccounts, hd q hq]
      exact of_part (c.submitAccounts env) (hjob q hq)
    · rw [hd q hq]
      exact of_part (·.taskRecs) (hjob q hq)
  have hsubmit (d : Ctld) (ha : d.assoc = c.assoc) (hq : d.qos = c.qos) (x : SubmitAccount) :
      d.submitJobs x = c.submitJobs x := by
    cases x <;> simp only [submitJobs, ha, hq]
  simp only [Slurm.jobSubmit]
  rcases hcases with ⟨hrc, hc⟩ | ⟨hrc, hc⟩
  · rw [if_neg hrc, hc]
    refine h.congr (purgeJob_jobList hlist ?_ fun q hq => ?_) (.ofEq hassoc hqos hpart)
      (hsame _ (.ofEq hassoc hqos hpart) fun _ _ => rfl) (hsubmit _ hassoc hqos)
    · exact of_part (·.jobId) hself
    · have hsameId : (c1.job q).jobId = (c.job q).jobId := of_part (·.jobId) (hjob q hq)
      rw [hsameId]
      exact hid q hq
  · rw [if_pos hrc, hc]
    have hcreate : (c1.createArray p desc).assoc = c.assoc ∧ (c1.createArray p desc).qos = c.qos ∧
        (c1.createArray p desc).part = c.part := by
      simp only [Ctld.createArray]
      split_ifs <;> exact ⟨hassoc, hqos, hpart⟩
    have htables : SameTables c (c1.createArray p desc) := .ofEq hcreate.1 hcreate.2.1 hcreate.2.2
    have hold (q : Ptr) (hq : q ∈ c.jobList) : (c1.createArray p desc).job q = c1.job q :=
      createArray_job_of_ne _ _ _ fun hqp => hp (hqp ▸ hq)
    have hsame2 := hsame _ htables hold
    have hnew := createArray_job_self c1 p desc
    have hrecs : ((c1.createArray p desc).job p).taskRecs = if desc.arrayBitmap.card = 0 then none
        else some (desc.arrayBitmap.card, some desc.arrayBitmap) := by
      rw [hnew]
      split_ifs
      · exact of_part (·.taskRecs) hself
      · rfl
    have hstate : ((c1.createArray p desc).job p).jobState = ⟨.pending, ∅⟩ := by
      rw [hnew]
      split_ifs <;> exact of_part (·.jobState) hself
    have hcnt : ((c1.createArray p desc).job p).submitCnt = max 1 desc.arrayBitmap.card := by
      rw [submitCnt_eq, hrecs]
      split_ifs with hcard
      · rw [hcard]
        rfl
      · simp only [elim_some, if_pos hcard]
        omega
    have hlist2 := (createArray_jobList c1 p desc).trans hlist
    have hsubmit2 := hsubmit _ hcreate.1 hcreate.2.1
    generalize c1.createArray p desc = c2 at *
    have hch := adjustLimitUsage_charges env c2 p .addSubmit (htables.goodAssocs h.assocs)
    have hself3 := (adjustLimitUsage_bookkeeping env c2 p .addSubmit).self
    generalize adjustLimitUsage env .addSubmit c2 p = c3 at *
    have hrecs3 : (c3.job p).taskRecs = (c2.job p).taskRecs := of_part (·.taskRecs) hself3
    have hstate3 : (c3.job p).jobState = (c2.job p).jobState := of_part (·.jobState) hself3
    have hlive3 : c3.liveCnt p = max 1 desc.arrayBitmap.card := by
      have hpend : ¬(c3.job p).jobState.isFinished := by
        rw [hstate3, hstate]
        exact fun hfin => hfin.1 rfl
      rw [liveCnt_of_live hpend, submitCnt_of_taskRecs hrecs3, hcnt]
    refine h.add hp (hch.jobList.trans hlist2) (htables.trans hch.tables) (fun r hr => ?_) ?_ ?_ ?_
    · have hrp : r ≠ p := fun hrp => hp (hrp ▸ hr)
      have h2 := hsame2 r hr
      have h3 := hch.sameCharge hrp
      exact ⟨h3.accounts.trans h2.accounts, h3.taskRecs.trans h2.taskRecs,
        h3.finished.trans h2.finished⟩
    · rw [goodCnt_iff, hrecs3, hrecs]
      split_ifs
      · exact fun b hb => by cases hb
      · rintro b hb
        obtain rfl : desc.arrayBitmap = b := some.inj hb
        rfl
    · rw [hlive3]
      exact hroom
    · intro x
      rw [hch.submitJobs, charge, hch.accounts, hlive3, hsubmit2]
      split_ifs
      · -- There is room for the new tasks in the count.
        have hle := charged_le_liveJobs env c x
        simp only [PolicyType.onSubmit, hcnt]
        rw [UInt32.toNat_add, UInt32.toNat_ofNat_of_lt' (by simp only [UInt32.size]; omega), h.count]
        omega
      · rfl

end Ctld.SubmitExact

/-! ## Runs -/

/-- What happens to the jobs of a controller, as far as the submitted ones are concerned. -/
inductive SubmitOp
  /-- A job or an array is submitted; its record is at the address `p`. -/
  | submit (now : ℤ) (p : Ptr) (desc : JobDesc) (rejected : Bool)
  /-- The job `p` is started. The record for the tasks that are left, if there are any, is at
      the address `q`, and the id of the job is `newId` then. -/
  | start (now : ℤ) (p q : Ptr) (newId : ℕ)
  /-- A job is complete, or has to be run again. -/
  | complete (now : ℤ) (jobId uid : ℕ) (requeue nodeFail : Bool) (rc : ℕ)
  /-- A job gets a signal. -/
  | signal (now : ℤ) (p : Ptr) (sig : ℕ) (flags : KillFlags) (uid : ℕ) (preempt : Bool)
  /-- Of the tasks that wait in the record `p`, those among `tasks` are cancelled. -/
  | cancelTasks (now : ℤ) (p : Ptr) (tasks : Bitmap) (uid : ℕ)
  /-- The epilog of the job has ended on all of its nodes (`make_node_idle`). -/
  | cleanup (now : ℤ) (p : Ptr)
  /-- A record changes in fields that are not about who is charged for it, or for what. -/
  | change (p : Ptr) (f : JobRecord → JobRecord)
  /-- The record of a job that has finished is deleted. -/
  | delete (p : Ptr)

instance (env : Env) (c : Ctld) (p : Ptr) : Decidable (c.mayRestart env p) :=
  inferInstanceAs (Decidable (_ ∧ _))

namespace SubmitOp

/-- Carry out an operation. -/
def exec (env : Env) (c : Ctld) : SubmitOp → Ctld
  | submit now p desc rejected => (jobSubmit env now c p desc rejected).2
  | start now p q newId => startTask now c p q newId
  | complete now jobId uid requeue nodeFail rc =>
    (jobCompleteOne env now c jobId uid requeue nodeFail rc).2
  | signal now p sig flags uid preempt => (jobSignalPtr env now c p sig flags uid preempt).2
  | cancelTasks now p tasks uid =>
    Slurm.cancelTasks env now c p ((c.job p).waiting.getD ∅) tasks uid
  | cleanup now p => cleanupCompleting env now c p
  | change p f => c.modJob p f
  | delete p => c.listDeleteJob p

/-- When an operation is made. New records are at new addresses, and the number of jobs is
    limited (`max_job_cnt`, a number of 32 bits). -/
def ok (c : Ctld) : SubmitOp → Prop
  | submit _ p desc _ =>
    p ∉ c.jobList ∧ (∀ q ∈ c.jobList, (c.job q).jobId ≠ desc.jobId) ∧
      c.liveJobs + max 1 desc.arrayBitmap.card < 2 ^ 32
  | start _ p q _ => p ∈ c.jobList ∧ (c.job p).jobState.isPending ∧ q ∉ c.jobList
  | complete .. => True
  | signal _ p .. => p ∈ c.jobList
  | cancelTasks _ p .. =>
    p ∈ c.jobList ∧ (c.job p).jobState.isPending ∧ (c.job p).waiting.isSome
  | cleanup _ p => p ∈ c.jobList ∧ (c.job p).jobState.isCompleting
  | change p f =>
    p ∈ c.jobList ∧ (f (c.job p)).jobState.base = (c.job p).jobState.base ∧
      (f (c.job p)).standing = (c.job p).standing ∧ (f (c.job p)).billing = (c.job p).billing
  | delete p => p ∈ c.jobList ∧ (c.job p).jobState.isFinished

/-- A job that ends does not come back by its exit code, nor is it cancelled while its last
    run completes. Of the tasks that wait in a record, all are cancelled or none. -/
def EndsForGood (env : Env) (c : Ctld) : SubmitOp → Prop
  | complete _ jobId .. => ∀ p ∈ c.findJobRecord jobId, ¬c.mayRestart env p
  | signal _ p sig flags .. =>
    sig = sigKill → .fedRequeue ∉ flags ∧ ¬c.completesAgain p ∧ (c.hasNodes p → ¬c.comesBack env p)
  | cancelTasks _ p tasks _ =>
    (c.job p).waiting.getD ∅ ⊆ tasks ∨ Disjoint ((c.job p).waiting.getD ∅) tasks
  | cleanup _ p => (c.job p).jobState.isFinished →
    .requeue ∉ (c.job p).jobState.flags ∧ ¬(c.job p).requeuesOnExit env
  | _ => True

instance (env : Env) (c : Ctld) : ∀ o, Decidable (EndsForGood env c o)
  | submit .. | start .. | change .. | delete _ => .isTrue trivial
  | complete _ jobId .. =>
    inferInstanceAs (Decidable (∀ p ∈ c.findJobRecord jobId, ¬c.mayRestart env p))
  | signal _ _ sig .. => inferInstanceAs (Decidable (sig = sigKill → _))
  | cancelTasks .. => inferInstanceAs (Decidable (_ ∨ _))
  | cleanup .. => inferInstanceAs (Decidable (_ → _ ∧ _))

end SubmitOp

namespace Ctld.SubmitExact

variable {env : Env} {c c' : Ctld} {p : Ptr}

theorem completed (h : c.SubmitExact env) (hp : p ∈ c.jobList) (hc : Completed env p c c')
    (hno : ¬c.mayRestart env p) : c'.SubmitExact env := by
  rcases hc with ⟨hlive, hs, hend⟩ | ⟨hlive, hr, hpend⟩ | ⟨hm, hbase⟩
  · exact h.settles hp hlive hs (hend.finished hno)
  · exact h.requeues hp hlive hr hpend
  · exact h.minor hp hm (isFinished_of_base hbase)

theorem signalled {sig : ℕ} {flags : KillFlags} (h : c.SubmitExact env) (hp : p ∈ c.jobList)
    (hc : Signalled env p sig flags c c') (hno : sig = sigKill →
      .fedRequeue ∉ flags ∧ ¬c.completesAgain p ∧ (c.hasNodes p → ¬c.comesBack env p)) :
    c'.SubmitExact env := by
  rcases hc with ⟨hkill, hlive, hs, hend⟩ | ⟨hm, hbase | ⟨hkill, hagain, -⟩⟩
  · obtain ⟨hfed, -, hback⟩ := hno hkill
    exact h.settles hp hlive hs (hend.finished ⟨hfed, hback⟩)
  · exact h.minor hp hm (isFinished_of_base hbase)
  · exact absurd hagain (hno hkill).2.1

theorem cleaned (h : c.SubmitExact env) (hp : p ∈ c.jobList) (now : ℤ)
    (hno : (c.job p).jobState.isFinished →
      .requeue ∉ (c.job p).jobState.flags ∧ ¬(c.job p).requeuesOnExit env) :
    (cleanupCompleting env now c p).SubmitExact env := by
  obtain ⟨-, j, hj, hsame⟩ := cleanupCompleting_spec env now p c
  have hstate : j.jobState = (c.job p).jobState.clear .completing := of_part (·.jobState) hsame
  have hbase : j.jobState.base = (c.job p).jobState.base := by rw [hstate, clear_base]
  refine h.minor hp ((Minor.releaseFrame env p).cleanupCompleting env now c) ?_
  rw [hj]
  by_cases hfin : (c.job p).jobState.isFinished
  · -- nothing asks for another run
    have hexit : ¬j.requeuesOnExit env := by
      rw [of_part (·.requeuesOnExit env) hsame]
      exact (hno hfin).2
    have hflag : .requeue ∉ j.jobState.flags := by
      rw [hstate]
      exact fun h => (hno hfin).1 (Finset.mem_of_mem_erase h)
    rw [holdRequeue_eq_self hflag hexit, isFinished_of_base hbase]
  · rcases j.holdRequeue_base env with hsame | hpend
    · rw [isFinished_of_base (hsame.trans hbase)]
    · exact iff_of_false (by simp [isFinished, hpend]) hfin

theorem exec (o : SubmitOp) (h : c.SubmitExact env) (hok : o.ok c) (hends : o.EndsForGood env c) :
    (o.exec env c).SubmitExact env := by
  cases o with
  | submit now p desc rejected => exact h.jobSubmit now hok.1 hok.2.1 hok.2.2 rejected
  | start now p q newId => exact h.startTask hok.1 hok.2.2 hok.2.1 now newId
  | complete now jobId uid requeue nodeFail rc =>
    cases hfind : c.findJobRecord jobId with
    | none =>
      simp only [SubmitOp.exec, jobCompleteOne, hfind]
      exact h
    | some p =>
      exact h.completed (findJobRecord_mem hfind).1
        (jobCompleteOne_completed env now c p hfind uid requeue nodeFail rc) (hends p hfind)
  | signal now p sig flags uid preempt =>
    exact h.signalled hok (jobSignalPtr_signalled ..) hends
  | cancelTasks now p tasks uid =>
    obtain ⟨hp, hpend, hsome⟩ := hok
    obtain ⟨b, hb⟩ := isSome_iff_exists.1 hsome
    simp only [SubmitOp.EndsForGood, SubmitOp.exec, hb, getD_some] at hends ⊢
    exact h.cancelTasks hp (fun hfin => hfin.1 hpend) hb hends now uid
  | cleanup now p => exact h.cleaned hok.1 now hends
  | change p f =>
    obtain ⟨hp, hbase, hstanding, hbilling⟩ := hok
    refine h.minor hp (.setJob hstanding hbilling) (isFinished_of_base ?_)
    simp only [SubmitOp.exec, modJob_job_self]
    exact hbase
  | delete p => exact h.delete hok.1 hok.2

end Ctld.SubmitExact

/-- From a controller without jobs and without submitted ones, in every state of every run in
    which jobs end for good: every account counts the jobs and tasks that are charged to it and
    have not ended, and what will be taken off for a job is in the count. -/
theorem submitJobs_exact (env : Env) (c₀ : Ctld) (os : List SubmitOp) (h₀ : c₀.jobList = [])
    (hassocs : c₀.GoodAssocs) (hzero : ∀ x, c₀.submitJobs x = 0)
    (hrun : Run.Admissible (SubmitOp.exec env) (fun c o => o.ok c ∧ o.EndsForGood env c) c₀ os) :
    let c := Run.run (SubmitOp.exec env) c₀ os
    (∀ x, (c.submitJobs x).toNat = c.charged env x) ∧
      ∀ p ∈ c.jobList, ¬(c.job p).jobState.isFinished → ∀ x ∈ c.submitAccounts env (c.job p),
        (c.job p).submitCnt ≤ (c.submitJobs x).toNat := by
  intro c
  have hstart : c₀.SubmitExact env := by
    refine ⟨?_, hassocs, ?_, fun x => ?_, ?_⟩
    · simp [h₀]
    · simp [Ctld.liveJobs, h₀]
    · simp [Ctld.charged, h₀, hzero]
    · simp [h₀]
  have hinv : c.SubmitExact env :=
    Run.invariant_run (fun c o h hok => h.exec o hok.1 hok.2) hstart hrun
  refine ⟨hinv.count, fun p hp hlive x hx => ?_⟩
  rw [← liveCnt_of_live hlive]
  exact hinv.liveCnt_le hp hx

/-- A controller with limits for one user, whose jobs are charged to the association `1`. -/
def oneUser : Ctld := { assoc := fun _ => { id := 1, uid := 7 } }

/-- Limits are enforced, and jobs with the exit code one are run again. -/
def requeueOne : Env := { enforceLimits := true, requeueExit := {1} }

/-- An array of two tasks, of which one has started when the other is cancelled. -/
theorem submitJobs_exact_two :
    let desc : JobDesc :=
      { jobId := 5, userId := 7, assocId := 1, assocPtr := some 1, arrayBitmap := {1, 2} }
    let c := Run.run (SubmitOp.exec requeueOne) oneUser
      [.submit 0 1 desc false, .start 0 1 2 6, .cancelTasks 0 2 {2} 7]
    c.submitJobs (.assoc 1) = 1 ∧
      (c.submitJobs (.assoc 1)).toNat = c.charged requeueOne (.assoc 1) := by
  intro desc c
  have hexact := submitJobs_exact requeueOne oneUser
    [.submit 0 1 desc false, .start 0 1 2 6, .cancelTasks 0 2 {2} 7] rfl
    ⟨fun _ => nodup_singleton _, fun _ => Nat.one_ne_zero⟩ (fun x => by cases x <;> rfl)
    ⟨⟨⟨by decide, by decide, by decide⟩, trivial⟩, ⟨⟨by decide, by decide, by decide⟩, trivial⟩,
      ⟨⟨by decide, by decide, by decide⟩, by decide⟩, trivial⟩
  exact ⟨by decide, hexact.1 (.assoc 1)⟩

/-- Runs after which the count of the association is not that of its jobs. One of two waiting
    tasks is cancelled, and both are still counted. A job comes back by its exit code when its
    epilog has ended, and is not counted; when it ends once more, the count of an array
    wraps. -/
theorem submitJobs_inexact :
    let desc : JobDesc := { jobId := 5, userId := 7, assocId := 1, assocPtr := some 1 }
    let partCancelled : List SubmitOp :=
      [.submit 0 1 { desc with arrayBitmap := {1, 2} } false, .cancelTasks 0 1 {1} 7]
    let comesBack : List SubmitOp :=
      [.submit 0 1 desc false, .start 0 1 2 6, .change 1 fun j => { j with nodeBitmap := some {0} },
        .complete 0 5 7 false false 256, .cleanup 0 1,
        .submit 0 3 { desc with jobId := 7, arrayBitmap := {1, 2} } false, .start 0 1 2 6,
        .complete 0 5 7 false false 0, .cancelTasks 0 3 {1, 2} 7]
    (Run.Admissible (SubmitOp.exec requeueOne) (fun c o => o.ok c) oneUser partCancelled ∧
      Run.Admissible (SubmitOp.exec requeueOne) (fun c o => o.ok c) oneUser comesBack) ∧
    (∀ os ∈ [partCancelled, comesBack],
      let c := Run.run (SubmitOp.exec requeueOne) oneUser os
      ¬(c.submitJobs (.assoc 1)).toNat = c.charged requeueOne (.assoc 1)) ∧
    (Run.run (SubmitOp.exec requeueOne) oneUser comesBack).submitJobs (.assoc 1) = 4294967295 := by
  intro desc partCancelled comesBack
  have hnodes (c : Ctld) (hp : 1 ∈ c.jobList) :
      SubmitOp.ok c (.change 1 fun j => { j with nodeBitmap := some {0} }) := ⟨hp, rfl, rfl, rfl⟩
  refine ⟨⟨?_, ?_⟩, by decide, by decide⟩
  · exact ⟨⟨by decide, by decide, by decide⟩, ⟨by decide, by decide, by decide⟩, trivial⟩
  · exact ⟨⟨by decide, by decide, by decide⟩, ⟨by decide, by decide, by decide⟩,
      hnodes _ (by decide), trivial, ⟨by decide, by decide⟩, ⟨by decide, by decide, by decide⟩,
      ⟨by decide, by decide, by decide⟩, trivial, ⟨by decide, by decide, by decide⟩, trivial⟩

end Slurm
