import Slurm.Job.Array
import Slurm.Job.Settle
import Slurm.Lib.Count
import Slurm.Lib.Run

/-!
# The throttle of job arrays

The record of a job array counts the tasks that run (`tot_run_tasks`), and no task
is started while the count is at its limit (`job_array_start_test`). The count goes
up when a task starts (`job_array_start`), and down whenever the end of a job of the
array is logged (`job_completion_logger`), also if this job was never started.

What changes in these counts is in one relation, `Recounts`: a start adds one to the
count of the array of a job (`jobArrayStart_recounts`), the log of an end takes one
off (`jobCompletionLogger_recounts`), and everything else leaves it alone. In a run
in which no job of an array ends before it was started, unless no task of the array
runs, the count is the number of tasks that run, and stays within the limit
(`arrayThrottle_kept`).
-/

namespace Slurm

open JobRecord Option Ctld

/-- The job has started, and has not ended. -/
def JobRecord.isStarted (j : JobRecord) : Prop := j.jobState.isRunning ∨ j.jobState.isSuspended
  deriving Decidable

/-- The limit and the count of running tasks in the record of an array. -/
def JobRecord.throttle (j : JobRecord) : Option (ℕ × ℕ) :=
  j.arrayRecs.map fun r => (r.maxRunTasks, r.totRunTasks)

/-- Two records do not differ in what the counts of running tasks depend on, but for the
    state. -/
structure JobRecord.CountsAs (j j' : JobRecord) : Prop where
  jobId : j'.jobId = j.jobId
  arrayJobId : j'.arrayJobId = j.arrayJobId
  isArray : j'.isArray ↔ j.isArray
  throttle : j'.throttle = j.throttle

theorem JobRecord.CountsAs.refl (j : JobRecord) : j.CountsAs j := ⟨rfl, rfl, Iff.rfl, rfl⟩

namespace Ctld

variable (c : Ctld)

/-- The job `p` is a task of the array `a`, and runs. -/
def RunsFor (a : ℕ) (p : Ptr) : Prop :=
  (c.job p).isStarted ∧ (c.job p).isArray ∧ (c.job p).arrayJobId = a
  deriving Decidable

/-- How many tasks of the array `a` run. -/
def runningTasks (a : ℕ) : ℕ := c.jobList.countP (c.RunsFor a)

/-- The counts in the records of arrays are those of the tasks that run. -/
structure Throttle : Prop where
  nodup : c.jobList.Nodup
  ids : ∀ p ∈ c.jobList, ∀ q ∈ c.jobList, (c.job p).jobId = (c.job q).jobId → p = q
  base : ∀ p ∈ c.jobList, (c.job p).arrayRecs.isSome → (c.job p).arrayJobId = (c.job p).jobId
  count : ∀ p ∈ c.jobList, ∀ x ∈ (c.job p).throttle,
    x.2 = c.runningTasks (c.job p).jobId ∧ (x.1 ≠ 0 → x.2 ≤ x.1)

end Ctld

/-! ## Changes of the counts -/

/-- From `c` to `c'` the count in the record of the array of `p` changes by `f`. Whether
    other jobs than `p` are started does not change. -/
structure Recounts (p : Ptr) (f : ℕ → ℕ) (c c' : Ctld) : Prop where
  jobList : c'.jobList = c.jobList
  jobId : ∀ q, (c'.job q).jobId = (c.job q).jobId
  arrayJobId : ∀ q, (c'.job q).arrayJobId = (c.job q).arrayJobId
  isArray : ∀ q, (c'.job q).isArray ↔ (c.job q).isArray
  throttle : ∀ q, (c'.job q).throttle =
    if c.baseOf p = some q then (c.job q).throttle.map (Prod.map id f) else (c.job q).throttle
  others : ∀ q, q ≠ p → ((c'.job q).isStarted ↔ (c.job q).isStarted)

theorem JobRecord.throttle_isSome (j : JobRecord) : j.throttle.isSome = j.arrayRecs.isSome :=
  isSome_map ..

variable {j j' : JobRecord}

theorem JobRecord.CountsAs.ofRecs (hid : j'.jobId = j.jobId)
    (harray : j'.arrayJobId = j.arrayJobId) (htask : j'.arrayTaskId = j.arrayTaskId)
    (hthrottle : j'.throttle = j.throttle) : j.CountsAs j' := by
  refine ⟨hid, harray, ?_, hthrottle⟩
  simp only [JobRecord.isArray, htask, ← throttle_isSome, hthrottle]

namespace Recounts

variable {p : Ptr} {f g : ℕ → ℕ} {c c' c'' : Ctld}

theorem isSome (h : Recounts p f c c') (q : Ptr) :
    (c'.job q).arrayRecs.isSome = (c.job q).arrayRecs.isSome := by
  rw [← throttle_isSome, h.throttle]
  split_ifs
  · rw [isSome_map, throttle_isSome]
  · rw [throttle_isSome]

/-- Who holds the record of an array does not change with its count. -/
theorem baseOf (h : Recounts p f c c') (q : Ptr) : c'.baseOf q = c.baseOf q :=
  baseOf_of_ids h.jobList h.jobId h.isSome (h.arrayJobId q) (h.isArray q)

theorem refl (p : Ptr) (c : Ctld) : Recounts p id c c :=
  ⟨rfl, fun _ => rfl, fun _ => rfl, fun _ => Iff.rfl, fun q => by simp, fun _ _ => Iff.rfl⟩

theorem trans (h : Recounts p f c c') (h' : Recounts p g c' c'') : Recounts p (g ∘ f) c c'' where
  jobList := h'.jobList.trans h.jobList
  jobId q := (h'.jobId q).trans (h.jobId q)
  arrayJobId q := (h'.arrayJobId q).trans (h.arrayJobId q)
  isArray q := (h'.isArray q).trans (h.isArray q)
  throttle q := by
    rw [h'.throttle, h.baseOf, h.throttle]
    split_ifs
    · rw [map_map]
      rfl
    · rfl
  others q hq := (h'.others q hq).trans (h.others q hq)

/-- Whatever else changes in the record of one job, it is not the count of an array. -/
theorem ofJob (hlist : c'.jobList = c.jobList) (hothers : ∀ q, q ≠ p → c'.job q = c.job q)
    (hself : (c.job p).CountsAs (c'.job p)) : Recounts p id c c' := by
  have hall (q : Ptr) : (c.job q).CountsAs (c'.job q) := by
    rcases eq_or_ne q p with rfl | hq
    · exact hself
    · rw [hothers q hq]
      exact .refl _
  refine ⟨hlist, fun q => (hall q).jobId, fun q => (hall q).arrayJobId, fun q => (hall q).isArray,
    fun q => ?_, fun q hq => by rw [hothers q hq]⟩
  rw [(hall q).throttle, Prod.map_id, map_id, id_eq, ite_self]

theorem modJob {f : JobRecord → JobRecord} (hf : ∀ j : JobRecord, j.CountsAs (f j)) :
    Recounts p id c (c.modJob p f) :=
  ofJob rfl (fun _ hq => c.modJob_job_of_ne f hq) (by rw [modJob_job_self]; exact hf _)

theorem ofAlters (h : Alters p c c') : Recounts p id c c' := by
  have htask := of_part (·.arrayTaskId) h.identity
  refine ofJob h.jobList h.job ⟨of_part (·.jobId) h.identity,
    of_part (·.arrayJobId) h.identity, ?_, ?_⟩
  · rw [JobRecord.isArray, htask, h.arrayRecs, JobRecord.isArray]
  · rw [JobRecord.throttle, h.arrayRecs, JobRecord.throttle]

end Recounts

section

variable (c : Ctld) (p : Ptr) {f : ℕ → ℕ}

/-- The record of an array with another count. -/
theorem recounts_setJob {b : Ptr} {r r' : ArrayRecs} (hbase : c.arrayBase (c.job p) = some (b, r))
    (hr' : (r'.maxRunTasks, r'.totRunTasks) = (r.maxRunTasks, f r.totRunTasks)) :
    Recounts p f c (c.setJob b { c.job b with arrayRecs := some r' }) := by
  have hr := arrayBase_recs hbase
  have hb : c.baseOf p = some b := by rw [Ctld.baseOf, hbase, map_some]
  have hother (q : Ptr) (hq : q ≠ b) :
      (c.setJob b { c.job b with arrayRecs := some r' }).job q = c.job q := c.setJob_job_of_ne _ hq
  refine ⟨rfl, fun q => ?_, fun q => ?_, fun q => ?_, fun q => ?_, fun q _ => ?_⟩
  all_goals rcases eq_or_ne q b with rfl | hq
  · rw [setJob_job_self]
  · rw [hother q hq]
  · rw [setJob_job_self]
  · rw [hother q hq]
  · simp [isArray, hr]
  · rw [hother q hq]
  · rw [setJob_job_self, if_pos hb]
    simp only [throttle, hr, map_some, hr']
    rfl
  · rw [hother q hq, if_neg]
    rw [hb]
    exact fun h => hq (some.inj h).symm
  · rw [setJob_job_self]
    rfl
  · rw [hother q hq]

/-- Without a record of its array, nothing is counted for a job. -/
theorem recounts_of_baseOf_none (hbase : c.arrayBase (c.job p) = none) :
    Recounts p f c c := by
  refine ⟨rfl, fun _ => rfl, fun _ => rfl, fun _ => Iff.rfl, fun q => ?_, fun _ _ => Iff.rfl⟩
  simp [Ctld.baseOf, hbase]

theorem jobArrayStart_recounts : Recounts p (· + 1) c (jobArrayStart c p) := by
  simp only [jobArrayStart]
  cases hbase : c.arrayBase (c.job p) with
  | none => exact recounts_of_baseOf_none c p hbase
  | some br => exact recounts_setJob c p hbase rfl

theorem jobArrayComp_recounts (wasRunning : Bool) :
    Recounts p (fun n => if wasRunning then n - 1 else n) c (jobArrayComp c p wasRunning) := by
  simp only [jobArrayComp]
  cases hbase : c.arrayBase (c.job p) with
  | none => exact recounts_of_baseOf_none c p hbase
  | some br => exact recounts_setJob c p hbase rfl

variable (env : Env)

/-- The log of an end takes one off the count, whether the job was started or not. -/
theorem jobCompletionLogger_recounts : Recounts p (· - 1) c (jobCompletionLogger env c p) := by
  have husage : Recounts p id c (adjustLimitUsage env .remSubmit c p) :=
    .ofAlters (adjustLimitUsage_bookkeeping env c p .remSubmit).alters
  have hcomp := jobArrayComp_recounts (adjustLimitUsage env .remSubmit c p) p true
  have hlog (fin : Bool) (c' : Ctld) : Recounts p id c' (c'.modJob p (logEnd env fin)) := by
    refine .modJob fun j => ?_
    simp only [logEnd]
    split_ifs <;> exact ⟨rfl, rfl, Iff.rfl, rfl⟩
  exact (husage.trans hcomp).trans (hlog _ _)

end

/-! ## What the counts mean -/

namespace Ctld

variable {c c' : Ctld} {p : Ptr} {f : ℕ → ℕ}

/-- The record of the array of a job is the one with the id of the array. -/
theorem Throttle.baseOf_eq_some (h : c.Throttle) {b : Ptr} : c.baseOf p = some b ↔
    (c.job p).isArray ∧ b ∈ c.jobList ∧ (c.job b).jobId = (c.job p).arrayJobId ∧
      (c.job b).arrayRecs.isSome := by
  rw [baseOf, arrayBase]
  split_ifs with harray
  · simp only [harray, true_and]
    constructor
    · intro hbase
      obtain ⟨⟨b', r⟩, hbind, rfl⟩ := map_eq_some_iff.1 hbase
      obtain ⟨q, hq, hr⟩ := bind_eq_some_iff.1 hbind
      obtain ⟨r', hr', heq⟩ := map_eq_some_iff.1 hr
      obtain ⟨rfl, rfl⟩ := Prod.mk.inj heq
      obtain ⟨hmem, hid⟩ := (findJobRecord_eq_some h.ids).1 hq
      exact ⟨hmem, hid, by rw [hr']; rfl⟩
    · rintro ⟨hmem, hid, hrecs⟩
      obtain ⟨r, hr⟩ := isSome_iff_exists.1 hrecs
      rw [(findJobRecord_eq_some h.ids).2 ⟨hmem, hid⟩, bind_some, hr]
      rfl
  · simp [harray]

/-- How many tasks of an array run changes with the one job alone. -/
theorem runningTasks_recounts (hr : Recounts p f c c') (hnodup : c.jobList.Nodup)
    (hp : p ∈ c.jobList) (a : ℕ) :
    c'.runningTasks a + (if c.RunsFor a p then 1 else 0) =
      c.runningTasks a + if c'.RunsFor a p then 1 else 0 := by
  rw [runningTasks, runningTasks, hr.jobList]
  refine Count.countP_change hnodup hp fun q _ hq => ?_
  simp [RunsFor, hr.others q hq, hr.isArray, hr.arrayJobId]

/-- The counts stay right when that of the array of `p` changes as `p` does. -/
theorem Throttle.recounts (h : c.Throttle) (hp : p ∈ c.jobList) (hr : Recounts p f c c')
    (hcount : ∀ b m n, c.baseOf p = some b → (c.job b).throttle = some (m, n) →
      (c.job p).isArray → n = c.runningTasks (c.job p).arrayJobId → (m ≠ 0 → n ≤ m) →
      f n = c'.runningTasks (c.job p).arrayJobId ∧ (m ≠ 0 → f n ≤ m)) : c'.Throttle := by
  refine ⟨hr.jobList ▸ h.nodup, fun q hq r hr' => ?_, fun q hq hsome => ?_, fun q hq x hx => ?_⟩
  · rw [hr.jobList] at hq hr'
    rw [hr.jobId, hr.jobId]
    exact h.ids q hq r hr'
  · rw [hr.jobList] at hq
    rw [hr.arrayJobId, hr.jobId]
    exact h.base q hq (hr.isSome q ▸ hsome)
  · rw [hr.jobList] at hq
    rw [mem_def, hr.throttle] at hx
    rw [hr.jobId]
    split_ifs at hx with hbase
    · obtain ⟨⟨m, n⟩, hmn, rfl⟩ := map_eq_some_iff.1 hx
      obtain ⟨harray, hq, hid, -⟩ := h.baseOf_eq_some.1 hbase
      obtain ⟨hn, hm⟩ := h.count q hq (m, n) hmn
      rw [hid] at hn ⊢
      exact hcount q m n hbase hmn harray hn hm
    · obtain ⟨hx2, hx1⟩ := h.count q hq x hx
      -- The job is none of this array, whose record would be its base.
      have hnot (d : Ctld) (hd : Recounts p f c d ∨ d = c) : ¬d.RunsFor (c.job q).jobId p := by
        rintro ⟨-, harray, hid⟩
        refine hbase (h.baseOf_eq_some.2 ?_)
        rcases hd with hd | rfl
        · rw [hd.isArray] at harray
          rw [hd.arrayJobId] at hid
          exact ⟨harray, hq, hid.symm, by rw [← throttle_isSome, hx]; rfl⟩
        · exact ⟨harray, hq, hid.symm, by rw [← throttle_isSome, hx]; rfl⟩
      have hsame := runningTasks_recounts hr h.nodup hp (c.job q).jobId
      rw [if_neg (hnot c (.inr rfl)), if_neg (hnot c' (.inl hr))] at hsame
      exact ⟨hx2.trans hsame.symm, hx1⟩

/-- The job `p` has been started or has ended already, or no task of its array runs. -/
def MayEnd (c : Ctld) (p : Ptr) : Prop :=
  (c.job p).isStarted ∨ (c.job p).jobState.isFinished ∨
    ((c.job p).isArray → c.runningTasks (c.job p).arrayJobId = 0)
  deriving Decidable

/-- A job that ends is taken off the count. -/
theorem Throttle.ends (h : c.Throttle) (hp : p ∈ c.jobList) (hr : Recounts p (· - 1) c c')
    (hfin : ¬(c.job p).jobState.isFinished) (hend : ¬(c'.job p).isStarted) (hmay : c.MayEnd p) :
    c'.Throttle := by
  refine h.recounts hp hr fun b m n _ _ harray hn hm => ?_
  have hcount := runningTasks_recounts hr h.nodup hp (c.job p).arrayJobId
  have hend' : ¬c'.RunsFor (c.job p).arrayJobId p := fun hruns => hend hruns.1
  rw [if_neg hend'] at hcount
  refine ⟨?_, fun h0 => (Nat.sub_le n 1).trans (hm h0)⟩
  rcases hmay with hstarted | hended | hidle
  · have hruns : c.RunsFor (c.job p).arrayJobId p := ⟨hstarted, harray, rfl⟩
    rw [if_pos hruns] at hcount
    omega
  · exact absurd hended hfin
  · have hzero := hidle harray
    omega

/-- A job that goes on as it is does not change the counts. -/
theorem Throttle.stays (h : c.Throttle) (hp : p ∈ c.jobList) (hr : Recounts p id c c')
    (hstays : (c'.job p).isStarted ↔ (c.job p).isStarted) : c'.Throttle := by
  refine h.recounts hp hr fun b m n _ _ _ hn hm => ?_
  have hcount := runningTasks_recounts hr h.nodup hp (c.job p).arrayJobId
  have hsame : c'.RunsFor (c.job p).arrayJobId p ↔ c.RunsFor (c.job p).arrayJobId p := by
    simp [RunsFor, hstays, hr.isArray, hr.arrayJobId]
  simp only [hsame] at hcount
  refine ⟨?_, hm⟩
  simp only [id_eq]
  omega

/-- A job that starts is added to the count, which was below its limit. -/
theorem Throttle.starts (h : c.Throttle) (hp : p ∈ c.jobList) (hr : Recounts p (· + 1) c c')
    (hbefore : ¬(c.job p).isStarted) (hafter : (c'.job p).isStarted) (hfree : ¬c.throttled p) :
    c'.Throttle := by
  refine h.recounts hp hr fun b m n hbase hmn harray hn _ => ?_
  have hcount := runningTasks_recounts hr h.nodup hp (c.job p).arrayJobId
  have hruns : ¬c.RunsFor (c.job p).arrayJobId p := fun hruns => hbefore hruns.1
  have hruns' : c'.RunsFor (c.job p).arrayJobId p :=
    ⟨hafter, (hr.isArray p).2 harray, hr.arrayJobId p⟩
  rw [if_neg hruns, if_pos hruns'] at hcount
  refine ⟨by omega, fun hm => ?_⟩
  by_contra hlimit
  refine hfree ?_
  obtain ⟨⟨b', r⟩, hbr, hb'⟩ := map_eq_some_iff.1 hbase
  obtain rfl : b' = b := hb'
  have hthrottle : (c.job b').throttle = some (r.maxRunTasks, r.totRunTasks) := by
    rw [throttle, arrayBase_recs hbr, map_some]
  obtain ⟨rfl, rfl⟩ := Prod.mk.inj (some.inj (hmn.symm.trans hthrottle))
  exact ⟨(b', r), hbr, hm, by dsimp only; omega⟩

end Ctld

/-! ## Records that come, change and go -/

/-- Two records count the same. -/
structure JobRecord.SameCount (j j' : JobRecord) : Prop extends CountsAs j j' where
  isStarted : j'.isStarted ↔ j.isStarted

instance (j j' : JobRecord) : Decidable (j.SameCount j') :=
  decidable_of_iff ((j'.jobId = j.jobId ∧ j'.arrayJobId = j.arrayJobId ∧ (j'.isArray ↔ j.isArray) ∧
      j'.throttle = j.throttle) ∧ (j'.isStarted ↔ j.isStarted))
    ⟨fun ⟨⟨hid, harray, htask, hthrottle⟩, hstart⟩ => ⟨⟨hid, harray, htask, hthrottle⟩, hstart⟩,
      fun h => ⟨⟨h.jobId, h.arrayJobId, h.isArray, h.throttle⟩, h.isStarted⟩⟩

theorem JobRecord.SameCount.refl (j : JobRecord) : j.SameCount j := ⟨.refl j, Iff.rfl⟩

namespace Ctld

variable {c c' : Ctld} {p q : Ptr}

theorem countP_runsFor {l : List Ptr} (hjob : ∀ r ∈ l, (c.job r).SameCount (c'.job r)) (a : ℕ) :
    l.countP (c'.RunsFor a) = l.countP (c.RunsFor a) := by
  refine List.countP_congr fun r hr => ?_
  rw [decide_eq_true_iff, decide_eq_true_iff]
  simp [RunsFor, (hjob r hr).isStarted, (hjob r hr).isArray, (hjob r hr).arrayJobId]

/-- The counts do not depend on anything else in the records. -/
theorem Throttle.congr (h : c.Throttle) (hlist : c'.jobList = c.jobList)
    (hjob : ∀ r ∈ c.jobList, (c.job r).SameCount (c'.job r)) : c'.Throttle := by
  refine ⟨hlist ▸ h.nodup, fun r hr s hs hrs => ?_, fun r hr hsome => ?_, fun r hr x hx => ?_⟩
  all_goals rw [hlist] at hr
  · rw [hlist] at hs
    rw [(hjob r hr).jobId, (hjob s hs).jobId] at hrs
    exact h.ids r hr s hs hrs
  · rw [← throttle_isSome, (hjob r hr).throttle, throttle_isSome] at hsome
    rw [(hjob r hr).arrayJobId, (hjob r hr).jobId]
    exact h.base r hr hsome
  · rw [(hjob r hr).throttle] at hx
    rw [runningTasks, hlist, countP_runsFor hjob, (hjob r hr).jobId]
    exact h.count r hr x hx

/-- A record comes to the list, and its job is not started. -/
theorem Throttle.add (h : c.Throttle) (hq : q ∉ c.jobList) (hlist : c'.jobList = c.jobList ++ [q])
    (hjob : ∀ r ∈ c.jobList, (c.job r).SameCount (c'.job r))
    (hid : ∀ r ∈ c.jobList, (c.job r).jobId ≠ (c'.job q).jobId)
    (hbase : (c'.job q).arrayRecs.isSome → (c'.job q).arrayJobId = (c'.job q).jobId)
    (hidle : ¬(c'.job q).isStarted) (hcount : ∀ x ∈ (c'.job q).throttle,
      x.2 = c.runningTasks (c'.job q).jobId ∧ (x.1 ≠ 0 → x.2 ≤ x.1)) : c'.Throttle := by
  have hmem {r : Ptr} (hr : r ∈ c'.jobList) : r ∈ c.jobList ∨ r = q := by
    rwa [hlist, List.mem_append, List.mem_singleton] at hr
  have hruns (a : ℕ) : c'.runningTasks a = c.runningTasks a := by
    have hnew : ¬c'.RunsFor a q := fun hruns => hidle hruns.1
    rw [runningTasks, hlist, List.countP_append, countP_runsFor hjob, List.countP_singleton,
      if_neg (by simpa using hnew)]
    rfl
  refine ⟨?_, fun r hr s hs hrs => ?_, fun r hr hsome => ?_, fun r hr x hx => ?_⟩
  · rw [hlist, ← List.concat_eq_append]
    exact h.nodup.concat hq
  · rcases hmem hr with hr | rfl <;> rcases hmem hs with hs | rfl
    · rw [(hjob r hr).jobId, (hjob s hs).jobId] at hrs
      exact h.ids r hr s hs hrs
    · rw [(hjob r hr).jobId] at hrs
      exact absurd hrs (hid r hr)
    · rw [(hjob s hs).jobId] at hrs
      exact absurd hrs.symm (hid s hs)
    · rfl
  · rcases hmem hr with hr | rfl
    · rw [← throttle_isSome, (hjob r hr).throttle, throttle_isSome] at hsome
      rw [(hjob r hr).arrayJobId, (hjob r hr).jobId]
      exact h.base r hr hsome
    · exact hbase hsome
  · rw [hruns]
    rcases hmem hr with hr | rfl
    · rw [(hjob r hr).throttle] at hx
      rw [(hjob r hr).jobId]
      exact h.count r hr x hx
    · exact hcount x hx

/-- The record of a job that does not run leaves the list. -/
theorem Throttle.delete (h : c.Throttle) (hidle : ¬(c.job p).isStarted) :
    (c.listDeleteJob p).Throttle := by
  have hmem {r : Ptr} (hr : r ∈ (c.listDeleteJob p).jobList) : r ∈ c.jobList := List.mem_of_mem_erase hr
  refine ⟨h.nodup.erase p, fun r hr s hs => h.ids r (hmem hr) s (hmem hs),
    fun r hr => h.base r (hmem hr), fun r hr x hx => ?_⟩
  have hruns (a : ℕ) : (c.listDeleteJob p).runningTasks a = c.runningTasks a := by
    have hnot : ¬c.RunsFor a p := fun hruns => hidle hruns.1
    have herase := List.countP_erase (fun r => decide (c.RunsFor a r)) c.jobList p
    rw [if_neg (by simp [hnot]), Nat.sub_zero] at herase
    exact herase
  rw [hruns]
  exact h.count r (hmem hr) x hx

end Ctld

/-! ## Ends -/

/-- From `c` to `c'` the job `p` ends and is taken off the count, or goes on as it is. -/
def EndsOrStays (p : Ptr) (c c' : Ctld) : Prop :=
  (¬(c.job p).jobState.isFinished ∧ Recounts p (· - 1) c c' ∧ ¬(c'.job p).isStarted) ∨
    (Recounts p id c c' ∧ ((c'.job p).isStarted ↔ (c.job p).isStarted))

theorem JobRecord.isStarted_of_base (h : j'.jobState.base = j.jobState.base) :
    j'.isStarted ↔ j.isStarted := by
  simp [isStarted, JobState.isRunning, JobState.isSuspended, h]

theorem JobRecord.not_isStarted_of_base {b : JobBase} (h : j.jobState.base = b)
    (hb : b ≠ .running ∧ b ≠ .suspended) : ¬j.isStarted := by
  rintro (hrun | hsusp)
  · exact hb.1 (h.symm.trans hrun)
  · exact hb.2 (h.symm.trans hsusp)

theorem Ended.not_isStarted {stays : Prop} (h : Ended stays j) : ¬j.isStarted := by
  rcases h.past with hfin | hpend
  · exact not_isStarted_of_base rfl hfin.2
  · exact not_isStarted_of_base hpend (by decide)

section

variable {env : Env} {p : Ptr} {c c' : Ctld} {flags : KillFlags} {signal : ℕ}

theorem Recounts.ofMinor (h : Minor env p c c') : Recounts p id c c' :=
  .ofJob h.jobList h.others (.ofRecs (of_part (·.jobId) h.standing)
    (of_part (·.arrayJobId) h.standing) (of_part (·.arrayTaskId) h.standing)
    (of_part (·.throttle) h.standing))

theorem Settles.recounts (h : Settles env p c c') : Recounts p (· - 1) c c' := by
  obtain ⟨c1, hstart, hend⟩ := h
  exact (Recounts.ofMinor hstart).trans ((jobCompletionLogger_recounts ..).trans (.ofMinor hend))

theorem Requeues.recounts (h : Requeues env p c c') : Recounts p (· - 1) c c' := by
  obtain ⟨c1, hsettles, hend⟩ := h
  have husage : Recounts p id c1 (adjustLimitUsage env .addSubmit c1 p) :=
    .ofAlters (adjustLimitUsage_bookkeeping env c1 p .addSubmit).alters
  exact hsettles.recounts.trans (husage.trans (.ofMinor hend))

/-- A signal that is not to kill a job leaves it as it is. -/
theorem Signalled.stays (h : Signalled env p signal flags c c') (hsignal : signal ≠ sigKill) :
    Recounts p id c c' ∧ ((c'.job p).isStarted ↔ (c.job p).isStarted) := by
  rcases h with ⟨hkill, -⟩ | ⟨hminor, hbase | ⟨hkill, -⟩⟩
  · exact absurd hkill hsignal
  · exact ⟨.ofMinor hminor, isStarted_of_base hbase⟩
  · exact absurd hkill hsignal

theorem Signalled.endsOrStays (h : Signalled env p signal flags c c') : EndsOrStays p c c' := by
  rcases h with ⟨-, hfin, hsettles, hended⟩ | ⟨hminor, hbase | ⟨-, hagain, hbase⟩⟩
  · exact .inl ⟨hfin, hsettles.recounts, hended.not_isStarted⟩
  · exact .inr ⟨.ofMinor hminor, isStarted_of_base hbase⟩
  · -- A requeued job whose nodes are still completing its last run is not started.
    refine .inr ⟨.ofMinor hminor, iff_of_false ?_ ?_⟩
    · exact not_isStarted_of_base hbase (by decide)
    · exact not_isStarted_of_base hagain.1 (by decide)

theorem Completed.endsOrStays (h : Completed env p c c') : EndsOrStays p c c' := by
  rcases h with ⟨hfin, hsettles, hended⟩ | ⟨hfin, hrequeues, hpend⟩ | ⟨hminor, hbase⟩
  · exact .inl ⟨hfin, hsettles.recounts, hended.not_isStarted⟩
  · have hended : Ended False (c'.job p) := ⟨.inr hpend, False.elim⟩
    exact .inl ⟨hfin, hrequeues.recounts, hended.not_isStarted⟩
  · exact .inr ⟨.ofMinor hminor, isStarted_of_base hbase⟩

end

section

variable (env : Env) (now : ℤ) (c : Ctld) (p : Ptr)

/-- The count changes with the tasks that wait, only if none of them is left. -/
theorem cancelTasks_recounts (pending tasks : Bitmap) (uid : ℕ) :
    let c' := cancelTasks env now c p pending tasks uid
    (Recounts p (· - 1) c c' ∧ pending \ tasks = ∅ ∨ Recounts p id c c') ∧
      ((c'.job p).isStarted → (c.job p).isStarted) := by
  have hleave : Recounts p id c (c.modJob p (leaveTasks (pending \ tasks))) := by
    refine .modJob fun j => .ofRecs rfl rfl rfl ?_
    simp only [throttle, leaveTasks, map_map]
    rfl
  have hset (n : ℕ) (c' : Ctld) : Recounts p id c' (c'.modJob p (setTaskCnt n)) := by
    refine .modJob fun j => .ofRecs rfl rfl rfl ?_
    simp only [throttle, setTaskCnt, map_map]
    rfl
  have hcount (n : ℤ) (c' : Ctld) : Recounts p id c' { c' with jobCount := n } :=
    .ofJob rfl (fun _ _ => rfl) (.refl _)
  have hself : (c.modJob p (leaveTasks (pending \ tasks))).job p =
    (c.job p).leaveTasks (pending \ tasks) := modJob_job_self ..
  simp only [cancelTasks]
  generalize c.modJob p (leaveTasks (pending \ tasks)) = c1 at *
  split_ifs with hempty
  · have hcancel : Recounts p id c1 (Ctld.modJob { c1 with lastJobUpdate := now } p
        (cancelPending now uid)) :=
      .ofJob rfl (fun q hq => modJob_job_of_ne _ _ hq)
        (by rw [modJob_job_self]; exact ⟨rfl, rfl, Iff.rfl, rfl⟩)
    have hlog := hcancel.trans (jobCompletionLogger_recounts _ p env)
    refine ⟨.inl ⟨hleave.trans (hlog.trans ((hcount _ _).trans (hset _ _))),
      Finset.card_eq_zero.1 hempty⟩, fun hstarted => ?_⟩
    rw [modJob_job_self] at hstarted
    refine absurd hstarted ?_
    have hbase := jobCompletionLogger_base env (Ctld.modJob { c1 with lastJobUpdate := now } p
      (cancelPending now uid)) p p
    rw [modJob_job_self] at hbase
    exact not_isStarted_of_base (b := .cancelled) hbase (by decide)
  · have hcomp : Recounts p id c1 (jobArrayComp c1 p false) := jobArrayComp_recounts c1 p false
    refine ⟨.inr (hleave.trans (hcomp.trans ((hcount _ _).trans (hset _ _)))), fun hstarted => ?_⟩
    rw [modJob_job_self] at hstarted
    have hstate := jobArrayComp_jobState c1 p p false
    rw [hself] at hstate
    have hbase : ((jobArrayComp c1 p false).job p).jobState.base = (c.job p).jobState.base :=
      congrArg JobState.base hstate
    exact (isStarted_of_base hbase).1 hstarted

end

/-! ## Starts -/

/-- Start a task whose array has a free place: the part of `select_nodes` that concerns job
    arrays. -/
def startTask (now : ℤ) (c : Ctld) (p q : Ptr) (newId : ℕ) : Ctld :=
  let c := c.modJob p arrayPreSched
  let c := jobArrayPostSched now c p q newId
  let c := jobArrayStart c p
  c.modJob p fun j => { j with jobState := ⟨.running, ∅⟩ }

namespace Ctld

variable {c c' : Ctld} {p q : Ptr}

theorem throttled_iff : c.throttled p ↔
    ∃ b, c.baseOf p = some b ∧ ∃ x ∈ (c.job b).throttle, x.1 ≠ 0 ∧ x.1 ≤ x.2 := by
  constructor
  · rintro ⟨⟨b, r⟩, hbr, hmax, htot⟩
    refine ⟨b, by rw [baseOf, mem_def.1 hbr, map_some], (r.maxRunTasks, r.totRunTasks),
      ?_, hmax, htot⟩
    rw [throttle, arrayBase_recs (mem_def.1 hbr), map_some, mem_some_iff]
  · rintro ⟨b, hb, x, hx, hmax, htot⟩
    obtain ⟨⟨b', r⟩, hbr, rfl⟩ := map_eq_some_iff.1 hb
    rw [throttle, arrayBase_recs hbr, map_some, mem_some_iff] at hx
    subst hx
    exact ⟨(b', r), hbr, hmax, htot⟩

/-- A recount that changes nothing leaves a task throttled or free. -/
theorem throttled_recounts (hr : Recounts p id c c') : c'.throttled p ↔ c.throttled p := by
  have hsame (b : Ptr) : (c'.job b).throttle = (c.job b).throttle := by
    rw [hr.throttle, Prod.map_id, map_id, id_eq, ite_self]
  simp [throttled_iff, hr.baseOf, hsame]

theorem Throttle.preSched (h : c.Throttle) (hp : p ∈ c.jobList) :
    Recounts p id c (c.modJob p arrayPreSched) := by
  refine .ofJob rfl (fun r hr => modJob_job_of_ne _ _ hr) ?_
  rw [modJob_job_self, arrayPreSched]
  cases hb : (c.job p).waiting with
  | none => exact .refl _
  | some b =>
    cases hr : (c.job p).arrayRecs with
    | none => simp [waiting, hr] at hb
    | some r =>
      have hbase := h.base p hp (by rw [hr]; rfl)
      dsimp only
      split_ifs
      · refine ⟨rfl, hbase.symm, ?_, ?_⟩
        · simp [isArray, hr]
        · simp [throttle, hr]
      · refine .ofRecs rfl rfl rfl ?_
        simp [throttle, hr]

/-- The last of the waiting tasks stays in the record with the counts. -/
theorem postSched_recounts (now : ℤ) (newId : ℕ)
    (hlast : (c.job p).waiting = none ∨ (c.job p).arrayRecs.elim 0 (·.taskCnt) ≤ 1) :
    Recounts p id c (jobArrayPostSched now c p q newId) ∧
      ((jobArrayPostSched now c p q newId).job p).jobState.base = (c.job p).jobState.base := by
  have htask : Recounts p id c (c.modJob p lastTask) := by
    refine .modJob fun j => .ofRecs rfl rfl rfl ?_
    simp only [throttle, lastTask, map_map]
    rfl
  obtain heq | ⟨-, hash, heq⟩ := jobArrayPostSched_of_last now newId hlast
  · rw [heq]
    exact ⟨.refl p c, rfl⟩
  · have hhash (c : Ctld) : Recounts p id c { c with jobArrayHash := hash } :=
      .ofJob rfl (fun _ _ => rfl) (.refl _)
    rw [heq]
    refine ⟨htask.trans (hhash _), ?_⟩
    exact congrArg (·.jobState.base) (c.modJob_job_self ..)

section

variable {newId : ℕ} (h : c.Throttle) (hp : p ∈ c.jobList)
  (hnew : ∀ r ∈ c.jobList, (c.job r).jobId ≠ newId)

include h hp hnew

/-- The task that was tried leaves the record of its array, which then is nobody's. -/
theorem Throttle.leaves (hidle : ¬(c.job p).isStarted) :
    (c.modJob p (splitTask newId)).Throttle ∧
      ∀ a, (c.modJob p (splitTask newId)).runningTasks a = c.runningTasks a := by
  have hself : (c.modJob p (splitTask newId)).job p = (c.job p).splitTask newId :=
    modJob_job_self ..
  have hother (r : Ptr) (hr : r ≠ p) : (c.modJob p (splitTask newId)).job r = c.job r :=
    modJob_job_of_ne _ _ hr
  have hcount (a : ℕ) : (c.modJob p (splitTask newId)).runningTasks a = c.runningTasks a := by
    refine List.countP_congr fun r _ => ?_
    rw [decide_eq_true_iff, decide_eq_true_iff]
    rcases eq_or_ne r p with rfl | hr
    · simp only [RunsFor, hself]
      exact iff_of_false (fun hruns => hidle hruns.1) fun hruns => hidle hruns.1
    · simp [RunsFor, hother r hr]
  refine ⟨⟨h.nodup, fun r hr s hs hrs => ?_, fun r hr hsome => ?_, fun r hr x hx => ?_⟩, hcount⟩
  · rcases eq_or_ne r p with rfl | hrp <;> rcases eq_or_ne s r with rfl | hsr
    · rfl
    · rw [hself, hother s hsr] at hrs
      exact absurd hrs.symm (hnew s hs)
    · rfl
    · rcases eq_or_ne s p with rfl | hsp
      · rw [hself, hother r hrp] at hrs
        exact absurd hrs (hnew r hr)
      · rw [hother r hrp, hother s hsp] at hrs
        exact h.ids r hr s hs hrs
  · rcases eq_or_ne r p with rfl | hrp
    · rw [hself] at hsome
      cases hsome
    · rw [hother r hrp] at hsome ⊢
      exact h.base r hr hsome
  · rcases eq_or_ne r p with rfl | hrp
    · rw [hself] at hx
      cases hx
    · rw [hother r hrp] at hx ⊢
      rw [hcount]
      exact h.count r hr x hx

/-- The record for the tasks that are left has the counts of the array. -/
theorem Throttle.splits (hq : q ∉ c.jobList) (hrecs : (c.job p).arrayRecs.isSome)
    (hidle : ¬(c.job p).isStarted) (hs : SplitsOff p q newId c c') :
    c'.Throttle ∧ (c'.throttled p → c.throttled p) := by
  obtain ⟨h1, hcount⟩ := h.leaves hp hnew hidle
  have hthrottle : (c'.job q).throttle = (c.job p).throttle := by
    rw [hs.pend]
    simp only [throttle, splitPend, map_map]
    rfl
  have hid : (c'.job q).jobId = (c.job p).jobId := by
    rw [hs.pend]
    rfl
  have h' : c'.Throttle := by
    refine h1.add hq hs.jobList (fun r hr => ?_) (fun r hr => ?_) (fun _ => ?_) ?_ fun x hx => ?_
    · rcases eq_or_ne r p with rfl | hrp
      · rw [hs.task, modJob_job_self]
        exact .refl _
      · rw [hs.others r hrp fun hrq => hq (hrq ▸ hr), modJob_job_of_ne _ _ hrp]
        exact .refl _
    · rw [hid]
      rcases eq_or_ne r p with rfl | hrp
      · rw [modJob_job_self]
        exact (hnew r hr).symm
      · rw [modJob_job_of_ne _ _ hrp]
        exact fun heq => hrp (h.ids r hr p hp heq)
    · have harray : (c'.job q).arrayJobId = (c.job p).arrayJobId := by
        rw [hs.pend]
        rfl
      rw [harray, hid]
      exact h.base p hp hrecs
    · rw [hs.pend]
      exact not_isStarted_of_base (b := .pending) rfl (by decide)
    · rw [hid, hcount]
      exact h.count p hp x (hthrottle ▸ hx)
  refine ⟨h', fun hlimit => ?_⟩
  obtain ⟨b, hb, x, hx, hmax⟩ := throttled_iff.1 hlimit
  obtain ⟨-, hmem, hbid, -⟩ := h'.baseOf_eq_some.1 hb
  have hbase := h.base p hp hrecs
  have hbq : b = q := by
    refine h'.ids b hmem q (by simp [hs.jobList]) ?_
    rw [hbid, hs.task, hid]
    exact hbase
  subst hbq
  have hself : c.baseOf p = some p := h.baseOf_eq_some.2 ⟨.inr hrecs, hp, hbase.symm, hrecs⟩
  exact throttled_iff.2 ⟨p, hself, x, hthrottle ▸ hx, hmax⟩

/-- A task that has its resources is not counted before it starts. -/
theorem Throttle.postSched (hq : q ∉ c.jobList) (hidle : ¬(c.job p).isStarted) (now : ℤ) :
    let c' := jobArrayPostSched now c p q newId
    c'.Throttle ∧ p ∈ c'.jobList ∧ ¬(c'.job p).isStarted ∧ (c'.throttled p → c.throttled p) := by
  intro c'
  by_cases hlast : (c.job p).waiting = none ∨ (c.job p).arrayRecs.elim 0 (·.taskCnt) ≤ 1
  · obtain ⟨hr, hbase⟩ := postSched_recounts now newId hlast
    have hsame := isStarted_of_base hbase
    exact ⟨h.stays hp hr hsame, hr.jobList ▸ hp, fun hstarted => hidle (hsame.1 hstarted),
      (throttled_recounts hr).1⟩
  · rw [not_or] at hlast
    obtain ⟨hwait, hcnt⟩ := hlast
    have hne : p ≠ q := fun hpq => hq (hpq ▸ hp)
    have hs := jobArrayPostSched_splitsOff now newId hwait hcnt hne
    have hrecs : (c.job p).arrayRecs.isSome := by
      cases hr : (c.job p).arrayRecs with
      | none => simp [waiting, hr] at hwait
      | some r => rfl
    obtain ⟨h', hfree⟩ := h.splits hp hnew hq hrecs hidle hs
    refine ⟨h', ?_, ?_, hfree⟩
    · rw [hs.jobList]
      exact List.mem_append_left _ hp
    · rw [hs.task]
      exact hidle

theorem Throttle.startTask (hq : q ∉ c.jobList) (hpend : (c.job p).jobState.isPending)
    (hfree : ¬c.throttled p) (now : ℤ) : (startTask now c p q newId).Throttle := by
  have hidle : ¬(c.job p).isStarted := not_isStarted_of_base hpend (by decide)
  have hpre := h.preSched hp
  have hsame : ((c.modJob p arrayPreSched).job p).isStarted ↔ (c.job p).isStarted := by
    refine isStarted_of_base ?_
    rw [modJob_job_self, arrayPreSched]
    split
    · rfl
    · split_ifs <;> rfl
  have hrun (c : Ctld) : Recounts p id c (c.modJob p fun j => { j with jobState := ⟨.running, ∅⟩ }) :=
    .modJob fun _ => ⟨rfl, rfl, Iff.rfl, rfl⟩
  have hnew' (r : Ptr) (hr : r ∈ (c.modJob p arrayPreSched).jobList) :
      ((c.modJob p arrayPreSched).job r).jobId ≠ newId := by
    rw [hpre.jobId]
    exact hnew r (hpre.jobList ▸ hr)
  obtain ⟨h2, hp2, hidle2, hfree2⟩ := (h.stays hp hpre hsame).postSched (hpre.jobList ▸ hp)
    hnew' (hpre.jobList ▸ hq) (fun hstarted => hidle (hsame.1 hstarted)) now
  refine h2.starts hp2 ((jobArrayStart_recounts _ p).trans (hrun _)) hidle2 ?_ fun hlimit => ?_
  · rw [Slurm.startTask, modJob_job_self]
    exact .inl rfl
  · exact hfree ((throttled_recounts hpre).1 (hfree2 hlimit))

end

end Ctld

/-! ## Runs -/

/-- What happens to the jobs of a controller, as far as the tasks that run are concerned. -/
inductive ThrottleOp
  /-- A job or an array is submitted; its record is at the address `p`. -/
  | create (now : ℤ) (p : Ptr) (desc : JobDesc) (rejected : Bool)
  /-- The job `p` is started. The record for the tasks that are left, if there are any, is at
      the address `q`, and the id of the job is `newId` then. -/
  | start (now : ℤ) (p q : Ptr) (newId : ℕ)
  /-- A job is complete, or has to be run again. -/
  | complete (now : ℤ) (jobId uid : ℕ) (requeue nodeFail : Bool) (rc : ℕ)
  /-- A job gets a signal. -/
  | signal (now : ℤ) (p : Ptr) (sig : ℕ) (flags : KillFlags) (uid : ℕ) (preempt : Bool)
  /-- Of the tasks that wait in the record `p`, those among `tasks` are cancelled. -/
  | cancelTasks (now : ℤ) (p : Ptr) (tasks : Bitmap) (uid : ℕ)
  /-- A record changes in fields that are not about tasks that run. -/
  | change (p : Ptr) (f : JobRecord → JobRecord)
  /-- The record of a job that has finished is deleted. -/
  | delete (p : Ptr)

namespace ThrottleOp

/-- Carry out an operation. -/
def exec (env : Env) (c : Ctld) : ThrottleOp → Ctld
  | create now p desc rejected => (jobCreate env now c p desc rejected).2
  | start now p q newId => startTask now c p q newId
  | complete now jobId uid requeue nodeFail rc =>
    (jobCompleteOne env now c jobId uid requeue nodeFail rc).2
  | signal now p sig flags uid preempt => (jobSignalPtr env now c p sig flags uid preempt).2
  | cancelTasks now p tasks uid =>
    Slurm.cancelTasks env now c p ((c.job p).waiting.getD ∅) tasks uid
  | change p f => c.modJob p f
  | delete p => c.listDeleteJob p

/-- When an operation is made. A job is started only if `job_array_start_test` lets it. New
    records are at new addresses, and get ids that no record has; the id of an array is not
    given to another one as long as one of its tasks has a record. -/
def ok (c : Ctld) : ThrottleOp → Prop
  | create _ p desc _ =>
    p ∉ c.jobList ∧ ∀ q ∈ c.jobList, (c.job q).jobId ≠ desc.jobId ∧
      ((c.job q).isArray → (c.job q).arrayJobId ≠ desc.jobId)
  | start _ p q newId =>
    p ∈ c.jobList ∧ (c.job p).jobState.isPending ∧ (jobArrayStartTest c p).1 ∧
      q ∉ c.jobList ∧ ∀ r ∈ c.jobList, (c.job r).jobId ≠ newId
  | complete .. => True
  | signal _ p .. => p ∈ c.jobList
  | cancelTasks _ p .. =>
    p ∈ c.jobList ∧ (c.job p).jobState.isPending ∧ (c.job p).waiting.isSome
  | change p f => p ∈ c.jobList ∧ (c.job p).SameCount (f (c.job p))
  | delete p => p ∈ c.jobList ∧ (c.job p).jobState.isFinished

instance (c : Ctld) : ∀ o, Decidable (ok c o)
  | complete .. => .isTrue trivial
  | signal .. => inferInstanceAs (Decidable (_ ∈ _))
  | create .. | start .. | cancelTasks .. | change .. | delete _ =>
    inferInstanceAs (Decidable (_ ∧ _))

/-- A job that the operation ends was started, or no task of its array runs. -/
def EndsStarted (c : Ctld) : ThrottleOp → Prop
  | complete _ jobId .. => ∀ p ∈ c.findJobRecord jobId, c.MayEnd p
  | signal _ p sig .. => sig = sigKill → c.MayEnd p
  | cancelTasks _ p tasks _ => (c.job p).waiting.getD ∅ ⊆ tasks → c.MayEnd p
  | _ => True

instance (c : Ctld) : ∀ o, Decidable (EndsStarted c o)
  | create .. | start .. | change .. | delete _ => .isTrue trivial
  | complete _ jobId .. => inferInstanceAs (Decidable (∀ p ∈ c.findJobRecord jobId, c.MayEnd p))
  | signal _ p sig .. => inferInstanceAs (Decidable (sig = sigKill → c.MayEnd p))
  | cancelTasks _ p tasks _ =>
    inferInstanceAs (Decidable ((c.job p).waiting.getD ∅ ⊆ tasks → c.MayEnd p))

end ThrottleOp

namespace Ctld.Throttle

variable {c c' : Ctld} {p : Ptr}

theorem endsOrStays (h : c.Throttle) (hp : p ∈ c.jobList) (he : EndsOrStays p c c')
    (hmay : c.MayEnd p) : c'.Throttle := by
  rcases he with ⟨hfin, hr, hend⟩ | ⟨hr, hsame⟩
  · exact h.ends hp hr hfin hend hmay
  · exact h.stays hp hr hsame

theorem sameCount_of_sansRequest (h : c'.sansRequest = c.sansRequest) (q : Ptr) :
    (c.job q).SameCount (c'.job q) := by
  have hq := sansRequest_job h q
  have hstate := of_part (·.jobState) hq
  exact ⟨.ofRecs (of_part (·.jobId) hq) (of_part (·.arrayJobId) hq)
    (of_part (·.arrayTaskId) hq) (of_part (·.throttle) hq),
    isStarted_of_base (congrArg JobState.base hstate)⟩

/-- No task of an array that is new runs. -/
theorem jobCreate (h : c.Throttle) (env : Env) (now : ℤ) {desc : JobDesc} (hp : p ∉ c.jobList)
    (hid : ∀ q ∈ c.jobList, (c.job q).jobId ≠ desc.jobId ∧
      ((c.job q).isArray → (c.job q).arrayJobId ≠ desc.jobId)) (rejected : Bool) :
    (jobCreate env now c p desc rejected).2.Throttle := by
  obtain ⟨c', hsans, hcases⟩ := jobCreate_cases env now c p desc rejected
  have hlist : c'.sansRequest.jobList = c.jobList ++ [p] := by rw [hsans]; rfl
  have hsame (q : Ptr) (hq : q ∈ c.jobList) : (c.job q).SameCount (c'.job q) := by
    have hsame := sameCount_of_sansRequest hsans q
    rwa [addJob_job_of_mem hp hq] at hsame
  have hself := sameCount_of_sansRequest hsans p
  rw [addJob_job_self] at hself
  rcases hcases with ⟨-, hc⟩ | ⟨-, hc⟩
  · rw [hc]
    refine h.congr (purgeJob_jobList hlist hself.jobId fun q hq => ?_) hsame
    rw [(hsame q hq).jobId]
    exact (hid q hq).1
  · have hidle : ¬(c'.job p).isStarted := by
      rw [hself.isStarted]
      exact not_isStarted_of_base (b := .pending) rfl (by decide)
    have hjobId : (c'.job p).jobId = desc.jobId := hself.jobId
    have hnone : (c'.job p).throttle = none := hself.throttle
    have hidle0 : c.runningTasks desc.jobId = 0 := by
      refine List.countP_eq_zero.2 fun q hq => ?_
      rw [decide_eq_true_eq]
      exact fun hruns => (hid q hq).2 hruns.2.1 hruns.2.2
    have hdesc : ((c'.createArray p desc).job p).jobId = desc.jobId := by
      rw [createArray_job_self]
      split_ifs <;> exact hjobId
    rw [hc]
    refine h.add hp ((createArray_jobList ..).trans hlist) (fun q hq => ?_) (fun q hq => ?_) ?_ ?_ ?_
    · have hqp : q ≠ p := fun hqp => hp (hqp ▸ hq)
      rw [createArray_job_of_ne _ _ _ hqp]
      exact hsame q hq
    · rw [hdesc]
      exact (hid q hq).1
    · rw [createArray_job_self]
      split_ifs
      · rw [← throttle_isSome, hnone]
        exact fun hsome => by cases hsome
      · exact fun _ => rfl
    · rw [createArray_job_self]
      split_ifs <;> exact hidle
    · rw [hdesc, hidle0, createArray_job_self]
      split_ifs
      · rw [hnone]
        exact fun x hx => by cases hx
      · intro x hx
        obtain rfl : (desc.maxRunTasks, 0) = x := some.inj hx
        exact ⟨rfl, fun _ => Nat.zero_le _⟩

theorem cancelTasks (h : c.Throttle) (hp : p ∈ c.jobList) (hpend : (c.job p).jobState.isPending)
    (env : Env) (now : ℤ) {pending tasks : Bitmap} (hmay : pending ⊆ tasks → c.MayEnd p) (uid : ℕ) :
    (cancelTasks env now c p pending tasks uid).Throttle := by
  have hidle : ¬(c.job p).isStarted := not_isStarted_of_base hpend (by decide)
  obtain ⟨hr, hstart⟩ := cancelTasks_recounts env now c p pending tasks uid
  have hend := fun hstarted => hidle (hstart hstarted)
  rcases hr with ⟨hr, hleft⟩ | hr
  · refine h.ends hp hr (fun hfin => hfin.1 hpend) hend ?_
    exact hmay (Finset.sdiff_eq_empty_iff_subset.1 hleft)
  · exact h.stays hp hr (iff_of_false hend hidle)

theorem exec (env : Env) (o : ThrottleOp) (h : c.Throttle) (hok : o.ok c) (hends : o.EndsStarted c) :
    (o.exec env c).Throttle := by
  cases o with
  | create now p desc rejected => exact h.jobCreate env now hok.1 hok.2 rejected
  | start now p q newId =>
    obtain ⟨hp, hpend, htest, hq, hnew⟩ := hok
    refine h.startTask hp hnew hq hpend (fun hlimit => ?_) now
    rw [jobArrayStartTest, if_pos hlimit] at htest
    cases htest
  | complete now jobId uid requeue nodeFail rc =>
    cases hfind : c.findJobRecord jobId with
    | none =>
      simp only [ThrottleOp.exec, jobCompleteOne, hfind]
      exact h
    | some p =>
      have hcompleted := jobCompleteOne_completed env now c p hfind uid requeue nodeFail rc
      exact h.endsOrStays (findJobRecord_mem hfind).1 hcompleted.endsOrStays (hends p hfind)
  | signal now p signal flags uid preempt =>
    have hsignalled := jobSignalPtr_signalled env now c p signal flags uid preempt
    by_cases hkill : signal = sigKill
    · exact h.endsOrStays hok hsignalled.endsOrStays (hends hkill)
    · obtain ⟨hr, hsame⟩ := hsignalled.stays hkill
      exact h.stays hok hr hsame
  | cancelTasks now p tasks uid => exact h.cancelTasks hok.1 hok.2.1 env now hends uid
  | change p f =>
    refine h.congr rfl fun q _ => ?_
    rcases eq_or_ne q p with rfl | hq
    · simp only [ThrottleOp.exec, modJob_job_self]
      exact hok.2
    · simp only [ThrottleOp.exec, modJob_job_of_ne _ _ hq]
      exact .refl _
  | delete p =>
    exact h.delete (not_isStarted_of_base rfl hok.2.2)

end Ctld.Throttle

/-- From a controller without jobs, in every state of every run in which no job of an array
    ends before it was started, unless no task of the array runs: the record of an array
    counts the tasks that run, and there are never more of them than may be. -/
theorem arrayThrottle_kept (env : Env) (c₀ : Ctld) (os : List ThrottleOp) (h₀ : c₀.NoJobs)
    (hrun : Run.Admissible (ThrottleOp.exec env) (fun c o => o.ok c ∧ o.EndsStarted c) c₀ os) :
    let c := Run.run (ThrottleOp.exec env) c₀ os
    ∀ p ∈ c.jobList, ∀ r ∈ (c.job p).arrayRecs,
      r.totRunTasks = c.runningTasks (c.job p).jobId ∧
        (0 < r.maxRunTasks → c.runningTasks (c.job p).jobId ≤ r.maxRunTasks) := by
  intro c p hp r hr
  have hempty : c₀.Throttle := by
    refine ⟨?_, ?_, ?_, ?_⟩
    all_goals simp [h₀.jobList]
  have hinv : c.Throttle := Run.invariant_run (fun c o h hok => h.exec env o hok.1 hok.2) hempty hrun
  obtain ⟨htot, hmax⟩ := hinv.count p hp (r.maxRunTasks, r.totRunTasks) (by
    rw [throttle, mem_def.1 hr, map_some, mem_some_iff])
  refine ⟨htot, fun hlimit => ?_⟩
  rw [← htot]
  exact hmax hlimit.ne'

/-- An array of which one task may run at a time: the second is started when the first has
    ended. -/
theorem arrayThrottle_kept_two :
    let c := Run.run (ThrottleOp.exec {}) {}
      [.create 0 1 { jobId := 5, userId := 0, arrayBitmap := {1, 2}, maxRunTasks := 1 } false,
        .start 0 1 2 6, .complete 0 6 0 false false 0, .start 0 2 3 7]
    2 ∈ c.jobList ∧ c.runningTasks 5 = 1 ∧
      ∀ r ∈ (c.job 2).arrayRecs, r.totRunTasks = c.runningTasks (c.job 2).jobId := by
  have hkept := arrayThrottle_kept {} {}
    [.create 0 1 { jobId := 5, userId := 0, arrayBitmap := {1, 2}, maxRunTasks := 1 } false,
      .start 0 1 2 6, .complete 0 6 0 false false 0, .start 0 2 3 7] ⟨rfl, rfl, rfl⟩ (by decide)
  exact ⟨by decide, by decide, fun r hr => (hkept 2 (by decide) r hr).1⟩

/-- Of an array of two tasks the first runs when all that wait are cancelled. This takes one off
    the count, as if the task had ended. -/
theorem arrayThrottle_miscounted :
    let desc : JobDesc := { jobId := 5, userId := 0, arrayBitmap := {1, 2}, maxRunTasks := 1 }
    let os : List ThrottleOp :=
      [.create 0 1 desc false, .start 0 1 2 6, .cancelTasks 0 2 {2} 0]
    Run.Admissible (ThrottleOp.exec {}) (fun c o => o.ok c) {} os ∧
      (Run.run (ThrottleOp.exec {}) {} os).runningTasks 5 = 1 ∧
      ((Run.run (ThrottleOp.exec {}) {} os).job 2).throttle = some (1, 0) ∧
      ¬(let c := Run.run (ThrottleOp.exec {}) {} os
        ∀ p ∈ c.jobList, ∀ r ∈ (c.job p).arrayRecs, r.totRunTasks = c.runningTasks (c.job p).jobId ∧
            (0 < r.maxRunTasks → c.runningTasks (c.job p).jobId ≤ r.maxRunTasks)) := by
  exact ⟨by decide, by decide, by decide, by decide⟩

end Slurm
