import Slurm.Job.Array
import Slurm.Lib.Count
import Slurm.Lib.Placement
import Slurm.Lib.Run

/-!
# Where the tasks of job arrays are

A task of a job array waits in the bitmap of the record of its array, or has a
record of its own in the table of tasks. The tasks that a record stands for
(`Ctld.tasksOf`) move between records when a task is scheduled, and are gone when
they are cancelled while they wait, or when their record is deleted.

A run (`ArrayOp`) creates jobs and arrays, schedules tasks, with success or
without, cancels the jobs that a string names, and deletes the records of jobs
that have finished; in between, jobs change in any way that does not concern the
tasks of arrays. Beside the controller the run keeps the tasks of arrays that were
neither cancelled nor deleted (`live`).

`arrayTasks_in_one_place`: in every state of every run, each of them is in exactly
one place, the counts of waiting tasks are those of the bitmaps, and the count of
jobs is that of the records.
-/

namespace Slurm

open Placement JobRecord Finset Ctld Option SplitsOff

/-! ## The table -/

namespace Ctld

/-- The tasks of arrays that a record stands for. -/
def tasksOf (c : Ctld) (p : Ptr) : Finset (ℕ × ℕ) :=
  (if p ∈ c.jobArrayHash then {((c.job p).arrayJobId, (c.job p).arrayTaskId)} else ∅) ∪
    {(c.job p).jobId} ×ˢ (c.job p).waiting.getD ∅

/-- The tasks that wait in the record of the array `a`. -/
def pendingTasks (c : Ctld) (a : ℕ) : Bitmap :=
  ((c.findJobRecord a).bind fun p => (c.job p).waiting).getD ∅

/-- The records in the table of tasks for the task `t` of the array `a`. -/
def taskRecords (c : Ctld) (a t : ℕ) : List Ptr :=
  c.jobArrayHash.filter fun p => (c.job p).arrayJobId = a ∧ (c.job p).arrayTaskId = t

/-- The task `t` of the array `a` either waits, or has exactly one record. -/
def InOnePlace (c : Ctld) (a t : ℕ) : Prop :=
  (t ∈ c.pendingTasks a ∧ c.taskRecords a t = []) ∨
    (t ∉ c.pendingTasks a ∧ (c.taskRecords a t).length = 1)
  deriving Decidable

/-- The bitmap of a record is one its count and its state agree with. -/
structure GoodBitmap (j : JobRecord) (b : Bitmap) : Prop where
  taskCnt : j.arrayRecs.elim 0 (·.taskCnt) = b.card
  small : ∀ t ∈ b, t < noVal
  emptied : b = ∅ → j.jobState.isFinished

/-- The tables of jobs and of tasks agree with each other and with the count of jobs. -/
structure ArrayTable (c : Ctld) : Prop where
  nodup : c.jobList.Nodup
  ids : ∀ p ∈ c.jobList, ∀ q ∈ c.jobList, (c.job p).jobId = (c.job q).jobId → p = q
  hash_nodup : c.jobArrayHash.Nodup
  hash_mem : ∀ p ∈ c.jobArrayHash, p ∈ c.jobList
  hash_task : ∀ p ∈ c.jobArrayHash, (c.job p).waiting = none ∧ (c.job p).arrayTaskId ≠ noVal
  good : ∀ p ∈ c.jobList, ∀ b ∈ (c.job p).waiting, GoodBitmap (c.job p) b
  jobCount : c.jobCount = ((c.jobList.map fun p => (c.job p).jobCnt).sum : ℕ)

variable {c c' : Ctld} {p q : Ptr}

theorem mem_tasksOf {x : ℕ × ℕ} : x ∈ c.tasksOf p ↔
    (p ∈ c.jobArrayHash ∧ x = ((c.job p).arrayJobId, (c.job p).arrayTaskId)) ∨
      (x.1 = (c.job p).jobId ∧ ∃ b ∈ (c.job p).waiting, x.2 ∈ b) := by
  have hwait : x.2 ∈ (c.job p).waiting.getD ∅ ↔ ∃ b ∈ (c.job p).waiting, x.2 ∈ b := by
    cases (c.job p).waiting <;> simp
  rw [tasksOf, mem_union, mem_product, mem_singleton, hwait]
  refine or_congr_left ?_
  split_ifs with h <;> simp [h]

/-- What a record stands for is a matter of its fields for tasks. -/
theorem tasksOf_congr (hhash : p ∈ c'.jobArrayHash ↔ p ∈ c.jobArrayHash)
    (hfields : (c'.job p).taskFields = (c.job p).taskFields) : c'.tasksOf p = c.tasksOf p := by
  have hid : (c'.job p).jobId = (c.job p).jobId := congrArg (·.1) hfields
  have harray : (c'.job p).arrayJobId = (c.job p).arrayJobId := congrArg (·.2.1) hfields
  have htask : (c'.job p).arrayTaskId = (c.job p).arrayTaskId := congrArg (·.2.2.1) hfields
  simp [tasksOf, hhash, hid, harray, htask, waiting_eq, hfields]

theorem GoodBitmap.congr {j j' : JobRecord} {b : Bitmap} (h : GoodBitmap j b)
    (hfields : j'.taskFields = j.taskFields)
    (hfin : j.jobState.isFinished → j'.jobState.isFinished) : GoodBitmap j' b := by
  have hcnt (k : JobRecord) : k.arrayRecs.elim 0 (·.taskCnt) = k.taskFields.2.2.2.elim 0 (·.1) := by
    simp only [taskFields]
    cases k.arrayRecs <;> rfl
  refine ⟨?_, h.small, fun hb => hfin (h.emptied hb)⟩
  rw [hcnt, hfields, ← hcnt, h.taskCnt]

/-- A record in which tasks wait counts for as many jobs. -/
theorem GoodBitmap.jobCnt {j : JobRecord} {b : Bitmap} (h : GoodBitmap j b)
    (hb : j.waiting = some b) : j.jobCnt = max 1 b.card := by
  have htask := h.taskCnt
  cases hr : j.arrayRecs with
  | none => simp [waiting, hr] at hb
  | some r =>
    rw [hr, elim_some] at htask
    simp [JobRecord.jobCnt, hr, htask]

namespace ArrayTable

section

variable (h : c.ArrayTable)

include h

/-- The table does not depend on anything else in the records. -/
theorem congr (hlist : c'.jobList = c.jobList)
    (hhash : c'.jobArrayHash = c.jobArrayHash) (hcount : c'.jobCount = c.jobCount)
    (hfields : ∀ q ∈ c.jobList, (c'.job q).taskFields = (c.job q).taskFields)
    (hfin : ∀ q ∈ c.jobList, (c.job q).jobState.isFinished → (c'.job q).jobState.isFinished) :
    c'.ArrayTable := by
  have hid (q : Ptr) (hq : q ∈ c.jobList) : (c'.job q).jobId = (c.job q).jobId :=
    congrArg (·.1) (hfields q hq)
  have hwait (q : Ptr) (hq : q ∈ c.jobList) : (c'.job q).waiting = (c.job q).waiting := by
    rw [waiting_eq, hfields q hq, ← waiting_eq]
  refine ⟨hlist ▸ h.nodup, fun p hp q hq hpq => ?_, hhash ▸ h.hash_nodup, fun p hp => ?_,
    fun p hp => ?_, fun p hp b hb => ?_, ?_⟩
  · rw [hlist] at hp hq
    rw [hid p hp, hid q hq] at hpq
    exact h.ids p hp q hq hpq
  · rw [hlist]
    exact h.hash_mem p (hhash ▸ hp)
  · rw [hhash] at hp
    have hmem := h.hash_mem p hp
    have htask : (c'.job p).arrayTaskId = (c.job p).arrayTaskId :=
      congrArg (·.2.2.1) (hfields p hmem)
    rw [hwait p hmem, htask]
    exact h.hash_task p hp
  · rw [hlist] at hp
    rw [hwait p hp] at hb
    exact (h.good p hp b hb).congr (hfields p hp) (hfin p hp)
  · rw [hcount, hlist, h.jobCount]
    refine congrArg (fun l : List ℕ => ((l.sum : ℕ) : ℤ)) (List.map_congr_left fun q hq => ?_)
    rw [jobCnt_eq, ← hfields q hq, ← jobCnt_eq]

theorem keeps (hk : KeepsTasks c c') : c'.ArrayTable :=
  h.congr hk.jobList hk.jobArrayHash hk.jobCount (fun q _ => hk.fields q) fun q _ => hk.finished q

/-- One record changes, and may come into the table of tasks. -/
theorem update (hp : p ∈ c.jobList) (hlist : c'.jobList = c.jobList)
    (hhash : c'.jobArrayHash = c.jobArrayHash ∨
      (p ∉ c.jobArrayHash ∧ c'.jobArrayHash = p :: c.jobArrayHash))
    (hcount : c'.jobCount = c.jobCount - (c.job p).jobCnt + (c'.job p).jobCnt)
    (hfields : ∀ q ∈ c.jobList, q ≠ p → (c'.job q).taskFields = (c.job q).taskFields)
    (hfin : ∀ q ∈ c.jobList, q ≠ p → (c.job q).jobState.isFinished → (c'.job q).jobState.isFinished)
    (hid : ∀ q ∈ c.jobList, q ≠ p → (c'.job p).jobId ≠ (c.job q).jobId)
    (htask : p ∈ c'.jobArrayHash → (c'.job p).waiting = none ∧ (c'.job p).arrayTaskId ≠ noVal)
    (hgood : ∀ b ∈ (c'.job p).waiting, GoodBitmap (c'.job p) b) : c'.ArrayTable := by
  have hids (q : Ptr) (hq : q ∈ c.jobList) (hne : q ≠ p) : (c'.job q).jobId = (c.job q).jobId :=
    congrArg (·.1) (hfields q hq hne)
  have hwait (q : Ptr) (hq : q ∈ c.jobList) (hne : q ≠ p) :
      (c'.job q).waiting = (c.job q).waiting := by
    rw [waiting_eq, hfields q hq hne, ← waiting_eq]
  have hold {q : Ptr} (hq : q ∈ c'.jobArrayHash) (hne : q ≠ p) : q ∈ c.jobArrayHash := by
    rcases hhash with hhash | ⟨-, hhash⟩
    · exact hhash ▸ hq
    · rw [hhash] at hq
      exact (List.mem_cons.1 hq).resolve_left hne
  refine ⟨hlist ▸ h.nodup, fun q hq r hr hqr => ?_, ?_, fun q hq => ?_, fun q hq => ?_,
    fun q hq b hb => ?_, ?_⟩
  · rw [hlist] at hq hr
    rcases eq_or_ne q p with rfl | hqp <;> rcases eq_or_ne r q with rfl | hrq
    · rfl
    · rw [hids r hr hrq] at hqr
      exact absurd hqr (hid r hr hrq)
    · rfl
    · rcases eq_or_ne r p with rfl | hrp
      · rw [hids q hq hqp] at hqr
        exact absurd hqr.symm (hid q hq hqp)
      · rw [hids q hq hqp, hids r hr hrp] at hqr
        exact h.ids q hq r hr hqr
  · rcases hhash with hhash | ⟨hnew, hhash⟩
    · exact hhash ▸ h.hash_nodup
    · rw [hhash, List.nodup_cons]
      exact ⟨hnew, h.hash_nodup⟩
  · rw [hlist]
    rcases eq_or_ne q p with rfl | hqp
    · exact hp
    · exact h.hash_mem q (hold hq hqp)
  · rcases eq_or_ne q p with rfl | hqp
    · exact htask hq
    · have hq' := hold hq hqp
      have hmem := h.hash_mem q hq'
      have hid' : (c'.job q).arrayTaskId = (c.job q).arrayTaskId :=
        congrArg (·.2.2.1) (hfields q hmem hqp)
      rw [hwait q hmem hqp, hid']
      exact h.hash_task q hq'
  · rw [hlist] at hq
    rcases eq_or_ne q p with rfl | hqp
    · exact hgood b hb
    · rw [hwait q hq hqp] at hb
      exact (h.good q hq b hb).congr (hfields q hq hqp) (hfin q hq hqp)
  · have hsum := Count.sum_map_change (g := fun p => (c'.job p).jobCnt)
      h.nodup hp fun q hq hqp => by
        rw [jobCnt_eq, hfields q hq hqp, ← jobCnt_eq]
    rw [hcount, hlist, h.jobCount]
    omega

/-- A record comes to the list. -/
theorem add (hq : q ∉ c.jobList) (hlist : c'.jobList = c.jobList ++ [q])
    (hhash : c'.jobArrayHash = c.jobArrayHash)
    (hcount : c'.jobCount = c.jobCount + (c'.job q).jobCnt)
    (hjob : ∀ r ∈ c.jobList, c'.job r = c.job r)
    (hid : ∀ r ∈ c.jobList, (c.job r).jobId ≠ (c'.job q).jobId)
    (hgood : ∀ b ∈ (c'.job q).waiting, GoodBitmap (c'.job q) b) : c'.ArrayTable := by
  have hmem {r : Ptr} (hr : r ∈ c'.jobList) : r ∈ c.jobList ∨ r = q := by
    rwa [hlist, List.mem_append, List.mem_singleton] at hr
  refine ⟨?_, fun r hr s hs hrs => ?_, hhash ▸ h.hash_nodup, fun r hr => ?_, fun r hr => ?_,
    fun r hr b hb => ?_, ?_⟩
  · rw [hlist, ← List.concat_eq_append]
    exact h.nodup.concat hq
  · rcases hmem hr with hr | rfl <;> rcases hmem hs with hs | rfl
    · rw [hjob r hr, hjob s hs] at hrs
      exact h.ids r hr s hs hrs
    · rw [hjob r hr] at hrs
      exact absurd hrs (hid r hr)
    · rw [hjob s hs] at hrs
      exact absurd hrs.symm (hid s hs)
    · rfl
  · rw [hlist]
    exact List.mem_append_left _ (h.hash_mem r (hhash ▸ hr))
  · rw [hhash] at hr
    rw [hjob r (h.hash_mem r hr)]
    exact h.hash_task r hr
  · rcases hmem hr with hr | rfl
    · rw [hjob r hr] at hb ⊢
      exact h.good r hr b hb
    · exact hgood b hb
  · have hold : c.jobList.map (fun p => (c'.job p).jobCnt) = c.jobList.map fun p => (c.job p).jobCnt :=
      List.map_congr_left fun r hr => by rw [hjob r hr]
    rw [hcount, hlist, h.jobCount, List.map_append, hold, List.sum_append]
    simp

/-- A record leaves the list. -/
theorem delete (hp : p ∈ c.jobList) : (c.listDeleteJob p).ArrayTable := by
  have hlist : (c.listDeleteJob p).jobList = c.jobList.erase p := rfl
  have hmem {r : Ptr} (hr : r ∈ (c.listDeleteJob p).jobList) : r ≠ p ∧ r ∈ c.jobList := by
    rwa [hlist, h.nodup.mem_erase_iff] at hr
  have hhash {r : Ptr} (hr : r ∈ (c.listDeleteJob p).jobArrayHash) : r ≠ p ∧ r ∈ c.jobArrayHash := by
    simp only [listDeleteJob] at hr
    split_ifs at hr with htask
    · exact ⟨fun hrp => (h.hash_task r hr).2 (hrp ▸ htask), hr⟩
    · exact h.hash_nodup.mem_erase_iff.1 hr
  have hsum := List.sum_map_erase (fun p => (c.job p).jobCnt) hp
  refine ⟨h.nodup.erase p, fun r hr s hs => ?_, ?_, fun r hr => ?_, fun r hr => ?_, fun r hr => ?_, ?_⟩
  · exact h.ids r (hmem hr).2 s (hmem hs).2
  · simp only [listDeleteJob]
    split_ifs
    · exact h.hash_nodup
    · exact h.hash_nodup.erase p
  · obtain ⟨hne, hr⟩ := hhash hr
    exact h.nodup.mem_erase_iff.2 ⟨hne, h.hash_mem r hr⟩
  · exact h.hash_task r (hhash hr).2
  · exact h.good r (hmem hr).2
  · have hcount := h.jobCount
    simp only [listDeleteJob]
    split_ifs
    · omega
    · omega

/-- The tasks that wait for an array wait in the record with its id. -/
theorem mem_pendingTasks {a t : ℕ} : t ∈ c.pendingTasks a ↔
    ∃ p ∈ c.jobList, (c.job p).jobId = a ∧ ∃ b ∈ (c.job p).waiting, t ∈ b := by
  have hgetD (w : Option Bitmap) : t ∈ w.getD ∅ ↔ ∃ b ∈ w, t ∈ b := by
    cases w <;> simp
  rw [pendingTasks, hgetD]
  constructor
  · rintro ⟨b, hb, ht⟩
    obtain ⟨p, hp, hb⟩ := bind_eq_some_iff.1 hb
    obtain ⟨hmem, hid⟩ := (findJobRecord_eq_some h.ids).1 hp
    exact ⟨p, hmem, hid, b, hb, ht⟩
  · rintro ⟨p, hp, hid, b, hb, ht⟩
    exact ⟨b, by rw [(findJobRecord_eq_some h.ids).2 ⟨hp, hid⟩]; exact hb, ht⟩

/-- A task that is kept is in one place. -/
theorem inOnePlace {live : Finset (ℕ × ℕ)}
    (hplaced : Placed c.jobList c.tasksOf live) {a t : ℕ} (hlive : (a, t) ∈ live) :
    c.InOnePlace a t := by
  have hrecord {q : Ptr} (hq : q ∈ c.taskRecords a t) :
      q ∈ c.jobArrayHash ∧ (a, t) ∈ c.tasksOf q := by
    obtain ⟨hhash, hat⟩ := List.mem_filter.1 hq
    obtain ⟨ha, ht⟩ := of_decide_eq_true hat
    exact ⟨hhash, mem_tasksOf.2 (.inl ⟨hhash, by rw [ha, ht]⟩)⟩
  obtain ⟨p, hp, hmem⟩ := hplaced.somewhere _ hlive
  have honly {q : Ptr} (hq : q ∈ c.jobList) (hat : (a, t) ∈ c.tasksOf q) : q = p :=
    hplaced.apart q hq p hp _ hat hmem
  rcases mem_tasksOf.1 hmem with ⟨hhash, hat⟩ | ⟨ha, b, hb, ht⟩
  · refine .inr ⟨fun hpend => ?_, ?_⟩
    · obtain ⟨q, hq, hid, b, hb, ht⟩ := h.mem_pendingTasks.1 hpend
      obtain rfl := honly hq (mem_tasksOf.2 (.inr ⟨hid.symm, b, hb, ht⟩))
      rw [(h.hash_task q hhash).1] at hb
      cases hb
    · have hself : p ∈ c.taskRecords a t := by
        obtain ⟨rfl, rfl⟩ := Prod.mk.inj hat
        exact List.mem_filter.2 ⟨hhash, by simp⟩
      have hnodup : (c.taskRecords a t).Nodup := h.hash_nodup.filter _
      rw [List.length_eq_one_iff]
      refine ⟨p, List.perm_singleton.1 ((List.perm_ext_iff_of_nodup hnodup (by simp)).2 fun q => ?_)⟩
      rw [List.mem_singleton]
      refine ⟨fun hq => ?_, fun hq => hq ▸ hself⟩
      obtain ⟨hhash', hat'⟩ := hrecord hq
      exact honly (h.hash_mem q hhash') hat'
  · refine .inl ⟨h.mem_pendingTasks.2 ⟨p, hp, ha.symm, b, hb, ht⟩, ?_⟩
    refine List.eq_nil_iff_forall_not_mem.2 fun q hq => ?_
    obtain ⟨hhash, hat⟩ := hrecord hq
    obtain rfl := honly (h.hash_mem q hhash) hat
    rw [(h.hash_task q hhash).1] at hb
    cases hb

end

end ArrayTable

end Ctld

/-! ## Runs -/

/-- The tasks that wait and that a request to cancel jobs takes out of a bitmap. -/
def Ctld.cancelled (env : Env) (c : Ctld) (jobIdStr : CStr) (flags : KillFlags) (uid : ℕ) :
    Finset (ℕ × ℕ) :=
  match parseJobId jobIdStr with
  | none => ∅
  | some (jobId, rest) =>
    if rest = [] then ∅
    else
      match parseArrayExpr env.maxArraySize (rest.drop 1), c.arrayRecord jobId with
      | some tasks, some p =>
        if (c.job p).isPackMember jobId ∧ .fullJob ∉ flags then ∅
        else if ¬mayCancel env uid (c.job p) then ∅
        else if (c.job p).jobState.isPending then {jobId} ×ˢ ((c.job p).waiting.getD ∅ ∩ tasks)
        else ∅
      | _, _ => ∅

/-- What happens to the jobs of a controller, as far as the tasks of arrays are concerned. -/
inductive ArrayOp
  /-- A job or an array is submitted; its record is at the address `p`. -/
  | create (now : ℤ) (p : Ptr) (desc : JobDesc) (rejected : Bool)
  /-- The scheduler tries to start the job `p`. -/
  | preSched (p : Ptr)
  /-- The job that is tried has its resources. The record for the tasks that are left, if
      there are any, is at the address `q`, and the id of the job is `newId` then. -/
  | succeed (now : ℤ) (q : Ptr) (newId : ℕ)
  /-- The job that is tried has to go on waiting. -/
  | fail
  /-- Jobs are cancelled. -/
  | cancel (now : ℤ) (jobIdStr : CStr) (flags : KillFlags) (uid : ℕ) (preempt : Bool)
  /-- A record changes in fields that are not about tasks. -/
  | change (p : Ptr) (f : JobRecord → JobRecord)
  /-- The record of a job that has finished is deleted. -/
  | delete (p : Ptr)

/-- A state of a run: the controller, the job that the scheduler tries, and the tasks of
    arrays that were neither cancelled nor deleted. -/
structure ArrayRun where
  ctld : Ctld
  attempt : Option Ptr := none
  live : Finset (ℕ × ℕ) := ∅

namespace ArrayRun

/-- Carry out an operation. -/
def exec (env : Env) (s : ArrayRun) : ArrayOp → ArrayRun
  | .create now p desc rejected =>
    let (rc, c) := jobCreate env now s.ctld p desc rejected
    { s with
      ctld := c
      live := if rc = .success then s.live ∪ {desc.jobId} ×ˢ desc.arrayBitmap else s.live }
  | .preSched p => { s with ctld := s.ctld.modJob p arrayPreSched, attempt := some p }
  | .succeed now q newId =>
    match s.attempt with
    | none => s
    | some p => { s with ctld := jobArrayPostSched now s.ctld p q newId, attempt := none }
  | .fail =>
    match s.attempt with
    | none => s
    | some p => { s with ctld := s.ctld.modJob p arrayReset, attempt := none }
  | .cancel now jobIdStr flags uid preempt =>
    { s with
      ctld := (jobStrSignal env now s.ctld jobIdStr sigKill flags uid preempt).2
      live := s.live \ s.ctld.cancelled env jobIdStr flags uid }
  | .change p f => { s with ctld := s.ctld.modJob p f }
  | .delete p => { s with ctld := s.ctld.listDeleteJob p, live := s.live \ s.ctld.tasksOf p }

/-- When an operation is made. From `preSched` to `succeed` or `fail` the scheduler holds the
    lock of the jobs. New records are at new addresses, and get ids that no record has; the
    id of an array is not given to another one as long as one of its tasks has a record.
    Numbers of tasks are of the type `int`. -/
def ok (s : ArrayRun) : ArrayOp → Prop
  | .create _ p desc _ =>
    s.attempt = none ∧ p ∉ s.ctld.jobList ∧
      (∀ q ∈ s.ctld.jobList, (s.ctld.job q).jobId ≠ desc.jobId) ∧
      (∀ q ∈ s.ctld.jobArrayHash, (s.ctld.job q).arrayJobId ≠ desc.jobId) ∧
      ∀ t ∈ desc.arrayBitmap, t < 2 ^ 31
  | .preSched p => s.attempt = none ∧ p ∈ s.ctld.jobList ∧ (s.ctld.job p).jobState.isPending
  | .succeed _ q newId =>
    s.attempt ≠ none ∧ q ∉ s.ctld.jobList ∧ ∀ r ∈ s.ctld.jobList, (s.ctld.job r).jobId ≠ newId
  | .fail => s.attempt ≠ none
  | .cancel .. => s.attempt = none
  | .change p f =>
    p ∈ s.ctld.jobList ∧ (f (s.ctld.job p)).taskFields = (s.ctld.job p).taskFields ∧
      ((s.ctld.job p).jobState.isFinished → (f (s.ctld.job p)).jobState.isFinished) ∧
      (s.attempt = some p → (f (s.ctld.job p)).jobState.isPending)
  | .delete p => p ∈ s.ctld.jobList ∧ (s.ctld.job p).jobState.isFinished

instance (s : ArrayRun) : ∀ o, Decidable (s.ok o)
  | .fail => inferInstanceAs (Decidable (_ ≠ _))
  | .cancel .. => inferInstanceAs (Decidable (_ = _))
  | .create .. | .preSched _ | .succeed .. | .change .. | .delete _ =>
    inferInstanceAs (Decidable (_ ∧ _))

/-- The first waiting task is the one that is tried. -/
structure Attempted (c : Ctld) (p : Ptr) : Prop where
  mem : p ∈ c.jobList
  pending : (c.job p).jobState.isPending
  task : ∀ b ∈ (c.job p).waiting, (c.job p).arrayJobId = (c.job p).jobId ∧ (c.job p).arrayTaskId ∈ b

/-- What holds in every state of a run. -/
structure Inv (s : ArrayRun) : Prop where
  table : s.ctld.ArrayTable
  placed : Placed s.ctld.jobList s.ctld.tasksOf s.live
  attempted : ∀ p, s.attempt = some p → Attempted s.ctld p

variable {s : ArrayRun} {p q : Ptr} {c c' : Ctld} {f : JobRecord → JobRecord} {b : Bitmap}

/-! ### Scheduling -/

/-- A record in which tasks wait is not in the table of tasks. -/
theorem notMem_hash (h : c.ArrayTable) (hb : (c.job p).waiting = some b) :
    p ∉ c.jobArrayHash := by
  intro hp
  rw [(h.hash_task p hp).1] at hb
  cases hb

/-- The number of a task in a record does not matter as long as tasks wait in it. -/
theorem retask {live : Finset (ℕ × ℕ)} (h : c.ArrayTable)
    (hplaced : Placed c.jobList c.tasksOf live) (hp : p ∈ c.jobList)
    (hwait : (c.job p).waiting ≠ none) (hid : (f (c.job p)).jobId = (c.job p).jobId)
    (hrecs : (f (c.job p)).arrayRecs = (c.job p).arrayRecs)
    (hstate : (f (c.job p)).jobState = (c.job p).jobState) :
    (c.modJob p f).ArrayTable ∧ Placed (c.modJob p f).jobList (c.modJob p f).tasksOf live := by
  obtain ⟨b, hb⟩ := ne_none_iff_exists'.1 hwait
  have hnot := notMem_hash h hb
  have hwait' : (f (c.job p)).waiting = (c.job p).waiting := by
    rw [waiting, hrecs, waiting]
  have hother (q : Ptr) (hq : q ≠ p) : (c.modJob p f).job q = c.job q := c.modJob_job_of_ne f hq
  constructor
  · refine h.update hp rfl (.inl rfl) ?_ (fun q _ hq => by rw [hother q hq])
      (fun q _ hq => by rw [hother q hq]; exact id) (fun q hq hne => ?_) (fun hp => absurd hp hnot)
      fun b' hb' => ?_
    · have hcnt : ((c.modJob p f).job p).jobCnt = (c.job p).jobCnt := by
        rw [modJob_job_self, jobCnt, hrecs, jobCnt]
      have hcount : (c.modJob p f).jobCount = c.jobCount := rfl
      omega
    · rw [modJob_job_self, hid]
      exact fun heq => hne (h.ids p hp q hq heq).symm
    · rw [modJob_job_self] at hb' ⊢
      have hgood := h.good p hp b' (hwait' ▸ hb')
      exact ⟨by rw [hrecs]; exact hgood.taskCnt, hgood.small, fun he => by
        rw [hstate]; exact hgood.emptied he⟩
  · refine hplaced.congr fun q _ => ?_
    rcases eq_or_ne q p with rfl | hq
    · have hhash : (c.modJob q f).jobArrayHash = c.jobArrayHash := rfl
      simp [tasksOf, hhash, hnot, modJob_job_self, hid, hwait']
    · exact tasksOf_congr Iff.rfl (by rw [hother q hq])

theorem inv_preSched (h : s.Inv) (hp : p ∈ s.ctld.jobList)
    (hpend : (s.ctld.job p).jobState.isPending) (env : Env) : (s.exec env (.preSched p)).Inv := by
  have hsame (hwait : (s.ctld.job p).waiting = none) : s.ctld.modJob p arrayPreSched = s.ctld := by
    have hself : (s.ctld.job p).arrayPreSched = s.ctld.job p := by
      simp [arrayPreSched, hwait]
    simp [modJob, hself, setJob]
  cases hwait : (s.ctld.job p).waiting with
  | none =>
    simp only [exec, hsame hwait]
    refine ⟨h.table, h.placed, fun q hq => ?_⟩
    obtain rfl : p = q := some.inj hq
    exact ⟨hp, hpend, fun b hb => by rw [hwait] at hb; cases hb⟩
  | some b =>
    have hne : b.Nonempty := by
      rw [nonempty_iff_ne_empty]
      intro hb
      exact ((h.table.good p hp b hwait).emptied hb).1 hpend
    have hself : (s.ctld.job p).arrayPreSched =
        { s.ctld.job p with arrayJobId := (s.ctld.job p).jobId, arrayTaskId := b.min' hne } := by
      simp [arrayPreSched, hwait, hne]
    obtain ⟨htable, hplaced⟩ := retask (f := arrayPreSched) h.table h.placed hp
      (by simp [hwait]) (by rw [hself]) (by rw [hself]) (by rw [hself])
    refine ⟨htable, hplaced, fun q hq => ?_⟩
    obtain rfl : p = q := some.inj hq
    refine ⟨hp, ?_, fun b' hb' => ?_⟩
    · simp only [exec, modJob_job_self, hself]
      exact hpend
    · have hjob : ((s.exec env (.preSched p)).ctld.job p) = (s.ctld.job p).arrayPreSched :=
        modJob_job_self ..
      rw [hjob, hself] at hb' ⊢
      obtain rfl : b = b' := some.inj (hwait.symm.trans hb')
      exact ⟨rfl, b.min'_mem hne⟩

theorem inv_fail (h : s.Inv) (env : Env) : (s.exec env .fail).Inv := by
  simp only [exec]
  cases hatt : s.attempt with
  | none => exact h
  | some p =>
    have hp := h.attempted p hatt
    by_cases hreset : (s.ctld.job p).jobState.isPending ∧ (s.ctld.job p).waiting.any (· ≠ ∅)
    · have hself : (s.ctld.job p).arrayReset = { s.ctld.job p with arrayTaskId := noVal } :=
        if_pos hreset
      have hwait : (s.ctld.job p).waiting ≠ none := by
        intro hnone
        simp [hnone] at hreset
      obtain ⟨htable, hplaced⟩ := retask (f := arrayReset) h.table h.placed hp.mem
        hwait (by rw [hself]) (by rw [hself]) (by rw [hself])
      exact ⟨htable, hplaced, fun q hq => by cases hq⟩
    · have hself : (s.ctld.job p).arrayReset = s.ctld.job p := if_neg hreset
      simp only [modJob, hself, setJob, Function.update_eq_self]
      exact ⟨h.table, h.placed, fun q hq => by cases hq⟩

section

variable {c : Ctld} {b : Bitmap} {live : Finset (ℕ × ℕ)} (h : c.ArrayTable)
  (hplaced : Placed c.jobList c.tasksOf live) (hp : Attempted c p)
  (hb : (c.job p).waiting = some b)

include h hp hb

theorem Attempted.arrayTaskId_ne : (c.job p).arrayTaskId ≠ noVal ∧ (c.job p).arrayTaskId ≠ infinite := by
  have hlt := (h.good p hp.mem b hb).small _ (hp.task b hb).2
  have hinf : infinite = noVal + 1 := rfl
  omega

theorem Attempted.tasksOf_eq : c.tasksOf p = ({(c.job p).arrayJobId} : Bitmap) ×ˢ b := by
  rw [tasksOf, if_neg (notMem_hash h hb), hb, (hp.task b hb).1, empty_union, getD_some]

/-- A task that has its resources was not in the table of tasks before. -/
theorem Attempted.findTask_last (hplaced : Placed c.jobList c.tasksOf live) {f : JobRecord → JobRecord}
    (hid : (f (c.job p)).jobId = (c.job p).jobId) (hwait : (f (c.job p)).waiting = none) :
    (c.modJob p f).findTask (c.job p).arrayJobId (c.job p).arrayTaskId = none := by
  obtain ⟨hself, htask⟩ := hp.task b hb
  have hnot := notMem_hash h hb
  rw [findTask, or_eq_none_iff]
  constructor
  · rw [List.find?_eq_none]
    intro r hr
    rw [arrayTasks, List.mem_filter] at hr
    obtain ⟨hr, harray⟩ := hr
    have hne : r ≠ p := by
      rintro rfl
      exact hnot hr
    rw [modJob_job_of_ne _ _ hne, decide_eq_true_eq] at harray ⊢
    intro heq
    refine hne (hplaced.apart r (h.hash_mem r hr) p hp.mem
      ((c.job p).arrayJobId, (c.job p).arrayTaskId) ?_ ?_)
    · exact mem_tasksOf.2 (.inl ⟨hr, by rw [harray, heq]⟩)
    · exact mem_tasksOf.2 (.inr ⟨hself, b, hb, htask⟩)
  · rw [filter_eq_none_iff]
    intro r hr
    obtain ⟨hmem, hid'⟩ := findJobRecord_mem hr
    obtain rfl : r = p := by
      by_contra hne
      rw [modJob_job_of_ne _ _ hne, hself] at hid'
      exact hne (h.ids r hmem p hp.mem hid')
    rw [modJob_job_self]
    cases hrecs : (f (c.job r)).arrayRecs with
    | none => simp
    | some recs =>
      have hbits : recs.taskIdBitmap = none := by
        rw [waiting, hrecs] at hwait
        exact hwait
      simp [hbits]

/-- The last task of an array that waited has a record of its own. -/
theorem postSched_last (hcnt : (c.job p).arrayRecs.elim 0 (·.taskCnt) ≤ 1)
    (hplaced : Placed c.jobList c.tasksOf live) (now : ℤ) (newId : ℕ) :
    let c' := jobArrayPostSched now c p q newId
    c'.ArrayTable ∧ Placed c'.jobList c'.tasksOf live := by
  obtain ⟨hval, hinf⟩ := Attempted.arrayTaskId_ne h hp hb
  have hgood := h.good p hp.mem b hb
  have hnot := notMem_hash h hb
  have htask := (hp.task b hb).2
  have hone : b = {(c.job p).arrayTaskId} := by
    rw [hgood.taskCnt] at hcnt
    exact eq_singleton_iff_unique_mem.2 ⟨htask, fun t ht => card_le_one.1 hcnt t ht _ htask⟩
  have hfind : (c.modJob p lastTask).findJobArrayRec (c.job p).arrayJobId
      (c.job p).arrayTaskId = none := by
    rw [findJobArrayRec, if_neg hval, if_neg hinf]
    exact Attempted.findTask_last h hp hb hplaced rfl (c.job p).lastTask_waiting
  rw [jobArrayPostSched_last now newId (by simp [hb]) hcnt hval hfind]
  intro c'
  have hself : c'.job p = (c.job p).lastTask := modJob_job_self ..
  have hother (q : Ptr) (hq : q ≠ p) : c'.job q = c.job q := modJob_job_of_ne _ _ hq
  have hwait : (c'.job p).waiting = none := by rw [hself, lastTask_waiting]
  constructor
  · refine h.update hp.mem rfl (.inr ⟨hnot, rfl⟩) ?_ (fun q _ hq => by rw [hother q hq])
      (fun q _ hq => by rw [hother q hq]; exact id) (fun q hq hne => ?_) (fun _ => ?_) fun b' hb' => ?_
    · have hcount : c'.jobCount = c.jobCount := rfl
      have hcnt' : (c'.job p).jobCnt = (c.job p).jobCnt := by
        rw [hself]
        simp only [lastTask, jobCnt]
        cases hr : (c.job p).arrayRecs with
        | none => rfl
        | some r =>
          rw [hr, elim_some] at hcnt
          simp only [map_some, elim_some, ArrayRecs.last]
          omega
      omega
    · rw [hself]
      exact fun heq => hne (h.ids p hp.mem q hq heq).symm
    · rw [hwait, hself]
      exact ⟨rfl, hval⟩
    · rw [hwait] at hb'
      cases hb'
  · refine hplaced.congr fun q _ => ?_
    rcases eq_or_ne q p with rfl | hq
    · rw [Attempted.tasksOf_eq h hp hb, hone, singleton_product_singleton, tasksOf,
        if_pos List.mem_cons_self, hwait, hself]
      rfl
    · exact tasksOf_congr (List.mem_cons.trans (or_iff_right hq)) (by rw [hother q hq])

section

variable {c' : Ctld} {newId : ℕ} (hs : SplitsOff p q newId c c')

include hs

/-- The tasks that are left wait in the new record. -/
theorem SplitsOff.waiting :
    (c'.job q).waiting = some (b.erase (c.job p).arrayTaskId) ∧
      (c'.job q).arrayRecs.elim 0 (·.taskCnt) = b.card - 1 ∧ (c'.job p).waiting = none := by
  have hcard := (h.good p hp.mem b hb).taskCnt
  rw [hs.pend, hs.task]
  cases hr : (c.job p).arrayRecs with
  | none => simp [JobRecord.waiting, hr] at hb
  | some r =>
    have hbits : r.taskIdBitmap = some b := by
      rw [JobRecord.waiting, hr] at hb
      exact hb
    rw [hr, elim_some] at hcard
    simp [JobRecord.waiting, splitPend, splitTask, hr, ArrayRecs.split, hbits, hcard]

/-- First the task that was tried leaves its array, then the record for the others comes. -/
theorem SplitsOff.table (hcard : 1 < b.card)
    (hq : q ∉ c.jobList) (hnew : ∀ r ∈ c.jobList, (c.job r).jobId ≠ newId) : c'.ArrayTable := by
  obtain ⟨hwaitq, hcntq, -⟩ := waiting h hp hb hs
  have hgood := h.good p hp.mem b hb
  have hcard' := card_erase_of_mem (hp.task b hb).2
  have hgoodq : Ctld.GoodBitmap (c'.job q) (b.erase (c.job p).arrayTaskId) := by
    refine ⟨hcntq.trans hcard'.symm, fun t ht => hgood.small t (mem_of_mem_erase ht),
      fun hempty => ?_⟩
    rw [card_eq_zero.2 hempty] at hcard'
    omega
  have hnot := notMem_hash h hb
  have hval := (Attempted.arrayTaskId_ne h hp hb).1
  let c1 : Ctld := { c.modJob p (splitTask newId) with
    jobArrayHash := p :: c.jobArrayHash, jobCount := c.jobCount - (c.job p).jobCnt + 1 }
  have hself : c1.job p = (c.job p).splitTask newId := modJob_job_self ..
  have hother (x : Ptr) (hx : x ≠ p) : c1.job x = c.job x := modJob_job_of_ne _ _ hx
  have htable1 : c1.ArrayTable := by
    refine h.update hp.mem rfl (.inr ⟨hnot, rfl⟩) ?_ (fun x _ hx => by rw [hother x hx])
      (fun x _ hx => by rw [hother x hx]; exact id) (fun x hx _ => ?_) (fun _ => ?_)
      fun b' hb' => ?_
    · rw [hself]
      rfl
    · rw [hself]
      exact (hnew x hx).symm
    · rw [hself]
      exact ⟨rfl, hval⟩
    · rw [hself] at hb'
      cases hb'
  refine htable1.add hq hs.jobList (hs.jobArrayHash hval) ?_ (fun x hx => ?_) (fun x hx => ?_)
    fun b' hb' => ?_
  · have hcount1 : c1.jobCount = c.jobCount - (c.job p).jobCnt + 1 := rfl
    rw [hs.jobCount, hcount1, hgood.jobCnt hb, hgoodq.jobCnt hwaitq, hcard']
    omega
  · rcases eq_or_ne x p with rfl | hxp
    · rw [hs.task, hself]
    · rw [hs.others x hxp fun hxq => hq (hxq ▸ hx), hother x hxp]
  · have hidq : (c'.job q).jobId = (c.job p).jobId := by
      rw [hs.pend]
      rfl
    rw [hidq]
    rcases eq_or_ne x p with rfl | hxp
    · rw [hself]
      exact (hnew x hx).symm
    · rw [hother x hxp]
      exact fun heq => hxp (h.ids x hx p hp.mem heq)
  · obtain rfl : b.erase (c.job p).arrayTaskId = b' := some.inj (hwaitq.symm.trans hb')
    exact hgoodq

theorem SplitsOff.placed (hplaced : Placed c.jobList c.tasksOf live) (hq : q ∉ c.jobList) :
    Placed c'.jobList c'.tasksOf live := by
  obtain ⟨hself, htask⟩ := hp.task b hb
  obtain ⟨hwaitq, -, hwaitp⟩ := waiting h hp hb hs
  have hhash := hs.jobArrayHash (Attempted.arrayTaskId_ne h hp hb).1
  have hq' : q ∉ c'.jobArrayHash := by
    rw [hhash, List.mem_cons, not_or]
    exact ⟨fun hqp => hq (hqp ▸ hp.mem), fun hmem => hq (h.hash_mem q hmem)⟩
  have htasksq : c'.tasksOf q = {(c.job p).arrayJobId} ×ˢ b.erase (c.job p).arrayTaskId := by
    rw [tasksOf, if_neg hq', hwaitq, hs.pend, empty_union, getD_some, hself]
    rfl
  have htasksp : c'.tasksOf p = {((c.job p).arrayJobId, (c.job p).arrayTaskId)} := by
    rw [tasksOf, if_pos (by simp [hhash]), hwaitp, hs.task]
    rfl
  rw [hs.jobList]
  refine hplaced.divide hp.mem (fun x hx hxp => ?_) ?_ ?_
  · refine tasksOf_congr (by simp [hhash, hxp]) ?_
    rw [hs.others x hxp fun hxq => hq (hxq ▸ hx)]
  · rw [htasksp, htasksq, disjoint_singleton_left]
    simp
  · rw [htasksp, htasksq, Attempted.tasksOf_eq h hp hb, ← singleton_product_singleton,
      ← product_union, ← insert_eq, insert_erase htask]

end

end

theorem inv_succeed (h : s.Inv) (env : Env) (now : ℤ) {newId : ℕ} (hq : q ∉ s.ctld.jobList)
    (hnew : ∀ r ∈ s.ctld.jobList, (s.ctld.job r).jobId ≠ newId) :
    (s.exec env (.succeed now q newId)).Inv := by
  simp only [exec]
  cases hatt : s.attempt with
  | none => exact h
  | some p =>
    have hp := h.attempted p hatt
    suffices hpost : (jobArrayPostSched now s.ctld p q newId).ArrayTable ∧
        Placed (jobArrayPostSched now s.ctld p q newId).jobList
          (jobArrayPostSched now s.ctld p q newId).tasksOf s.live from
      ⟨hpost.1, hpost.2, fun _ hx => by cases hx⟩
    cases hb : (s.ctld.job p).waiting with
    | none =>
      rw [jobArrayPostSched, if_pos hb]
      exact ⟨h.table, h.placed⟩
    | some b =>
      by_cases hcnt : (s.ctld.job p).arrayRecs.elim 0 (·.taskCnt) ≤ 1
      · exact postSched_last h.table hp hb hcnt h.placed now newId
      · have hne : p ≠ q := fun hpq => hq (hpq ▸ hp.mem)
        have hsplit := jobArrayPostSched_splitsOff now newId (by simp [hb]) hcnt hne
        rw [(h.table.good p hp.mem b hb).taskCnt, not_le] at hcnt
        exact ⟨SplitsOff.table h.table hp hb hsplit hcnt hq hnew,
          SplitsOff.placed h.table hp hb hsplit h.placed hq⟩

/-! ### Cancellation -/

theorem Inv.keeps (h : s.Inv) (hk : KeepsTasks s.ctld c') (hatt : s.attempt = none) :
    ArrayRun.Inv { s with ctld := c' } := by
  refine ⟨h.table.keeps hk, ?_, fun p hp => by rw [hatt] at hp; cases hp⟩
  rw [hk.jobList]
  exact h.placed.congr fun q _ => tasksOf_congr (by rw [hk.jobArrayHash]) (hk.fields q)

theorem Inv.keepsLive (h : s.Inv) (hatt : s.attempt = none) (hk : KeepsTasks s.ctld c') :
    ArrayRun.Inv { s with ctld := c', live := s.live \ ∅ } := by
  rw [sdiff_empty]
  exact h.keeps hk hatt

/-- Tasks that wait are taken out of a bitmap. -/
theorem Inv.takes (h : s.Inv) (hp : p ∈ s.ctld.jobList)
    (hb : (s.ctld.job p).waiting = some b) (hpend : (s.ctld.job p).jobState.isPending)
    {tasks : Bitmap} (ht : TakesTasks p (b \ tasks) s.ctld c') (hatt : s.attempt = none) :
    ArrayRun.Inv { s with
      ctld := c', live := s.live \ ({(s.ctld.job p).jobId} : Bitmap) ×ˢ (b ∩ tasks) } := by
  have hgood := h.table.good p hp b hb
  have hnot := notMem_hash h.table hb
  have hid : (c'.job p).jobId = (s.ctld.job p).jobId := congrArg (·.1) ht.self
  have hwait : (c'.job p).waiting = some (b \ tasks) := by
    rw [waiting_eq, ht.self]
    rfl
  refine ⟨?_, ?_, fun p hp => by rw [hatt] at hp; cases hp⟩
  · refine h.table.update hp ht.jobList (.inl ht.jobArrayHash) ?_ (fun q _ hq => ht.others q hq)
      (fun q _ _ => ht.finished q) (fun q hq hne => ?_)
      (fun hmem => absurd (ht.jobArrayHash ▸ hmem) hnot) fun b' hb' => ?_
    · -- Without a waiting task the record would have ended.
      have hpos : 1 ≤ b.card := by
        rw [Nat.one_le_iff_ne_zero, Ne, card_eq_zero]
        exact fun hempty => (hgood.emptied hempty).1 hpend
      have hbefore : (s.ctld.job p).jobCnt = b.card := by
        rw [hgood.jobCnt hb, max_eq_right hpos]
      have hafter : (c'.job p).jobCnt = max 1 (b \ tasks).card := by
        rw [jobCnt_eq, ht.self]
        rfl
      rw [ht.jobCount, hbefore, hafter, hgood.taskCnt]
    · rw [hid]
      exact fun heq => hne (h.table.ids p hp q hq heq).symm
    · obtain rfl : b \ tasks = b' := some.inj (hwait.symm.trans hb')
      refine ⟨?_, fun t ht => hgood.small t (sdiff_subset ht), ht.ended⟩
      have hrecs : (c'.job p).arrayRecs.map (fun r => (r.taskCnt, r.taskIdBitmap)) =
          some ((b \ tasks).card, some (b \ tasks)) := congrArg (·.2.2.2) ht.self
      obtain ⟨r, hr, hmap⟩ := map_eq_some_iff.1 hrecs
      rw [hr]
      exact (Prod.mk.inj hmap).1
  · rw [ht.jobList]
    refine h.placed.takeOut (p := p) (fun q _ hq => ?_) ?_
    · exact tasksOf_congr (by rw [ht.jobArrayHash]) (ht.others q hq)
    · simp only [tasksOf, ht.jobArrayHash, hnot, if_false, hwait, hb, hid, empty_union, getD_some]
      ext x
      simp only [mem_product, mem_sdiff, mem_inter, mem_singleton]
      tauto

/-- The record for an array in which tasks wait is the one with its id. -/
theorem arrayRecord_waiting (h : c.ArrayTable) {jobId : ℕ}
    (hp : c.arrayRecord jobId = some p) (hb : (c.job p).waiting = some b) :
    p ∈ c.jobList ∧ (c.job p).jobId = jobId := by
  rw [arrayRecord, filter_eq_some_iff, or_eq_some_iff] at hp
  rcases hp.1 with hfind | ⟨-, hhead⟩
  · exact findJobRecord_mem hfind
  · have hmem := List.mem_of_mem_head? hhead
    exact absurd (List.mem_filter.1 hmem).1 (notMem_hash h hb)

/-- A request to cancel some tasks of an array. -/
theorem inv_signalExpr (h : s.Inv) (hatt : s.attempt = none) (env : Env) (now : ℤ) {jobId : ℕ}
    (hp : s.ctld.arrayRecord jobId = some p) (tasks : Bitmap) (flags : KillFlags) (uid : ℕ)
    (preempt : Bool) :
    ArrayRun.Inv { s with
      ctld := (signalExpr env now s.ctld jobId p tasks sigKill flags uid preempt).2
      live := s.live \
        (if (s.ctld.job p).isPackMember jobId ∧ .fullJob ∉ flags then ∅
        else if ¬mayCancel env uid (s.ctld.job p) then ∅
        else if (s.ctld.job p).jobState.isPending then
          {jobId} ×ˢ ((s.ctld.job p).waiting.getD ∅ ∩ tasks)
        else ∅) } := by
  by_cases hmember : (s.ctld.job p).isPackMember jobId ∧ .fullJob ∉ flags
  · simp only [signalExpr, if_pos hmember]
    exact h.keepsLive hatt (.refl _)
  -- Whether the job leaves a pack before the tasks are looked at does not matter to them.
  obtain ⟨c1, hc1, hkeeps, hjob⟩ : ∃ c1 : Ctld,
      (if (s.ctld.job p).isPackMember jobId then s.ctld.modJob p leavePack
        else s.ctld) = c1 ∧ KeepsTasks s.ctld c1 ∧
      (c1.job p = s.ctld.job p ∨ c1.job p = (s.ctld.job p).leavePack) := by
    split_ifs
    · exact ⟨_, rfl, .modJob fun _ => ⟨rfl, rfl⟩, .inr (modJob_job_self ..)⟩
    · exact ⟨_, rfl, .refl _, .inl rfl⟩
  obtain ⟨hmay, hpend, hwait⟩ : (mayCancel env uid (c1.job p) ↔ mayCancel env uid (s.ctld.job p)) ∧
      ((c1.job p).jobState.isPending ↔ (s.ctld.job p).jobState.isPending) ∧
      (c1.job p).waiting = (s.ctld.job p).waiting := by
    rcases hjob with hjob | hjob
    · simp only [hjob, and_self]
    · rw [hjob]
      exact ⟨Iff.rfl, Iff.rfl, rfl⟩
  simp only [signalExpr, if_neg hmember, hc1, hmay]
  by_cases hdenied : mayCancel env uid (s.ctld.job p)
  swap
  · rw [if_pos hdenied, if_pos hdenied]
    exact h.keepsLive hatt hkeeps
  rw [if_neg (not_not.2 hdenied), if_neg (not_not.2 hdenied)]
  have hbits : (c1.job p).arrayRecs.bind (·.taskIdBitmap) = (s.ctld.job p).waiting := hwait
  simp only [signalTasks, hpend, hbits]
  by_cases hpending : (s.ctld.job p).jobState.isPending
  swap
  · rw [if_neg hpending, if_neg hpending]
    exact h.keepsLive hatt (hkeeps.trans (signalTaskRecords_keepsTasks ..))
  rw [if_pos hpending, if_pos hpending]
  cases hb : (s.ctld.job p).waiting with
  | none =>
    exact h.keepsLive hatt (hkeeps.trans (signalTaskRecords_keepsTasks ..))
  | some b =>
    obtain ⟨hmem, hid⟩ := arrayRecord_waiting h.table hp hb
    have hrecs : (c1.job p).arrayRecs ≠ none := by
      intro hnone
      rw [hb, waiting, hnone] at hwait
      cases hwait
    have hinv1 := h.keeps hkeeps hatt
    have htake := cancelTasks_takesTasks env now c1 uid b tasks hrecs
    have hinv2 := Inv.takes hinv1 (hkeeps.jobList ▸ hmem) (hwait.trans hb)
      (hpend.2 hpending) htake hatt
    have hid1 : (c1.job p).jobId = jobId := (hkeeps.jobId p).trans hid
    simp only [if_true, hid1] at hinv2 ⊢
    exact Inv.keeps hinv2 (signalTaskRecords_keepsTasks ..) hatt

theorem inv_cancel (h : s.Inv) (hatt : s.attempt = none) (env : Env) (now : ℤ) (jobIdStr : CStr)
    (flags : KillFlags) (uid : ℕ) (preempt : Bool) :
    (s.exec env (.cancel now jobIdStr flags uid preempt)).Inv := by
  have hupdate : KeepsTasks s.ctld { s.ctld with lastJobUpdate := now } :=
    ⟨.ofJobEq rfl rfl rfl rfl, fun _ => id⟩
  simp only [exec, jobStrSignal, cancelled]
  cases parseJobId jobIdStr with
  | none => exact h.keepsLive hatt (.refl _)
  | some target =>
    obtain ⟨jobId, rest⟩ := target
    dsimp only
    by_cases hrest : rest = []
    · rw [if_pos hrest, if_pos hrest]
      exact h.keepsLive hatt (hupdate.trans (signalWhole_keepsTasks ..))
    rw [if_neg hrest, if_neg hrest]
    have hrecord : arrayRecord { s.ctld with lastJobUpdate := now } jobId =
      s.ctld.arrayRecord jobId := rfl
    rw [hrecord]
    cases htasks : parseArrayExpr env.maxArraySize (rest.drop 1) with
    | none => exact h.keepsLive hatt hupdate
    | some tasks =>
      cases hp : s.ctld.arrayRecord jobId with
      | none => exact h.keepsLive hatt hupdate
      | some p => exact inv_signalExpr (h.keeps hupdate hatt) hatt env now hp tasks flags uid preempt

/-! ### Records that come, change and go -/

theorem inv_change (h : s.Inv) (env : Env) (hok : s.ok (.change p f)) :
    (s.exec env (.change p f)).Inv := by
  obtain ⟨hp, hfields, hfin, hpend⟩ := hok
  have hjob (q : Ptr) : ((s.ctld.modJob p f).job q).taskFields = (s.ctld.job q).taskFields :=
    s.ctld.modJob_part _ hfields q
  have hfin' (q : Ptr) (hq : (s.ctld.job q).jobState.isFinished) :
      ((s.ctld.modJob p f).job q).jobState.isFinished := by
    rcases eq_or_ne q p with rfl | hne
    · rw [modJob_job_self]
      exact hfin hq
    · rwa [modJob_job_of_ne _ _ hne]
  refine ⟨h.table.congr rfl rfl rfl (fun q _ => hjob q) fun q _ => hfin' q, ?_, fun q hq => ?_⟩
  · exact h.placed.congr fun q _ => tasksOf_congr Iff.rfl (hjob q)
  · have hatt := h.attempted q hq
    have hid : ((s.ctld.modJob p f).job q).jobId = (s.ctld.job q).jobId := congrArg (·.1) (hjob q)
    have harray : ((s.ctld.modJob p f).job q).arrayJobId = (s.ctld.job q).arrayJobId :=
      congrArg (·.2.1) (hjob q)
    have htask : ((s.ctld.modJob p f).job q).arrayTaskId = (s.ctld.job q).arrayTaskId :=
      congrArg (·.2.2.1) (hjob q)
    refine ⟨hatt.mem, ?_, fun b hb => ?_⟩
    · simp only [exec]
      rcases eq_or_ne q p with rfl | hne
      · rw [modJob_job_self]
        exact hpend hq
      · rw [modJob_job_of_ne _ _ hne]
        exact hatt.pending
    · simp only [exec, waiting_eq, hjob] at hb
      rw [← waiting_eq] at hb
      simp only [exec, hid, harray, htask]
      exact hatt.task b hb

theorem inv_delete (h : s.Inv) (env : Env) (hp : p ∈ s.ctld.jobList)
    (hfin : (s.ctld.job p).jobState.isFinished) : (s.exec env (.delete p)).Inv := by
  have hhash (q : Ptr) (hq : q ≠ p) :
      q ∈ (s.ctld.listDeleteJob p).jobArrayHash ↔ q ∈ s.ctld.jobArrayHash := by
    simp only [listDeleteJob]
    split_ifs
    · rfl
    · exact List.mem_erase_of_ne hq
  refine ⟨h.table.delete hp, ?_, fun q hq => ?_⟩
  · exact h.placed.giveUp h.table.nodup fun q _ hq => tasksOf_congr (hhash q hq) rfl
  · have hatt := h.attempted q hq
    have hne : q ≠ p := by
      rintro rfl
      exact hfin.1 hatt.pending
    exact ⟨h.table.nodup.mem_erase_iff.2 ⟨hne, hatt.mem⟩, hatt.pending, hatt.task⟩

section

variable (env : Env) (now : ℤ) (desc : JobDesc)

/-- A new record counts as one job, until it is known to be one of an array. -/
theorem addJob_table (h : c.ArrayTable) (hp : p ∉ c.jobList)
    (hid : ∀ q ∈ c.jobList, (c.job q).jobId ≠ desc.jobId) : (c.addJob env now p desc).ArrayTable := by
  refine h.add hp rfl rfl ?_ (fun r hr => addJob_job_of_mem hp hr) (fun r hr => ?_) fun b hb => ?_
  · rw [addJob_job_self]
    rfl
  · rw [addJob_job_self]
    exact hid r hr
  · rw [addJob_job_self] at hb
    cases hb

/-- The bitmap of an array comes with its count of tasks. -/
theorem createArray_table (h : c.ArrayTable) (hp : p ∈ c.jobList)
    (hrecs : (c.job p).arrayRecs = none) (hhash : p ∉ c.jobArrayHash)
    (hsmall : ∀ t ∈ desc.arrayBitmap, t < 2 ^ 31) : (c.createArray p desc).ArrayTable := by
  simp only [createArray]
  split_ifs with hempty
  · exact h
  have hself : (c.modJob p (·.setArray desc)).job p = (c.job p).setArray desc := modJob_job_self ..
  have hother (q : Ptr) (hq : q ≠ p) : (c.modJob p (·.setArray desc)).job q = c.job q :=
    modJob_job_of_ne _ _ hq
  refine h.update hp rfl (.inl rfl) ?_ (fun q _ hq => ?_) (fun q _ hq => ?_) (fun q hq hne => ?_)
    (fun hmem => absurd hmem hhash) fun b hb => ?_
  · have hbefore : (c.job p).jobCnt = 1 := by
      simp [jobCnt, hrecs]
    have hafter : ((c.job p).setArray desc).jobCnt = desc.arrayBitmap.card := by
      simp only [setArray, jobCnt, elim_some, JobDesc.arrayRecs]
      omega
    have hcount : (c.modJob p (·.setArray desc)).jobCount = c.jobCount := rfl
    simp only [hself, hbefore, hafter, hcount]
    omega
  · simp [hother q hq]
  · simp [hother q hq]
  · simp only [hself]
    exact fun heq => hne (h.ids p hp q hq heq).symm
  · simp only [hself] at hb ⊢
    obtain rfl : desc.arrayBitmap = b := some.inj hb
    refine ⟨rfl, fun t ht => (hsmall t ht).trans (by decide), fun hb => ?_⟩
    exact absurd (card_eq_zero.2 hb) hempty

end

section

variable (h : s.Inv) (hatt : s.attempt = none) (env : Env) (now : ℤ) {desc : JobDesc}
  (hp : p ∉ s.ctld.jobList) (hid : ∀ q ∈ s.ctld.jobList, (s.ctld.job q).jobId ≠ desc.jobId)

include h hatt env now hp hid

/-- A record that is not accepted is purged, and everything is as before. -/
theorem inv_purge {c' : Ctld} (hk : KeepsTasks (s.ctld.addJob env now p desc) c') :
    ArrayRun.Inv { s with ctld := c'.purgeJob desc.jobId } := by
  have hjob (q : Ptr) (hq : q ∈ s.ctld.jobList) :
      (s.ctld.addJob env now p desc).job q = s.ctld.job q := addJob_job_of_mem hp hq
  have hfields (q : Ptr) (hq : q ∈ s.ctld.jobList) :
      ((c'.purgeJob desc.jobId).job q).taskFields = (s.ctld.job q).taskFields :=
    (hk.fields q).trans (by rw [hjob q hq])
  have hlist : (c'.purgeJob desc.jobId).jobList = s.ctld.jobList := by
    refine purgeJob_jobList hk.jobList ?_ fun q hq => ?_
    · rw [hk.jobId, addJob_job_self]
      rfl
    · rw [hk.jobId, hjob q hq]
      exact hid q hq
  refine ⟨h.table.congr hlist hk.jobArrayHash ?_ hfields fun q hq hfin => ?_, ?_,
    fun q hq => by rw [hatt] at hq; cases hq⟩
  · have hcount : c'.jobCount = s.ctld.jobCount + 1 := hk.jobCount
    simp only [purgeJob, hcount]
    omega
  · refine hk.finished q ?_
    rwa [hjob q hq]
  · rw [hlist]
    refine h.placed.congr fun q hq => tasksOf_congr ?_ (hfields q hq)
    rw [purgeJob, hk.jobArrayHash]
    rfl

/-- The tasks of a new array wait in its record. -/
theorem inv_accept (harray : ∀ q ∈ s.ctld.jobArrayHash, (s.ctld.job q).arrayJobId ≠ desc.jobId)
    (hsmall : ∀ t ∈ desc.arrayBitmap, t < 2 ^ 31)
    {c' : Ctld} (hk : KeepsTasks (s.ctld.addJob env now p desc) c') :
    ArrayRun.Inv { s with
      ctld := c'.createArray p desc
      live := s.live ∪ ({desc.jobId} : Bitmap) ×ˢ desc.arrayBitmap } := by
  have hself : (s.ctld.addJob env now p desc).job p = desc.record env now := addJob_job_self
  have hmem : p ∈ c'.jobList := by
    rw [hk.jobList]
    simp [addJob]
  have hhash : c'.jobArrayHash = s.ctld.jobArrayHash := hk.jobArrayHash
  have hnot : p ∉ c'.jobArrayHash := by
    rw [hhash]
    exact fun hmem => hp (h.table.hash_mem p hmem)
  have hrecs : (c'.job p).arrayRecs = none := by
    have hrec := congrArg (·.2.2.2) (hk.fields p)
    rw [hself] at hrec
    exact map_eq_none_iff.1 hrec
  have hidp : (c'.job p).jobId = desc.jobId := by
    rw [hk.jobId, hself]
    rfl
  have htable := createArray_table desc ((addJob_table env now desc h.table hp hid).keeps hk) hmem
    hrecs hnot hsmall
  refine ⟨htable, ?_, fun q hq => by rw [hatt] at hq; cases hq⟩
  have hhash' : (c'.createArray p desc).jobArrayHash = s.ctld.jobArrayHash := by
    rw [← hhash, createArray]
    split_ifs <;> rfl
  have hlist : (c'.createArray p desc).jobList = s.ctld.jobList ++ [p] :=
    (createArray_jobList c' p desc).trans hk.jobList
  have htasks : (c'.createArray p desc).tasksOf p = ({desc.jobId} : Bitmap) ×ˢ desc.arrayBitmap := by
    rw [tasksOf, hhash', ← hhash, if_neg hnot, empty_union, createArray_job_self]
    split_ifs with hempty
    · rw [card_eq_zero.1 hempty, product_empty, waiting, hrecs]
      exact product_empty _
    · simp only [setArray, hidp]
      rfl
  rw [hlist, ← htasks]
  refine h.placed.add (fun q hq => ?_) fun q hq => ?_
  · have hqp : q ≠ p := fun hqp => hp (hqp ▸ hq)
    refine tasksOf_congr (by rw [hhash']) ?_
    rw [createArray_job_of_ne _ _ _ hqp, hk.fields, addJob_job_of_mem hp hq]
  · rw [disjoint_left]
    intro x hx hx'
    rw [htasks, mem_product, mem_singleton] at hx'
    rcases mem_tasksOf.1 hx with ⟨hmem, rfl⟩ | ⟨hx1, -⟩
    · exact harray q hmem hx'.1
    · exact hid q hq (hx1.symm.trans hx'.1)

end

theorem inv_create (h : s.Inv) (env : Env) (now : ℤ) {desc : JobDesc} {rejected : Bool}
    (hok : s.ok (.create now p desc rejected)) :
    (s.exec env (.create now p desc rejected)).Inv := by
  obtain ⟨hatt, hp, hid, harray, hsmall⟩ := hok
  simp only [exec]
  obtain ⟨c', hsans, hcases⟩ := jobCreate_cases env now s.ctld p desc rejected
  have hk := KeepsTasks.ofSansRequest hsans
  rcases hcases with ⟨hrc, hc⟩ | ⟨hrc, hc⟩
  · rw [if_neg hrc, hc]
    exact inv_purge h hatt env now hp hid hk
  · rw [if_pos hrc, hc]
    exact inv_accept h hatt env now hp hid harray hsmall hk

/-! ### Every state of a run -/

theorem inv_step (env : Env) (o : ArrayOp) (h : s.Inv) (hok : s.ok o) : (s.exec env o).Inv := by
  cases o with
  | create now p desc rejected => exact inv_create h env now hok
  | preSched p => exact inv_preSched h hok.2.1 hok.2.2 env
  | succeed now q newId => exact inv_succeed h env now hok.2.1 hok.2.2
  | fail => exact inv_fail h env
  | cancel now jobIdStr flags uid preempt => exact inv_cancel h hok env now jobIdStr flags uid preempt
  | change p f => exact inv_change h env hok
  | delete p => exact inv_delete h env hok.1 hok.2

theorem inv_noJobs (h : c.NoJobs) : ArrayRun.Inv { ctld := c } := by
  refine ⟨⟨?_, ?_, ?_, ?_, ?_, ?_, ?_⟩, ⟨?_, by simp⟩, by simp⟩
  all_goals simp [h.jobList, h.jobArrayHash, h.jobCount]

end ArrayRun

/-- From a controller without jobs, in every state of every run: a task of an array that was
    neither cancelled while it waited nor deleted with its record is in exactly one place; a
    record counts the tasks that wait in it; and the count of jobs is that of the records, of
    which one in which tasks wait counts for as many. -/
theorem arrayTasks_in_one_place (env : Env) (c₀ : Ctld) (os : List ArrayOp) (h₀ : c₀.NoJobs)
    (hrun : Run.Admissible (ArrayRun.exec env) ArrayRun.ok { ctld := c₀ } os) :
    let s := Run.run (ArrayRun.exec env) { ctld := c₀ } os
    (∀ a t, (a, t) ∈ s.live → s.ctld.InOnePlace a t) ∧
      (∀ p ∈ s.ctld.jobList, ∀ r ∈ (s.ctld.job p).arrayRecs, ∀ b ∈ r.taskIdBitmap,
        r.taskCnt = b.card) ∧
      s.ctld.jobCount = ((s.ctld.jobList.map fun p => (s.ctld.job p).jobCnt).sum : ℕ) := by
  intro s
  have hinv : s.Inv := Run.invariant_run (fun s o h hok => ArrayRun.inv_step env o h hok)
    (ArrayRun.inv_noJobs h₀) hrun
  refine ⟨fun a t hat => hinv.table.inOnePlace hinv.placed hat, fun p hp r hr b hb => ?_,
    hinv.table.jobCount⟩
  have hwait : (s.ctld.job p).waiting = some b := by
    rw [waiting, mem_def.1 hr]
    exact hb
  have htask := (hinv.table.good p hp b hwait).taskCnt
  rwa [mem_def.1 hr] at htask

/-- An array of three tasks, of which one is started and one is cancelled. -/
theorem arrayTasks_in_one_place_three :
    let s := Run.run (ArrayRun.exec { maxArraySize := 4 }) { ctld := {} }
      [.create 0 1 { jobId := 5, userId := 7, arrayBitmap := {1, 2, 3} } false, .preSched 1,
        .succeed 0 2 6, .cancel 0 "5_3".toList ∅ 7 false]
    s.live = {(5, 1), (5, 2)} ∧ s.ctld.InOnePlace 5 1 ∧ s.ctld.InOnePlace 5 2 ∧
      s.ctld.jobCount = 2 := by
  intro s
  obtain ⟨hplace, -, hcount⟩ := arrayTasks_in_one_place { maxArraySize := 4 } {}
    [.create 0 1 { jobId := 5, userId := 7, arrayBitmap := {1, 2, 3} } false, .preSched 1,
      .succeed 0 2 6, .cancel 0 "5_3".toList ∅ 7 false] ⟨rfl, rfl, rfl⟩ (by decide)
  have hlive : s.live = {(5, 1), (5, 2)} := by decide
  exact ⟨hlive, hplace 5 1 (by rw [hlive]; decide), hplace 5 2 (by rw [hlive]; decide),
    hcount.trans (by decide)⟩

/-- A task that has finished is in no place once its record is deleted, though nobody
    cancelled it. -/
theorem arrayTask_deleted :
    let os : List ArrayOp :=
      [.create 0 1 { jobId := 5, userId := 7, arrayBitmap := {1} } false, .preSched 1,
        .succeed 0 2 6, .change 1 fun j => { j with jobState := ⟨.complete, ∅⟩ }, .delete 1]
    Run.Admissible (ArrayRun.exec {}) ArrayRun.ok { ctld := {} } os ∧
      ¬(Run.run (ArrayRun.exec {}) { ctld := {} } os).ctld.InOnePlace 5 1 := by
  exact ⟨by decide, by decide⟩

end Slurm
