import Slurm.Pack.Kill

/-!
# Signals by the string of a job id

A request names its target by a string: a job (`"7"`), a whole job array (`"7"`,
`"7_*"`) or some of its tasks (`"7_2"`, `"7_[1-5:2,9]"`); `job_str_signal` in
`job_mgr.c`. A member of a job pack is signalled by itself only with a flag for
this, and leaves the pack then.

Each of the routes asks for the permission of the user at a place of its own.
`jobStrSignal_kept_iff` says when a request that is denied leaves all job
records as they are: always, but for a member of a job pack, which leaves its
pack before the user is asked for.
-/

namespace Slurm

open CString JobRecord Ctld Option

/-! ## The target -/

/-- A closing bracket is left out. -/
def skipBracket : CStr → CStr
  | ']' :: s => s
  | s => s

/-- The string is at its end, or at the limit of running tasks. -/
def atTokEnd (s : CStr) : Bool := s = [] || s.head? = some '%'

/-- The end and the step of a range of tasks that starts with `first`; `rest` is what
    follows `first`. -/
def parseArrayEnd (first : ℤ) (rest : CStr) : Option (ℤ × ℤ) :=
  match rest with
  | '-' :: s =>
    let (last, rest) := strtol s
    let last := toInt last
    match skipBracket rest with
    | ':' :: s =>
      let (step, rest) := strtol s
      let step := toInt step
      if atTokEnd (skipBracket rest) ∧ 0 < step ∧ first ≤ last then some (last, step) else none
    | rest => if atTokEnd rest ∧ first ≤ last then some (last, 1) else none
  | rest => if atTokEnd rest then some (first, 1) else none

/-- The tasks `first`, `first + step`, ..., up to `last`. -/
def taskRange (first last step : ℕ) : Bitmap :=
  (Finset.range (last + 1)).filter fun i => first ≤ i ∧ (i - first) % step = 0

/-- The tasks that a token of an array expression names (`_parse_array_tok`). -/
def parseArrayTok (maxArraySize : ℕ) (tok : CStr) : Option Bitmap :=
  let tok := match tok with
    | '[' :: s => s
    | s => s
  let (first, rest) := strtol tok
  let first := toInt first
  if first < 0 then none
  else
    (parseArrayEnd first (skipBracket rest)).bind fun (last, step) =>
      if last ≥ maxArraySize then none
      else some (taskRange first.toNat last.toNat step.toNat)

/-- The tasks that an array expression names; there has to be one. -/
def parseArrayExpr (maxArraySize : ℕ) (expr : CStr) : Option Bitmap :=
  ((strtok ',' expr).foldl (fun tasks tok =>
    tasks.bind fun t => (parseArrayTok maxArraySize tok).map (t ∪ ·)) (some ∅)).filter
      fun tasks => 0 < tasks.card

/-- The job id at the front of a string, and what follows it: nothing, or an array
    expression with the character before it. -/
def parseJobId (s : CStr) : Option (ℕ × CStr) :=
  let (longId, rest) := strtol s
  if longId ≤ 0 ∨ longId = 2 ^ 63 - 1 ∨ (rest ≠ [] ∧ rest.head? ≠ some '_') then none
  else
    match rest with
    | '_' :: '*' :: s => some (toUInt longId, s)
    | rest => some (toUInt longId, rest)

/-! ## The routes -/

/-- The larger of two return codes (`MAX`). -/
def Rc.max (a b : Rc) : Rc := if a.code > b.code then a else b

namespace JobRecord

/-- The job is in a job pack that it does not lead. -/
def isPackMember (jobId : ℕ) (j : JobRecord) : Prop := j.packLeader ≠ 0 ∧ j.packLeader ≠ jobId
  deriving Decidable

/-- The job is in no job pack any more. -/
def leavePack (j : JobRecord) : JobRecord := { j with packLeader := 0 }

end JobRecord

/-- The jobs in the bucket of an array. -/
def Ctld.arrayBucket (env : Env) (c : Ctld) (jobId : ℕ) : List Ptr :=
  c.jobArrayHash.filter fun p =>
    (c.job p).arrayJobId % env.hashTableSize = jobId % env.hashTableSize

/-- The count of a loop over the tasks of an array. -/
structure SignalLoop where
  rc : Rc := .success
  done : ℕ := 0
  signalled : ℕ := 0
  ctld : Ctld

/-- Signal the record of the pending tasks of an array, if there is one. -/
def signalBase (env : Env) (now : ℤ) (signal : ℕ) (flags : KillFlags) (uid : ℕ) (preempt : Bool)
    (c : Ctld) : Option Ptr → SignalLoop
  | none => { ctld := c }
  | some p =>
    let (rc, c) := jobSignalPtr env now c p signal flags uid preempt
    if rc = .alreadyDone then { done := 1, signalled := 1, ctld := c }
    else { rc := rc, signalled := 1, ctld := c }

/-- Signal a task of an array, unless it was the record of the pending ones. -/
def signalTask (env : Env) (now : ℤ) (signal : ℕ) (flags : KillFlags) (uid : ℕ) (preempt : Bool)
    (base : Option Ptr) (l : SignalLoop) (q : Ptr) : SignalLoop :=
  if base = some q then l
  else
    let (rc, c) := jobSignalPtr env now l.ctld q signal flags uid preempt
    if rc = .alreadyDone then
      { l with done := l.done + 1, signalled := l.signalled + 1, ctld := c }
    else { l with rc := l.rc.max rc, signalled := l.signalled + 1, ctld := c }

/-- Signal all tasks of an array, the record of its pending tasks first. -/
def signalArray (env : Env) (now : ℤ) (c : Ctld) (jobId : ℕ) (base : Option Ptr) (signal : ℕ)
    (flags : KillFlags) (uid : ℕ) (preempt : Bool) : Rc × Ctld :=
  let start := signalBase env now signal flags uid preempt c base
  if start.rc = .accessDenied then (start.rc, start.ctld)
  else if (c.arrayBucket env jobId).isEmpty ∧ base = none then (.invalidJobId, c)
  else
    let l := (c.arrayTasks jobId).foldl (signalTask env now signal flags uid preempt base) start
    if l.rc = .success ∧ l.done = l.signalled then (.alreadyDone, l.ctld) else (l.rc, l.ctld)

/-- Signal a job, or a whole job array. -/
def signalWhole (env : Env) (now : ℤ) (c : Ctld) (jobId signal : ℕ) (flags : KillFlags)
    (uid : ℕ) (preempt : Bool) : Rc × Ctld :=
  match c.findJobRecord jobId with
  | none => signalArray env now c jobId none signal flags uid preempt
  | some p =>
    if ¬(c.job p).isArray then
      if (c.job p).isPackMember jobId then
        if .fullJob ∉ flags then (.packCancelMember, c)
        else jobSignal env now (c.modJob p leavePack) jobId signal flags uid preempt
      else jobSignal env now c jobId signal flags uid preempt
    else if ¬mayCancel env uid (c.job p) then (.accessDenied, c)
    else
      let base := if (c.job p).arrayRecs.isSome then some p else none
      signalArray env now c jobId base signal flags uid preempt

/-- The record of pending tasks, of which `left` are left. -/
def JobRecord.leaveTasks (left : Bitmap) (j : JobRecord) : JobRecord :=
  { j with
    arrayRecs := j.arrayRecs.map fun (r : ArrayRecs) =>
      { r with taskIdBitmap := some left, taskIdStr := none } }

/-- The number of pending tasks. -/
def JobRecord.setTaskCnt (n : ℕ) (j : JobRecord) : JobRecord :=
  { j with arrayRecs := j.arrayRecs.map fun (r : ArrayRecs) => { r with taskCnt := n } }

/-- The record of pending tasks is cancelled by `uid`. -/
def JobRecord.cancelPending (now : ℤ) (uid : ℕ) (j : JobRecord) : JobRecord :=
  { j with jobState := ⟨.cancelled, ∅⟩, startTime := now, endTime := now, requid := uid }

/-- Cancel those of the pending tasks `pending` of an array that are among `tasks`. -/
def cancelTasks (env : Env) (now : ℤ) (c : Ctld) (p : Ptr) (pending tasks : Bitmap) (uid : ℕ) :
    Ctld :=
  let left := pending \ tasks
  let origTaskCnt : ℕ := (c.job p).arrayRecs.elim 0 (·.taskCnt)
  let c := c.modJob p (leaveTasks left)
  let c :=
    if left.card = 0 then
      let c := { c with lastJobUpdate := now }
      let c := jobCompletionLogger env (c.modJob p (cancelPending now uid)) p
      -- The record itself still counts as a job.
      { c with jobCount := c.jobCount - (origTaskCnt - 1) }
    else
      let c := jobArrayComp c p false
      { c with jobCount := c.jobCount - (origTaskCnt - left.card) }
  c.modJob p (setTaskCnt left.card)

/-- Signal the tasks `tasks` that have a record of their own. -/
def signalTaskRecords (env : Env) (now : ℤ) (jobId signal : ℕ) (flags : KillFlags) (uid : ℕ)
    (preempt : Bool) (tasks : List ℕ) (start : Rc × Ctld) : Rc × Ctld :=
  tasks.foldl (fun l i =>
    match l.2.findJobArrayRec jobId i with
    | none => (.invalidJobId, l.2)
    | some q =>
      let (rc, c) := jobSignalPtr env now l.2 q signal flags uid preempt
      (l.1.max rc, c)) start

/-- Signal some tasks of the array that the record `p` is of. -/
def signalTasks (env : Env) (now : ℤ) (c : Ctld) (jobId : ℕ) (p : Ptr) (tasks : Bitmap)
    (signal : ℕ) (flags : KillFlags) (uid : ℕ) (preempt : Bool) : Rc × Ctld :=
  let records (tasks : Bitmap) := (List.range env.maxArraySize).filter (· ∈ tasks)
  match if (c.job p).jobState.isPending then (c.job p).arrayRecs.bind (·.taskIdBitmap) else none with
  | none => signalTaskRecords env now jobId signal flags uid preempt (records tasks) (.success, c)
  | some pending =>
    if signal = sigKill then
      signalTaskRecords env now jobId signal flags uid preempt (records (tasks \ pending))
        (.success, cancelTasks env now c p pending tasks uid)
    else
      signalTaskRecords env now jobId signal flags uid preempt (records (tasks \ pending))
        (.transitionStateNoUpdate, c)

/-- The record by which the permission for an array is asked for. -/
def Ctld.arrayRecord (c : Ctld) (jobId : ℕ) : Option Ptr :=
  ((c.findJobRecord jobId).or (c.arrayTasks jobId).head?).filter fun p => (c.job p).isArray

/-- Signal some tasks of an array, for a user who may do so. A member of a job pack
    leaves it before. -/
def signalExpr (env : Env) (now : ℤ) (c : Ctld) (jobId : ℕ) (p : Ptr) (tasks : Bitmap)
    (signal : ℕ) (flags : KillFlags) (uid : ℕ) (preempt : Bool) : Rc × Ctld :=
  if (c.job p).isPackMember jobId ∧ .fullJob ∉ flags then (.packCancelMember, c)
  else
    let c := if (c.job p).isPackMember jobId then c.modJob p leavePack else c
    if ¬mayCancel env uid (c.job p) then (.accessDenied, c)
    else signalTasks env now c jobId p tasks signal flags uid preempt

/-- Signal the jobs a string names (`job_str_signal`). -/
def jobStrSignal (env : Env) (now : ℤ) (c : Ctld) (jobIdStr : CStr) (signal : ℕ)
    (flags : KillFlags) (uid : ℕ) (preempt : Bool) : Rc × Ctld :=
  match parseJobId jobIdStr with
  | none => (.invalidJobId, c)
  | some (jobId, rest) =>
    let c := { c with lastJobUpdate := now }
    if rest = [] then signalWhole env now c jobId signal flags uid preempt
    else
      match parseArrayExpr env.maxArraySize (rest.drop 1), c.arrayRecord jobId with
      | some tasks, some p => signalExpr env now c jobId p tasks signal flags uid preempt
      | _, _ => (.invalidJobId, c)

/-! ## Denied requests -/

section

variable (env : Env) (now : ℤ) (c : Ctld) (jobId signal : ℕ) (flags : KillFlags) (uid : ℕ)
  (preempt : Bool)

theorem jobSignalPtr_ne_accessDenied (p : Ptr) :
    (jobSignalPtr env now c p signal flags uid preempt).1 ≠ .accessDenied := by
  simp only [jobSignalPtr]
  split_ifs <;> simp

theorem killJobPack_ne_accessDenied (packId : ℕ) (p : Ptr) :
    (killJobPack env now c packId p signal flags uid preempt).1 ≠ .accessDenied := by
  simp only [killJobPack]
  split
  · apply jobSignalPtr_ne_accessDenied
  · split
    · apply jobSignalPtr_ne_accessDenied
    · split_ifs
      · simp
      · apply jobSignalPtr_ne_accessDenied

/-- `job_signal` asks for the permission before it does anything. -/
theorem jobSignal_of_denied {p : Ptr} (hfind : c.findJobRecord jobId = some p) :
    (¬mayCancel env uid (c.job p) →
      jobSignal env now c jobId signal flags uid preempt = (.accessDenied, c)) ∧
    (mayCancel env uid (c.job p) →
      (jobSignal env now c jobId signal flags uid preempt).1 ≠ .accessDenied) := by
  simp only [jobSignal, hfind]
  refine ⟨fun h => if_pos h, fun h => ?_⟩
  split_ifs
  · apply killJobPack_ne_accessDenied
  · apply jobSignalPtr_ne_accessDenied

theorem Rc.max_ne {a b x : Rc} (ha : a ≠ x) (hb : b ≠ x) : a.max b ≠ x := by
  simp only [Rc.max]
  split_ifs
  · exact ha
  · exact hb

/-- The loop over the tasks of an array is reached by those who may cancel them. -/
theorem signalArray_ne_accessDenied (base : Option Ptr) :
    (signalArray env now c jobId base signal flags uid preempt).1 ≠ .accessDenied := by
  have hstart : (signalBase env now signal flags uid preempt c base).rc ≠ .accessDenied := by
    cases base with
    | none => simp [signalBase]
    | some p =>
      simp only [signalBase]
      split_ifs
      · simp
      · apply jobSignalPtr_ne_accessDenied
  have hloop (tasks : List Ptr) (start : SignalLoop) (hstart : start.rc ≠ .accessDenied) :
      (tasks.foldl (signalTask env now signal flags uid preempt base) start).rc ≠ .accessDenied := by
    induction tasks generalizing start with
    | nil => exact hstart
    | cons q tasks ih =>
      refine ih _ ?_
      simp only [signalTask]
      split_ifs
      · exact hstart
      · exact hstart
      · exact Rc.max_ne hstart (by apply jobSignalPtr_ne_accessDenied)
  simp only [signalArray, if_neg hstart]
  split_ifs
  · simp
  · simp
  · exact hloop _ _ hstart

theorem signalTaskRecords_ne_accessDenied (tasks : List ℕ) {start : Rc × Ctld}
    (hstart : start.1 ≠ .accessDenied) :
    (signalTaskRecords env now jobId signal flags uid preempt tasks start).1 ≠ .accessDenied := by
  induction tasks generalizing start with
  | nil => exact hstart
  | cons i tasks ih =>
    refine ih ?_
    dsimp only
    split
    · simp
    · exact Rc.max_ne hstart (by apply jobSignalPtr_ne_accessDenied)

theorem signalTasks_ne_accessDenied (p : Ptr) (tasks : Bitmap) :
    (signalTasks env now c jobId p tasks signal flags uid preempt).1 ≠ .accessDenied := by
  simp only [signalTasks]
  split
  · apply signalTaskRecords_ne_accessDenied
    simp
  · split_ifs
    all_goals
      apply signalTaskRecords_ne_accessDenied
      simp

/-- The job that a string names, if it is one whose job pack is looked at: a job that is
    not of an array, or the record of the array whose tasks the string names. -/
def Ctld.namedJob (env : Env) (c : Ctld) (jobIdStr : CStr) : Option (ℕ × Ptr) :=
  (parseJobId jobIdStr).bind fun (jobId, rest) =>
    if rest = [] then ((c.findJobRecord jobId).filter fun p => ¬(c.job p).isArray).map (jobId, ·)
    else (parseArrayExpr env.maxArraySize (rest.drop 1)).bind fun _ =>
      (c.arrayRecord jobId).map (jobId, ·)

/-- The string names a member of a job pack that is to be signalled by itself, by a user
    who may not do so. -/
def Ctld.deniedMember (env : Env) (c : Ctld) (jobIdStr : CStr) (flags : KillFlags) (uid : ℕ) : Prop :=
  ∃ target ∈ c.namedJob env jobIdStr, (c.job target.2).isPackMember target.1 ∧ .fullJob ∈ flags ∧
    ¬mayCancel env uid (c.job target.2)

theorem leavePack_ne {p : Ptr} (h : (c.job p).isPackMember jobId) :
    (c.modJob p leavePack).job p ≠ c.job p := by
  rw [modJob_job_self]
  intro heq
  exact h.1 (congrArg JobRecord.packLeader heq).symm

/-- If the request was denied, no job record has changed. -/
def KeptIfDenied (c : Ctld) (r : Rc × Ctld) : Prop :=
  r.1 = .accessDenied → ∀ p, r.2.job p = c.job p

theorem KeptIfDenied.of_ne {r : Rc × Ctld} (h : r.1 ≠ .accessDenied) : KeptIfDenied c r :=
  fun hr => absurd hr h

variable {c}

/-- The route of a single job or a whole array. -/
theorem signalWhole_kept_iff (c' : Ctld) (hjob : c'.job = c.job) (hlist : c'.jobList = c.jobList) :
    KeptIfDenied c (signalWhole env now c' jobId signal flags uid preempt) ↔
      ∀ p ∈ c.findJobRecord jobId, ¬(c.job p).isArray → (c.job p).isPackMember jobId →
        .fullJob ∈ flags → mayCancel env uid (c.job p) := by
  have hfind' : c'.findJobRecord jobId = c.findJobRecord jobId := by
    simp [Ctld.findJobRecord, hjob, hlist]
  cases hfind : c.findJobRecord jobId with
  | none =>
    rw [hfind] at hfind'
    simp only [signalWhole, hfind']
    exact iff_of_true (.of_ne _ (by apply signalArray_ne_accessDenied)) fun _ h => by simp at h
  | some p =>
    rw [hfind] at hfind'
    simp only [mem_some_iff, forall_eq', signalWhole, hfind', hjob]
    split_ifs with harray hmay hrecs hmember hfull
    · exact iff_of_true (.of_ne _ (by apply signalArray_ne_accessDenied)) (fun h => absurd harray h)
    · exact iff_of_true (.of_ne _ (by apply signalArray_ne_accessDenied)) (fun h => absurd harray h)
    · exact iff_of_true (fun _ q => by rw [hjob]) (fun h => absurd harray h)
    · -- The member leaves its pack, and then the user is asked for.
      have hfind'' : (c'.modJob p leavePack).findJobRecord jobId = some p := by
        rw [← hfind']
        exact findJobRecord_congr (modJob_jobList ..) (c'.modJob_part (·.jobId) rfl) jobId
      have hsame : mayCancel env uid ((c'.modJob p leavePack).job p) ↔
          mayCancel env uid (c.job p) := by
        rw [modJob_job_self, hjob]
        rfl
      obtain ⟨hdenied, hallowed⟩ := jobSignal_of_denied env now _ jobId signal flags uid preempt hfind''
      rw [hsame] at hdenied hallowed
      refine ⟨fun hkept _ _ _ => ?_, fun h => .of_ne _ (hallowed (h harray hmember hfull))⟩
      by_contra hnot
      rw [hdenied hnot] at hkept
      have hback := hkept rfl p
      rw [← hjob] at hback hmember
      exact leavePack_ne c' jobId hmember hback
    · exact iff_of_true (.of_ne _ (by simp)) fun _ _ h => absurd h hfull
    · obtain ⟨hdenied, hallowed⟩ := jobSignal_of_denied env now c' jobId signal flags uid preempt hfind'
      refine iff_of_true ?_ fun _ h => absurd h hmember
      by_cases hmay : mayCancel env uid (c'.job p)
      · exact .of_ne _ (hallowed hmay)
      · rw [hdenied hmay]
        exact fun _ q => by rw [hjob]

/-- The route of some tasks of an array. -/
theorem signalExpr_kept_iff (c' : Ctld) (hjob : c'.job = c.job) (p : Ptr) (tasks : Bitmap) :
    KeptIfDenied c (signalExpr env now c' jobId p tasks signal flags uid preempt) ↔
      ¬((c.job p).isPackMember jobId ∧ .fullJob ∈ flags ∧ ¬mayCancel env uid (c.job p)) := by
  have hsame : mayCancel env uid ((c'.modJob p leavePack).job p) ↔
      mayCancel env uid (c'.job p) := by
    rw [modJob_job_self]
    rfl
  rw [← hjob]
  simp only [signalExpr]
  by_cases hmember : (c'.job p).isPackMember jobId
  · by_cases hfull : .fullJob ∈ flags
    · simp only [hmember, hfull, not_true, and_false, if_false, if_true, hsame, true_and, not_not]
      refine ⟨fun hkept => ?_, fun hmay => ?_⟩
      · by_contra hnot
        rw [if_pos hnot] at hkept
        exact leavePack_ne c' jobId hmember ((hkept rfl p).trans (by rw [hjob]))
      · rw [if_neg (not_not.2 hmay)]
        exact .of_ne _ (by apply signalTasks_ne_accessDenied)
    · rw [if_pos ⟨hmember, hfull⟩]
      exact iff_of_true (.of_ne _ (by simp)) fun h => hfull h.2.1
  · refine iff_of_true ?_ fun h => hmember h.1
    simp only [hmember, false_and, if_false]
    split_ifs
    · exact .of_ne _ (by apply signalTasks_ne_accessDenied)
    · exact fun _ q => by rw [hjob]

/-- A request that is denied leaves all job records as they are, unless it is to signal a
    member of a job pack by itself. -/
theorem jobStrSignal_kept_iff (jobIdStr : CStr) :
    KeptIfDenied c (jobStrSignal env now c jobIdStr signal flags uid preempt) ↔
      ¬c.deniedMember env jobIdStr flags uid := by
  simp only [jobStrSignal, Ctld.deniedMember, Ctld.namedJob]
  cases hparse : parseJobId jobIdStr with
  | none => exact iff_of_true (.of_ne _ (by simp)) (by simp)
  | some target =>
    obtain ⟨jobId, rest⟩ := target
    simp only [bind_some]
    by_cases hrest : rest = []
    · simp only [if_pos hrest]
      refine (signalWhole_kept_iff (c := c) env now jobId signal flags uid preempt
        { c with lastJobUpdate := now } rfl rfl).trans ?_
      cases c.findJobRecord jobId with
      | none => simp
      | some p => by_cases harray : (c.job p).isArray <;> simp [Option.filter, harray]
    · simp only [if_neg hrest]
      have hrecord : ({ c with lastJobUpdate := now } : Ctld).arrayRecord jobId =
        c.arrayRecord jobId := rfl
      rw [hrecord]
      cases parseArrayExpr env.maxArraySize (rest.drop 1) with
      | none => exact iff_of_true (.of_ne _ (by simp)) (by simp)
      | some tasks =>
        cases c.arrayRecord jobId with
        | none => exact iff_of_true (.of_ne _ (by simp)) (by simp)
        | some p =>
          simp only [bind_some, map_some, mem_some_iff, exists_eq_left']
          exact signalExpr_kept_iff env now jobId signal flags uid preempt
            { c with lastJobUpdate := now } rfl p tasks

end

/-- User 2000 asks for job 2, a member of the job pack of user 1000, to be cancelled by
    itself. This is denied, and the job is in no pack any more. -/
theorem jobStrSignal_denied_leaves_pack :
    let c := packOfTwo packDeps
    let r := jobStrSignal {} 5 c "2".toList sigKill {.fullJob} 2000 false
    r.1 = .accessDenied ∧ (c.job 2).packLeader = 1 ∧ (r.2.job 2).packLeader = 0 ∧
      ¬KeptIfDenied c r := by
  refine ⟨by decide, by decide, by decide, fun h => ?_⟩
  exact absurd (congrArg JobRecord.packLeader (h (by decide) 2)) (by decide)

end Slurm
