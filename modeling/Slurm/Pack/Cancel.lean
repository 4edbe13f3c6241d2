import Slurm.Lib.Run
import Slurm.Lib.Sweep
import Slurm.Depend.Atomic
import Slurm.Job.Create
import Slurm.Job.Signal

/-!
# Who can cancel a job pack

A request to cancel a job of a job pack is passed on to all jobs in the
dependency list of its leader, and the permission of the user is asked for once,
for the job that the request names. So who may put jobs in such a list, or make a
job point to a leader, decides who can cancel what. Nothing in the code asks for
it: a user can submit a leader with the job of another user as its member.

`jobSignal_reaches_own` says that a request to cancel a job changes only jobs
that its sender may cancel, in all states that submissions and updates of
dependencies lead to, if each of them keeps the packs in the hands of those who
may cancel all of their jobs (`TableOp.Guarded`).
-/

namespace Slurm

open Run JobRecord List Option

/-! ## Submissions and updates -/

/-- A change of the job table. -/
inductive TableOp
  /-- Submit a job; its record is at `p`, and a later check may fail. -/
  | submit (now : ℤ) (p : Ptr) (desc : JobDesc) (rejected : Bool)
  /-- Change the dependencies of the job at `p`. -/
  | update (now : ℤ) (p : Ptr) (newDepend : Option CStr)

/-- Execute a change of the job table. The memory of a new record is not in use, and a job id
    that is in use is refused. -/
def TableOp.exec (env : Env) (c : Ctld) : TableOp → Ctld
  | submit now p desc rejected =>
    if p ∈ c.jobList ∨ c.findJobRecord desc.jobId ≠ none then c
    else (jobCreate env now c p desc rejected).2
  | update now p newDepend =>
    if p ∈ c.jobList then (updateJobDependency env now c p newDepend).2 else c

/-- Whoever may cancel the job at `p` may cancel the one at `q`. -/
def Ctld.Covers (env : Env) (c : Ctld) (p q : Ptr) : Prop :=
  ∀ uid, mayCancel env uid (c.job p) → mayCancel env uid (c.job q)

namespace Ctld

variable (env : Env) (now : ℤ) (c : Ctld) (p : Ptr)

/-- The jobs whose pack is led by `p` when a string has been read: those that have it as their
    leader, and, if the string sets up a pack, `p` itself and the members it names. -/
def Follows (s : CStr) (q : Ptr) : Prop :=
  (c.job q).packLeader = (c.job p).jobId ∨
    (c.readDepend env now p s).2.dependType = some .packleader ∧
      (q = p ∨ ∃ d ∈ packEntries (c.readDepend env now p s).2.dependList, d.jobPtr = some q)

/-- The dependencies of `p` when a string has been read: the new ones, or those it had if the
    string is refused. -/
def NextDeps (s : CStr) (deps : List DependSpec) : Prop :=
  (c.AcceptsDepend env now p s ∧ deps = (c.readDepend env now p s).2.dependList) ∨
    (¬c.AcceptsDepend env now p s ∧ (c.job p).deps = some deps)

/-- Whoever may cancel a job whose pack is led by `p` may cancel `p` and all jobs that a
    request is passed on to from there. -/
def GuardedUpdate (newDepend : Option CStr) : Prop :=
  ∀ s ∈ newDepend, s ≠ [] → s ≠ "0".toList →
    ∀ q ∈ c.jobList, c.Follows env now p s q →
      ∀ deps, c.NextDeps env now p s deps → ∀ r ∈ p :: reached deps, c.Covers env q r

/-- A job that is said to be in a pack is in the hands of those who may cancel the pack. -/
def GuardedLeader : Prop :=
  (c.job p).packLeader ≠ 0 → ∀ leader ∈ c.findJobRecord (c.job p).packLeader,
    ∀ deps ∈ (c.job leader).deps, ∀ q ∈ leader :: reached deps, c.Covers env p q

end Ctld

/-- A change of the job table puts no job in the hands of somebody who may not cancel it. -/
def TableOp.Guarded (env : Env) (c : Ctld) : TableOp → Prop
  | submit now p desc _ =>
    (c.addJob env now p desc).GuardedLeader env p ∧
      (c.addJob env now p desc).GuardedUpdate env now p desc.dependency
  | update now p newDepend => c.GuardedUpdate env now p newDepend

/-! ## The packs of a table -/

/-- All packs are in the hands of those who may cancel all of their jobs. -/
structure PacksOwned (env : Env) (c : Ctld) : Prop where
  unique : ∀ p ∈ c.jobList, c.findJobRecord (c.job p).jobId = some p
  tasks : ∀ p ∈ c.jobArrayHash, p ∈ c.jobList
  live : ∀ p ∈ c.jobList, ∀ deps ∈ (c.job p).deps, ∀ q ∈ reached deps, q ∈ c.jobList
  owned : ∀ p ∈ c.jobList, c.GuardedLeader env p

/-- What of a job does not change in these states. -/
def JobRecord.owner (j : JobRecord) : ℕ × ℕ × Option CStr := (j.jobId, j.userId, j.account)

/-- From `c` to `c'` the same jobs are there, with the same owners. -/
structure SameOwners (c c' : Ctld) : Prop where
  jobList : c'.jobList = c.jobList
  jobArrayHash : c'.jobArrayHash = c.jobArrayHash
  owner : ∀ q, (c'.job q).owner = (c.job q).owner

namespace SameOwners

variable {c c' c'' : Ctld}

theorem refl (c : Ctld) : SameOwners c c := ⟨rfl, rfl, fun _ => rfl⟩

theorem trans (h : SameOwners c c') (h' : SameOwners c' c'') : SameOwners c c'' :=
  ⟨h'.jobList.trans h.jobList, h'.jobArrayHash.trans h.jobArrayHash,
    fun q => (h'.owner q).trans (h.owner q)⟩

theorem modJob (c : Ctld) (p : Ptr) {f : JobRecord → JobRecord}
    (hf : ∀ j, (f j).owner = j.owner) : SameOwners c (c.modJob p f) :=
  ⟨rfl, rfl, c.modJob_part _ (hf _)⟩

theorem of_sansDepend (h : c'.sansDepend = c.sansDepend) : SameOwners c c' where
  jobList := by
    have := congrArg Ctld.jobList h
    exact this
  jobArrayHash := by
    have := congrArg Ctld.jobArrayHash h
    exact this
  owner q := by
    have := congrArg (fun d : Ctld => (d.job q).owner) h
    exact this

theorem findJobRecord (h : SameOwners c c') (jobId : ℕ) :
    c'.findJobRecord jobId = c.findJobRecord jobId := by
  have hid (q : Ptr) : (c'.job q).jobId = (c.job q).jobId := congrArg (·.1) (h.owner q)
  simp [Ctld.findJobRecord, h.jobList, hid]

theorem mayCancel_iff (h : SameOwners c c') (env : Env) (uid : ℕ) (q : Ptr) :
    mayCancel env uid (c'.job q) ↔ mayCancel env uid (c.job q) := by
  have huser : (c'.job q).userId = (c.job q).userId := congrArg (·.2.1) (h.owner q)
  have hacct : (c'.job q).account = (c.job q).account := congrArg (·.2.2) (h.owner q)
  simp [mayCancel, huser, hacct]

theorem covers_iff (h : SameOwners c c') (env : Env) (p q : Ptr) :
    c'.Covers env p q ↔ c.Covers env p q := by
  simp [Ctld.Covers, h.mayCancel_iff]

end SameOwners

theorem deps_of_sansDepend {c c' : Ctld} (h : c'.sansDepend = c.sansDepend) (q : Ptr) :
    (c'.job q).deps = (c.job q).deps := by
  have hsans (j : JobRecord) : j.sansDepend.deps = j.deps := by
    cases hd : j.details <;> simp [deps, sansDepend, hd]
  have := congrArg (fun d : Ctld => (d.job q).deps) h
  simpa [Ctld.sansDepend, hsans] using this

theorem mem_reached {deps : List DependSpec} {q : Ptr} (h : q ∈ reached deps) :
    ∃ d ∈ deps, d.jobPtr = some q := by
  induction deps with
  | nil => simp [reached] at h
  | cons d deps ih =>
    cases hd : d.jobPtr with
    | none => simp [reached, hd] at h
    | some r =>
      rw [reached, hd] at h
      rcases mem_cons.1 h with rfl | h
      · exact ⟨d, mem_cons_self, hd⟩
      · obtain ⟨e, he, hq⟩ := ih h
        exact ⟨e, mem_cons_of_mem _ he, hq⟩

/-- The flags of dependencies do not matter to those who are reached. -/
theorem reached_dependList2str (orFlag : Bool) (sep : CStr) (leader1 : Bool)
    (deps : List DependSpec) :
    reached (dependList2str orFlag sep leader1 deps).2 = reached deps := by
  induction deps generalizing sep leader1 with
  | nil => rfl
  | cons d deps ih =>
    have hptr : (if orFlag ∧ d.dependType ≠ .singleton then d.setOr else d).jobPtr = d.jobPtr := by
      split_ifs <;> rfl
    simp [dependList2str, reached, hptr, ih]

/-! ## What an update changes -/

theorem xrefMembers_packLeader (leader : ℕ) (deps : List DependSpec) (c : Ctld) (q : Ptr) :
    ((xrefMembers leader deps c).2.job q).packLeader = (c.job q).packLeader ∨
      ((xrefMembers leader deps c).2.job q).packLeader = leader ∧
        ∃ d ∈ packEntries deps, d.jobPtr = some q := by
  induction deps generalizing c with
  | nil => exact .inl rfl
  | cons d deps ih =>
    obtain ⟨htype, heq⟩ | ⟨-, -, heq⟩ | ⟨htype, -, r, hr, -, heq⟩ := xrefMembers_cons leader c d deps
    · rw [heq, packEntries_cons_of_ne htype]
      exact ih c
    · rw [heq]
      exact .inl rfl
    · rw [heq, packEntries_cons htype]
      rcases ih (c.modJob r (·.joinPack leader)) with h | ⟨h, e, he, hq⟩
      · rcases eq_or_ne q r with rfl | hne
        · rw [Ctld.modJob_job_self] at h
          exact .inr ⟨h, d, mem_cons_self, hr⟩
        · rw [Ctld.modJob_job_of_ne _ _ hne] at h
          exact .inl h
      · exact .inr ⟨h, e, mem_cons_of_mem _ he, hq⟩

section Update

variable (env : Env) (now : ℤ) (c : Ctld) (p : Ptr) (s : CStr)

theorem sansDepend_afterLink : (c.afterLink env now p s).sansDepend = c.sansDepend :=
  (Ctld.sansDepend_linkPack ..).trans (c.sansDepend_afterRead env p _)

theorem afterLink_packLeader (q : Ptr) :
    ((c.afterLink env now p s).job q).packLeader = (c.job q).packLeader ∨
      ((c.afterLink env now p s).job q).packLeader = (c.job p).jobId ∧ c.Follows env now p s q := by
  have hread (target : Option (ℕ × Ptr)) := c.afterRead_packLeader env p target q
  have hid (target : Option (ℕ × Ptr)) : ((c.afterRead env p target).job p).jobId = (c.job p).jobId :=
    congrArg (·.1) ((SameOwners.of_sansDepend (c.sansDepend_afterRead env p target)).owner p)
  simp only [Ctld.afterLink, Ctld.linkPack, Ctld.xrefPackleader]
  by_cases htype : (c.readDepend env now p s).2.dependType = some .packleader
  · rw [if_pos htype]
    rcases xrefMembers_packLeader ((c.afterRead env p (c.readDepend env now p s).2.expand).job p).jobId
      (c.readDepend env now p s).2.dependList
      ((c.afterRead env p (c.readDepend env now p s).2.expand).modJob p leadPack) q
      with h | ⟨h, d, hd, hq⟩
    · rcases eq_or_ne q p with rfl | hne
      · rw [Ctld.modJob_job_self] at h
        exact .inr ⟨h.trans (hid _), .inr ⟨htype, .inl rfl⟩⟩
      · rw [Ctld.modJob_job_of_ne _ _ hne, hread] at h
        exact .inl h
    · exact .inr ⟨h.trans (hid _), .inr ⟨htype, .inr ⟨d, hd, hq⟩⟩⟩
  · rw [if_neg htype]
    exact .inl (hread _)

/-- What an update of the dependencies of `p` leaves as it is, and what becomes of the packs
    and of the list of `p`. -/
structure UpdateLinks (newDepend : Option CStr) (c' : Ctld) : Prop where
  owners : SameOwners c c'
  others : ∀ q, q ≠ p → (c'.job q).deps = (c.job q).deps
  packLeader : ∀ q, (c'.job q).packLeader = (c.job q).packLeader ∨
    ∃ s ∈ newDepend, s ≠ [] ∧ s ≠ "0".toList ∧
      (c'.job q).packLeader = (c.job p).jobId ∧ c.Follows env now p s q
  list : ∀ deps' ∈ (c'.job p).deps, ∃ s ∈ newDepend, s ≠ [] ∧ s ≠ "0".toList ∧
    ∃ deps, c.NextDeps env now p s deps ∧ reached deps' = reached deps

theorem clearDepend_links (newDepend : Option CStr) :
    UpdateLinks env now c p newDepend
      ((c.modJob p (·.setExpandingJobid 0)).modJob p clearDepend) where
  owners := by
    have hreset : SameOwners c (c.modJob p (·.setExpandingJobid 0)) := .modJob c p fun _ => rfl
    exact hreset.trans (.modJob _ p fun _ => rfl)
  others q hq := by simp [hq]
  packLeader q := by
    rcases eq_or_ne q p with rfl | hq
    · simp [clearDepend, setExpandingJobid]
    · simp [hq]
  list deps' hdeps' := by
    cases h : (c.job p).details <;>
      simp [deps, clearDepend, setExpandingJobid, h] at hdeps'

theorem afterLink_links (hs : s ≠ [] ∧ s ≠ "0".toList) (hacc : ¬c.AcceptsDepend env now p s) :
    UpdateLinks env now c p (some s) (c.afterLink env now p s) where
  owners := .of_sansDepend (sansDepend_afterLink env now c p s)
  others q _ := deps_of_sansDepend (sansDepend_afterLink env now c p s) q
  packLeader q := (afterLink_packLeader env now c p s q).imp_right fun h => ⟨s, rfl, hs.1, hs.2, h⟩
  list deps' hdeps' := by
    rw [deps_of_sansDepend (sansDepend_afterLink ..)] at hdeps'
    exact ⟨s, rfl, hs.1, hs.2, deps', .inr ⟨hacc, hdeps'⟩, rfl⟩

theorem setDepend_links (hs : s ≠ [] ∧ s ≠ "0".toList) (hacc : c.AcceptsDepend env now p s) :
    UpdateLinks env now c p (some s) ((c.afterLink env now p s).modJob p (setDepend
      (c.readDepend env now p s).2.dependList (c.readDepend env now p s).2.orFlag)) where
  owners := (SameOwners.of_sansDepend (sansDepend_afterLink env now c p s)).trans
    (.modJob _ _ fun _ => rfl)
  others q hq := by
    rw [Ctld.modJob_job_of_ne _ _ hq, deps_of_sansDepend (sansDepend_afterLink ..)]
  packLeader q := by
    refine Or.imp_right (fun h => ⟨s, rfl, hs.1, hs.2, h⟩) ?_
    rcases eq_or_ne q p with rfl | hne
    · rw [Ctld.modJob_job_self]
      exact afterLink_packLeader env now c q s q
    · rw [Ctld.modJob_job_of_ne _ _ hne]
      exact afterLink_packLeader env now c p s q
  list deps' hdeps' := by
    refine ⟨s, rfl, hs.1, hs.2, _, .inl ⟨hacc, rfl⟩, ?_⟩
    rw [Ctld.modJob_job_self] at hdeps'
    generalize (c.afterLink env now p s).job p = j at hdeps'
    cases h : j.details with
    | none => simp [deps, setDepend, h] at hdeps'
    | some d =>
      obtain rfl : _ = deps' := by simpa [deps, setDepend, h] using hdeps'
      exact reached_dependList2str ..

theorem updateJobDependency_links (newDepend : Option CStr) :
    UpdateLinks env now c p newDepend (updateJobDependency env now c p newDepend).2 := by
  obtain ⟨hdetails, h⟩ | ⟨-, -, h⟩ | ⟨s, rfl, hne, hzero, -, h⟩ :=
    c.updateJobDependency_cases env now p newDepend
  · rw [h]
    exact ⟨.refl c, fun _ _ => rfl, fun _ => .inl rfl, by simp [deps, hdetails]⟩
  · rw [h]
    exact clearDepend_links env now c p newDepend
  · rw [h]
    obtain ⟨hacc, -, hstate⟩ | ⟨hacc, -, hstate⟩ := c.setNewDepend_cases env now p s
    · rw [hstate]
      exact setDepend_links env now c p s ⟨hne, hzero⟩ hacc
    · rw [hstate]
      exact afterLink_links env now c p s ⟨hne, hzero⟩ hacc

end Update

/-! ## The steps -/

section Steps

variable {env : Env} {now : ℤ} {c c' : Ctld} {p : Ptr}

theorem nextDeps_live (h : PacksOwned env c) (hp : p ∈ c.jobList) {s : CStr}
    {deps : List DependSpec} (hdeps : c.NextDeps env now p s deps) {q : Ptr}
    (hq : q ∈ reached deps) : q ∈ c.jobList := by
  obtain ⟨-, rfl⟩ | ⟨-, hold⟩ := hdeps
  · obtain ⟨d, hd, hptr⟩ := mem_reached hq
    exact (Ctld.readDepend_mem env now p s hd hptr).elim id (h.tasks q)
  · exact h.live p hp deps hold q hq

/-- Updates keep the packs in the hands of those who may cancel all of their jobs. -/
theorem PacksOwned.update (h : PacksOwned env c) (hp : p ∈ c.jobList) {newDepend : Option CStr}
    (hok : c.GuardedUpdate env now p newDepend)
    (hlinks : UpdateLinks env now c p newDepend c') : PacksOwned env c' where
  unique q hq := by
    rw [hlinks.owners.jobList] at hq
    rw [hlinks.owners.findJobRecord, ← h.unique q hq]
    exact congrArg c.findJobRecord (congrArg (·.1) (hlinks.owners.owner q))
  tasks q hq := by
    rw [hlinks.owners.jobArrayHash] at hq
    rw [hlinks.owners.jobList]
    exact h.tasks q hq
  live q hq deps' hdeps' r hr := by
    rw [hlinks.owners.jobList] at hq ⊢
    rcases eq_or_ne q p with rfl | hne
    · obtain ⟨s, -, -, -, deps, hnext, hreached⟩ := hlinks.list deps' hdeps'
      rw [hreached] at hr
      exact nextDeps_live h hq hnext hr
    · rw [hlinks.others q hne] at hdeps'
      exact h.live q hq deps' hdeps' r hr
  owned q hq hne leader hleader deps' hdeps' r hr := by
    rw [hlinks.owners.jobList] at hq
    rw [hlinks.owners.findJobRecord] at hleader
    rw [hlinks.owners.covers_iff]
    -- If the pack is the one of `p`, then the job follows `p`.
    have hpack (hfollows : ∀ s ∈ newDepend, c.Follows env now p s q) (hlead : leader = p) :
        c.Covers env q r := by
      subst hlead
      obtain ⟨s, hs, hne, hzero, deps, hnext, hreached⟩ := hlinks.list deps' hdeps'
      rw [hreached] at hr
      exact hok s hs hne hzero q hq (hfollows s hs) deps hnext r hr
    rcases hlinks.packLeader q with hsame | ⟨s, hs, -, -, hnew, hfollows⟩
    · rw [hsame] at hne hleader
      rcases eq_or_ne leader p with hlead | hlead
      · refine hpack (fun s _ => .inl ?_) hlead
        rw [← (Ctld.findJobRecord_mem hleader).2, hlead]
      · rw [hlinks.others leader hlead] at hdeps'
        exact h.owned q hq hne leader hleader deps' hdeps' r hr
    · rw [hnew, h.unique p hp] at hleader
      refine hpack (fun s' hs' => ?_) (some.inj hleader).symm
      rwa [← some.inj (hs.symm.trans hs')]

variable {desc : JobDesc}

theorem addJob_findJobRecord (hp : p ∉ c.jobList) (jobId : ℕ) :
    (c.addJob env now p desc).findJobRecord jobId =
      (c.findJobRecord jobId).or (if desc.jobId = jobId then some p else none) := by
  have hold : c.jobList.find? (fun q => ((c.addJob env now p desc).job q).jobId = jobId) =
      c.findJobRecord jobId := by
    rw [Ctld.findJobRecord, ← List.head?_filter, ← List.head?_filter]
    refine congrArg List.head? (filter_congr fun q hq => ?_)
    rw [Ctld.addJob_job_of_mem hp hq]
  change (c.jobList ++ [p]).find? _ = _
  rw [List.find?_append, hold, List.find?_singleton, Ctld.addJob_job_self]
  simp [JobDesc.record]

/-- A new job that has no dependencies yet changes no pack. -/
theorem PacksOwned.addJob (h : PacksOwned env c) (hp : p ∉ c.jobList)
    (hid : c.findJobRecord desc.jobId = none)
    (hok : (c.addJob env now p desc).GuardedLeader env p) :
    PacksOwned env (c.addJob env now p desc) := by
  have hmem {q : Ptr} : q ∈ (c.addJob env now p desc).jobList ↔ q ∈ c.jobList ∨ q = p := by
    change q ∈ c.jobList ++ [p] ↔ _
    rw [mem_append, mem_singleton]
  have hdeps : ((c.addJob env now p desc).job p).deps = none := by
    rw [Ctld.addJob_job_self]
    rfl
  have hjob {q : Ptr} (hq : q ∈ c.jobList) : (c.addJob env now p desc).job q = c.job q :=
    Ctld.addJob_job_of_mem hp hq
  refine ⟨fun q hq => ?_, fun q hq => hmem.2 (.inl (h.tasks q hq)), fun q hq deps hd r hr => ?_,
    fun q hq => ?_⟩
  · rw [addJob_findJobRecord hp]
    rcases hmem.1 hq with hq | rfl
    · rw [hjob hq, h.unique q hq, some_or]
    · rw [Ctld.addJob_job_self, JobDesc.record, hid, none_or, if_pos rfl]
  · rcases hmem.1 hq with hq | rfl
    · rw [hjob hq] at hd
      exact hmem.2 (.inl (h.live q hq deps hd r hr))
    · rw [hdeps] at hd
      cases hd
  · rcases hmem.1 hq with hq | rfl
    · intro hne leader hleader deps hd r hr
      rw [hjob hq] at hne hleader
      rw [addJob_findJobRecord hp] at hleader
      -- A leader that is new has no dependencies.
      rcases or_eq_some_iff.1 hleader with hleader | ⟨-, hleader⟩
      · have hlive := (Ctld.findJobRecord_mem hleader).1
        rw [hjob hlive] at hd
        have hr' : r ∈ c.jobList := by
          rcases mem_cons.1 hr with rfl | hr
          · exact hlive
          · exact h.live leader hlive deps hd r hr
        simp only [Ctld.Covers, hjob hq, hjob hr']
        exact h.owned q hq hne leader hleader deps hd r hr
      · split_ifs at hleader
        obtain rfl : p = leader := by simpa using hleader
        rw [hdeps] at hd
        cases hd
    · exact hok

/-- The table is the same, but for what packs and lists have no part in. -/
theorem PacksOwned.congr (h : PacksOwned env c) (howners : SameOwners c c')
    (hdeps : ∀ q, (c'.job q).deps = (c.job q).deps)
    (hleader : ∀ q, (c'.job q).packLeader = (c.job q).packLeader) : PacksOwned env c' := by
  have hid (q : Ptr) : (c'.job q).jobId = (c.job q).jobId := congrArg (·.1) (howners.owner q)
  refine ⟨?_, ?_, ?_, ?_⟩
  · simpa [howners.jobList, howners.findJobRecord, hid] using h.unique
  · simpa [howners.jobList, howners.jobArrayHash] using h.tasks
  · simpa [howners.jobList, hdeps] using h.live
  · simpa [howners.jobList, Ctld.GuardedLeader, hleader, howners.findJobRecord, hdeps,
      howners.covers_iff] using h.owned

/-- A new job is purged: the others are as they were, if they do not depend on it. -/
theorem PacksOwned.purgeJob (h : PacksOwned env c) (hp : p ∈ c.jobList)
    (htasks : p ∉ c.jobArrayHash)
    (hfree : ∀ q ∈ c.jobList, q ≠ p → ∀ deps ∈ (c.job q).deps, p ∉ reached deps) :
    PacksOwned env (c.purgeJob (c.job p).jobId) := by
  have hid {q : Ptr} (hq : q ∈ c.jobList) (hne : q ≠ p) : (c.job q).jobId ≠ (c.job p).jobId :=
    fun heq => hne (some.inj ((h.unique q hq).symm.trans (heq ▸ h.unique p hp)))
  have hmem {q : Ptr} : q ∈ (c.purgeJob (c.job p).jobId).jobList ↔ q ∈ c.jobList ∧ q ≠ p := by
    simp only [Ctld.purgeJob, mem_filter, decide_eq_true_eq]
    exact and_congr_right fun hq => ⟨fun hne heq => hne (by rw [heq]), hid hq⟩
  have hfind (jobId : ℕ) : (c.purgeJob (c.job p).jobId).findJobRecord jobId =
      if jobId = (c.job p).jobId then none else c.findJobRecord jobId := by
    simp only [Ctld.findJobRecord, Ctld.purgeJob, List.find?_filter]
    split_ifs with heq
    · simp [heq]
    · congr 1
      funext q
      by_cases hq : (c.job q).jobId = jobId <;> simp [hq, heq]
  refine ⟨fun q hq => ?_, fun q hq => ?_, fun q hq deps hd r hr => ?_, fun q hq => ?_⟩
  · obtain ⟨hq, hne⟩ := hmem.1 hq
    exact (hfind _).trans ((if_neg (hid hq hne)).trans (h.unique q hq))
  · exact hmem.2 ⟨h.tasks q hq, fun heq => htasks (heq ▸ hq)⟩
  · obtain ⟨hq, hne⟩ := hmem.1 hq
    exact hmem.2 ⟨h.live q hq deps hd r hr, fun heq => hfree q hq hne deps hd (heq ▸ hr)⟩
  · intro hne leader hleader
    rw [hfind] at hleader
    split_ifs at hleader with hpurged
    · cases hleader
    · exact h.owned q (hmem.1 hq).1 hne leader hleader

theorem SameOwners.create (env : Env) (c : Ctld) (p : Ptr) (desc : JobDesc) :
    SameOwners c ((c.modJob p (·.setRequests env desc)).createArray p desc) := by
  have hrequests : SameOwners c (c.modJob p (·.setRequests env desc)) := .modJob c p fun _ => rfl
  unfold Ctld.createArray
  split_ifs
  · exact hrequests
  · have harray := hrequests.trans (.modJob _ p (f := (·.setArray desc)) fun _ => rfl)
    exact ⟨harray.jobList, harray.jobArrayHash, harray.owner⟩

/-- What is set when a job was accepted has no part in packs and lists. -/
theorem PacksOwned.create (h : PacksOwned env c) (desc : JobDesc) :
    PacksOwned env ((c.modJob p (·.setRequests env desc)).createArray p desc) := by
  have hfield {α : Type} (f : JobRecord → α) (hrequests : ∀ j, f (j.setRequests env desc) = f j)
      (harray : ∀ j, f (j.setArray desc) = f j) (q : Ptr) :
      f (((c.modJob p (·.setRequests env desc)).createArray p desc).job q) = f (c.job q) := by
    unfold Ctld.createArray
    rcases eq_or_ne q p with rfl | hq
    · split_ifs
      · rw [Ctld.modJob_job_self, hrequests]
      · simp [Ctld.modJob_job_self, harray, hrequests]
    · split_ifs <;> simp [hq]
  exact h.congr (.create env c p desc) (hfield (·.deps) (fun _ => rfl) fun _ => rfl)
    (hfield (·.packLeader) (fun _ => rfl) fun _ => rfl)

/-- Submissions keep the packs in the hands of those who may cancel all of their jobs. -/
theorem PacksOwned.submit (h : PacksOwned env c) (hp : p ∉ c.jobList)
    (hid : c.findJobRecord desc.jobId = none) (rejected : Bool)
    (hleader : (c.addJob env now p desc).GuardedLeader env p)
    (hupdate : (c.addJob env now p desc).GuardedUpdate env now p desc.dependency) :
    PacksOwned env (jobCreate env now c p desc rejected).2 := by
  have hnew : p ∈ (c.addJob env now p desc).jobList := mem_append_right _ (mem_singleton_self p)
  have hlinks := updateJobDependency_links env now (c.addJob env now p desc) p desc.dependency
  have howned := (h.addJob hp hid hleader).update hnew hupdate hlinks
  have hpurge : PacksOwned env ((updateJobDependency env now (c.addJob env now p desc) p
      desc.dependency).2.purgeJob desc.jobId) := by
    generalize (updateJobDependency env now (c.addJob env now p desc) p desc.dependency).2 = c' at *
    have hjobId : (c'.job p).jobId = desc.jobId := by
      refine (congrArg (·.1) (hlinks.owners.owner p)).trans ?_
      rw [Ctld.addJob_job_self]
      rfl
    rw [← hjobId]
    refine howned.purgeJob (by rwa [hlinks.owners.jobList]) (fun htask => ?_)
      fun q hq hne deps hd hr => ?_
    · rw [hlinks.owners.jobArrayHash] at htask
      exact hp (h.tasks p htask)
    · rw [hlinks.owners.jobList] at hq
      have hold : q ∈ c.jobList := (mem_append.1 hq).resolve_right (by simpa using hne)
      rw [hlinks.others q hne, Ctld.addJob_job_of_mem hp hold] at hd
      exact hp (h.live q hold deps hd p hr)
  simp only [jobCreate]
  split_ifs
  · exact hpurge
  · exact hpurge
  · exact howned.create desc

/-- Every change of the table that is guarded keeps the packs owned. -/
theorem PacksOwned.exec (h : PacksOwned env c) (op : TableOp) (hok : op.Guarded env c) :
    PacksOwned env (op.exec env c) := by
  cases op with
  | submit now p desc rejected =>
    simp only [TableOp.exec]
    split_ifs with huse
    · exact h
    · push Not at huse
      exact h.submit huse.1 huse.2 rejected hok.1 hok.2
  | update now p newDepend =>
    simp only [TableOp.exec]
    split_ifs with hp
    · exact h.update hp hok (updateJobDependency_links ..)
    · exact h

end Steps

/-! ## A request to cancel a job -/

/-- What a request to cancel a job is to change in no job of others. -/
def JobRecord.cancelFields (j : JobRecord) : JobState × ℤ × ℕ := (j.jobState, j.endTime, j.requid)

section Cancel

variable (env : Env) (now : ℤ) (flags : KillFlags) (uid : ℕ)

/-- A signal to a job changes no other one in these fields. -/
theorem jobSignalPtr_cancelFields (signal : ℕ) (preempt : Bool) (c : Ctld) {p q : Ptr} (h : q ≠ p) :
    ((jobSignalPtr env now c p signal flags uid preempt).2.job q).cancelFields =
      (c.job q).cancelFields := by
  obtain halters | hlogged := jobSignalPtr_touches env now c p signal flags uid preempt
  · rw [halters.job q h]
  · by_cases hbase : c.baseOf p = some q
    · obtain ⟨r, hr, -⟩ := hlogged.base q h hbase
      rw [hr]
      rfl
    · rw [hlogged.other q h hbase]

/-- Nor does a signal to all jobs of a list. -/
theorem signalMember_cancelFields (signal : ℕ) (preempt : Bool) (c : Ctld) {l : List Ptr} {q : Ptr}
    (h : q ∉ l) :
    ((l.foldl (signalMember env now signal flags uid preempt) c).job q).cancelFields =
      (c.job q).cancelFields := by
  refine Sweep.val_foldl_of_notMem (fun (c : Ctld) q => (c.job q).cancelFields)
    (fun c p q hne => ?_) h
  simp only [signalMember]
  split_ifs
  · rfl
  · exact jobSignalPtr_cancelFields env now flags uid signal preempt c hne

/-- If the packs are owned, a request to cancel a job changes only jobs that its sender may
    cancel. -/
theorem PacksOwned.jobSignal {c : Ctld} (h : PacksOwned env c) (jobId : ℕ) (preempt : Bool)
    {q : Ptr} (hq : ¬mayCancel env uid (c.job q)) :
    ((jobSignal env now c jobId sigKill flags uid preempt).2.job q).cancelFields =
      (c.job q).cancelFields := by
  have halone {c' : Ctld} {p : Ptr} (hp : mayCancel env uid (c.job p)) :
      ((jobSignalPtr env now c' p sigKill flags uid preempt).2.job q).cancelFields =
        (c'.job q).cancelFields := by
    refine jobSignalPtr_cancelFields env now flags uid sigKill preempt c' ?_
    rintro rfl
    exact hq hp
  unfold Slurm.jobSignal
  cases hfind : c.findJobRecord jobId with
  | none => rfl
  | some p =>
    dsimp only
    split_ifs with hmay hpack
    · simp only [killJobPack]
      cases hleader : c.findJobRecord (c.job p).packLeader with
      | none => exact halone hmay
      | some leader =>
        dsimp only
        cases hdeps : (c.job leader).details.bind (·.dependList) with
        | none => exact halone hmay
        | some deps =>
          have hreach (r : Ptr) (hr : r ∈ leader :: reached deps) : mayCancel env uid (c.job r) :=
            h.owned p (Ctld.findJobRecord_mem hfind).1 hpack.2 leader hleader deps hdeps r hr uid hmay
          have hsweep := signalMember_cancelFields env now flags uid sigKill preempt c
            (fun hmem => hq (hreach q (mem_cons_of_mem _ hmem)))
          dsimp only
          split_ifs
          · exact hsweep
          · exact (halone (hreach leader mem_cons_self)).trans hsweep
    · exact halone hmay
    · rfl

end Cancel

/-- In every table that submissions and updates of dependencies lead to, if each of them is
    guarded, a request to cancel a job changes only jobs that its sender may cancel. -/
theorem jobSignal_reaches_own (env : Env) (c₀ : Ctld) (hlist : c₀.jobList = [])
    (hhash : c₀.jobArrayHash = []) (ops : List TableOp)
    (hops : Admissible (TableOp.exec env) (fun c op => op.Guarded env c) c₀ ops)
    (now : ℤ) (jobId : ℕ) (flags : KillFlags) (uid : ℕ) (q : Ptr) :
    let c := run (TableOp.exec env) c₀ ops
    ((jobSignal env now c jobId sigKill flags uid false).2.job q).cancelFields ≠
      (c.job q).cancelFields → mayCancel env uid (c.job q) := by
  have hstart : PacksOwned env c₀ := by
    refine ⟨?_, ?_, ?_, ?_⟩ <;> simp [hlist, hhash]
  have howned : PacksOwned env (run (TableOp.exec env) c₀ ops) :=
    invariant_run (fun c op h hok => h.exec op hok) hstart hops
  intro c hchanged
  by_contra hnot
  exact hchanged (howned.jobSignal env now flags uid jobId false hnot)

/-- Jobs of one user and account can be cancelled by the same users. -/
theorem covers_of_owner (env : Env) {c : Ctld} {p q : Ptr}
    (h : (c.job p).owner.2 = (c.job q).owner.2) : c.Covers env p q := by
  obtain ⟨huser, hacct⟩ := Prod.mk.inj h
  intro uid
  simp only [mayCancel, huser, hacct]
  exact id

/-- An update that has to do with jobs of one user and account alone is guarded. -/
theorem guardedUpdate_of_owner (env : Env) (now : ℤ) {c : Ctld} {p : Ptr} {s : CStr}
    (h : ∀ q ∈ c.jobList, ∀ r ∈ p :: ((c.job p).deps.elim [] reached ++
      reached (c.readDepend env now p s).2.dependList), (c.job q).owner.2 = (c.job r).owner.2) :
    c.GuardedUpdate env now p (some s) := by
  intro s' hs' _ _ q hq _ deps hdeps r hr
  obtain rfl : s = s' := some.inj hs'
  refine covers_of_owner env (h q hq r ?_)
  obtain ⟨-, rfl⟩ | ⟨-, hold⟩ := hdeps
  · simp only [mem_cons, mem_append] at hr ⊢
    tauto
  · simp only [hold, elim_some, mem_cons, mem_append] at hr ⊢
    tauto

/-- A member of a job pack is submitted, and then its leader. -/
def submitPack (member leader : ℕ) : List TableOp :=
  [.submit 1 1 { jobId := 10, userId := member, dependency := some "pack".toList } false,
    .submit 2 2 { jobId := 11, userId := leader, dependency := some "packleader:10".toList } false]

theorem jobSignal_reaches_own_submitPack :
    let c := run (TableOp.exec {}) {} (submitPack 1000 1000)
    ((jobSignal {} 5 c 11 sigKill ∅ 1000 false).2.job 1).cancelFields ≠ (c.job 1).cancelFields ∧
      mayCancel {} 1000 (c.job 1) := by
  have hops : Admissible (TableOp.exec {}) (fun c op => op.Guarded {} c) {} (submitPack 1000 1000) := by
    refine ⟨⟨fun h => absurd rfl h, guardedUpdate_of_owner _ _ (by decide)⟩,
      ⟨fun h => absurd rfl h, guardedUpdate_of_owner _ _ (by decide)⟩, trivial⟩
  have hchanged : let c := run (TableOp.exec {}) {} (submitPack 1000 1000)
      ((jobSignal {} 5 c 11 sigKill ∅ 1000 false).2.job 1).cancelFields ≠ (c.job 1).cancelFields := by
    decide
  exact ⟨hchanged, jobSignal_reaches_own {} {} rfl rfl _ hops 5 11 ∅ 1000 1 hchanged⟩

/-- User 2000 submits a leader with the job of user 1000 as its member. To cancel the leader
    cancels the member. -/
theorem jobSignal_reaches_other :
    let c := run (TableOp.exec {}) {} (submitPack 1000 2000)
    let r := jobSignal {} 5 c 11 sigKill ∅ 2000 false
    r.1 = .success ∧ ¬mayCancel {} 2000 (c.job 1) ∧
      (r.2.job 1).cancelFields ≠ (c.job 1).cancelFields := by
  decide

end Slurm
