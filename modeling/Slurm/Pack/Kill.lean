import Slurm.Job.Signal
import Slurm.Lib.Sweep

/-!
# Cancelling a job pack

A request to cancel a job of a job pack is meant for all jobs of the pack, and
for no other ones: for the leader, and for the targets of the `PACKLEADER`
entries in its dependency list (`components`). The loop that carries it out
looks neither at the type of an entry nor past one without a job
(`jobSignal_pack`: it is a sweep over the entries that are reached, and then the
leader).

`packKilled_iff` says when this amounts to the same thing: when every component
is visited, and as often as it takes to end it, and nobody else is hit.
-/

namespace Slurm

open JobRecord Ctld

/-! ## One visit -/

section Visit

variable (env : Env) (now : ℤ) (uid : ℕ) (c : Ctld) (a k : Ptr)

/-- One visit of the loop that cancels a job pack. -/
def killVisit (env : Env) (now : ℤ) (uid : ℕ) (c : Ctld) (a : Ptr) : Ctld :=
  signalMember env now sigKill ∅ uid false c a

/-- A visit to the job makes a difference. -/
def Ctld.killable (env : Env) (c : Ctld) (a : Ptr) : Prop :=
  ¬(c.job a).isDone ∧ ¬(c.job a).runsRemotely env
  deriving Decidable

/-- The records that the end of `a` shows in: its own, and the one of its array. -/
def Ctld.showsIn (c : Ctld) (a k : Ptr) : Prop := k = a ∨ c.baseOf a = some k
  deriving Decidable

/-- How many visits it takes until the job is done. A job that is requeued when it is
    killed takes two, and one that runs on another cluster is never done by them. -/
def Ctld.visitsNeeded (env : Env) (c : Ctld) (a : Ptr) : ℕ∞ :=
  if (c.job a).isDone then 0
  else if (c.job a).runsRemotely env then ⊤
  else if c.requeuedWhenKilled env a then 2
  else 1

/-- A mark of what has happened to a job, which no later visit takes back. -/
def JobRecord.stamp (j : JobRecord) : ℕ :=
  j.restartCnt + (if j.jobState.isFinished then 1 else 0) + j.compTasks

theorem killVisit_of_not_killable {c : Ctld} {a : Ptr} (h : ¬c.killable env a) :
    killVisit env now uid c a = c := by
  simp only [killVisit, signalMember, jobSignalPtr]
  by_cases hdone : (c.job a).isDone
  · rw [if_pos hdone]
  · have hfin : ¬(c.job a).jobState.isFinished := fun h => hdone (.inr h)
    have hremote : (c.job a).runsRemotely env := by
      by_contra hlocal
      exact h ⟨hdone, hlocal⟩
    rw [if_neg hdone, if_neg hfin, if_pos hremote]

theorem killVisit_of_killable {c : Ctld} {a : Ptr} (h : c.killable env a) :
    Logged a c (killVisit env now uid c a) ∧
      Fate (c.requeuedWhenKilled env a) (c.job a) ((killVisit env now uid c a).job a) := by
  simp only [killVisit, signalMember, if_neg h.1]
  exact jobSignalPtr_kill env now c a uid false h.1 h.2

/-- No visit changes who a job is, nor which nodes are down. -/
theorem killVisit_identity :
    (killVisit env now uid c a).jobList = c.jobList ∧
      (∀ i, ((killVisit env now uid c a).node i).base = .down ↔ (c.node i).base = .down) ∧
      ∀ k, ((killVisit env now uid c a).job k).identity = (c.job k).identity ∧
        ((killVisit env now uid c a).job k).arrayRecs.isSome = (c.job k).arrayRecs.isSome := by
  by_cases h : c.killable env a
  · obtain ⟨hlog, -⟩ := killVisit_of_killable env now uid h
    exact ⟨hlog.jobList, hlog.down, fun k => ⟨hlog.identity_all k, hlog.isSome k⟩⟩
  · rw [killVisit_of_not_killable env now uid h]
    exact ⟨rfl, fun _ => Iff.rfl, fun _ => ⟨rfl, rfl⟩⟩

theorem killVisit_runsRemotely :
    ((killVisit env now uid c a).job k).runsRemotely env ↔ (c.job k).runsRemotely env := by
  have hident := ((killVisit_identity env now uid c a).2.2 k).1
  rw [of_part (runsRemotely env) hident]

theorem killVisit_showsIn (b : Ptr) :
    (killVisit env now uid c a).showsIn b k ↔ c.showsIn b k := by
  obtain ⟨hlist, -, hjobs⟩ := killVisit_identity env now uid c a
  simp [showsIn, baseOf_congr hlist (fun q => (hjobs q).1) (fun q => (hjobs q).2)]

theorem killVisit_requeuedAtEnd :
    (killVisit env now uid c a).requeuedAtEnd env k ↔ c.requeuedAtEnd env k := by
  obtain ⟨-, hdown, hjobs⟩ := killVisit_identity env now uid c a
  have hnodes := of_part (·.nodeSet) (hjobs k).1
  simp [requeuedAtEnd, hdown, hnodes, requeuesOnExit_congr env (hjobs k).1]

/-- A visit to another job does not change the state of this one. -/
theorem killVisit_jobState_of_ne {k : Ptr} (hne : k ≠ a) :
    ((killVisit env now uid c a).job k).jobState = (c.job k).jobState := by
  by_cases h : c.killable env a
  · obtain ⟨hlog, -⟩ := killVisit_of_killable env now uid h
    by_cases hb : c.baseOf a = some k
    · obtain ⟨r, hr, -⟩ := hlog.base k hne hb
      rw [hr]
    · rw [hlog.other k hne hb]
  · rw [killVisit_of_not_killable env now uid h]

theorem killVisit_isDone_of_ne {k : Ptr} (hne : k ≠ a) :
    ((killVisit env now uid c a).job k).isDone ↔ (c.job k).isDone := by
  simp [isDone, killVisit_jobState_of_ne env now uid c a hne]

end Visit

/-! ## The sweep -/

section Sweep

variable (env : Env) (now : ℤ) (uid : ℕ)

/-- A visit is one of those the job needs, and no other job needs it. -/
theorem killVisit_visitsNeeded (c : Ctld) (a k : Ptr) :
    (killVisit env now uid c a).visitsNeeded env k =
      if k = a then c.visitsNeeded env k - 1 else c.visitsNeeded env k := by
  rcases ne_or_eq k a with hne | rfl
  · have hagain : (killVisit env now uid c a).requeuedWhenKilled env k ↔
        c.requeuedWhenKilled env k := by
      simp [requeuedWhenKilled, killVisit_jobState_of_ne env now uid c a hne, killVisit_requeuedAtEnd]
    rw [if_neg hne]
    exact if_congr (killVisit_isDone_of_ne env now uid c a hne) rfl
      (if_congr (killVisit_runsRemotely ..) rfl (if_congr hagain rfl rfl))
  by_cases h : c.killable env k
  · obtain ⟨-, hfate⟩ := killVisit_of_killable env now uid h
    have hlocal := mt (killVisit_runsRemotely env now uid c k k).1 h.2
    simp only [if_true, visitsNeeded, if_neg h.1, if_neg h.2, if_neg hlocal]
    by_cases hagain : c.requeuedWhenKilled env k
    · -- It is pending now, and has no nodes any more that would be released.
      obtain ⟨hpend, hconf, hcompl, -⟩ := hfate.again hagain
      have hlive : ¬((killVisit env now uid c k).job k).isDone := by
        rintro (hd | hd)
        · exact hcompl hd
        · exact hd.1 hpend
      have honce : ¬(killVisit env now uid c k).requeuedWhenKilled env k := by
        rintro ⟨hd | hd, -⟩
        · exact hconf hd
        · exact hd hpend
      rw [if_neg hlive, if_neg honce, if_pos hagain]
      rfl
    · rw [if_pos (.inr (hfate.ended hagain).1), if_neg hagain]
      rfl
  · rw [killVisit_of_not_killable env now uid h, if_pos rfl, visitsNeeded]
    split_ifs with hdone hremote
    · rfl
    · rfl
    all_goals tauto

theorem killVisit_keeps (c : Ctld) (a k : Ptr) (h : ¬(c.killable env a ∧ c.showsIn a k)) :
    (killVisit env now uid c a).job k = c.job k := by
  by_cases hkill : c.killable env a
  · obtain ⟨hlog, -⟩ := killVisit_of_killable env now uid hkill
    obtain ⟨hne, hb⟩ := not_or.1 fun hs => h ⟨hkill, hs⟩
    exact hlog.other k hne hb
  · rw [killVisit_of_not_killable env now uid hkill]

theorem killVisit_marks (c : Ctld) (a k : Ptr) (hkill : c.killable env a) (hshow : c.showsIn a k) :
    (c.job k).stamp < ((killVisit env now uid c a).job k).stamp := by
  obtain ⟨hlog, hfate⟩ := killVisit_of_killable env now uid hkill
  rcases eq_or_ne k a with rfl | hne
  · have hlive : ¬(c.job k).jobState.isFinished := fun h => hkill.1 (.inr h)
    have htasks := hlog.compTasks
    simp only [JobRecord.stamp, if_neg hlive]
    by_cases hagain : c.requeuedWhenKilled env k
    · have hcnt := (hfate.again hagain).2.2.2
      omega
    · obtain ⟨hfin, hcnt⟩ := hfate.ended hagain
      rw [if_pos hfin]
      omega
  · obtain ⟨r, hr, htasks⟩ := hlog.base k hne (hshow.resolve_left hne)
    rw [hr]
    simp only [JobRecord.stamp, compTasks, Option.elim_some] at htasks ⊢
    omega

theorem killable_of_killVisit (c : Ctld) (a b : Ptr) (h : (killVisit env now uid c a).killable env b) :
    c.killable env b := by
  by_cases hkill : c.killable env a
  · rcases eq_or_ne b a with rfl | hne
    · exact hkill
    · exact ⟨mt (killVisit_isDone_of_ne env now uid c a hne).2 h.1,
        mt (killVisit_runsRemotely ..).2 h.2⟩
  · rwa [killVisit_of_not_killable env now uid hkill] at h

theorem visitsNeeded_eq_zero {c : Ctld} {a : Ptr} :
    c.visitsNeeded env a = 0 ↔ (c.job a).isDone := by
  simp only [visitsNeeded]
  split_ifs <;> simp_all

/-- A job is done after a sweep just when it has been visited as often as needed. -/
theorem isDone_sweep_iff (c : Ctld) (l : List Ptr) (t : Ptr) :
    ((l.foldl (killVisit env now uid) c).job t).isDone ↔ c.visitsNeeded env t ≤ l.count t := by
  rw [← visitsNeeded_eq_zero, Sweep.need_foldl (killVisit_visitsNeeded env now uid),
    tsub_eq_zero_iff_le]

/-- A record is the same after a sweep just when no end showed in it. -/
theorem job_sweep_eq_iff (c : Ctld) (l : List Ptr) (q : Ptr) :
    (l.foldl (killVisit env now uid) c).job q = c.job q ↔
      ∀ a ∈ l, c.killable env a → ¬c.showsIn a q :=
  Sweep.val_foldl_eq_iff (fun c q => c.job q) (killVisit_keeps env now uid)
    (killVisit_marks env now uid) (fun c a b k => killVisit_showsIn env now uid c a k b)
    (killable_of_killVisit env now uid) fun c a _ hne h =>
      ⟨mt (killVisit_isDone_of_ne env now uid c a hne).1 h.1, mt (killVisit_runsRemotely ..).1 h.2⟩

end Sweep

/-! ## The whole pack -/

/-- The jobs of a job pack: the leader, and the targets of its `PACKLEADER` entries. -/
def components (leader : Ptr) (deps : List DependSpec) : List Ptr :=
  leader :: deps.filterMap fun d => if d.dependType = .packleader then d.jobPtr else none

/-- From `c` to `c'` exactly the jobs of the pack are cancelled. -/
structure PackKilled (pack : List Ptr) (c c' : Ctld) : Prop where
  killed : ∀ t ∈ pack, (c'.job t).isDone
  others : ∀ q, q ∉ pack → c'.job q = c.job q

/-- The job is done within `n` visits. -/
def Ctld.doneWithin (env : Env) (c : Ctld) (t : Ptr) (n : ℕ) : Prop :=
  (c.job t).isDone ∨
    ¬(c.job t).runsRemotely env ∧ (2 ≤ n ∨ n = 1 ∧ ¬c.requeuedWhenKilled env t)
  deriving Decidable

theorem visitsNeeded_le_iff {env : Env} {c : Ctld} {t : Ptr} {n : ℕ} :
    c.visitsNeeded env t ≤ n ↔ c.doneWithin env t n := by
  simp only [visitsNeeded, doneWithin]
  split_ifs with hdone hremote hagain
  · simp [hdone]
  · simp [hdone, hremote]
  · have htwo : (2 : ℕ∞) ≤ n ↔ 2 ≤ n := by exact_mod_cast Iff.rfl
    simp [hdone, hremote, hagain, htwo]
  · have hone : (1 : ℕ∞) ≤ n ↔ 1 ≤ n := by exact_mod_cast Iff.rfl
    simp only [hdone, hremote, hagain, hone, false_or, not_false_eq_true, true_and, and_true]
    omega

/-- The entries that are reached, and the leader, are visited often enough to end all
    jobs of the pack, and no end among them shows in the record of another job. -/
structure SweepFits (env : Env) (c : Ctld) (leader : Ptr) (deps : List DependSpec) : Prop where
  ends : ∀ t ∈ components leader deps,
    c.doneWithin env t ((reached deps ++ [leader]).count t)
  within : ∀ a ∈ reached deps ++ [leader], c.killable env a →
    a ∈ components leader deps ∧ ∀ b ∈ c.baseOf a, b ∈ components leader deps

section Pack

variable {env : Env} {c : Ctld} {jobId uid : ℕ} {p leader : Ptr} {deps : List DependSpec} (now : ℤ)
  (hfind : c.findJobRecord jobId = some p) (hpack : (c.job p).packLeader ≠ 0)
  (hleader : c.findJobRecord (c.job p).packLeader = some leader)
  (hdeps : (c.job leader).details.bind (·.dependList) = some deps)

include hfind hpack hleader hdeps

/-- Cancelling a job of a job pack is a sweep over the entries of its leader that are
    reached, and then the leader. -/
theorem jobSignal_pack (howner : (c.job p).userId = uid) :
    (jobSignal env now c jobId sigKill ∅ uid false).2 =
      (reached deps ++ [leader]).foldl (killVisit env now uid) c := by
  have hmay : mayCancel env uid (c.job p) := .inl howner
  have hvisit : signalMember env now sigKill ∅ uid false = killVisit env now uid := rfl
  simp only [jobSignal, hfind, not_true, hmay, if_false, ne_eq, hpack, not_false_eq_true, and_self,
    if_true, killJobPack, hleader, hdeps, List.foldl_append, List.foldl_cons, List.foldl_nil, hvisit]
  simp only [killVisit, signalMember]
  split_ifs <;> rfl

/-- When a request to cancel a job of a job pack cancels exactly the pack. -/
theorem packKilled_iff (hmember : p ∈ components leader deps)
    (howner : ∀ t ∈ components leader deps, (c.job t).userId = uid) :
    PackKilled (components leader deps) c (jobSignal env now c jobId sigKill ∅ uid false).2 ↔
      SweepFits env c leader deps := by
  rw [jobSignal_pack now hfind hpack hleader hdeps (howner p hmember)]
  constructor
  · intro h
    refine ⟨fun t ht => ?_, fun a ha hkill => ?_⟩
    · exact visitsNeeded_le_iff.1 ((isDone_sweep_iff ..).1 (h.killed t ht))
    · -- Whatever the end of `a` shows in has changed, and so is a job of the pack.
      have hshow (q : Ptr) (hq : c.showsIn a q) : q ∈ components leader deps := by
        by_contra hout
        exact (job_sweep_eq_iff ..).1 (h.others q hout) a ha hkill hq
      exact ⟨hshow a (.inl rfl), fun b hb => hshow b (.inr hb)⟩
  · intro h
    refine ⟨fun t ht => ?_, fun q hq => ?_⟩
    · exact (isDone_sweep_iff ..).2 (visitsNeeded_le_iff.2 (h.ends t ht))
    · refine (job_sweep_eq_iff ..).2 fun a ha hkill hshow => hq ?_
      obtain ⟨hself, hbase⟩ := h.within a ha hkill
      obtain rfl | hb := hshow
      · exact hself
      · exact hbase q hb

end Pack

/-- A leader with id 1 and the given dependencies, a member with id 2 and a job with
    id 3 that is in no pack, all of user 1000 and pending. -/
def packOfTwo (deps : List DependSpec) : Ctld where
  job p :=
    match p with
    | 1 => { jobId := 1, packLeader := 1, userId := 1000, details := some { dependList := some deps } }
    | 2 => { jobId := 2, packLeader := 1, userId := 1000, details := some {} }
    | 3 => { jobId := 3, userId := 1000, details := some {} }
    | _ => {}
  jobList := [1, 2, 3]

/-- The entries of a leader that leads job 2. -/
def packDeps : List DependSpec := [{ dependType := .packleader, jobId := 2, jobPtr := some 2 }]

theorem packKilled_packOfTwo :
    PackKilled (components 1 packDeps) (packOfTwo packDeps)
      (jobSignal {} 5 (packOfTwo packDeps) 2 sigKill ∅ 1000 false).2 := by
  have hfind : (packOfTwo packDeps).findJobRecord 2 = some 2 := by decide
  have hleader : (packOfTwo packDeps).findJobRecord ((packOfTwo packDeps).job 2).packLeader =
      some 1 := by decide
  exact (packKilled_iff 5 hfind (by decide) hleader rfl (by decide) (by decide)).2
    ⟨by decide, by decide⟩

/-- The entries of a leader that depends on job 3, is a singleton, and leads job 2. -/
def mixedDeps : List DependSpec :=
  [{ dependType := .afterAny, jobId := 3, jobPtr := some 3 }, { dependType := .singleton },
    { dependType := .packleader, jobId := 2, jobPtr := some 2 }]

/-- Cancelling this leader cancels job 3, and not the member of the pack. -/
theorem packOfTwo_not_killed :
    let c' := (jobSignal {} 5 (packOfTwo mixedDeps) 1 sigKill ∅ 1000 false).2
    (c'.job 3).jobState.base = .cancelled ∧ (c'.job 2).jobState.base = .pending ∧
      ¬PackKilled (components 1 mixedDeps) (packOfTwo mixedDeps) c' :=
  ⟨by decide, by decide, fun h => absurd (h.killed 2 (by decide)) (by decide)⟩

end Slurm
