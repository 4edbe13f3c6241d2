import Slurm.Lib.Acyclic
import Slurm.Depend.Restore

/-!
# Circles of dependencies

The jobs that have not finished are the vertices of a graph, with an edge from a job to each job
that it waits for (`Ctld.DependsOn`). A circle in this graph would keep its jobs pending for ever.
So an update of dependencies searches for the job along its new ones and refuses them if it is
found.

The search opens the lists of dependencies one after the other, each before those of the jobs it
names (`Ctld.visits`), up to a limit, and it finds the job exactly if one of these lists names it
(`scanDepend_searched`). It looks for the id of the job, and it follows an entry only if the job has
the id that stands there. A task of an array is named by the id of the array, so a circle
through it is not seen; and a list counts as often as it is reached.
`updateJobDependency_acyclic_iff` says which updates keep the graph without circles.
-/

namespace Slurm

open Relation Graph List Ctld JobRecord

/-! ## The search -/

namespace Ctld

variable (env : Env) (c : Ctld) (jobId : ℕ)

/-- The lists that a search along `deps` opens, down to the depth `n`: each comes before those of
    the jobs that it names. -/
def visits : (n : ℕ) → List DependSpec → List (List DependSpec)
  | 0, _ => []
  | n + 1, deps =>
    deps :: deps.flatMap fun d => if d.jobId = 0 then [] else (c.nextDepends d).elim [] (visits n)

/-- A list names the job `jobId`. -/
def listNames (deps : List DependSpec) : Prop := ∃ d ∈ deps, d.jobId ≠ 0 ∧ d.jobId = jobId

/-- What a search has done with the lists `lists`, from the counter `k` on: the job was found if one of
    the first of them names it, and otherwise they have been counted, up to the limit. -/
structure Searched (k : ℕ) (lists : List (List DependSpec)) (r : Bool × ℕ) : Prop where
  found : r.1 = true ↔ ∃ deps ∈ lists.take (env.maxDependDepth - k), listNames jobId deps
  counter : r.1 = false → min env.maxDependDepth r.2 = min env.maxDependDepth (k + lists.length)

theorem foldl_scanEntry_true (search : ℕ → List DependSpec → Bool × ℕ) (deps : List DependSpec)
    (k : ℕ) : deps.foldl (c.scanEntry jobId search) (true, k) = (true, k) := by
  induction deps with
  | nil => rfl
  | cons d deps ih =>
    rw [foldl_cons, scanEntry, if_pos (.inl rfl), ih]

/-- The loop over the entries of a list. -/
theorem foldl_scanEntry_searched (search : ℕ → List DependSpec → Bool × ℕ)
    (lists : List DependSpec → List (List DependSpec)) {k₀ : ℕ}
    (hsearch : ∀ k next, k₀ < k → Searched env jobId k (lists next) (search k next))
    (hmono : ∀ k next, k < (search k next).2) (deps : List DependSpec) {k : ℕ} (hk : k₀ < k) :
    let opened := deps.flatMap fun d =>
      if d.jobId = 0 then [] else (c.nextDepends d).elim [] lists
    let r := deps.foldl (c.scanEntry jobId search) (false, k)
    (r.1 = true ↔ listNames jobId deps ∨
        ∃ deps ∈ opened.take (env.maxDependDepth - k), listNames jobId deps) ∧
      (r.1 = false → min env.maxDependDepth r.2 = min env.maxDependDepth (k + opened.length)) := by
  induction deps generalizing k with
  | nil => simp [listNames]
  | cons d deps ih =>
    have hnames : listNames jobId (d :: deps) ↔ d.jobId ≠ 0 ∧ d.jobId = jobId ∨ listNames jobId deps := by
      simp [listNames]
    simp only [flatMap_cons, foldl_cons, hnames]
    by_cases hzero : d.jobId = 0
    · rw [scanEntry, if_pos (.inr hzero), if_pos hzero]
      simpa [hzero] using ih hk
    rw [scanEntry, if_neg (by simp [hzero]), if_neg hzero]
    by_cases hown : d.jobId = jobId
    · rw [if_pos hown, foldl_scanEntry_true]
      simp [hown ▸ hzero, hown]
    rw [if_neg hown]
    cases hnext : c.nextDepends d with
    | none => simpa [hown] using ih hk
    | some next =>
      dsimp only [Option.elim_some]
      have hs := hsearch k next hk
      have hlt := hmono k next
      generalize search k next = r at hs hlt ⊢
      obtain ⟨found, k'⟩ := r
      rw [take_append, length_append]
      cases found with
      | true =>
        rw [foldl_scanEntry_true]
        obtain ⟨l, hl, hlist⟩ := hs.found.1 rfl
        refine ⟨iff_of_true rfl (.inr ⟨l, mem_append_left _ hl, hlist⟩), by simp⟩
      | false =>
        have hcount := hs.counter rfl
        have hnone : ¬∃ l ∈ (lists next).take (env.maxDependDepth - k), listNames jobId l := by
          rw [← hs.found]
          simp
        obtain ⟨hfound, hcounter⟩ := ih (hk.trans hlt)
        have hleft : env.maxDependDepth - k' = env.maxDependDepth - k - (lists next).length := by omega
        refine ⟨?_, fun hr => ?_⟩
        · rw [hfound, hleft]
          simp only [mem_append, or_and_right, exists_or, hnone, false_or, hown, and_false]
        · rw [hcounter hr]
          omega

/-- The search finds the job exactly if one of the first lists that it opens names it. -/
theorem scanDepend_searched {fuel k : ℕ} (hfuel : env.maxDependDepth < fuel + k)
    (deps : List DependSpec) :
    Searched env jobId k (c.visits fuel deps) (c.scanDepend env jobId fuel k deps) := by
  induction fuel generalizing k deps with
  | zero =>
    refine ⟨?_, fun _ => ?_⟩
    · simp [scanDepend, visits]
    · simp only [scanDepend, visits, length_nil]
      omega
  | succ fuel ih =>
    rw [scanDepend, visits]
    by_cases hlimit : env.maxDependDepth ≤ k
    · rw [if_pos hlimit]
      refine ⟨?_, fun _ => ?_⟩
      · simp [Nat.sub_eq_zero_of_le hlimit]
      · omega
    · rw [if_neg hlimit]
      obtain ⟨hfound, hcounter⟩ := c.foldl_scanEntry_searched env jobId
        (fun counter deps => c.scanDepend env jobId fuel counter deps) (c.visits fuel)
        (fun k' next (hk : k < k') => ih (by omega) next)
        (fun k' next => c.counter_lt_scanDepend ..) deps (Nat.lt_succ_self k)
      have htake : env.maxDependDepth - k = env.maxDependDepth - (k + 1) + 1 := by omega
      refine ⟨?_, fun hr => ?_⟩
      · rw [hfound, htake, take_succ_cons]
        simp
      · rw [hcounter hr, length_cons]
        omega

theorem isCircular_iff (p : Ptr) (deps : List DependSpec) : c.isCircular env p deps = true ↔
    ∃ l ∈ (c.visits (env.maxDependDepth + 1) deps).take env.maxDependDepth,
      listNames (c.job p).jobId l :=
  (c.scanDepend_searched env _ (Nat.lt_succ_self _) deps).found

/-! ## The graph -/

/-- A job that has not finished. -/
def Unfinished (q : Ptr) : Prop := q ∈ c.jobList ∧ ¬(c.job q).jobState.isFinished
  deriving Decidable

/-- The job `q` is one that a dependency names: the job with its id, a task of the array with its
    id, or the task or the pending tasks with one of its tasks. -/
def Denotes (d : DependSpec) (q : Ptr) : Prop :=
  if d.arrayTaskId = noVal then (c.job q).jobId = d.jobId
  else (c.job q).arrayJobId = d.jobId ∧ (d.arrayTaskId = infinite ∨
    (c.job q).arrayTaskId = d.arrayTaskId ∨
      (c.job q).arrayRecs.any fun r => r.taskIdBitmap.any fun b => d.arrayTaskId ∈ b)
  deriving Decidable

/-- A job with the dependencies `deps` waits for `b`. -/
def WaitsFor (deps : List DependSpec) (b : Ptr) : Prop :=
  c.Unfinished b ∧ ∃ d ∈ deps, d.dependType.OnJob ∧ c.Denotes d b
  deriving Decidable

/-- The job `a` waits for `b`. -/
def DependsOn (a b : Ptr) : Prop := c.Unfinished a ∧ c.WaitsFor ((c.job a).deps.getD []) b
  deriving Decidable

/-- The job `p` comes to wait for itself if its dependencies are `deps`. -/
def Closes (p : Ptr) (deps : List DependSpec) : Prop :=
  ∃ b, (c.Unfinished p ∧ c.WaitsFor deps b) ∧ ReflTransGen c.DependsOn b p

/-- What the graph sees of a job, but for its dependencies. -/
def graphFields (j : JobRecord) : JobState × ℕ × ℕ × ℕ × Option ArrayRecs :=
  (j.jobState, j.jobId, j.arrayJobId, j.arrayTaskId, j.arrayRecs)

/-- Two controllers with the same jobs, in which the dependencies of `p` alone may differ. -/
structure SameJobs (p : Ptr) (c c' : Ctld) : Prop where
  jobList : c'.jobList = c.jobList
  fields : ∀ q, graphFields (c'.job q) = graphFields (c.job q)
  deps : ∀ q, q ≠ p → (c'.job q).deps = (c.job q).deps

section

variable {c} {c' : Ctld} {p : Ptr} (h : SameJobs p c c')

include h

theorem SameJobs.unfinished_iff (q : Ptr) : c'.Unfinished q ↔ c.Unfinished q := by
  have hstate : (c'.job q).jobState = (c.job q).jobState := congrArg (·.1) (h.fields q)
  rw [Unfinished, h.jobList, hstate, Unfinished]

theorem SameJobs.waitsFor_iff (deps : List DependSpec) (b : Ptr) :
    c'.WaitsFor deps b ↔ c.WaitsFor deps b := by
  have hid : (c'.job b).jobId = (c.job b).jobId := congrArg (·.2.1) (h.fields b)
  have harray : (c'.job b).arrayJobId = (c.job b).arrayJobId := congrArg (·.2.2.1) (h.fields b)
  have htask : (c'.job b).arrayTaskId = (c.job b).arrayTaskId := congrArg (·.2.2.2.1) (h.fields b)
  have hrecs : (c'.job b).arrayRecs = (c.job b).arrayRecs := congrArg (·.2.2.2.2) (h.fields b)
  simp [WaitsFor, h.unfinished_iff, Denotes, hid, harray, htask, hrecs]

/-- The graph is acyclic afterwards, exactly if the new dependencies do not close a cycle. -/
theorem SameJobs.acyclic_iff (hc : Acyclic c.DependsOn) :
    Acyclic c'.DependsOn ↔ ¬c.Closes p ((c'.job p).deps.getD []) := by
  have hedges (a b : Ptr) (ha : a ≠ p) : c'.DependsOn a b ↔ c.DependsOn a b := by
    rw [DependsOn, h.unfinished_iff, h.waitsFor_iff, h.deps a ha, DependsOn]
  rw [acyclic_replace_iff hedges hc]
  simp [Closes, DependsOn, h.unfinished_iff, h.waitsFor_iff]

end

/-- Whether a cycle is closed does not depend on the flags. -/
theorem closes_dependList2str (p : Ptr) (orFlag : Bool) (sep : CStr) (leader1 : Bool)
    (deps : List DependSpec) :
    c.Closes p (dependList2str orFlag sep leader1 deps).2 ↔ c.Closes p deps := by
  have hwaits (b : Ptr) :
      c.WaitsFor (dependList2str orFlag sep leader1 deps).2 b ↔ c.WaitsFor deps b := by
    simp only [WaitsFor, dependList2str_snd, mem_map, exists_exists_and_eq_and]
    refine and_congr_right fun _ => exists_congr fun d => and_congr_right fun _ => ?_
    split_ifs <;> rfl
  simp [Closes, hwaits]

theorem sameJobs_of_sansDepend {c c' : Ctld} (h : c'.sansDepend = c.sansDepend) (p : Ptr) :
    SameJobs p c c' := by
  have hlist : c'.sansDepend.jobList = c.sansDepend.jobList := by rw [h]
  have hjob (q : Ptr) : (c'.job q).sansDepend = (c.job q).sansDepend := by
    have hq : c'.sansDepend.job q = c.sansDepend.job q := by rw [h]
    exact hq
  refine ⟨hlist, fun q => ?_, fun q _ => ?_⟩
  · have hfields : graphFields (c'.job q).sansDepend = graphFields (c.job q).sansDepend := by
      rw [hjob]
    exact hfields
  · have hdeps (j : JobRecord) : j.sansDepend.deps = j.deps := by
      cases h : j.details <;> simp [JobRecord.sansDepend, JobRecord.deps, h]
    rw [← hdeps, hjob, hdeps]

theorem SameJobs.modJob {c c' : Ctld} {p : Ptr} (h : SameJobs p c c') {f : JobRecord → JobRecord}
    (hf : ∀ j, graphFields (f j) = graphFields j) : SameJobs p c (c'.modJob p f) := by
  refine ⟨h.jobList, fun q => ?_, fun q hq => ?_⟩
  · rcases eq_or_ne q p with rfl | hq
    · rw [modJob_job_self, hf, h.fields]
    · rw [modJob_job_of_ne _ _ hq, h.fields]
  · rw [modJob_job_of_ne _ _ hq, h.deps q hq]

end Ctld

/-- An update of dependencies in a table without cycles makes none, exactly if the search finds the
    job in one of the first lists, where the new dependencies close a cycle. -/
theorem updateJobDependency_acyclic_iff (env : Env) (now : ℤ) (c : Ctld) (p : Ptr)
    (newDepend : Option CStr) (hc : Acyclic c.DependsOn) :
    ((updateJobDependency env now c p newDepend).1 = .success →
        Acyclic (updateJobDependency env now c p newDepend).2.DependsOn) ↔
      ∀ s ∈ newDepend, s ≠ [] → s ≠ "0".toList → (c.job p).details ≠ none →
        c.WellFormedDepend env now p s → c.Closes p (c.readDepend env now p s).2.dependList →
          ∃ l ∈ (c.visits (env.maxDependDepth + 1)
              (c.readDepend env now p s).2.dependList).take env.maxDependDepth,
            Ctld.listNames (c.job p).jobId l := by
  obtain ⟨hdetails, h⟩ | ⟨-, hempty, h⟩ | ⟨s, rfl, hne, hzero, hdetails, h⟩ :=
    c.updateJobDependency_cases env now p newDepend
  · refine iff_of_true (fun hok => ?_) fun _ _ _ _ hd => absurd hdetails hd
    rw [h] at hok
    cases hok
  · have hnone (j : JobRecord) : j.clearDepend.deps = none := by
      cases h : j.details <;> simp [clearDepend, deps, h]
    have hexpanding : Ctld.SameJobs p c (c.modJob p (·.setExpandingJobid 0)) :=
      sameJobs_of_sansDepend (modJob_sansDepend _ _ fun _ => by simp) p
    have hsame : Ctld.SameJobs p c ((c.modJob p (·.setExpandingJobid 0)).modJob p
        clearDepend) := hexpanding.modJob fun _ => rfl
    refine iff_of_true (fun _ => ?_) fun s hs h1 h2 => absurd (hempty s hs) (not_or.2 ⟨h1, h2⟩)
    rw [h, hsame.acyclic_iff hc, modJob_job_self, hnone]
    rintro ⟨b, ⟨-, -, d, hd, -⟩, -⟩
    cases hd
  · simp only [Option.mem_some_iff, forall_eq', hne, hzero, ne_eq, hdetails, not_false_iff,
      true_imp_iff]
    have hdeps := (updateJobDependency_some env now hdetails hne hzero).2
    rw [h] at hdeps
    rw [← c.isCircular_iff, h]
    obtain ⟨hacc, hrc, hstate⟩ | ⟨hacc, hrc, -⟩ := c.setNewDepend_cases env now p s
    · have hlinked : Ctld.SameJobs p c (c.afterLink env now p s) := sameJobs_of_sansDepend
          ((sansDepend_linkPack ..).trans (sansDepend_afterRead ..)) p
      have hsame : Ctld.SameJobs p c ((c.afterLink env now p s).modJob p (setDepend
          (c.readDepend env now p s).2.dependList (c.readDepend env now p s).2.orFlag)) :=
        hlinked.modJob fun _ => rfl
      rw [hstate] at hdeps
      rw [hstate, hsame.acyclic_iff hc, (hdeps hacc).1, Option.getD_some, c.closes_dependList2str]
      simp [hrc, hacc.toWellFormedDepend, hacc.acyclic]
    · refine iff_of_true (fun h => absurd h hrc) fun hwell _ => ?_
      by_contra hcircle
      exact hacc ⟨hwell, Bool.eq_false_iff.2 hcircle⟩

/-- A task of the array 5, with the id 7, and the job 9, which waits for this task. -/
def taskAndWaiting : Ctld where
  job p :=
    if p = 1 then { jobId := 7, arrayJobId := 5, arrayTaskId := 3, details := some {} }
    else
      { jobId := 9
        details := some
          { dependList := some
              [{ arrayTaskId := 3, dependType := .afterOk, jobId := 5, jobPtr := some 1 }]
            dependency := some "afterok:5_3".toList } }
  jobList := [1, 2]
  jobArrayHash := [1]

theorem taskAndWaiting_acyclic : Acyclic taskAndWaiting.DependsOn := by
  have hedges : ∀ a ∈ taskAndWaiting.jobList, ∀ b ∈ taskAndWaiting.jobList,
      taskAndWaiting.DependsOn a b → b < a := by decide
  exact Acyclic.of_rank id fun a b hab => hedges a hab.1.1 b hab.2.1.1 hab

theorem updateJobDependency_acyclic_taskAndWaiting :
    let r := updateJobDependency {} 5 taskAndWaiting 2 (some "afterany:5_3".toList)
    Acyclic taskAndWaiting.DependsOn ∧ r.1 = .success ∧ r.2.DependsOn 2 1 ∧
      Acyclic r.2.DependsOn := by
  refine ⟨taskAndWaiting_acyclic, by decide, by decide, ?_⟩
  refine (updateJobDependency_acyclic_iff {} 5 taskAndWaiting 2 (some "afterany:5_3".toList)
    taskAndWaiting_acyclic).2 ?_ (by decide)
  intro s hs _ _ _ _ hcloses
  obtain rfl := Option.some.inj hs
  obtain ⟨b, ⟨-, hb⟩, hpath⟩ := hcloses
  have hone : ∀ b ∈ taskAndWaiting.jobList, taskAndWaiting.WaitsFor
      (taskAndWaiting.readDepend {} 5 2 "afterany:5_3".toList).2.dependList b → b = 1 := by decide
  obtain rfl := hone b hb.1.1 hb
  rcases hpath.cases_head with heq | ⟨b, hedge, -⟩
  · exact absurd heq (by decide)
  · have hnone : ∀ b ∈ taskAndWaiting.jobList, ¬taskAndWaiting.DependsOn 1 b := by decide
    exact absurd hedge (hnone b hedge.2.1.1)

/-- The task comes to wait for the job that waits for it: its own id is not the one under which the
    job waits for it. -/
theorem updateJobDependency_makes_cycle :
    let r := updateJobDependency {} 5 taskAndWaiting 1 (some "afterok:9".toList)
    Acyclic taskAndWaiting.DependsOn ∧ r.1 = .success ∧
      (taskAndWaiting.visits 11
        (taskAndWaiting.readDepend {} 5 1 "afterok:9".toList).2.dependList).length = 2 ∧
      r.2.DependsOn 1 2 ∧ r.2.DependsOn 2 1 ∧ ¬Acyclic r.2.DependsOn := by
  intro r
  have hthere : r.2.DependsOn 1 2 := by decide
  have hback : r.2.DependsOn 2 1 := by decide
  exact ⟨taskAndWaiting_acyclic, by decide, by decide, hthere, hback,
    fun h => h 1 (.tail (.single hthere) hback)⟩

end Slurm
