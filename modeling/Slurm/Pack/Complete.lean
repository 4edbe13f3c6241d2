import Slurm.Job.Settle

/-!
# Completion of a leader and members that have ended

When the leader of a job pack completes, so do its members. Those that have ended should keep what
they ended with: the state, the exit code, the time and who asked for it (`JobRecord.outcome`).

A member is passed over if its whole state is `JOB_COMPLETE`. Any other that has ended, as one that
was cancelled, or one that still completes, is handed to `_job_complete`. It takes the exit code of
the leader if it has none (`jobComplete_outcome`). So all of them keep theirs just if the leader has
succeeded, or each of those members has an exit code (`jobComplete_keeps_iff`).
-/

namespace Slurm

open JobRecord List Option

/-- What a job has ended with. -/
def JobRecord.outcome (j : JobRecord) : JobState × ℕ × ℤ × ℕ :=
  (j.jobState, j.exitCode, j.endTime, j.requid)

/-- The exit code is taken by a job that has none. -/
def markExit (rc : ℕ) (o : JobState × ℕ × ℤ × ℕ) : JobState × ℕ × ℤ × ℕ :=
  (o.1, if o.2.1 = 0 then rc else o.2.1, o.2.2)

@[simp] theorem markExit_markExit (rc : ℕ) (o : JobState × ℕ × ℤ × ℕ) :
    markExit rc (markExit rc o) = markExit rc o := by
  by_cases h : o.2.1 = 0 <;> simp [markExit, h]

theorem markExit_eq_self_iff {rc : ℕ} {o : JobState × ℕ × ℤ × ℕ} :
    markExit rc o = o ↔ rc = 0 ∨ o.2.1 ≠ 0 := by
  by_cases h : o.2.1 = 0
  · simp [markExit, Prod.ext_iff, h]
  · simp [markExit, h]

/-! ## One job completes -/

/-- From `c` to `c'` no other job than `p` changes in what it has ended with. -/
structure Spares (p : Ptr) (c c' : Ctld) : Prop where
  jobList : c'.jobList = c.jobList
  jobId : ∀ q, (c'.job q).jobId = (c.job q).jobId
  outcome : ∀ q, q ≠ p → (c'.job q).outcome = (c.job q).outcome

section

variable {env : Env} {p : Ptr} {c c' c'' : Ctld}

theorem Spares.trans (h : Spares p c c') (h' : Spares p c' c'') : Spares p c c'' :=
  ⟨h'.jobList.trans h.jobList, fun q => (h'.jobId q).trans (h.jobId q),
    fun q hq => (h'.outcome q hq).trans (h.outcome q hq)⟩

/-- The record of an array may change, whoever holds it. -/
theorem Spares.ofJob (hlist : c'.jobList = c.jobList) (hself : (c'.job p).jobId = (c.job p).jobId)
    (hother : ∀ q, q ≠ p → ∃ r, c'.job q = { c.job q with arrayRecs := r }) : Spares p c c' := by
  refine ⟨hlist, fun q => ?_, fun q hq => ?_⟩
  · rcases eq_or_ne q p with rfl | hq
    · exact hself
    · obtain ⟨r, hr⟩ := hother q hq
      rw [hr]
  · obtain ⟨r, hr⟩ := hother q hq
    rw [hr]
    rfl

theorem Minor.spares (h : Minor env p c c') : Spares p c c' :=
  .ofJob h.jobList (of_part (·.jobId) h.standing) fun q hq => ⟨_, h.others q hq⟩

theorem Settles.spares (h : Settles env p c c') : Spares p c c' := by
  obtain ⟨c1, hstart, hend⟩ := h
  have hlog := jobCompletionLogger_logged env c1 p
  refine (hstart.spares.trans (.ofJob hlog.jobList (of_part (·.jobId) hlog.identity)
    fun q hq => ?_)).trans hend.spares
  by_cases hb : c1.baseOf p = some q
  · obtain ⟨r, hr, -⟩ := hlog.base q hq hb
    exact ⟨_, hr⟩
  · exact ⟨_, hlog.other q hq hb⟩

theorem Completed.spares (h : Completed env p c c') : Spares p c c' := by
  obtain ⟨-, hsettles, -⟩ | ⟨-, ⟨c1, hsettles, hend⟩, -⟩ | ⟨hminor, -⟩ := h
  · exact hsettles.spares
  · have husage := (adjustLimitUsage_bookkeeping env c1 p .addSubmit).alters
    exact (hsettles.spares.trans (.ofJob husage.jobList (of_part (·.jobId) husage.identity)
      fun q hq => ⟨_, husage.job q hq⟩)).trans hend.spares
  · exact hminor.spares

end

/-! ## The members -/

/-- The job has no entry that says that it is a member, and the entries of its own members name jobs
    that are there. -/
structure Ctld.LeadsPack (c : Ctld) (deps : List DependSpec) : Prop where
  not_member : ∀ d ∈ deps, d.dependType ≠ .pack
  linked : ∀ d ∈ packMembers deps, ∃ q, d.jobPtr = some q ∧ c.findJobRecord d.jobId = some q

section

variable (env : Env) (now : ℤ) (p : Ptr) (jobId uid rc : ℕ) {q r : Ptr} {d : DependSpec}

/-- A job that has ended takes the exit code. -/
theorem jobCompleteOne_outcome {c : Ctld} (hfin : (c.job q).jobState.isFinished)
    {id : ℕ} (hfind : c.findJobRecord id = some r) :
    ((jobCompleteOne env now c id uid false false rc).2.job q).outcome =
      if r = q then markExit rc (c.job q).outcome else (c.job q).outcome := by
  split_ifs with hq
  · subst hq
    simp only [jobCompleteOne, hfind, hfin, if_true, Ctld.modJob_job_self]
    rfl
  · exact (jobCompleteOne_completed env now c r hfind uid false false rc).spares.outcome q (Ne.symm hq)

theorem completeMember_spec (c : Ctld) (hptr : d.jobPtr = some r)
    (hfind : c.findJobRecord d.jobId = some r) :
    Spares r c (completeMember env now p uid rc c d) ∧ ∀ q, (c.job q).jobState.isFinished →
        ((completeMember env now p uid rc c d).job q).outcome =
          if r = q ∧ (c.job q).jobState ≠ ⟨.complete, ∅⟩ then markExit rc (c.job q).outcome
          else (c.job q).outcome := by
  have hsame : Spares r c c := ⟨rfl, fun _ => rfl, fun _ _ => rfl⟩
  simp only [completeMember, hptr, any_some, decide_eq_true_eq]
  split_ifs with hskip hcall
  · refine ⟨hsame, fun q hfin => (if_neg ?_).symm⟩
    rintro ⟨rfl, hne⟩
    exact hfin.1 (congrArg JobState.base (hskip.resolve_left hne))
  · refine ⟨(jobCompleteOne_completed env now c r hfind uid false false rc).spares,
      fun q hfin => ?_⟩
    rw [jobCompleteOne_outcome env now uid rc hfin hfind]
    refine if_congr (iff_self_and.2 ?_) rfl rfl
    rintro rfl hcomplete
    exact hskip (.inl hcomplete)
  · -- The pack has no script, and its leader has succeeded.
    have hrc : rc = 0 := not_ne_iff.1 (not_or.1 hcall).2
    refine ⟨hsame, fun q _ => ?_⟩
    rw [markExit_eq_self_iff.2 (.inl hrc), ite_self]

theorem foldl_completeMember (c : Ctld) {ms : List DependSpec}
    (hms : ∀ d ∈ ms, ∃ q, d.jobPtr = some q ∧ c.findJobRecord d.jobId = some q) :
    let c' := ms.foldl (completeMember env now p uid rc) c
    (∀ id, c'.findJobRecord id = c.findJobRecord id) ∧
      ∀ q, (c.job q).jobState.isFinished → (c'.job q).jobState = (c.job q).jobState ∧
        (c'.job q).outcome =
          if (∃ d ∈ ms, d.jobPtr = some q) ∧ (c.job q).jobState ≠ ⟨.complete, ∅⟩ then
            markExit rc (c.job q).outcome
          else (c.job q).outcome := by
  induction ms generalizing c with
  | nil => exact ⟨fun _ => rfl, fun _ _ => ⟨rfl, by simp⟩⟩
  | cons d ms ih =>
    obtain ⟨⟨r, hptr, hfind⟩, hrest⟩ := forall_mem_cons.1 hms
    obtain ⟨hspares, hout⟩ := completeMember_spec env now p uid rc c hptr hfind
    rw [foldl_cons]
    generalize completeMember env now p uid rc c d = c1 at *
    have hfind1 := Ctld.findJobRecord_congr hspares.jobList hspares.jobId
    obtain ⟨hfind', hout'⟩ := ih c1 (by simpa only [hfind1] using hrest)
    refine ⟨fun id => (hfind' id).trans (hfind1 id), fun q hfin => ?_⟩
    have hstate : (c1.job q).jobState = (c.job q).jobState := by
      have hfst := congrArg Prod.fst (hout q hfin)
      rwa [apply_ite Prod.fst, markExit, ite_self] at hfst
    obtain ⟨hstate', hout'⟩ := hout' q (hstate ▸ hfin)
    refine ⟨hstate'.trans hstate, hout'.trans ?_⟩
    rw [hout q hfin, hstate]
    simp only [exists_mem_cons_iff, hptr, some.injEq]
    by_cases hcomplete : (c.job q).jobState = ⟨.complete, ∅⟩
    · simp [hcomplete]
    · by_cases hq : r = q <;> simp [hq, hcomplete]

variable {p jobId} {c : Ctld} {deps : List DependSpec} (hfind : c.findJobRecord jobId = some p)
  (hdeps : (c.job p).details.bind (·.dependList) = some deps) (hlead : c.LeadsPack deps)
  (requeue nodeFail : Bool)

include hfind hdeps hlead

/-- What a member has ended with, after the leader has completed. -/
theorem jobComplete_outcome (hd : d ∈ packMembers deps)
    (hptr : d.jobPtr = some q) (hfin : (c.job q).jobState.isFinished) :
    ((jobComplete env now c jobId uid requeue nodeFail rc).2.job q).outcome =
      if (c.job q).jobState = ⟨.complete, ∅⟩ then (c.job q).outcome
      else markExit rc (c.job q).outcome := by
  obtain ⟨hfind', hall⟩ := foldl_completeMember env now p uid rc c hlead.linked
  obtain ⟨hstate, hout⟩ := hall q hfin
  have hmember : ∃ d ∈ packMembers deps, d.jobPtr = some q := ⟨d, hd, hptr⟩
  simp only [hmember, true_and, ite_not] at hout
  have hleader : (false || !(packMembers deps).isEmpty) = true := by
    simpa using ne_nil_of_mem hd
  simp only [jobComplete, hfind, hdeps, getD_some, hleader, true_and,
    completeEntries_of_not_member env now c p jobId uid rc hlead.not_member]
  split_ifs with hskip hcomplete hcomplete
  · rw [hout, if_pos hcomplete]
  · rw [hout, if_neg hcomplete]
  all_goals
    rw [jobCompleteOne_outcome env now uid rc (hstate ▸ hfin) ((hfind' jobId).trans hfind), hout]
  · rw [if_pos hcomplete, if_neg]
    rintro rfl
    exact hskip (.inl (hstate.trans hcomplete))
  · rw [if_neg hcomplete, markExit_markExit, ite_self]

/-- The members that have ended keep what they have ended with just if the leader has succeeded, or
    each of them is passed over or has an exit code. -/
theorem jobComplete_keeps_iff :
    (∀ d ∈ packMembers deps, ∀ q ∈ d.jobPtr, (c.job q).jobState.isFinished →
        ((jobComplete env now c jobId uid requeue nodeFail rc).2.job q).outcome =
          (c.job q).outcome) ↔
      rc = 0 ∨ ∀ d ∈ packMembers deps, ∀ q ∈ d.jobPtr, (c.job q).jobState.isFinished →
        (c.job q).jobState = ⟨.complete, ∅⟩ ∨ (c.job q).exitCode ≠ 0 := by
  simp only [← forall_or_left]
  refine forall₂_congr fun d hd => forall₃_congr fun q hptr hfin => ?_
  rw [jobComplete_outcome env now uid rc hfind hdeps hlead requeue nodeFail hd hptr hfin]
  split_ifs with hcomplete
  · simp [hcomplete]
  · simp [markExit_eq_self_iff, hcomplete, outcome]

end

/-- A pack of two whose member was cancelled, and has the exit code. -/
def cancelledMember (exitCode : ℕ) : Ctld :=
  (packOfTwo packDeps).modJob 2 fun j => { j with jobState := ⟨.cancelled, ∅⟩, exitCode }

theorem jobComplete_keeps_exitCode :
    ((jobComplete {} 5 (cancelledMember 9) 1 1000 false false 256).2.job 2).outcome =
      ((cancelledMember 9).job 2).outcome := by
  have hlead : (cancelledMember 9).LeadsPack packDeps := ⟨by decide, by
    intro d hd
    obtain rfl := mem_singleton.1 hd
    exact ⟨2, rfl, rfl⟩⟩
  refine (jobComplete_keeps_iff {} 5 1000 256 rfl rfl hlead false false).2 (.inr ?_) _ (.head _) 2 rfl
    (by decide)
  intro d hd q hq hfin
  obtain rfl := mem_singleton.1 hd
  obtain rfl := some.inj hq
  exact .inr (by decide)

/-- The member takes the exit code of the leader. -/
theorem jobComplete_rewrites_member :
    ((cancelledMember 0).job 2).jobState.isFinished ∧ ((cancelledMember 0).job 2).exitCode = 0 ∧
      ((jobComplete {} 5 (cancelledMember 0) 1 1000 false false 256).2.job 2).exitCode = 256 := by
  decide

end Slurm
