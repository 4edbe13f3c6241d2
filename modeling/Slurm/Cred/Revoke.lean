import Slurm.Cred.Replay

/-!
# Revoked credentials stay revoked

When the credentials of a job are revoked up to a time `t`, its record says so, and no credential
of the job that was made at `t` or before is accepted as long as the record is there. It has to be
there up to `t` and the window: after that, these credentials have expired.

The record may go before. A newer credential of the job removes it, although older ones are still
in their window (`Verifier.revoked_accepted`). A restart gives a record that never expires 600
seconds, which may be less than the window, and does not keep one in its last second. A record that
began to expire before the job was revoked goes as early as it would have gone. If nothing of this
happens, revoked credentials are refused (`Verifier.revoked_refused`).
-/

namespace Slurm

namespace CredCtx

variable {ctx : CredCtx} {now t : ℤ} {cred : Cred} {jobid job : ℕ} {j : CredJobState}
  {f : CredJobState → CredJobState}

/-- The record of `job` says that credentials up to `t` are revoked, and is not dropped before the
    last of them expires. The record of a revocation at time 0 is never dropped. -/
def Stands (ctx : CredCtx) (job : ℕ) (t : ℤ) : Prop :=
  ∃ j, ctx.findJobState job = some j ∧ j.revoked = t ∧ (t = 0 ∨ t + ctx.expiryWindow ≤ j.expiration)

/-! ## The lists -/

theorem expiryWindow_clearExpiredJobStates (ctx : CredCtx) (now : ℤ) :
    (ctx.clearExpiredJobStates now).expiryWindow = ctx.expiryWindow :=
  (sameCreds_clearExpiredJobStates ctx now).2

/-- A record that has not expired is found again after others were dropped. -/
theorem findJobState_clearExpiredJobStates (h : ctx.findJobState job = some j)
    (hj : j.revoked = 0 ∨ now ≤ j.expiration) :
    (ctx.clearExpiredJobStates now).findJobState job = some j := by
  unfold clearExpiredJobStates
  split
  · exact h
  · refine List.find?_filter_of_find? h ?_
    rcases hj with hj | hj
    · simp [hj]
    · simp [not_lt.2 hj]

theorem Stands.clear (h : ctx.Stands job t) (hnow : now ≤ t + ctx.expiryWindow) :
    (ctx.clearExpiredJobStates now).Stands job t := by
  obtain ⟨j, hfind, hrev, hexp⟩ := h
  refine ⟨j, findJobState_clearExpiredJobStates hfind ?_, hrev, ?_⟩
  · exact hexp.imp (fun h => hrev.trans h) hnow.trans
  · rwa [expiryWindow_clearExpiredJobStates]

theorem findJobState_modifyJob (h : ctx.findJobState job = some j)
    (hf : ∀ j, (f j).jobid = j.jobid) :
    (ctx.modifyJob job f).findJobState job = some (f j) := by
  have hjob : j.jobid = job := by simpa using List.find?_some h
  exact List.find?_modifyFirst_self h (by simp [hf, hjob])

theorem findJobState_insertJobState (h : ctx.findJobState job = some j) :
    (ctx.insertJobState jobid).findJobState job = some j := by
  simp only [findJobState, insertJobState, List.find?_append] at h ⊢
  simp [h]

theorem findJobState_insertJobState_self (h : ctx.findJobState job = none) :
    (ctx.insertJobState job).findJobState job = some { jobid := job } := by
  simp only [findJobState, insertJobState, List.find?_append] at h ⊢
  simp [h]

theorem Stands.modifyJob (h : ctx.Stands job t) (hne : jobid ≠ job)
    (hf : ∀ j, (f j).jobid = j.jobid) :
    (ctx.modifyJob jobid f).Stands job t := by
  obtain ⟨j, hfind, hrev, hexp⟩ := h
  refine ⟨j, (List.find?_modifyFirst_of_ne fun k hk => ?_).trans hfind, hrev, hexp⟩
  -- the record that is changed is that of another job
  have hjob : k.jobid = jobid := by simpa using hk
  simp [hf, hjob, hne]

/-! ## Calls -/

section

variable (h : ctx.Stands job t)

include h

/-- A reissue that is not one of this job, or not one after the revocation, leaves the record. -/
theorem Stands.reissue (hnow : now ≤ t + ctx.expiryWindow)
    (hold : t = 0 ∨ cred.jobid ≠ job ∨ cred.ctime ≤ t) :
    (ctx.slurmCredHandleReissue now cred).Stands job t := by
  simp only [slurmCredHandleReissue]
  split
  · exact h
  · rename_i j' hj'
    split_ifs with hnew
    · have hne : cred.jobid ≠ job := by
        rintro rfl
        obtain ⟨j, hfind, hrev, -⟩ := h
        obtain rfl : j' = j := Option.some.inj (hj'.symm.trans hfind)
        rw [hrev] at hnew
        rcases hold with hold | hold | hold
        · exact hnew.1 hold
        · exact hold rfl
        · exact absurd hnew.2 (not_lt.2 hold)
      have hother : (ctx.modifyJob cred.jobid fun j => { j with expiration := 0 }).Stands job t :=
        h.modifyJob hne fun _ => rfl
      exact hother.clear hnow
    · exact h

theorem Stands.credentialRevoked (hnow : now ≤ t + ctx.expiryWindow) (cred : Cred) :
    (ctx.credentialRevoked now cred).1.Stands job t ∧
      (cred.jobid = job → cred.ctime ≤ t → (ctx.credentialRevoked now cred).2 = true) := by
  obtain ⟨j, hfind, hrev, hexp⟩ := h.clear hnow
  simp only [CredCtx.credentialRevoked]
  split
  · rename_i hnone
    refine ⟨⟨j, findJobState_insertJobState hfind, hrev, hexp⟩, ?_⟩
    rintro rfl
    simp [hnone] at hfind
  · rename_i j' hj'
    refine ⟨⟨j, hfind, hrev, hexp⟩, ?_⟩
    rintro rfl hle
    obtain rfl : j' = j := Option.some.inj (hj'.symm.trans hfind)
    simpa [hrev] using hle

theorem Stands.credentialReplayed :
    (ctx.credentialReplayed now cred).1.Stands job t := by
  have hclear : (ctx.clearExpiredCredentialStates now).Stands job t := by
    unfold clearExpiredCredentialStates
    split <;> exact h
  simp only [CredCtx.credentialReplayed]
  split_ifs <;> exact hclear

/-- A verification keeps the record, and refuses the credentials that are revoked. -/
theorem Stands.verify (hnow : now ≤ t + ctx.expiryWindow) {signed : Bool}
    (hold : t = 0 ∨ cred.jobid ≠ job ∨ cred.ctime ≤ t ∨ signed = false ∨
      cred.ctime + ctx.expiryWindow < now) :
    (ctx.slurmCredVerify now cred signed).1.Stands job t ∧ (cred.jobid = job → cred.ctime ≤ t →
        (ctx.slurmCredVerify now cred signed).2 ≠ .success) := by
  simp only [slurmCredVerify]
  split_ifs with hsigned hexpired hrev hrep
  · exact ⟨h, by simp⟩
  · exact ⟨h, by simp⟩
  all_goals
    have hreissue : (ctx.slurmCredHandleReissue now cred).Stands job t := h.reissue hnow (by tauto)
    have hnow' : now ≤ t + (ctx.slurmCredHandleReissue now cred).expiryWindow := by
      rwa [(sameCreds_slurmCredHandleReissue ..).2]
    have hrevoked := hreissue.credentialRevoked hnow' cred
  · exact ⟨hrevoked.1, by simp⟩
  · exact ⟨hrevoked.1.credentialReplayed, by simp⟩
  · exact ⟨hrevoked.1.credentialReplayed, fun hjob hle => absurd (hrevoked.2 hjob hle) hrev⟩

/-- The record begins to expire after the revocation, or has begun before. -/
theorem Stands.beginExpiration (hnow : now ≤ t + ctx.expiryWindow)
    (hlate : jobid ≠ job ∨ t ≤ now) : (ctx.slurmCredBeginExpiration now jobid).1.Stands job t := by
  have hclear := h.clear hnow
  simp only [slurmCredBeginExpiration]
  split
  · exact hclear
  · split_ifs
    · exact hclear
    · by_cases hjob : jobid = job
      · subst hjob
        obtain ⟨j, hfind, hrev, hexp⟩ := hclear
        refine ⟨_, findJobState_modifyJob hfind fun _ => rfl, hrev, .inr ?_⟩
        simpa [CredCtx.modifyJob] using hlate
      · exact hclear.modifyJob hjob fun _ => rfl

/-- The revocation of another job. -/
theorem Stands.revoke (hnow : now ≤ t + ctx.expiryWindow) (hne : jobid ≠ job) (time startTime : ℤ) :
    (ctx.slurmCredRevoke now jobid time startTime).1.Stands job t := by
  have hclear := h.clear hnow
  simp only [slurmCredRevoke]
  split
  · obtain ⟨j, hfind, hrev, hexp⟩ := hclear
    have hnew : ((ctx.clearExpiredJobStates now).insertJobState jobid).Stands job t :=
      ⟨j, findJobState_insertJobState hfind, hrev, hexp⟩
    exact hnew.modifyJob hne fun _ => rfl
  · split_ifs
    · exact hclear.modifyJob hne fun _ => rfl
    · exact hclear.modifyJob hne fun _ => rfl
    · exact hclear

/-- A restart after which the record is there for long enough. -/
theorem Stands.restart (hlong : t = 0 ∨ ∀ j, ctx.findJobState job = some j →
      t + ctx.expiryWindow ≤ (jobStateUnpackOne j).expiration ∧
        now < (jobStateUnpackOne j).expiration) :
    (ctx.slurmCredCtxUnpack now).Stands job t := by
  obtain ⟨j, hfind, hrev, -⟩ := h
  have hrev' : (jobStateUnpackOne j).revoked = t := by
    unfold jobStateUnpackOne
    split_ifs <;> exact hrev
  -- No record changes its job in a restart.
  have hjobid : ∀ a b, jobStateUnpack now a = some b → b.jobid = a.jobid := by
    intro a b hab
    simp only [jobStateUnpack, Option.ite_none_right_eq_some, Option.some.injEq] at hab
    rw [← hab.2, jobStateUnpackOne]
    split_ifs <;> rfl
  refine ⟨jobStateUnpackOne j, ?_, hrev', hlong.imp_right fun h => (h j hfind).1⟩
  refine List.find?_filterMap_of_find? (fun a b hab => by rw [hjobid a b hab]) hfind ?_
  have hkept : (jobStateUnpackOne j).revoked = 0 ∨ now < (jobStateUnpackOne j).expiration :=
    hlong.imp (fun h => hrev'.trans h) fun h => (h j hfind).2
  simp [jobStateUnpack, hkept]

end

/-- After a revocation, there is a record of it. -/
theorem stands_slurmCredRevoke {startTime : ℤ} (hmax : t + ctx.expiryWindow ≤ maxTime)
    (hlong : ∀ j ∈ ctx.jobList, j.jobid = job → j.revoked = 0 → t + ctx.expiryWindow ≤ j.expiration)
    (hok : (ctx.slurmCredRevoke now job t startTime).2 = true) :
    (ctx.slurmCredRevoke now job t startTime).1.Stands job t := by
  have hwindow := expiryWindow_clearExpiredJobStates ctx now
  have hmem : ∀ j ∈ (ctx.clearExpiredJobStates now).jobList, j ∈ ctx.jobList := by
    unfold clearExpiredJobStates
    split
    · exact fun _ h => h
    · exact fun _ h => (List.mem_filter.1 h).1
  simp only [slurmCredRevoke] at hok ⊢
  split
  · rename_i hnone
    have hnew := findJobState_insertJobState_self hnone
    refine ⟨_, findJobState_modifyJob hnew fun _ => rfl, rfl, .inr ?_⟩
    simpa [modifyJob, insertJobState, hwindow] using hmax
  · rename_i j hj
    simp only [hj] at hok
    split_ifs at hok ⊢ with hzero hrequeue
    · have hjob : j.jobid = job := by simpa using List.find?_some hj
      refine ⟨_, findJobState_modifyJob hj fun _ => rfl, rfl, .inr ?_⟩
      simpa [modifyJob, hwindow] using hlong j (hmem j (List.mem_of_find?_eq_some hj)) hjob hzero
    · refine ⟨_, findJobState_modifyJob hj fun _ => rfl, rfl, .inr ?_⟩
      simpa [modifyJob, hwindow] using hmax

end CredCtx

namespace Verifier

open CredCtx List

variable {v : Verifier} {o : CredOp} {job : ℕ} {t : ℤ}

/-- A call refuses the credentials of `job` up to `t`. -/
def Refuses (job : ℕ) (t : ℤ) (v : Verifier) (o : CredOp) : Prop :=
  ∀ c ∈ v.newlyAccepted o, c.jobid = job → ¬ c.ctime ≤ t

/-- The credentials that were revoked have expired, or the call does not remove the record of the
    revocation: it is not about a newer credential of the job, does not begin to expire the record
    before `t`, does not revoke once more, and is no restart that leaves the record too little
    time. -/
def KeepsRevoked (job : ℕ) (t : ℤ) (v : Verifier) (o : CredOp) : Prop :=
  v.clock ≤ o.now ∧
    (t + v.ctx.expiryWindow < o.now ∨
      match o with
      | .verify now c signed =>
        t = 0 ∨ c.jobid ≠ job ∨ c.ctime ≤ t ∨ signed = false ∨ c.ctime + v.ctx.expiryWindow < now
      | .reissue _ c => t = 0 ∨ c.jobid ≠ job ∨ c.ctime ≤ t
      | .beginExpiration now jobid => jobid ≠ job ∨ t ≤ now
      | .restart now =>
        t = 0 ∨ ∀ j, v.ctx.findJobState job = some j →
          t + v.ctx.expiryWindow ≤ (jobStateUnpackOne j).expiration ∧
            now < (jobStateUnpackOne j).expiration
      | .revoke _ jobid _ _ => jobid ≠ job)

/-- The revoked credentials have expired, or there is a record of the revocation. -/
def Revoked (job : ℕ) (t : ℤ) (v : Verifier) : Prop :=
  t + v.ctx.expiryWindow < v.clock ∨ v.ctx.Stands job t

theorem expiryWindow_ctxAfter (v : Verifier) (o : CredOp) :
    (v.ctxAfter o).expiryWindow = v.ctx.expiryWindow := by
  cases o with
  | verify now cred signed => exact (slurmCredVerify_cases v.ctx now cred signed).1.window
  | reissue now cred => exact (sameCreds_slurmCredHandleReissue v.ctx now cred).2
  | revoke now jobid time startTime =>
    exact (sameCreds_slurmCredRevoke v.ctx now jobid time startTime).2
  | beginExpiration now jobid => exact (sameCreds_slurmCredBeginExpiration v.ctx now jobid).2
  | restart now => rfl

/-- A credential is accepted within its window only. -/
theorem window_of_newlyAccepted {c : Cred} (hc : c ∈ v.newlyAccepted o) :
    o.now ≤ c.ctime + v.ctx.expiryWindow := by
  cases o with
  | verify now cred signed =>
    simp only [newlyAccepted] at hc
    split_ifs at hc with hok
    · rw [mem_singleton.1 hc]
      exact ((slurmCredVerify_cases v.ctx now cred signed).2 hok).1
    · simp at hc
  | reissue | revoke | beginExpiration | restart => simp [newlyAccepted] at hc

/-- While the record stands, a call that keeps it refuses what is revoked. -/
theorem stands_exec (hv : v.ctx.Stands job t) (hnow : o.now ≤ t + v.ctx.expiryWindow)
    (ho : KeepsRevoked job t v o) : (v.ctxAfter o).Stands job t ∧ Refuses job t v o := by
  have hkeeps := ho.2.resolve_left (not_lt.2 hnow)
  cases o with
  | verify now cred signed =>
    obtain ⟨hstands, hrefused⟩ := hv.verify hnow hkeeps
    refine ⟨hstands, fun c hc hjob hle => ?_⟩
    simp only [newlyAccepted] at hc
    split_ifs at hc with hok
    · obtain rfl := mem_singleton.1 hc
      exact hrefused hjob hle hok
    · simp at hc
  | reissue now cred => exact ⟨hv.reissue hnow hkeeps, by simp [Refuses, newlyAccepted]⟩
  | revoke now jobid time startTime =>
    exact ⟨hv.revoke hnow hkeeps time startTime, by simp [Refuses, newlyAccepted]⟩
  | beginExpiration now jobid =>
    exact ⟨hv.beginExpiration hnow hkeeps, by simp [Refuses, newlyAccepted]⟩
  | restart now => exact ⟨hv.restart hkeeps, by simp [Refuses, newlyAccepted]⟩

theorem Revoked.exec (hv : v.Revoked job t) (ho : KeepsRevoked job t v o) :
    (v.exec o).Revoked job t ∧ Refuses job t v o := by
  have hwindow := expiryWindow_ctxAfter v o
  by_cases hover : t + v.ctx.expiryWindow < o.now
  · -- All the credentials up to `t` have expired.
    refine ⟨.inl (by simpa [Verifier.exec, hwindow] using hover), fun c hc _ hle => ?_⟩
    have hc := window_of_newlyAccepted hc
    omega
  · have hstands : v.ctx.Stands job t := hv.resolve_left fun h => hover (h.trans_le ho.1)
    obtain ⟨hstands, hrefuses⟩ := stands_exec hstands (not_lt.1 hover) ho
    exact ⟨.inr hstands, hrefuses⟩

/-- After the credentials of a job were revoked up to `t`, none of them is accepted, in a run whose
    calls do not remove the record of it too early, if the record it is written to does not expire
    too early. -/
theorem revoked_refused (v : Verifier) (now : ℤ) (job : ℕ) (t startTime : ℤ) (os : List CredOp)
    (hok : (v.ctx.slurmCredRevoke now job t startTime).2 = true)
    (hmax : t + v.ctx.expiryWindow ≤ maxTime)
    (hlong : ∀ j ∈ v.ctx.jobList, j.jobid = job → j.revoked = 0 →
      t + v.ctx.expiryWindow ≤ j.expiration) (hrun : Run.Admissible exec (KeepsRevoked job t)
      (v.exec (.revoke now job t startTime)) os) :
    Run.Admissible exec (Refuses job t) (v.exec (.revoke now job t startTime)) os :=
  Run.admissible_of_invariant (I := Revoked job t) (fun _ _ hv ho => hv.exec ho)
    (.inr (stands_slurmCredRevoke hmax hlong hok)) hrun

instance (job : ℕ) (t : ℤ) (v : Verifier) : ∀ o, Decidable (Refuses job t v o) := fun o =>
  inferInstanceAs (Decidable (∀ c ∈ v.newlyAccepted o, _))

/-- A job is revoked, and a credential from before is refused. -/
theorem revoked_refused_older :
    ((⟨{ expiryWindow := 10 }, 0, []⟩ : Verifier).ctx.slurmCredRevoke 10 1 10 0).2 = true ∧
      Run.Admissible exec (Refuses 1 10)
        ((⟨{ expiryWindow := 10 }, 0, []⟩ : Verifier).exec (.revoke 10 1 10 0))
        [.beginExpiration 12 1, .verify 14 ⟨1, 0, 9⟩ true] := by
  refine ⟨by decide, ?_⟩
  refine revoked_refused _ 10 1 10 0 _ (by decide) (by decide) (by simp)
    ⟨⟨?_, .inr ?_⟩, ⟨?_, .inr ?_⟩, trivial⟩
  · decide
  · exact .inr (by decide)
  · decide
  · exact .inr (.inr (.inl (by decide)))

/-- A newer credential of the job removes the record of the revocation, and an older one that is
    revoked is accepted after it, in a run whose times are in order. -/
theorem revoked_accepted :
    ((⟨{ expiryWindow := 10 }, 0, []⟩ : Verifier).ctx.slurmCredRevoke 10 1 10 0).2 = true ∧
      Run.Admissible exec (fun v o => v.clock ≤ o.now)
        ((⟨{ expiryWindow := 10 }, 0, []⟩ : Verifier).exec (.revoke 10 1 10 0))
        [.verify 12 ⟨1, 0, 11⟩ true, .verify 12 ⟨1, 1, 9⟩ true] ∧
      ¬ Run.Admissible exec (Refuses 1 10)
        ((⟨{ expiryWindow := 10 }, 0, []⟩ : Verifier).exec (.revoke 10 1 10 0))
        [.verify 12 ⟨1, 0, 11⟩ true, .verify 12 ⟨1, 1, 9⟩ true] := by
  decide

end Verifier

end Slurm
