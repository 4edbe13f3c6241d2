import Mathlib.Algebra.Order.Group.Int
import Slurm.Lib.Run
import Slurm.Cred

/-!
# A credential is accepted once

A credential is accepted up to the second in which its window ends, and its record is kept up to
then, so that it is known when it is shown again. Only the restart of `slurmd` keeps a record for
a second less: a credential that is shown, then again after a restart in the last second of its
window, is accepted twice (`Verifier.replayed_after_restart`). If there is no restart in the last
second of the window of a credential that was accepted, no credential is accepted twice
(`Verifier.accepted_once`).
-/

namespace Slurm

open List

namespace CredCtx

variable {ctx ctx' : CredCtx} {now : ℤ} {cred : Cred} {jobid : ℕ} {s : CredState}

/-- The credentials that a context knows, and for how long it accepts one. -/
def SameCreds (ctx ctx' : CredCtx) : Prop :=
  ctx'.stateList = ctx.stateList ∧ ctx'.expiryWindow = ctx.expiryWindow

/-! ## What does not concern credentials -/

theorem sameCreds_clearExpiredJobStates (ctx : CredCtx) (now : ℤ) :
    SameCreds ctx (ctx.clearExpiredJobStates now) := by
  unfold clearExpiredJobStates
  split <;> exact ⟨rfl, rfl⟩

theorem sameCreds_slurmCredHandleReissue (ctx : CredCtx) (now : ℤ) (cred : Cred) :
    SameCreds ctx (ctx.slurmCredHandleReissue now cred) := by
  unfold slurmCredHandleReissue
  split
  · exact ⟨rfl, rfl⟩
  · split
    · exact sameCreds_clearExpiredJobStates (ctx.modifyJob _ _) now
    · exact ⟨rfl, rfl⟩

theorem sameCreds_credentialRevoked (ctx : CredCtx) (now : ℤ) (cred : Cred) :
    SameCreds ctx (ctx.credentialRevoked now cred).1 := by
  have hclear := sameCreds_clearExpiredJobStates ctx now
  simp only [credentialRevoked]
  split <;> exact hclear

theorem sameCreds_slurmCredRevoke (ctx : CredCtx) (now : ℤ) (jobid : ℕ) (time startTime : ℤ) :
    SameCreds ctx (ctx.slurmCredRevoke now jobid time startTime).1 := by
  have hclear := sameCreds_clearExpiredJobStates ctx now
  simp only [slurmCredRevoke]
  split
  · exact hclear
  · split_ifs <;> exact hclear

theorem sameCreds_slurmCredBeginExpiration (ctx : CredCtx) (now : ℤ) (jobid : ℕ) :
    SameCreds ctx (ctx.slurmCredBeginExpiration now jobid).1 := by
  have hclear := sameCreds_clearExpiredJobStates ctx now
  simp only [slurmCredBeginExpiration]
  split
  · exact hclear
  · split_ifs <;> exact hclear

/-! ## What does -/

/-- The context before the list of credentials is searched: the window, and the records of the
    credentials that have not expired, are as they were. -/
structure KeepsCreds (ctx ctx' : CredCtx) (now : ℤ) : Prop where
  window : ctx'.expiryWindow = ctx.expiryWindow
  mem : ∀ s ∈ ctx.stateList, now ≤ s.expiration → s ∈ ctx'.stateList

theorem SameCreds.keeps (h : SameCreds ctx ctx') (now : ℤ) :
    KeepsCreds ctx ctx' now :=
  ⟨h.2, fun _ hs _ => h.1.symm ▸ hs⟩

theorem KeepsCreds.trans {ctx'' : CredCtx} (h : KeepsCreds ctx ctx' now)
    (h' : KeepsCreds ctx' ctx'' now) : KeepsCreds ctx ctx'' now :=
  ⟨h'.window.trans h.window, fun s hs hnow => h'.mem s (h.mem s hs hnow) hnow⟩

theorem keepsCreds_clearExpiredCredentialStates (ctx : CredCtx) (now : ℤ) :
    KeepsCreds ctx (ctx.clearExpiredCredentialStates now) now := by
  unfold clearExpiredCredentialStates
  split
  · exact ⟨rfl, fun s hs _ => hs⟩
  · refine ⟨rfl, fun s hs hnow => mem_filter.2 ⟨hs, ?_⟩⟩
    simpa using hnow

/-- A credential is found to be new only if it is on no record; then it is put on record. -/
theorem credentialReplayed_cases (ctx : CredCtx) (now : ℤ) (cred : Cred) :
    KeepsCreds ctx (ctx.credentialReplayed now cred).1 now ∧
    ((ctx.credentialReplayed now cred).2 = false →
      (∀ s ∈ ctx.stateList, now ≤ s.expiration → s.cred ≠ cred) ∧
      ⟨cred, cred.ctime + ctx.expiryWindow⟩ ∈ (ctx.credentialReplayed now cred).1.stateList) := by
  have hclear := keepsCreds_clearExpiredCredentialStates ctx now
  simp only [credentialReplayed]
  split_ifs with hany
  · exact ⟨hclear, by simp⟩
  · refine ⟨⟨hclear.window, fun s hs hnow => ?_⟩, fun _ => ⟨fun s hs hnow heq => ?_, ?_⟩⟩
    · exact mem_append_left _ (hclear.mem s hs hnow)
    · exact hany (any_eq_true.2 ⟨s, hclear.mem s hs hnow, by simpa using heq⟩)
    · simp [insertCredState, hclear.window]

/-- A verification keeps the records of credentials that have not expired. It succeeds for one that
    has not expired and is on no such record, and is then. -/
theorem slurmCredVerify_cases (ctx : CredCtx) (now : ℤ) (cred : Cred) (signed : Bool) :
    KeepsCreds ctx (ctx.slurmCredVerify now cred signed).1 now ∧
    ((ctx.slurmCredVerify now cred signed).2 = .success → now ≤ cred.ctime + ctx.expiryWindow ∧
      (∀ s ∈ ctx.stateList, now ≤ s.expiration → s.cred ≠ cred) ∧
      ⟨cred, cred.ctime + ctx.expiryWindow⟩ ∈
        (ctx.slurmCredVerify now cred signed).1.stateList) := by
  have hreissue := sameCreds_slurmCredHandleReissue ctx now cred
  have hrevoked := sameCreds_credentialRevoked (ctx.slurmCredHandleReissue now cred) now cred
  have hsame : SameCreds ctx ((ctx.slurmCredHandleReissue now cred).credentialRevoked now cred).1 :=
    ⟨hrevoked.1.trans hreissue.1, hrevoked.2.trans hreissue.2⟩
  have hreplay := credentialReplayed_cases
    ((ctx.slurmCredHandleReissue now cred).credentialRevoked now cred).1 now cred
  rw [hsame.1, hsame.2] at hreplay
  simp only [slurmCredVerify]
  split_ifs with hsigned hexpired hrev hrep
  · exact ⟨SameCreds.keeps ⟨rfl, rfl⟩ now, by simp⟩
  · exact ⟨SameCreds.keeps ⟨rfl, rfl⟩ now, by simp⟩
  · exact ⟨hsame.keeps now, by simp⟩
  · exact ⟨(hsame.keeps now).trans hreplay.1, by simp⟩
  · exact ⟨(hsame.keeps now).trans hreplay.1,
      fun _ => ⟨not_lt.1 hexpired, hreplay.2 (by simpa using hrep)⟩⟩

/-- A restart drops the records of credentials that expire now. -/
theorem keepsCreds_slurmCredCtxUnpack (h : ∀ s ∈ ctx.stateList, s.expiration ≠ now) :
    KeepsCreds ctx (ctx.slurmCredCtxUnpack now) now := by
  refine ⟨rfl, fun s hs hnow => mem_filter.2 ⟨hs, ?_⟩⟩
  simpa using lt_of_le_of_ne hnow (h s hs).symm

end CredCtx

namespace Verifier

open CredCtx

variable {v : Verifier} {o : CredOp}

/-- Time does not go back, and there is no restart in the second in which a credential on record
    expires. -/
def NoLateRestart (v : Verifier) (o : CredOp) : Prop :=
  v.clock ≤ o.now ∧
    match o with
    | .restart now => ∀ s ∈ v.ctx.stateList, s.expiration ≠ now
    | _ => True

instance (v : Verifier) : ∀ o, Decidable (v.NoLateRestart o)
  | .restart now =>
    inferInstanceAs (Decidable (v.clock ≤ now ∧ ∀ s ∈ v.ctx.stateList, s.expiration ≠ now))
  | .verify now _ _ | .reissue now _ | .revoke now _ _ _ | .beginExpiration now _ =>
    inferInstanceAs (Decidable (v.clock ≤ now ∧ True))

/-- The credentials that were accepted are different, and on record as long as their windows. -/
structure Recorded (v : Verifier) : Prop where
  nodup : v.accepted.Nodup
  record : ∀ c ∈ v.accepted, v.clock ≤ c.ctime + v.ctx.expiryWindow →
    ⟨c, c.ctime + v.ctx.expiryWindow⟩ ∈ v.ctx.stateList

/-- A call that accepts no credential. -/
theorem Recorded.of_keeps (h : v.Recorded) (hnow : v.clock ≤ o.now)
    (hkeeps : KeepsCreds v.ctx (v.ctxAfter o) o.now) (hnone : v.newlyAccepted o = []) :
    (v.exec o).Recorded := by
  simp only [exec, hnone, nil_append]
  refine ⟨h.nodup, fun c hc hclock => ?_⟩
  simp only [hkeeps.window] at hclock ⊢
  exact hkeeps.mem _ (h.record c hc (hnow.trans hclock)) hclock

theorem Recorded.verify (h : v.Recorded) {now : ℤ} (cred : Cred) (signed : Bool)
    (hnow : v.clock ≤ now) : (v.exec (.verify now cred signed)).Recorded := by
  obtain ⟨hkeeps, hsuccess⟩ := slurmCredVerify_cases v.ctx now cred signed
  by_cases hok : (v.ctx.slurmCredVerify now cred signed).2 = .success
  · obtain ⟨hwindow, hnew, hrecord⟩ := hsuccess hok
    -- Had the credential been accepted before, it would still be on record.
    have hfresh : cred ∉ v.accepted := fun hmem =>
      hnew _ (h.record cred hmem (hnow.trans hwindow)) hwindow rfl
    simp only [exec, newlyAccepted, hok, if_true, singleton_append]
    refine ⟨nodup_cons.2 ⟨hfresh, h.nodup⟩, fun c hc hclock => ?_⟩
    simp only [ctxAfter, hkeeps.window, CredOp.now] at hclock ⊢
    rcases mem_cons.1 hc with rfl | hc
    · exact hrecord
    · exact hkeeps.mem _ (h.record c hc (hnow.trans hclock)) hclock
  · exact h.of_keeps hnow hkeeps (by simp [newlyAccepted, hok])

theorem Recorded.exec (h : v.Recorded) (ho : v.NoLateRestart o) : (v.exec o).Recorded := by
  cases o with
  | verify now cred signed => exact h.verify cred signed ho.1
  | reissue now cred =>
    exact h.of_keeps ho.1 ((sameCreds_slurmCredHandleReissue _ _ _).keeps _) rfl
  | revoke now jobid time startTime =>
    exact h.of_keeps ho.1 ((sameCreds_slurmCredRevoke ..).keeps _) rfl
  | beginExpiration now jobid =>
    exact h.of_keeps ho.1 ((sameCreds_slurmCredBeginExpiration _ _ _).keeps _) rfl
  | restart now => exact h.of_keeps ho.1 (keepsCreds_slurmCredCtxUnpack ho.2) rfl

/-- No credential is accepted twice in a run without a restart in the second in which a credential
    on record expires. -/
theorem accepted_once (ctx : CredCtx) (clock : ℤ) (os : List CredOp)
    (hrun : Run.Admissible exec NoLateRestart ⟨ctx, clock, []⟩ os) :
    Run.Always exec (fun v => v.accepted.Nodup) ⟨ctx, clock, []⟩ os := by
  have hstart : Recorded ⟨ctx, clock, []⟩ := ⟨nodup_nil, by simp⟩
  exact (Run.always_of_invariant (fun v o h ho => h.exec ho) hstart hrun).mono fun v h => h.nodup

/-- A credential is shown three times, with a restart in between. -/
theorem accepted_once_shown_again :
    (Run.run exec ⟨{ expiryWindow := 10 }, 0, []⟩
        [.verify 5 ⟨1, 0, 5⟩ true, .verify 6 ⟨1, 0, 5⟩ true, .restart 14,
          .verify 15 ⟨1, 0, 5⟩ true]).accepted = [⟨1, 0, 5⟩] ∧
      Run.Always exec (fun v => v.accepted.Nodup) ⟨{ expiryWindow := 10 }, 0, []⟩
        [.verify 5 ⟨1, 0, 5⟩ true, .verify 6 ⟨1, 0, 5⟩ true, .restart 14,
          .verify 15 ⟨1, 0, 5⟩ true] :=
  ⟨by decide, accepted_once _ _ _ (by decide)⟩

/-- After a restart in the last second of its window a credential is accepted again, in a run
    whose times are in order. -/
theorem replayed_after_restart :
    Run.Admissible exec (fun v o => v.clock ≤ o.now) ⟨{ expiryWindow := 10 }, 0, []⟩
        [.verify 5 ⟨1, 0, 5⟩ true, .restart 15, .verify 15 ⟨1, 0, 5⟩ true] ∧
      ¬ (Run.run exec ⟨{ expiryWindow := 10 }, 0, []⟩
        [.verify 5 ⟨1, 0, 5⟩ true, .restart 15, .verify 15 ⟨1, 0, 5⟩ true]).accepted.Nodup := by
  decide

end Verifier

end Slurm
