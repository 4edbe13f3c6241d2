import Slurm.Lib.FirstMatch
import Mathlib.Data.Int.Basic

/-!
# Job credentials

A job credential is signed by the controller, and shown to the `slurmd` of a node to start the
tasks of a job step. The node accepts it for some time after it was made, and only once. For this
it keeps a list of the credentials it accepted (`stateList`), and a list of the jobs it saw
(`jobList`), with the time up to which the credentials of a job are revoked.

Records that are no longer needed are dropped from the lists as other functions go along, but not
if it was done less than two seconds ago. Both lists are saved when `slurmd` ends and restored when
it starts again (`slurmCredCtxUnpack`).

A function of the source reads the clock when it is called; here the time is its argument.
-/

namespace Slurm

/-- `slurm_cred_t`: what is read of a credential. -/
structure Cred where
  jobid : ℕ
  stepid : ℕ
  ctime : ℤ
  deriving DecidableEq

/-- `MAX_TIME`. -/
def maxTime : ℤ := 0x7fffffff

/-- `cred_state_t`: a credential that was accepted. -/
structure CredState where
  cred : Cred
  expiration : ℤ
  deriving DecidableEq

/-- `job_state_t`: a job, and until when its credentials are revoked. -/
structure CredJobState where
  jobid : ℕ
  revoked : ℤ := 0
  expiration : ℤ := maxTime
  deriving DecidableEq

/-- `slurm_cred_ctx_t`, with the times of the last scans of its lists. -/
structure CredCtx where
  expiryWindow : ℤ
  jobList : List CredJobState := []
  stateList : List CredState := []
  jobScan : ℤ := 0
  credScan : ℤ := 0

/-- What becomes of a credential. -/
inductive CredRc
  | success
  | invalid
  | expired
  | revoked
  | replayed
  deriving DecidableEq

namespace CredCtx

variable (ctx : CredCtx) (now : ℤ) (cred : Cred) (jobid : ℕ)

/-! ## The lists -/

/-- `_find_job_state`. -/
def findJobState : Option CredJobState := ctx.jobList.find? (·.jobid = jobid)

/-- `_insert_job_state`. -/
def insertJobState : CredCtx := { ctx with jobList := ctx.jobList ++ [{ jobid := jobid }] }

/-- A change of the record of a job. -/
def modifyJob (f : CredJobState → CredJobState) : CredCtx :=
  { ctx with jobList := ctx.jobList.modifyFirst (·.jobid = jobid) f }

/-- `_clear_expired_job_states`. -/
def clearExpiredJobStates : CredCtx :=
  if now - ctx.jobScan < 2 then ctx
  else
    { ctx with
      jobScan := now
      jobList := ctx.jobList.filter fun j => ¬ (j.revoked ≠ 0 ∧ j.expiration < now) }

/-- `_clear_expired_credential_states`. -/
def clearExpiredCredentialStates : CredCtx :=
  if now - ctx.credScan < 2 then ctx
  else
    { ctx with
      credScan := now
      stateList := ctx.stateList.filter fun s => ¬ s.expiration < now }

/-- `_insert_cred_state`. -/
def insertCredState : CredCtx :=
  { ctx with stateList := ctx.stateList ++ [⟨cred, cred.ctime + ctx.expiryWindow⟩] }

/-! ## Verification -/

/-- `slurm_cred_handle_reissue`. -/
def slurmCredHandleReissue : CredCtx :=
  match ctx.findJobState cred.jobid with
  | none => ctx
  | some j =>
    if j.revoked ≠ 0 ∧ j.revoked < cred.ctime then
      (ctx.modifyJob cred.jobid fun j => { j with expiration := 0 }).clearExpiredJobStates now
    else ctx

/-- `_credential_revoked`. -/
def credentialRevoked : CredCtx × Bool :=
  let ctx := ctx.clearExpiredJobStates now
  match ctx.findJobState cred.jobid with
  | none => (ctx.insertJobState cred.jobid, false)
  | some j => (ctx, cred.ctime ≤ j.revoked)

/-- `_credential_replayed`. -/
def credentialReplayed : CredCtx × Bool :=
  let ctx := ctx.clearExpiredCredentialStates now
  if ctx.stateList.any (·.cred = cred) then (ctx, true)
  else (ctx.insertCredState cred, false)

/-- `slurm_cred_verify`, for a credential whose signature is valid or is not. -/
def slurmCredVerify (signed : Bool) : CredCtx × CredRc :=
  if signed = false then (ctx, .invalid)
  else if cred.ctime + ctx.expiryWindow < now then (ctx, .expired)
  else
    let ctx := ctx.slurmCredHandleReissue now cred
    let (ctx, revoked) := ctx.credentialRevoked now cred
    if revoked then (ctx, .revoked)
    else
      let (ctx, replayed) := ctx.credentialReplayed now cred
      if replayed then (ctx, .replayed) else (ctx, .success)

/-! ## Revocation -/

/-- `slurm_cred_revoke`, with whether it succeeds. -/
def slurmCredRevoke (time startTime : ℤ) : CredCtx × Bool :=
  let ctx := ctx.clearExpiredJobStates now
  match ctx.findJobState jobid with
  | none => ((ctx.insertJobState jobid).modifyJob jobid fun j => { j with revoked := time }, true)
  | some j =>
    if j.revoked = 0 then (ctx.modifyJob jobid fun j => { j with revoked := time }, true)
    else if startTime ≠ 0 ∧ j.revoked < startTime then
      -- The job was requeued, and has started no tasks since.
      (ctx.modifyJob jobid fun j => { j with revoked := time, expiration := maxTime }, true)
    else (ctx, false)

/-- `slurm_cred_begin_expiration`, with whether it succeeds. -/
def slurmCredBeginExpiration : CredCtx × Bool :=
  let ctx := ctx.clearExpiredJobStates now
  match ctx.findJobState jobid with
  | none => (ctx, false)
  | some j =>
    if j.expiration < maxTime then (ctx, false)
    else
      (ctx.modifyJob jobid fun j => { j with expiration := now + ctx.expiryWindow }, true)

/-! ## Restart -/

/-- `_job_state_unpack_one`. -/
def jobStateUnpackOne (j : CredJobState) : CredJobState :=
  if j.revoked ≠ 0 ∧ j.expiration = maxTime then { j with expiration := j.revoked + 600 } else j

/-- The loop of `_job_state_unpack`, for one record. -/
def jobStateUnpack (j : CredJobState) : Option CredJobState :=
  let j := jobStateUnpackOne j
  if j.revoked = 0 ∨ now < j.expiration then some j else none

/-- The context after a restart: `slurm_cred_ctx_pack`, and `slurm_cred_ctx_unpack` into a fresh
    context of a new process. -/
def slurmCredCtxUnpack : CredCtx where
  expiryWindow := ctx.expiryWindow
  jobList := ctx.jobList.filterMap (jobStateUnpack now)
  stateList := ctx.stateList.filter fun s => now < s.expiration

end CredCtx

/-! ## Runs -/

/-- A call, with the time of it. -/
inductive CredOp
  | verify (now : ℤ) (cred : Cred) (signed : Bool)
  | reissue (now : ℤ) (cred : Cred)
  | revoke (now : ℤ) (jobid : ℕ) (time startTime : ℤ)
  | beginExpiration (now : ℤ) (jobid : ℕ)
  | restart (now : ℤ)

/-- The time of a call. -/
def CredOp.now : CredOp → ℤ
  | .verify now _ _ | .reissue now _ | .revoke now _ _ _ | .beginExpiration now _ | .restart now =>
    now

/-- A node that verifies credentials: its context, the time of the last call, and the credentials
    that it accepted. -/
structure Verifier where
  ctx : CredCtx
  clock : ℤ := 0
  accepted : List Cred := []

namespace Verifier

/-- The context after a call. -/
def ctxAfter (v : Verifier) : CredOp → CredCtx
  | .verify now cred signed => (v.ctx.slurmCredVerify now cred signed).1
  | .reissue now cred => v.ctx.slurmCredHandleReissue now cred
  | .revoke now jobid time startTime => (v.ctx.slurmCredRevoke now jobid time startTime).1
  | .beginExpiration now jobid => (v.ctx.slurmCredBeginExpiration now jobid).1
  | .restart now => v.ctx.slurmCredCtxUnpack now

/-- The credentials that a call accepts. -/
def newlyAccepted (v : Verifier) : CredOp → List Cred
  | .verify now cred signed =>
    if (v.ctx.slurmCredVerify now cred signed).2 = .success then [cred] else []
  | _ => []

/-- What a call does. -/
def exec (v : Verifier) (o : CredOp) : Verifier where
  ctx := v.ctxAfter o
  clock := o.now
  accepted := v.newlyAccepted o ++ v.accepted

end Verifier

end Slurm
