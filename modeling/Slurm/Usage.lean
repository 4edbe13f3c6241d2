import Mathlib.Data.UInt
import Slurm.Ctld
import Slurm.Lib.Posting

/-!
# What a job uses

The counters a job is charged to when it starts, and that it gives back when it
ends:

* of the nodes (`make_node_alloc`, `make_node_comp` in `node_mgr.c`);
* of the licenses (`license_job_get`, `license_job_return` in `licenses.c`);
* of its association, the parents of it, and its QOS (`_adjust_limit_usage` in
  `acct_policy.c`): submitted and running jobs, and the trackable resources
  (TRES) of running ones.

All counters have the width they have in C, and wrap around as they do there.
-/

namespace Slurm

open Function Posting List Ctld

/-! ## Nodes -/

/-- Lower a counter, not below zero. -/
def decr (n : UInt16) : UInt16 := if n ≠ 0 then n - 1 else n

/-- The job shares its nodes with no other one. -/
def JobRecord.noShare (j : JobRecord) : Bool := j.details.any (·.shareRes = 0)

/-- A node is allocated to a job that starts (`make_node_alloc`). -/
def makeNodeAlloc (j : JobRecord) (n : NodeRecord) : NodeRecord :=
  { n with
    base := .allocated
    runJobCnt := n.runJobCnt + 1
    noShareJobCnt := if j.noShare then n.noShareJobCnt + 1 else n.noShareJobCnt
    ownerJobCnt := if j.details.any (·.wholeNode = 2) then n.ownerJobCnt + 1 else n.ownerJobCnt
    owner := if j.details.any (·.wholeNode = 2) then j.userId else n.owner }

/-- A node completes a job (`make_node_comp`); `pack` if it is backed out with its
    job pack, and has not run on the node. -/
def makeNodeComp (j : JobRecord) (suspended pack : Bool) (n : NodeRecord) : NodeRecord :=
  let n :=
    if suspended then { n with susJobCnt := decr n.susJobCnt }
    else
      { n with
        runJobCnt := decr n.runJobCnt
        noShareJobCnt := if j.noShare then decr n.noShareJobCnt else n.noShareJobCnt }
  let n :=
    if n.base ≠ .down ∧ !pack then { n with compJobCnt := n.compJobCnt + 1, completing := true }
    else n
  if n.base = .down then n
  else if n.runJobCnt ≠ 0 then { n with base := .allocated }
  else { n with base := .idle }

/-! ## Licenses -/

/-- How much of each configured license is used. -/
abbrev LicenseUsed := CStr → Option UInt32

/-- Take a license, if it is configured. -/
def takeLicense (used : LicenseUsed) (e : LicenseEntry) : LicenseUsed :=
  update used e.name ((used e.name).map (· + e.total))

/-- Return a license, if it is configured; not below zero. -/
def returnLicense (used : LicenseUsed) (e : LicenseEntry) : LicenseUsed :=
  update used e.name
    ((used e.name).map fun u => if u ≥ e.total then u - e.total else 0)

/-- The job takes its licenses (`license_job_get`). -/
def licenseJobGet (c : Ctld) (p : Ptr) : Ctld :=
  let j := c.job p
  { c with licenseUsed := j.licenseList.foldl takeLicense c.licenseUsed }.setJob p
    { j with
      licenseList := j.licenseList.map fun (e : LicenseEntry) =>
        if (c.licenseUsed e.name).isSome then { e with used := e.used + e.total } else e }

/-- The job returns its licenses (`license_job_return`). -/
def licenseJobReturn (c : Ctld) (p : Ptr) : Ctld :=
  let j := c.job p
  { c with licenseUsed := j.licenseList.foldl returnLicense c.licenseUsed }.setJob p
    { j with
      licenseList := j.licenseList.map fun (e : LicenseEntry) =>
        if (c.licenseUsed e.name).isSome then { e with used := 0 } else e }

/-! ## Associations and QOS -/

/-- What the usage is adjusted for (`ACCT_POLICY_*`). -/
inductive PolicyType
  | addSubmit
  | remSubmit
  | jobBegin
  | jobFini
  deriving DecidableEq

/-- Take `x` off a counter that is not zero. -/
def takeOff (n x : UInt32) : UInt32 := if n ≠ 0 then n - x else n

/-- Take the resources of a job off those in use, not below zero. -/
def tresTakeOff (used alloc : ℕ → UInt64) (i : ℕ) : UInt64 :=
  if alloc i > used i then 0 else used i - alloc i

/-- The usage of a user or an account in a QOS. -/
def UsedLimits.adjust (type : PolicyType) (tres : ℕ → UInt64) (jobCnt : UInt32)
    (u : UsedLimits) : UsedLimits :=
  match type with
  | .addSubmit => { u with submitJobs := u.submitJobs + jobCnt }
  | .remSubmit => { u with submitJobs := takeOff u.submitJobs jobCnt }
  | .jobBegin => { u with jobs := u.jobs + 1, tres := fun i => u.tres i + tres i }
  | .jobFini => { u with jobs := takeOff u.jobs 1, tres := tresTakeOff u.tres tres }

/-- The usage of a QOS (`_qos_adjust_limit_usage`). -/
def QosRecord.adjust (type : PolicyType) (j : JobRecord) (acct : Option CStr)
    (runSecs : ℕ → UInt64) (jobCnt : UInt32) (q : QosRecord) : QosRecord :=
  let q :=
    { q with
      userLimit := update q.userLimit j.userId
        ((q.userLimit j.userId).adjust type j.tresAllocCnt jobCnt)
      acctLimit := update q.acctLimit acct
        ((q.acctLimit acct).adjust type j.tresAllocCnt jobCnt) }
  match type with
  | .addSubmit => { q with grpUsedSubmitJobs := q.grpUsedSubmitJobs + jobCnt }
  | .remSubmit => { q with grpUsedSubmitJobs := takeOff q.grpUsedSubmitJobs jobCnt }
  | .jobBegin =>
    { q with
      grpUsedJobs := q.grpUsedJobs + 1
      grpUsedTres := fun i => q.grpUsedTres i + j.tresAllocCnt i
      grpUsedTresRunSecs := fun i => q.grpUsedTresRunSecs i + runSecs i }
  | .jobFini =>
    { q with
      -- A negative number, as an `int32_t`, is set to zero.
      grpUsedJobs := if q.grpUsedJobs - 1 ≥ 2 ^ 31 then 0 else q.grpUsedJobs - 1
      grpUsedTres := tresTakeOff q.grpUsedTres j.tresAllocCnt }

/-- The usage of an association. -/
def AssocRecord.adjust (type : PolicyType) (j : JobRecord) (runSecs : ℕ → UInt64)
    (jobCnt : UInt32) (a : AssocRecord) : AssocRecord :=
  match type with
  | .addSubmit => { a with usedSubmitJobs := a.usedSubmitJobs + jobCnt }
  | .remSubmit => { a with usedSubmitJobs := takeOff a.usedSubmitJobs jobCnt }
  | .jobBegin =>
    { a with
      usedJobs := a.usedJobs + 1
      grpUsedTres := fun i => a.grpUsedTres i + j.tresAllocCnt i
      grpUsedTresRunSecs := fun i => a.grpUsedTresRunSecs i + runSecs i }
  | .jobFini =>
    { a with
      usedJobs := takeOff a.usedJobs 1
      grpUsedTres := tresTakeOff a.grpUsedTres j.tresAllocCnt }

/-- What the lookup of the association of a job finds. -/
def JobRecord.foundAssoc (env : Env) (j : JobRecord) : Option (Option Ptr × ℕ) :=
  env.fillInAssoc j.userId j.account j.partPtr

/-- The association of the job is looked up; the pointer to it is `NULL` if that fails. -/
def JobRecord.lookUpAssoc (env : Env) (j : JobRecord) : JobRecord :=
  { j with
    assocPtr := (j.foundAssoc env).bind (·.1)
    assocId := (j.foundAssoc env).elim j.assocId (·.2) }

/-- The association a job points to is the one it names. -/
def Ctld.knowsAssoc (c : Ctld) (j : JobRecord) : Bool :=
  j.assocPtr.any fun a => (c.assoc a).id = j.assocId ∧ (c.assoc a).uid = j.userId

/-- The association of a job is the one it names (`_valid_job_assoc`); otherwise it
    is looked up again. -/
def validJobAssoc (env : Env) (c : Ctld) (p : Ptr) : Bool × Ctld :=
  if c.knowsAssoc (c.job p) then (true, c)
  else (((c.job p).foundAssoc env).isSome, c.modJob p (JobRecord.lookUpAssoc env))

/-- The QOS of a job and of its partition, the one that counts more first
    (`_set_qos_order`). -/
def setQosOrder (c : Ctld) (j : JobRecord) : List Ptr :=
  match j.qosPtr, j.partPtr.bind fun t => (c.part t).qosPtr with
  | none, none => []
  | some q, none => [q]
  | none, some q => [q]
  | some q, some q' =>
    if q = q' then [q] else if (c.qos q).overPartQos then [q, q'] else [q', q]

/-- The associations a job is charged to: its own, and the parents of it. -/
def Ctld.assocChain (c : Ctld) (j : JobRecord) : List Ptr :=
  match j.assocPtr with
  | none => []
  | some a => a :: (c.assoc a).parents

/-- The QOS that a job is charged to. Without an association they are left alone. -/
def Ctld.qosCharged (c : Ctld) (j : JobRecord) : List Ptr :=
  if j.assocPtr.isSome then setQosOrder c j else []

/-- How many jobs a record is charged for: the tasks of an array count as jobs when they are
    submitted. -/
def JobRecord.usageCnt (type : PolicyType) (j : JobRecord) : UInt32 :=
  match type, j.arrayRecs with
  | .addSubmit, some r | .remSubmit, some r => if r.taskCnt ≠ 0 then UInt32.ofNat r.taskCnt else 1
  | _, _ => 1

/-- Adjust the usage of the associations and QOS of a job. -/
def chargeUsage (type : PolicyType) (c : Ctld) (p : Ptr) : Ctld :=
  let j := c.job p
  let jobCnt := j.usageCnt type
  let runSecs := fun i => j.tresAllocCnt i * (UInt64.ofNat j.timeLimit * 60)
  let acct := j.assocPtr.bind fun a => (c.assoc a).acct
  { c with
    qos := (c.qosCharged j).foldl (fun qos q =>
      update qos q ((qos q).adjust type j acct runSecs jobCnt)) c.qos
    assoc := (c.assocChain j).foldl (fun assoc a =>
      update assoc a ((assoc a).adjust type j runSecs jobCnt)) c.assoc }

/-- Adjust the usage for a job (`_adjust_limit_usage`). -/
def adjustLimitUsage (env : Env) (type : PolicyType) (c : Ctld) (p : Ptr) : Ctld :=
  if !env.enforceLimits then c
  else
    let (valid, c) := validJobAssoc env c p
    if valid then chargeUsage type c p else c

/-- The job is charged for what it has been allocated (`acct_policy_job_begin`). -/
def acctPolicyJobBegin (env : Env) (c : Ctld) (p : Ptr) : Ctld := adjustLimitUsage env .jobBegin c p

/-- `acct_policy_job_fini`: unless it has been done already (`end_time_exp` is `NO_VAL`). -/
def acctPolicyJobFini (env : Env) (c : Ctld) (p : Ptr) : Ctld :=
  if (c.job p).endTimeExp ≠ noVal then adjustLimitUsage env .jobFini c p else c

/-! ## What a job is charged to -/

/-- How much of a license a job asks for. -/
def JobRecord.licenseDemand (j : JobRecord) (name : CStr) : UInt32 :=
  ((j.licenseList.filter (·.name = name)).map (·.total)).sum

/-- The record of a job when its association has been looked up, if that was needed. -/
def Ctld.withAssoc (env : Env) (c : Ctld) (j : JobRecord) : JobRecord :=
  if c.knowsAssoc j then j else j.lookUpAssoc env

/-- The association that the start of a job is charged to, if the limits are enforced. -/
def Ctld.payer (env : Env) (c : Ctld) (j : JobRecord) : Option Ptr :=
  if env.enforceLimits then
    if c.knowsAssoc j then j.assocPtr else (j.foundAssoc env).bind (·.1)
  else none

/-- This association and the parents of it. -/
def Ctld.payers (env : Env) (c : Ctld) (j : JobRecord) : List Ptr :=
  (c.payer env j).elim [] fun a => a :: (c.assoc a).parents

/-- The account of this association. -/
def Ctld.payerAcct (env : Env) (c : Ctld) (j : JobRecord) : Option CStr :=
  (c.payer env j).bind fun a => (c.assoc a).acct

/-- The QOS that the start of a job is charged to. -/
def Ctld.payingQos (env : Env) (c : Ctld) (j : JobRecord) : List Ptr :=
  if (c.payer env j).isSome then setQosOrder c j else []

section

variable (env : Env) (c : Ctld) (p : Ptr)

/-- The use of every license that is configured grows by what the job asks for. -/
theorem licenseJobGet_licenseUsed (name : CStr) :
    (licenseJobGet c p).licenseUsed name =
      (c.licenseUsed name).map (· + (c.job p).licenseDemand name) := by
  have hpost : (licenseJobGet c p).licenseUsed =
      postAll (·.name) (fun e v => v.map (· + e.total)) c.licenseUsed (c.job p).licenseList :=
    rfl
  rw [hpost, postAll_apply, JobRecord.licenseDemand]
  generalize c.licenseUsed name = used
  induction (c.job p).licenseList.filter (·.name = name) generalizing used with
  | nil => simp
  | cons e l ih => simp [ih, comp_def, add_assoc]

/-- A job asks for the same licenses when it has taken them. -/
theorem licenseJobGet_licenseDemand (name : CStr) :
    ((licenseJobGet c p).job p).licenseDemand name = (c.job p).licenseDemand name := by
  simp only [licenseJobGet, setJob_job_self, JobRecord.licenseDemand, filter_map,
    map_map, comp_def, apply_ite LicenseEntry.name, apply_ite LicenseEntry.total,
    ite_self]

theorem withAssoc_assocPtr (j : JobRecord) : (c.withAssoc env j).assocPtr =
    if c.knowsAssoc j then j.assocPtr else (j.foundAssoc env).bind (·.1) := by
  simp only [withAssoc]
  split <;> rfl

theorem setQosOrder_withAssoc (j : JobRecord) :
    setQosOrder c (c.withAssoc env j) = setQosOrder c j := by
  simp only [withAssoc]
  split <;> rfl

theorem validJobAssoc_snd : (validJobAssoc env c p).2 = c.modJob p (c.withAssoc env) := by
  simp only [validJobAssoc, modJob, withAssoc]
  split
  · rw [setJob, update_eq_self]
  · rfl

/-- Without a valid association there is none at all. -/
theorem withAssoc_of_not_valid (h : (validJobAssoc env c p).1 = false) :
    (c.withAssoc env (c.job p)).assocPtr = none := by
  simp only [validJobAssoc] at h
  split at h
  · contradiction
  · next hknow =>
    have hnone : (c.job p).foundAssoc env = none := by simpa using h
    rw [withAssoc_assocPtr, if_neg hknow, hnone, Option.bind_none]

/-- Those who pay for a job are charged for it, whatever it is charged for. -/
theorem adjustLimitUsage_eq (type : PolicyType) : ∃ j runSecs,
    (j = c.job p ∨ j = c.withAssoc env (c.job p)) ∧ adjustLimitUsage env type c p =
      { c.setJob p j with
        assoc := postAll id (fun _ => AssocRecord.adjust type j runSecs (j.usageCnt type))
          c.assoc (c.payers env (c.job p))
        qos := postAll id (fun _ => QosRecord.adjust type j (c.payerAcct env (c.job p))
          runSecs (j.usageCnt type)) c.qos (c.payingQos env (c.job p)) } := by
  simp only [adjustLimitUsage, payers, payingQos, payerAcct]
  cases henf : env.enforceLimits with
  | false =>
    have hpayer : c.payer env (c.job p) = none := by simp [payer, henf]
    refine ⟨c.job p, fun _ => 0, .inl rfl, ?_⟩
    rw [hpayer, setJob, update_eq_self]
    rfl
  | true =>
    have hpayer : c.payer env (c.job p) = (c.withAssoc env (c.job p)).assocPtr := by
      rw [withAssoc_assocPtr, payer, if_pos henf]
    rw [hpayer, validJobAssoc_snd]
    cases hvalid : (validJobAssoc env c p).1 with
    | false =>
      rw [withAssoc_of_not_valid env c p hvalid]
      exact ⟨_, fun _ => 0, .inr rfl, rfl⟩
    | true =>
      refine ⟨_, fun i => (c.withAssoc env (c.job p)).tresAllocCnt i *
        (UInt64.ofNat (c.withAssoc env (c.job p)).timeLimit * 60), .inr rfl, ?_⟩
      simp only [Bool.not_true, Bool.false_eq_true, if_false, if_true, chargeUsage,
        modJob_job_self, assocChain, qosCharged]
      rw [← setQosOrder_withAssoc env c (c.job p)]
      cases (c.withAssoc env (c.job p)).assocPtr <;> rfl

/-- What the start of a job is charged with: those who pay for it get one more job, and its
    resources. -/
theorem acctPolicyJobBegin_eq : ∃ j acct runSecs, (j = c.job p ∨ j = c.withAssoc env (c.job p)) ∧
    acctPolicyJobBegin env c p = { c.setJob p j with
        assoc := postAll id (fun _ => AssocRecord.adjust .jobBegin j runSecs 1)
          c.assoc (c.payers env (c.job p))
        qos := postAll id (fun _ => QosRecord.adjust .jobBegin j acct runSecs 1)
          c.qos (c.payingQos env (c.job p)) } := by
  obtain ⟨j, runSecs, hj, heq⟩ := adjustLimitUsage_eq env c p .jobBegin
  exact ⟨j, _, runSecs, hj, heq⟩

end

/-! ### Who pays does not change -/

/-- The part of a job record that says who pays for it. -/
def JobRecord.billing (j : JobRecord) : JobRecord :=
  { account := j.account, assocId := j.assocId, assocPtr := j.assocPtr, partPtr := j.partPtr
    qosPtr := j.qosPtr, userId := j.userId }

/-- From `c` to `c'` the same associations, partitions and QOS are there, whatever they are
    charged with. -/
structure SameAccounts (c c' : Ctld) : Prop where
  id : ∀ a, (c'.assoc a).id = (c.assoc a).id
  uid : ∀ a, (c'.assoc a).uid = (c.assoc a).uid
  parents : ∀ a, (c'.assoc a).parents = (c.assoc a).parents
  part : c'.part = c.part
  overPartQos : ∀ q, (c'.qos q).overPartQos = (c.qos q).overPartQos

theorem SameAccounts.trans {c c' c'' : Ctld} (h : SameAccounts c c') (h' : SameAccounts c' c'') :
    SameAccounts c c'' where
  id a := (h'.id a).trans (h.id a)
  uid a := (h'.uid a).trans (h.uid a)
  parents a := (h'.parents a).trans (h.parents a)
  part := h'.part.trans h.part
  overPartQos q := (h'.overPartQos q).trans (h.overPartQos q)

section

variable {env : Env} {c c' : Ctld} {j j' : JobRecord}

theorem SameAccounts.payer (h : SameAccounts c c') : c'.payer env j = c.payer env j := by
  have hknow : c'.knowsAssoc j = c.knowsAssoc j := by
    simp [knowsAssoc, h.id, h.uid]
  rw [Ctld.payer, hknow, Ctld.payer]

theorem SameAccounts.payers (h : SameAccounts c c') : c'.payers env j = c.payers env j := by
  simp [Ctld.payers, h.payer, h.parents]

theorem SameAccounts.payingQos (h : SameAccounts c c') :
    c'.payingQos env j = c.payingQos env j := by
  simp [Ctld.payingQos, setQosOrder, h.payer, h.part, h.overPartQos]

/-- The lookup of an association that is not known does not change who pays. -/
theorem payer_withAssoc : c.payer env (c.withAssoc env j) = c.payer env j := by
  by_cases hknow : c.knowsAssoc j
  · rw [withAssoc, if_pos hknow]
  · -- The lookup finds the same again.
    have hwith : c.withAssoc env j = j.lookUpAssoc env := by rw [withAssoc, if_neg hknow]
    simp only [payer, if_neg hknow, hwith]
    split_ifs <;> rfl

end

/-! ### Accounts -/

/-- What a job is charged to: an association, or a QOS. -/
inductive Account
  | assoc (a : Ptr)
  | qos (q : Ptr)
  deriving DecidableEq

/-- How many running jobs an account has. -/
def Ctld.usedJobs (c : Ctld) : Account → UInt32
  | .assoc a => (c.assoc a).usedJobs
  | .qos q => (c.qos q).grpUsedJobs

/-- The trackable resources that the running jobs of an account use. -/
def Ctld.usedTres (c : Ctld) : Account → ℕ → UInt64
  | .assoc a => (c.assoc a).grpUsedTres
  | .qos q => (c.qos q).grpUsedTres

/-- The accounts that the start of a job is charged to. -/
def Ctld.accounts (env : Env) (c : Ctld) (j : JobRecord) : List Account :=
  (c.payers env j).map .assoc ++ (c.payingQos env j).map .qos

section

variable {env : Env} {c c' : Ctld} {j j' : JobRecord}

theorem SameAccounts.accounts (h : SameAccounts c c') : c'.accounts env j = c.accounts env j := by
  rw [Ctld.accounts, h.payers, h.payingQos, Ctld.accounts]

theorem accounts_congr (h : j'.billing = j.billing) : c.accounts env j' = c.accounts env j := by
  have hblank (k : JobRecord) : c.accounts env k = c.accounts env k.billing := rfl
  rw [hblank, h, ← hblank]

theorem accounts_withAssoc : c.accounts env (c.withAssoc env j) = c.accounts env j := by
  rw [accounts, payers, payingQos, payer_withAssoc, setQosOrder_withAssoc]
  rfl

variable (env c) (p : Ptr)

theorem count_accounts_assoc (a : Ptr) :
    (c.accounts env j).count (.assoc a) = (c.payers env j).count a := by
  have hqos : .assoc a ∉ (c.payingQos env j).map Account.qos := by simp
  rw [accounts, count_append, count_eq_zero.2 hqos, add_zero,
    count_map_of_injective _ _ fun _ _ h => by injection h]

theorem count_accounts_qos (q : Ptr) :
    (c.accounts env j).count (.qos q) = (c.payingQos env j).count q := by
  have hassoc : .qos q ∉ (c.payers env j).map Account.assoc := by simp
  rw [accounts, count_append, count_eq_zero.2 hassoc, zero_add,
    count_map_of_injective _ _ fun _ _ h => by injection h]

theorem acctPolicyJobBegin_sameAccounts : SameAccounts c (acctPolicyJobBegin env c p) := by
  obtain ⟨j, acct, runSecs, -, heq⟩ := acctPolicyJobBegin_eq env c p
  rw [heq]
  exact ⟨fun a => postAll_keep _ _ _ fun _ _ => rfl, fun a => postAll_keep _ _ _ fun _ _ => rfl,
    fun a => postAll_keep _ _ _ fun _ _ => rfl, rfl,
    fun q => postAll_keep _ _ _ fun _ _ => rfl⟩

/-- The start of a job counts once in every account it is charged to. -/
theorem acctPolicyJobBegin_usedJobs (a : Account) :
    (acctPolicyJobBegin env c p).usedJobs a =
      c.usedJobs a + (c.accounts env (c.job p)).count a • 1 := by
  obtain ⟨j, acct, runSecs, -, heq⟩ := acctPolicyJobBegin_eq env c p
  rw [heq]
  cases a with
  | assoc a =>
    rw [count_accounts_assoc]
    exact postAll_count (π := AssocRecord.usedJobs) _ _ fun _ => rfl
  | qos q =>
    rw [count_accounts_qos]
    exact postAll_count (π := QosRecord.grpUsedJobs) _ _ fun _ => rfl

/-- The start of a job adds its resources to every account it is charged to. -/
theorem acctPolicyJobBegin_usedTres (a : Account) (i : ℕ) :
    (acctPolicyJobBegin env c p).usedTres a i =
      c.usedTres a i + (c.accounts env (c.job p)).count a • (c.job p).tresAllocCnt i := by
  obtain ⟨j, acct, runSecs, hj, heq⟩ := acctPolicyJobBegin_eq env c p
  have htres : j.tresAllocCnt = (c.job p).tresAllocCnt := by
    rcases hj with rfl | rfl
    · rfl
    · simp only [withAssoc]
      split <;> rfl
  rw [heq, ← htres]
  cases a with
  | assoc a =>
    rw [count_accounts_assoc]
    exact postAll_count (π := fun r : AssocRecord => r.grpUsedTres i) _ _ fun _ => rfl
  | qos q =>
    rw [count_accounts_qos]
    exact postAll_count (π := fun r : QosRecord => r.grpUsedTres i) _ _ fun _ => rfl

end

end Slurm
