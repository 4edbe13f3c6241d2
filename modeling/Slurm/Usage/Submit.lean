import Slurm.Usage

/-!
# Submitted jobs

A job is charged for when it is submitted, and no more when it has ended
(`acct_policy_add_job_submit`, `acct_policy_remove_job_submit`). The charge goes to
its association and the parents of it, to its QOS, and to the part of the QOS that
its user and its account use. These are the accounts `SubmitAccount`, which are kept
in several tables but are all treated in the same way
(`adjustLimitUsage_submitJobs`).

Who is charged for a job does not depend on when it is asked, as long as no
association changes (`SameTables`): an association that is not known is looked up,
and the lookup finds the same each time (`payer_lookUpAssoc`).
-/

namespace Slurm

open Function List Posting Ctld

/-- What counts submitted jobs: an association, a QOS, and what a user or an account uses of
    a QOS. -/
inductive SubmitAccount
  | assoc (a : Ptr)
  | qos (q : Ptr)
  | user (q : Ptr) (uid : ℕ)
  | acct (q : Ptr) (acct : Option CStr)
  deriving DecidableEq

namespace Ctld

/-- How many submitted jobs an account has. -/
def submitJobs (c : Ctld) : SubmitAccount → UInt32
  | .assoc a => (c.assoc a).usedSubmitJobs
  | .qos q => (c.qos q).grpUsedSubmitJobs
  | .user q uid => ((c.qos q).userLimit uid).submitJobs
  | .acct q acct => ((c.qos q).acctLimit acct).submitJobs

/-- The accounts that a job is charged to when it is submitted. -/
def submitAccounts (env : Env) (c : Ctld) (j : JobRecord) : List SubmitAccount :=
  (c.payers env j).map .assoc ++ ((c.payingQos env j).map .qos ++
    ((c.payingQos env j).map (.user · j.userId) ++
      (c.payingQos env j).map (.acct · (c.payerAcct env j))))

/-- The parents of an association are a chain, and no association has the id zero. -/
structure GoodAssocs (c : Ctld) : Prop where
  chain : ∀ a, (a :: (c.assoc a).parents).Nodup
  id : ∀ a, (c.assoc a).id ≠ 0

end Ctld

/-- How many jobs a record stands for: the tasks of an array that wait in it, or one. -/
def JobRecord.submitCnt (j : JobRecord) : ℕ :=
  match j.arrayRecs with
  | some r => if r.taskCnt ≠ 0 then r.taskCnt else 1
  | none => 1

theorem JobRecord.submitCnt_pos (j : JobRecord) : 0 < j.submitCnt := by
  unfold submitCnt
  split
  · split_ifs <;> omega
  · exact Nat.one_pos

/-! ## The charge -/

/-- What a charge does to a count of submitted jobs. -/
def PolicyType.onSubmit (n : UInt32) : PolicyType → UInt32 → UInt32
  | .addSubmit, u => u + n
  | .remSubmit, u => takeOff u n
  | _, u => u

theorem JobRecord.usageCnt_of_submit (j : JobRecord) {type : PolicyType}
    (h : type = .addSubmit ∨ type = .remSubmit) : j.usageCnt type = UInt32.ofNat j.submitCnt := by
  rcases h with rfl | rfl
  all_goals
    simp only [usageCnt, submitCnt]
    cases j.arrayRecs with
    | none => rfl
    | some r => dsimp only; split_ifs <;> rfl

section

variable (type : PolicyType) (j : JobRecord) (runSecs : ℕ → UInt64) (n : UInt32)

theorem UsedLimits.adjust_submitJobs (tres : ℕ → UInt64) (u : UsedLimits) :
    (u.adjust type tres n).submitJobs = type.onSubmit n u.submitJobs := by
  cases type <;> rfl

variable (acct : Option CStr) (q : QosRecord)

theorem QosRecord.adjust_userLimit : (q.adjust type j acct runSecs n).userLimit =
    update q.userLimit j.userId ((q.userLimit j.userId).adjust type j.tresAllocCnt n) := by
  cases type <;> rfl

theorem QosRecord.adjust_acctLimit : (q.adjust type j acct runSecs n).acctLimit =
    update q.acctLimit acct ((q.acctLimit acct).adjust type j.tresAllocCnt n) := by
  cases type <;> rfl

end

section

variable {env : Env} {c : Ctld} {j : JobRecord}

theorem count_submitAccounts (x : SubmitAccount) : (c.submitAccounts env j).count x =
    ((c.payers env j).map .assoc).count x + (((c.payingQos env j).map .qos).count x +
      (((c.payingQos env j).map (.user · j.userId)).count x +
        ((c.payingQos env j).map (.acct · (c.payerAcct env j))).count x)) := by
  rw [submitAccounts, count_append, count_append, count_append]

theorem count_submitAccounts_assoc (a : Ptr) :
    (c.submitAccounts env j).count (.assoc a) = (c.payers env j).count a := by
  rw [count_submitAccounts, count_map_of_injective _ _ fun _ _ h => by injection h]
  simp [count_eq_zero]

theorem count_submitAccounts_qos (q : Ptr) :
    (c.submitAccounts env j).count (.qos q) = (c.payingQos env j).count q := by
  have hassoc : .qos q ∉ (c.payers env j).map SubmitAccount.assoc := by simp
  rw [count_submitAccounts, count_eq_zero.2 hassoc, zero_add,
    count_map_of_injective _ SubmitAccount.qos fun _ _ h => by injection h]
  simp [count_eq_zero]

theorem count_submitAccounts_user (q : Ptr) (uid : ℕ) :
    (c.submitAccounts env j).count (.user q uid) =
      if uid = j.userId then (c.payingQos env j).count q else 0 := by
  have hassoc : .user q uid ∉ (c.payers env j).map SubmitAccount.assoc := by simp
  have hqos : .user q uid ∉ (c.payingQos env j).map SubmitAccount.qos := by simp
  rw [count_submitAccounts, count_eq_zero.2 hassoc, count_eq_zero.2 hqos, zero_add, zero_add]
  split_ifs with huid
  · rw [huid, count_map_of_injective _ (SubmitAccount.user · j.userId) fun _ _ h => by injection h]
    simp [count_eq_zero]
  · simp [count_eq_zero, Ne.symm huid]

theorem count_submitAccounts_acct (q : Ptr) (acct : Option CStr) :
    (c.submitAccounts env j).count (.acct q acct) =
      if acct = c.payerAcct env j then (c.payingQos env j).count q else 0 := by
  have hassoc : .acct q acct ∉ (c.payers env j).map SubmitAccount.assoc := by simp
  have hqos : .acct q acct ∉ (c.payingQos env j).map SubmitAccount.qos := by simp
  have huser : .acct q acct ∉ (c.payingQos env j).map (SubmitAccount.user · j.userId) := by simp
  rw [count_submitAccounts, count_eq_zero.2 hassoc, count_eq_zero.2 hqos,
    count_eq_zero.2 huser, zero_add, zero_add, zero_add]
  split_ifs with hacct
  · rw [hacct, count_map_of_injective _ (SubmitAccount.acct · (c.payerAcct env j))
      fun _ _ h => by injection h]
  · simp [count_eq_zero, Ne.symm hacct]

theorem setQosOrder_nodup : (setQosOrder c j).Nodup := by
  simp only [setQosOrder]
  split
  · exact .nil
  · exact nodup_singleton _
  · exact nodup_singleton _
  · split_ifs with heq
    · exact nodup_singleton _
    · simpa using heq
    · simpa using Ne.symm heq

/-- A job is charged at most once to an account. -/
theorem submitAccounts_nodup (h : c.GoodAssocs) : (c.submitAccounts env j).Nodup := by
  have hpayers : (c.payers env j).Nodup := by
    rw [payers]
    cases c.payer env j with
    | none => exact .nil
    | some a => exact h.chain a
  have hqos : (c.payingQos env j).Nodup := by
    rw [payingQos]
    split_ifs
    · exact setQosOrder_nodup
    · exact .nil
  rw [nodup_iff_count_le_one]
  intro x
  cases x with
  | assoc a =>
    rw [count_submitAccounts_assoc]
    exact nodup_iff_count_le_one.1 hpayers a
  | qos q =>
    rw [count_submitAccounts_qos]
    exact nodup_iff_count_le_one.1 hqos q
  | user q uid =>
    rw [count_submitAccounts_user]
    split_ifs
    · exact nodup_iff_count_le_one.1 hqos q
    · exact Nat.zero_le 1
  | acct q acct =>
    rw [count_submitAccounts_acct]
    split_ifs
    · exact nodup_iff_count_le_one.1 hqos q
    · exact Nat.zero_le 1

end

section

variable (env : Env) (c : Ctld) (p : Ptr) (type : PolicyType)

theorem iterate_adjust_submitJobs (x : SubmitAccount) : ∃ j : JobRecord,
    j.arrayRecs = (c.job p).arrayRecs ∧ (adjustLimitUsage env type c p).submitJobs x =
      (type.onSubmit (j.usageCnt type))^[(c.submitAccounts env (c.job p)).count x]
        (c.submitJobs x) := by
  obtain ⟨j, runSecs, hj, heq⟩ := adjustLimitUsage_eq env c p type
  have hsame : j.arrayRecs = (c.job p).arrayRecs ∧ j.userId = (c.job p).userId := by
    rcases hj with rfl | rfl
    · exact ⟨rfl, rfl⟩
    · simp only [withAssoc]
      split <;> exact ⟨rfl, rfl⟩
  refine ⟨j, hsame.1, ?_⟩
  rw [heq]
  cases x with
  | assoc a =>
    rw [count_submitAccounts_assoc]
    exact postAll_iterate (π := AssocRecord.usedSubmitJobs) _ _ fun v => by
      cases type <;> rfl
  | qos q =>
    rw [count_submitAccounts_qos]
    exact postAll_iterate (π := QosRecord.grpUsedSubmitJobs) _ _ fun v => by
      cases type <;> rfl
  | user q uid =>
    rw [count_submitAccounts_user, ← hsame.2]
    split_ifs with huid
    · refine postAll_iterate (π := fun r : QosRecord => (r.userLimit uid).submitJobs) _ _
        fun v => ?_
      rw [v.adjust_userLimit, huid, update_self, UsedLimits.adjust_submitJobs]
    · refine postAll_keep (π := fun r : QosRecord => (r.userLimit uid).submitJobs) _ _ _
        fun _ v => ?_
      rw [v.adjust_userLimit, update_of_ne huid]
  | acct q acct =>
    rw [count_submitAccounts_acct]
    split_ifs with hacct
    · refine postAll_iterate (π := fun r : QosRecord => (r.acctLimit acct).submitJobs) _ _
        fun v => ?_
      rw [v.adjust_acctLimit, hacct, update_self, UsedLimits.adjust_submitJobs]
    · refine postAll_keep (π := fun r : QosRecord => (r.acctLimit acct).submitJobs) _ _ _
        fun _ v => ?_
      rw [v.adjust_acctLimit, update_of_ne hacct]

/-- A job is charged to its accounts, and to no others. -/
theorem adjustLimitUsage_submitJobs (h : c.GoodAssocs) (x : SubmitAccount) :
    (adjustLimitUsage env type c p).submitJobs x = if x ∈ c.submitAccounts env (c.job p) then
        type.onSubmit (UInt32.ofNat (c.job p).submitCnt) (c.submitJobs x) else c.submitJobs x := by
  obtain ⟨j, hj, heq⟩ := iterate_adjust_submitJobs env c p type x
  have hcnt : j.submitCnt = (c.job p).submitCnt := by
    simp [JobRecord.submitCnt, hj]
  have hon (u : UInt32) : type.onSubmit (j.usageCnt type) u =
      type.onSubmit (UInt32.ofNat (c.job p).submitCnt) u := by
    cases type
    · rw [j.usageCnt_of_submit (.inl rfl), hcnt]
    · rw [j.usageCnt_of_submit (.inr rfl), hcnt]
    · rfl
    · rfl
  rw [heq]
  split_ifs with hx
  · rw [count_eq_one_of_mem (submitAccounts_nodup h) hx, iterate_one, hon]
  · rw [count_eq_zero.2 hx, iterate_zero_apply]

/-- Nothing but a submission or the end of a job changes how many are submitted. -/
theorem adjustLimitUsage_submitJobs_eq_self (h : type = .jobBegin ∨ type = .jobFini)
    (x : SubmitAccount) : (adjustLimitUsage env type c p).submitJobs x = c.submitJobs x := by
  obtain ⟨j, -, heq⟩ := iterate_adjust_submitJobs env c p type x
  have hid : type.onSubmit (j.usageCnt type) = id := by
    rcases h with rfl | rfl <;> rfl
  rw [heq, hid, iterate_id, id_eq]

end

/-! ## Who is charged -/

/-- From `c` to `c'` the same associations, partitions and QOS are there, with the same
    accounts. -/
structure SameTables (c c' : Ctld) : Prop extends SameAccounts c c' where
  acct : ∀ a, (c'.assoc a).acct = (c.assoc a).acct

namespace SameTables

variable {env : Env} {c c' c'' : Ctld}

theorem ofEq (hassoc : c'.assoc = c.assoc) (hqos : c'.qos = c.qos) (hpart : c'.part = c.part) :
    SameTables c c' := by
  refine ⟨⟨fun a => ?_, fun a => ?_, fun a => ?_, hpart, fun q => ?_⟩, fun a => ?_⟩
  · rw [hassoc]
  · rw [hassoc]
  · rw [hassoc]
  · rw [hqos]
  · rw [hassoc]

theorem trans (h : SameTables c c') (h' : SameTables c' c'') : SameTables c c'' :=
  ⟨h.toSameAccounts.trans h'.toSameAccounts, fun a => (h'.acct a).trans (h.acct a)⟩

theorem submitAccounts (h : SameTables c c') (j : JobRecord) :
    c'.submitAccounts env j = c.submitAccounts env j := by
  have hacct : c'.payerAcct env j = c.payerAcct env j := by
    simp [payerAcct, h.payer, h.acct]
  simp [Ctld.submitAccounts, h.payers, h.payingQos, hacct]

theorem goodAssocs (h : SameTables c c') (hgood : c.GoodAssocs) : c'.GoodAssocs :=
  ⟨fun a => by rw [h.parents]; exact hgood.chain a, fun a => by rw [h.id]; exact hgood.id a⟩

end SameTables

section

variable (env : Env) (c : Ctld) (p : Ptr)

theorem adjustLimitUsage_sameTables (type : PolicyType) :
    SameTables c (adjustLimitUsage env type c p) := by
  obtain ⟨j, runSecs, -, heq⟩ := adjustLimitUsage_eq env c p type
  rw [heq]
  refine ⟨⟨fun a => postAll_keep _ _ _ fun _ v => ?_, fun a => postAll_keep _ _ _ fun _ v => ?_,
    fun a => postAll_keep _ _ _ fun _ v => ?_, rfl,
    fun q => postAll_keep _ _ _ fun _ v => ?_⟩,
    fun a => postAll_keep _ _ _ fun _ v => ?_⟩
  all_goals cases type <;> rfl

theorem adjustLimitUsage_payer (type : PolicyType) :
    (adjustLimitUsage env type c p).payer env ((adjustLimitUsage env type c p).job p) =
      c.payer env (c.job p) := by
  rw [(adjustLimitUsage_sameTables ..).payer]
  obtain ⟨j, runSecs, hj, heq⟩ := adjustLimitUsage_eq env c p type
  have hself : (adjustLimitUsage env type c p).job p = j := by
    rw [heq]
    exact setJob_job_self ..
  rw [hself]
  rcases hj with rfl | rfl
  · rfl
  · exact payer_withAssoc

variable {env c}

/-- Who is charged for a job depends on who pays for it, on its QOS, and on its user. -/
theorem submitAccounts_congr {j j' : JobRecord} (hpayer : c.payer env j' = c.payer env j)
    (hqos : j'.qosPtr = j.qosPtr) (hpart : j'.partPtr = j.partPtr) (huser : j'.userId = j.userId) :
    c.submitAccounts env j' = c.submitAccounts env j := by
  simp [submitAccounts, payers, payingQos, payerAcct, setQosOrder, hpayer, hqos, hpart, huser]

/-- A job without the id of an association does not know its association, and the lookup
    finds the same each time. -/
theorem payer_lookUpAssoc (h : c.GoodAssocs) {j : JobRecord} (hj : j.assocId = 0) :
    c.payer env (j.lookUpAssoc env) = c.payer env j := by
  have hknow : ¬c.knowsAssoc j := by
    rw [knowsAssoc, Option.any_eq_true]
    rintro ⟨a, -, ha⟩
    exact h.id a ((of_decide_eq_true ha).1.trans hj)
  have hwith : c.withAssoc env j = j.lookUpAssoc env := by rw [withAssoc, if_neg hknow]
  rw [← hwith, payer_withAssoc]

end

end Slurm
