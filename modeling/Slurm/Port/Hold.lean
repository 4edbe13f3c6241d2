import Slurm.Job.Complete
import Slurm.Pack.Schedule
import Slurm.Port.Exact

/-!
# What records say of reserved ports

The ports of a job-pack job are released by what its record says of them: the ports in
its array, as many as its counter says, on the nodes of its bitmap (`Hold`).

Here is what the functions in the life of a job do to that. Most of them leave it as it
is, in the records of all jobs (`Holds`): those that back a job out, kill it or let it
fail (`deallocateJpck_holds`, `jobSignalPtr_holds`, `jobFail_holds`). A completion does
too, up to the release at its end, which it comes to if the job has run
(`jobCompleteOne_cases`). A start puts other nodes into the record, and may take ports
(`startJob_cases`, `resvPortsJobpack_cases`).
-/

namespace Slurm

open JobRecord Ctld

/-! ## What a record says of ports -/

/-- What the record of a job says of its ports, with the nodes they are on. -/
structure Hold where
  nodeBitmap : Option Bitmap
  cnt : ℕ
  array : Option (List ℕ)
  names : Option CStr

/-- What the record says of the ports of the job. -/
def JobRecord.hold (j : JobRecord) : Hold :=
  ⟨j.nodeBitmap, j.resvPortCnt, j.resvPortArray, j.resvPorts⟩

/-- From `c` to `c'` no record says anything else of ports, and no job but `q` changes its state. -/
structure Holds (q : Ptr) (c c' : Ctld) : Prop where
  range : SameRange c.port c'.port
  hold : ∀ p, (c'.job p).hold = (c.job p).hold
  jobState : ∀ p, p ≠ q → (c'.job p).jobState = (c.job p).jobState

namespace Holds

variable {q : Ptr} {c c' c'' : Ctld}

theorem refl (q : Ptr) (c : Ctld) : Holds q c c := ⟨.refl _, fun _ => rfl, fun _ _ => rfl⟩

theorem trans (h : Holds q c c') (h' : Holds q c' c'') : Holds q c c'' :=
  ⟨h.range.trans h'.range, fun p => (h'.hold p).trans (h.hold p),
    fun p hp => (h'.jobState p hp).trans (h.jobState p hp)⟩

theorem setJob {j : JobRecord} (h : j.hold = (c.job q).hold) : Holds q c (c.setJob q j) := by
  refine ⟨.refl _, fun p => ?_, fun p hp => by rw [c.setJob_job_of_ne j hp]⟩
  rcases eq_or_ne p q with rfl | hp
  · rw [setJob_job_self, h]
  · rw [c.setJob_job_of_ne j hp]

theorem modJob {f : JobRecord → JobRecord} (h : ∀ j, (f j).hold = j.hold := by intro; rfl) :
    Holds q c (c.modJob q f) := setJob (h _)

/-- A change outside of the jobs and the ports. -/
theorem ofJobEq (hjob : c'.job = c.job) (hport : c'.port = c.port) : Holds q c c' := by
  refine ⟨?_, fun p => by rw [hjob], fun p _ => by rw [hjob]⟩
  rw [hport]
  exact .refl _

end Holds

variable {q : Ptr} {c c' : Ctld}

theorem Alters.holds (h : Alters q c c') : Holds q c c' := by
  refine ⟨h.range, fun p => ?_, fun p hp => by rw [h.job p hp]⟩
  rcases eq_or_ne p q with rfl | hp
  · exact of_part hold h.identity
  · rw [h.job p hp]

theorem Logged.holds (h : Logged q c c') : Holds q c c' := by
  refine ⟨h.range, fun p => of_part hold (h.identity_all p), fun p hp => ?_⟩
  by_cases hb : c.baseOf q = some p
  · obtain ⟨r, hr, -⟩ := h.base p hp hb
    rw [hr]
  · rw [h.other p hp hb]

section

variable (env : Env) (now : ℤ) (c : Ctld) (q : Ptr)

theorem deallocateJpck_holds : Holds q c (deallocateJpck now c q) := by
  have hback : Holds q c (c.modJob q backedOut) := .modJob
  simp only [deallocateJpck]
  generalize c.modJob q backedOut = c1 at hback ⊢
  have hreturn : Holds q c1 (c1.returnNodes now (c1.job q) (c1.job q).nodeSet) := .ofJobEq rfl rfl
  split_ifs
  · exact hback
  · exact hback.trans (hreturn.trans (.modJob))

theorem deallocateNodes_holds (suspended : Bool) (hcg : (c.job q).nodeBitmapCg ≠ none) :
    Holds q c (deallocateNodes env now c q suspended) :=
  (deallocateNodes_alters env now q suspended hcg).holds

theorem buildCgBitmap_holds : Holds q c (c.modJob q buildCgBitmap) := by
  refine .modJob fun j => ?_
  obtain ⟨s, hs, -⟩ := j.buildCgBitmap_cases
  rw [hs]
  rfl

theorem buildCgBitmap_ne_none : ((c.modJob q buildCgBitmap).job q).nodeBitmapCg ≠ none := by
  obtain ⟨s, hs, -⟩ := (c.job q).buildCgBitmap_cases
  rw [modJob_job_self, hs]
  exact Option.some_ne_none _

/-- What follows on the change of the record of a job that ends. -/
theorem logged_deallocated_holds {f : JobRecord → JobRecord} (hf : ∀ j, (f j).hold = j.hold)
    (suspended nodes : Bool) :
    let c₁ := jobCompletionLogger env (c.modJob q f) q
    Holds q c (if nodes then
        (Rc.success, deallocateNodes env now (c₁.modJob q buildCgBitmap) q suspended)
      else (.success, c₁)).2 := by
  intro c₁
  have hlog : Holds q c c₁ :=
    (Holds.modJob hf).trans (jobCompletionLogger_logged env (c.modJob q f) q).holds
  generalize c₁ = c2 at hlog ⊢
  have hbuild := buildCgBitmap_holds c2 q
  have hne := buildCgBitmap_ne_none c2 q
  generalize c2.modJob q buildCgBitmap = c3 at hbuild hne ⊢
  split_ifs
  · exact hlog.trans (hbuild.trans (deallocateNodes_holds env now c3 q suspended hne))
  · exact hlog

theorem jobFail_holds (jobId : ℕ) (base : JobBase) {c : Ctld}
    (hfind : c.findJobRecord jobId = some q) : Holds q c (jobFail env now c jobId base).2 := by
  have hupdate : Holds q c { c with lastJobUpdate := now } := .ofJobEq rfl rfl
  simp only [jobFail, hfind]
  by_cases hfin : (c.job q).jobState.isFinished
  · rw [if_pos hfin]
    exact .refl q c
  rw [if_neg hfin]
  split
  · refine hupdate.trans (logged_deallocated_holds env now _ q ?_ _ _)
    intro j
    rfl
  · exact .refl q c

/-! ### The completion -/

theorem endJob_holds (uid rc : ℕ) (nodeFail suspended : Bool) (comp : Finset JobFlag) :
    Holds q c (endJob env now c q uid rc nodeFail suspended comp) := by
  have hstate : Holds q c (c.modJob q
      (endState now uid (c.overTimeLimit env (c.job q)) rc nodeFail comp)) := by
    refine .modJob fun j => ?_
    simp only [endState]
    split_ifs <;> rfl
  simp only [endJob]
  generalize c.modJob q
    (endState now uid (c.overTimeLimit env (c.job q)) rc nodeFail comp) = c1 at hstate ⊢
  have htime : Holds q c1 (c1.modJob q (setEndTime now suspended)) := by
    refine .modJob fun j => ?_
    simp only [setEndTime]
    split_ifs <;> rfl
  exact hstate.trans (htime.trans (jobCompletionLogger_logged ..).holds)

theorem requeueBatch_holds (comp : Finset JobFlag) :
    Holds q c (requeueBatch env now c q comp) := by
  simp only [requeueBatch]
  have hlog : Holds q c (jobCompletionLogger env (c.modJob q (logAsNodeFail now)) q) :=
    (Holds.modJob).trans (jobCompletionLogger_logged ..).holds
  generalize jobCompletionLogger env (c.modJob q (logAsNodeFail now)) q = c1 at hlog ⊢
  have hrequeue : Holds q c1 (c1.modJob q (requeueAfter (c1.usesCloud (c1.job q)) comp)) := .modJob
  generalize c1.modJob q (requeueAfter (c1.usesCloud (c1.job q)) comp) = c2 at hrequeue ⊢
  have husage := (adjustLimitUsage_bookkeeping env c2 q .addSubmit).alters.holds
  have hhold : Holds q (adjustLimitUsage env .addSubmit c2 q)
      ((adjustLimitUsage env .addSubmit c2 q).modJob q holdMaxRequeue) := by
    refine .modJob fun j => ?_
    simp only [holdMaxRequeue]
    split_ifs <;> rfl
  exact hlog.trans (hrequeue.trans (husage.trans hhold))

/-- A completion of a job that has run ends with the release of its ports. Another one leaves what
    the records say of ports. -/
theorem releaseEnded_cases (suspended : Bool) (comp : Finset JobFlag) :
    (comp = ∅ ∧ Holds q c (releaseEnded env now c q suspended comp) ∧
      ((releaseEnded env now c q suspended comp).job q).jobState = (c.job q).jobState) ∨
    ∃ c₁, Holds q c c₁ ∧ releaseEnded env now c q suspended comp =
        (resvPortJobpackFree c₁ q).modJob q forgetPorts := by
  have hupdate : Holds q c { c with lastJobUpdate := now } := .ofJobEq rfl rfl
  have hactive : Holds q c (Ctld.modJob { c with lastJobUpdate := now } q (activeAt now)) :=
    hupdate.trans (.modJob)
  have hstate : ((Ctld.modJob { c with lastJobUpdate := now } q (activeAt now)).job
      q).jobState = (c.job q).jobState := by
    rw [modJob_job_self]
    rfl
  simp only [releaseEnded]
  split_ifs with hcomp
  · exact .inl ⟨hcomp, hactive, hstate⟩
  · refine .inr ⟨_, hactive.trans ((buildCgBitmap_holds _ q).trans ?_), rfl⟩
    exact deallocateNodes_holds env now _ q _ (buildCgBitmap_ne_none _ q)

/-- What a completion does: it ends with the release of the ports of the job, or it does not end
    a job, unless one that has not run. -/
theorem completeLive_cases (uid : ℕ) (requeue nodeFail : Bool) (rc : ℕ)
    (hfin : ¬(c.job q).jobState.isFinished) :
    (Holds q c (completeLive env now c q uid requeue nodeFail rc).2 ∧
      (c.job q).jobState.isPending) ∨ ∃ c₁, Holds q c c₁ ∧
      (completeLive env now c q uid requeue nodeFail rc).2 =
        (resvPortJobpackFree c₁ q).modJob q forgetPorts := by
  have hpend : (c.job q).compFlag = ∅ → (c.job q).jobState.isPending := by
    intro hcomp
    by_contra hpend
    have hrun : (c.job q).jobState.isRunning ∨ (c.job q).jobState.isSuspended := by
      by_contra hrun
      exact hfin ⟨hpend, fun h => hrun (.inl h), fun h => hrun (.inr h)⟩
    simp [compFlag, hrun] at hcomp
  have hstart : Holds q c (if (c.job q).jobState.isPending then
      c.modJob q (startedAt now) else c) := by
    split_ifs
    · exact .modJob
    · exact .refl q c
  have hrelease : ∀ c₁, Holds q c c₁ → ∀ suspended,
      (Holds q c (releaseEnded env now c₁ q suspended (c.job q).compFlag) ∧
        (c.job q).jobState.isPending) ∨
      ∃ c2, Holds q c c2 ∧ releaseEnded env now c₁ q suspended (c.job q).compFlag =
        (resvPortJobpackFree c2 q).modJob q forgetPorts := by
    intro c₁ h1 suspended
    obtain ⟨hcomp, hkeep, -⟩ | ⟨c2, h2, heq⟩ := releaseEnded_cases env now c₁ q suspended
      (c.job q).compFlag
    · exact .inl ⟨h1.trans hkeep, hpend hcomp⟩
    · exact .inr ⟨c2, h1.trans h2, heq⟩
  simp only [completeLive]
  generalize (if (c.job q).jobState.isPending then c.modJob q (startedAt now) else c) = c₁
    at hstart ⊢
  by_cases hreq : requeue ∧ (c.job q).isBatch
  · rw [if_pos hreq]
    exact hrelease _ (hstart.trans (requeueBatch_holds ..)) _
  rw [if_neg hreq]
  by_cases hlate : (c.job q).jobState.isPending ∧ (c.job q).isBatch
  · rw [if_pos hlate]
    exact .inl ⟨hstart, hlate.1⟩
  rw [if_neg hlate]
  exact hrelease _ (hstart.trans (endJob_holds env now c₁ q ..)) _

/-- The completion of a job: it ends with the release of its ports; or the state of the job is
    left as it is, unless it has not run. -/
theorem jobCompleteOne_cases {jobId : ℕ} (uid : ℕ) (requeue nodeFail : Bool) (rc : ℕ)
    (hfind : c.findJobRecord jobId = some q) :
    let c' := (jobCompleteOne env now c jobId uid requeue nodeFail rc).2
    (Holds q c c' ∧
      ((c'.job q).jobState = (c.job q).jobState ∨ (c.job q).jobState.isPending)) ∨
    ∃ c₁, Holds q c c₁ ∧ c' = (resvPortJobpackFree c₁ q).modJob q forgetPorts := by
  simp only [jobCompleteOne, hfind]
  by_cases hfin : (c.job q).jobState.isFinished
  · rw [if_pos hfin]
    dsimp only
    refine .inl ⟨.modJob ?_, .inl ?_⟩
    · intro j
      rfl
    · rw [modJob_job_self]
  split_ifs
  · exact .inl ⟨.refl q c, .inl rfl⟩
  · exact .inl ⟨.refl q c, .inl rfl⟩
  · obtain ⟨hkeep, hpend⟩ | h := completeLive_cases env now c q uid requeue nodeFail rc hfin
    · exact .inl ⟨hkeep, .inr hpend⟩
    · exact .inr h

/-! ### The start -/

end

/-- From `c` to `c'` only the record of `q` changes, and in what it says of ports neither. -/
structure Places (q : Ptr) (c c' : Ctld) : Prop where
  port : c'.port = c.port
  job : ∀ p, p ≠ q → c'.job p = c.job p
  hold : (c'.job q).hold = (c.job q).hold

theorem Places.trans {c'' : Ctld} (h : Places q c c') (h' : Places q c' c'') :
    Places q c c'' :=
  ⟨h'.port.trans h.port, fun p hp => (h'.job p hp).trans (h.job p hp), h'.hold.trans h.hold⟩

theorem Places.modJob {f : JobRecord → JobRecord}
    (h : ∀ j, (f j).hold = j.hold := by intro; rfl) : Places q c (c.modJob q f) :=
  ⟨rfl, fun p hp => c.setJob_job_of_ne _ hp, by rw [modJob_job_self, h]⟩

section

variable (env : Env) (now : ℤ) (c : Ctld) (q : Ptr)

/-- A job begins on its nodes. -/
theorem beginJob_spec (g : Grant) :
    let c' := beginJob env now c q g
    Places q c c' ∧ (c'.job q).jobState.isRunning ∧
      (c'.job q).nodeCnt = UInt32.ofNat g.nodes.card := by
  have halloc : Places q c (allocateNodes now c q) := by
    refine ⟨rfl, fun p hp => setJob_job_of_ne _ _ hp, ?_⟩
    rw [allocateNodes, licenseJobGet, setJob_job_self]
    rfl
  simp only [beginJob]
  generalize allocateNodes now c q = c1 at halloc ⊢
  have hbegun : Places q c1 (c1.modJob q (begun g)) := .modJob
  have hcnt : ((c1.modJob q (begun g)).job q).nodeCnt = UInt32.ofNat g.nodes.card := by
    rw [modJob_job_self]
    rfl
  generalize c1.modJob q (begun g) = c2 at hbegun hcnt ⊢
  obtain ⟨hacct, hcnt3⟩ : Places q c2 (acctPolicyJobBegin env c2 q) ∧
      ((acctPolicyJobBegin env c2 q).job q).nodeCnt = (c2.job q).nodeCnt := by
    obtain ⟨j, acct, runSecs, hj, heq⟩ := acctPolicyJobBegin_eq env c2 q
    have hsame : j.hold = (c2.job q).hold ∧ j.nodeCnt = (c2.job q).nodeCnt := by
      rcases hj with rfl | rfl
      · exact ⟨rfl, rfl⟩
      · simp only [Ctld.withAssoc]
        split <;> exact ⟨rfl, rfl⟩
    have hjob : (acctPolicyJobBegin env c2 q).job = (c2.setJob q j).job := by rw [heq]
    refine ⟨⟨by rw [heq]; rfl, fun p hp => ?_, ?_⟩, ?_⟩
    · rw [hjob, setJob_job_of_ne _ _ hp]
    · rw [hjob, setJob_job_self, hsame.1]
    · rw [hjob, setJob_job_self, hsame.2]
  generalize acctPolicyJobBegin env c2 q = c3 at hacct hcnt3 ⊢
  have hready : Places q c3 (c3.modJob q (readied g)) := .modJob
  refine ⟨halloc.trans (hbegun.trans (hacct.trans hready)), ?_, ?_⟩
  · rw [modJob_job_self]
    rfl
  · rw [modJob_job_self, ← hcnt, ← hcnt3]
    rfl

/-- The ports a job gets: none, and then the table is left as it is; or rows of the table on its
    nodes. -/
theorem resvPortsJobpack_cases :
    let c' := resvPortsJobpack env c q
    let h := (c.job q).hold
    SameRange c.port c'.port ∧ (∀ p, p ≠ q → c'.job p = c.job p) ∧
    (c'.job q).jobState = (c.job q).jobState ∧
    ((c'.port.portResvTable = c.port.portResvTable ∧
        (c'.job q).hold = { h with cnt := (c.job q).nodeCnt.toUInt16.toNat }) ∨
      ∃ rows names,
        (c'.job q).hold = { h with
          cnt := (c.job q).nodeCnt.toUInt16.toNat
          array := some (rows.map (· + c.port.portResvMin))
          names := some names } ∧
        c'.port.portResvTable = (c.port.reserve (c.job q).nodeSet rows).portResvTable ∧
        ((c.job q).nodeCnt.toUInt16 ≠ 0 → rows.length = (c.job q).nodeCnt.toUInt16.toNat ∧
          ∀ i ∈ rows, i < c.port.portResvCnt)) := by
  have hother : ∀ p, p ≠ q → (c.modJob q wantPorts).job p = c.job p :=
    fun p hp => setJob_job_of_ne _ _ hp
  have hself : (c.modJob q wantPorts).job q = (c.job q).wantPorts := modJob_job_self ..
  have hport : (c.modJob q wantPorts).port = c.port := rfl
  simp only [resvPortsJobpack]
  generalize c.modJob q wantPorts = c1 at hother hself hport ⊢
  have hhold : (c1.job q).hold = { (c.job q).hold with cnt := (c.job q).nodeCnt.toUInt16.toNat } := by
    rw [hself]
    rfl
  have hstate : (c1.job q).jobState = (c.job q).jobState := by
    rw [hself]
    rfl
  obtain ⟨-, heq⟩ | ⟨m, heq, -, htable, hrange, -⟩ | ⟨m, heq, -, htable, hrange, hlen⟩ :=
    resvPortAllocJobpack_cases env c1 q
  · rw [heq, ← hport]
    exact ⟨.refl _, hother, hstate, .inl ⟨rfl, hhold⟩⟩
  · rw [heq, ← hport]
    exact ⟨hrange, hother, hstate, .inl ⟨htable, hhold⟩⟩
  · have hspec (hpos : 0 < (c1.job q).resvPortCnt) :=
      And.intro (c1.port.length_identify (c1.job q).nodeSet c1.port.lastPortAllocJobpack hpos)
        (c1.port.identify_spec (c1.job q).nodeSet c1.port.lastPortAllocJobpack hpos).2
    generalize (c1.port.identify (c1.job q).nodeSet (c1.job q).resvPortCnt
      c1.port.lastPortAllocJobpack).1 = rows at heq htable hlen hspec
    have hcnt : (c1.job q).resvPortCnt = (c.job q).nodeCnt.toUInt16.toNat := congrArg Hold.cnt hhold
    have hnodes : (c1.job q).nodeSet = (c.job q).nodeSet := by
      rw [hself]
      rfl
    rw [heq, ← hport]
    refine ⟨hrange, fun p hp => ?_, ?_,
      .inr ⟨rows, env.rangedPorts (rows.map (· + c1.port.portResvMin)), ?_, ?_, fun hpos => ?_⟩⟩
    · exact (setJob_job_of_ne _ _ hp).trans (hother p hp)
    · rw [setJob_job_self]
      exact hstate
    · rw [setJob_job_self, hold, hcnt]
      congr 1
      exact congrArg Hold.nodeBitmap hhold
    · rw [← hnodes]
      exact htable
    · have hpos' : 0 < (c.job q).nodeCnt.toUInt16.toNat :=
        Nat.pos_of_ne_zero fun h => hpos (UInt16.toNat_inj.1 h)
      rw [hcnt] at hspec hlen
      obtain ⟨hmin, hrows⟩ := hspec hpos'
      exact ⟨by omega, fun i hi => (hrows i hi).1⟩

theorem startJob_cases (g : Grant) :
    ∃ c₁, c₁.port = c.port ∧ (∀ p, p ≠ q → c₁.job p = c.job p) ∧
      (c₁.job q).hold = { (c.job q).hold with nodeBitmap := some g.nodes } ∧
      (c₁.job q).jobState.isRunning ∧ (c₁.job q).nodeCnt = UInt32.ofNat g.nodes.card ∧
      (startJob env now c q g = c₁ ∨
        ((c.job q).resvPorts = none ∧ startJob env now c q g = resvPortsJobpack env c₁ q)) := by
  simp only [startJob]
  generalize hc1 : (c.modJob q fun j => (j.placed now g).assigned g) = c₁
  have hother (p : Ptr) (hp : p ≠ q) : c₁.job p = c.job p := hc1 ▸ setJob_job_of_ne _ _ hp
  have hself : (c₁.job q).hold = { (c.job q).hold with nodeBitmap := some g.nodes } := by
    rw [← hc1, modJob_job_self]
    rfl
  have hport : c₁.port = c.port := hc1 ▸ rfl
  obtain ⟨hplaces, hrun, hcnt⟩ := beginJob_spec env now c₁ q g
  generalize beginJob env now c₁ q g = c2 at hplaces hrun hcnt ⊢
  refine ⟨c2, hplaces.port.trans hport, fun p hp => (hplaces.job p hp).trans (hother p hp),
    hplaces.hold.trans hself, hrun, hcnt, ?_⟩
  split_ifs with hports
  · have hnames : (c2.job q).resvPorts = (c.job q).resvPorts :=
      congrArg Hold.names (hplaces.hold.trans hself)
    exact .inr ⟨hnames ▸ hports.2.2.2, rfl⟩
  · exact .inl rfl

end

section

variable (env : Env) (now : ℤ) (c : Ctld) {p q : Ptr}

/-- The allocation of a job changes no record of another one. -/
theorem selectNodesPack_other (testOnly : Bool) (choice : Pick) (hp : p ≠ q) :
    let c' := (selectNodesPack env now c q testOnly choice).2
    SameRange c.port c'.port ∧ c'.job p = c.job p := by
  have hmod (f : JobRecord → JobRecord) : (c.modJob q f).job p = c.job p := setJob_job_of_ne _ _ hp
  cases choice with
  | refuse rc reason => exact ⟨.refl _, hmod _⟩
  | hosed rc g held =>
    cases testOnly with
    | true => exact ⟨.refl _, rfl⟩
    | false => exact ⟨.refl _, hmod fun j => (j.placed now g).unplaced held⟩
  | grant g =>
    cases testOnly with
    | true => exact ⟨.refl _, rfl⟩
    | false =>
      have hstart' : (selectNodesPack env now c q false (.grant g)).2 = startJob env now c q g := rfl
      obtain ⟨c1, hport, hjob, -, -, -, hstart | ⟨-, hstart⟩⟩ := startJob_cases env now c q g
      · rw [hstart', hstart]
        exact ⟨hport ▸ .refl _, hjob p hp⟩
      · obtain ⟨hrange, hother, -⟩ := resvPortsJobpack_cases env c1 q
        rw [hport] at hrange
        rw [hstart', hstart]
        exact ⟨hrange, (hother p hp).trans (hjob p hp)⟩

theorem deallocateJpck_not_finished (q : Ptr) :
    ¬((deallocateJpck now c q).job q).jobState.isFinished := by
  have hpend : ((deallocateJpck now c q).job q).jobState = {} := by
    simp only [deallocateJpck]
    split_ifs
    · rw [modJob_job_self]
      rfl
    · simp only [Ctld.returnNodes, modJob_job_self]
      rfl
  rw [hpend]
  exact fun h => h.1 rfl

end

end Slurm
