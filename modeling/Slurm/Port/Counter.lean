import Slurm.Port.Exact

/-!
# The counter of job-pack ports

`port_resv_cnt_jobpack` is meant to count the ports job-pack jobs have: a step
may only take what they leave (`resvPortAlloc`). It is raised before a
reservation is known to succeed, and set to zero, not lowered, by a release.

So it drifts from the number of ports that are held (`heldPorts`): after a
reservation that finds too few free ports, and after a release while other jobs
still have ports (`counter_drifts`). Where neither happens, it is exact
(`portResvCntJobpack_eq_heldPorts`). As it does not know on which nodes the ports
are held, it also keeps steps from ports that are free (`portsServed_iff`).
-/

namespace Slurm

open CString List Ctld

namespace Ctld

/-- The job has reserved ports. -/
def holdsPorts (c : Ctld) (p : Ptr) : Bool := (c.job p).resvPortArray.isSome

/-- The number of ports the jobs have. -/
def heldPorts (c : Ctld) : ℕ :=
  ((c.jobList.filter c.holdsPorts).map fun p => (c.job p).resvPortCnt).sum

end Ctld

/-- The operations over which the counter stays exact: a job reserves only while
    it has no ports, wants more than there are at all, or no more than are free
    on its nodes, where the sum of what is held is an `int`; and it releases its ports
    when no other job has any. -/
def PortOp.CounterOk (c : Ctld) : PortOp → Prop
  | .alloc (.job p) => p ∈ c.jobList ∧ (c.job p).resvPortArray = none ∧
      (c.port.portResvCnt < (c.job p).resvPortCnt ∨
        (c.job p).resvPortCnt ≤ (c.port.freeRows (c.job p).nodeSet).length ∧
          c.heldPorts + (c.job p).resvPortCnt < 2 ^ 31)
  | .free (.job p) => (c.job p).resvPortArray = none ∨
      ∀ q ∈ c.jobList, q ≠ p → (c.job q).resvPortArray ≠ none → (c.job q).resvPortCnt = 0
  | .rebind (.job p) _ _ => (c.job p).resvPortArray = none
  | .alloc (.step _) | .free (.step _) | .rebind (.step _) _ _ => True

/-! ## The ports a job adds to the sum -/

namespace Ctld

variable {c c' : Ctld} {p : Ptr}

/-- What a job adds to the number of held ports. -/
def portShare (c : Ctld) (p : Ptr) : ℕ := if c.holdsPorts p then (c.job p).resvPortCnt else 0

theorem heldPorts_eq_sum (c : Ctld) : c.heldPorts = (c.jobList.map c.portShare).sum := by
  unfold heldPorts
  induction c.jobList with
  | nil => rfl
  | cons p l ih =>
    rw [filter_cons, map_cons, sum_cons, ← ih]
    by_cases h : c.holdsPorts p = true
    · rw [if_pos h, map_cons, sum_cons, portShare, if_pos h]
    · rw [if_neg h, portShare, if_neg h, Nat.zero_add]

theorem portShare_congr (h : c'.job p = c.job p) : c'.portShare p = c.portShare p := by
  unfold portShare holdsPorts
  rw [h]

/-- When one job changes, the sum changes by its share. -/
theorem heldPorts_add_share (c c' : Ctld) (p : Ptr) (hlist : c'.jobList = c.jobList)
    (hnodup : c.jobList.Nodup)
    (hp : p ∈ c.jobList) (hother : ∀ q ≠ p, c'.job q = c.job q) :
    c'.heldPorts + c.portShare p = c.heldPorts + c'.portShare p := by
  have herase : ∀ q ∈ c.jobList.erase p, c'.portShare q = c.portShare q := by
    intro q hq
    exact portShare_congr (hother q (hnodup.mem_erase_iff.1 hq).1)
  rw [heldPorts_eq_sum, heldPorts_eq_sum, hlist, ← sum_map_erase c'.portShare hp,
    ← sum_map_erase c.portShare hp, map_congr_left herase]
  omega

theorem heldPorts_congr (hlist : c'.jobList = c.jobList) (hjob : c'.job = c.job) :
    c'.heldPorts = c.heldPorts := by
  rw [heldPorts_eq_sum, heldPorts_eq_sum, hlist]
  exact congrArg List.sum (map_congr_left fun p _ => portShare_congr (congrFun hjob p))

theorem portShare_of_none (h : (c.job p).resvPortArray = none) : c.portShare p = 0 := by
  simp [portShare, holdsPorts, h]

end Ctld

/-! ## The counter over a sequence of calls -/

section

variable {env : Env} {c : Ctld} {p : Ptr} {o : PortOp}

/-- The operations of steps do not touch the jobs, nor their counter. -/
theorem portExec_step_frame (env : Env) (c : Ctld) (p : Ptr) :
    o = .alloc (.step p) ∨ o = .free (.step p) ∨ (∃ nodes cnt, o = .rebind (.step p) nodes cnt) →
    (portExec env c o).job = c.job ∧ (portExec env c o).jobList = c.jobList ∧
      (portExec env c o).port.portResvCntJobpack = c.port.portResvCntJobpack := by
  rintro (rfl | rfl | ⟨nodes, cnt, rfl⟩)
  · simp only [portExec, portAlloc, resvPortAlloc]
    split_ifs <;> exact ⟨rfl, rfl, rfl⟩
  · simp only [portExec, portFree, resvPortFree]
    split <;> exact ⟨rfl, rfl, rfl⟩
  · exact ⟨rfl, rfl, rfl⟩

/-- The counter is exact, and only jobs of the list have ports. -/
structure CounterExact (c : Ctld) : Prop where
  nodup : c.jobList.Nodup
  listed : ∀ p, (c.job p).resvPortArray ≠ none → p ∈ c.jobList
  counter : c.port.portResvCntJobpack = c.heldPorts

/-- When neither the jobs nor their counter change, the counter stays exact. -/
theorem CounterExact.stay {c' : Ctld} (hc : CounterExact c) (hjob : c'.job = c.job)
    (hlist : c'.jobList = c.jobList)
    (hcnt : c'.port.portResvCntJobpack = c.port.portResvCntJobpack) : CounterExact c' := by
  refine ⟨by rw [hlist]; exact hc.nodup, by rw [hjob, hlist]; exact hc.listed, ?_⟩
  rw [hcnt, heldPorts_congr hlist hjob, hc.counter]

/-- A reservation that finds what it wants raises the counter by the ports of the job. -/
theorem CounterExact.alloc (hc : CounterExact c) (hp : p ∈ c.jobList)
    (hnone : (c.job p).resvPortArray = none) (hfree : c.port.portResvCnt < (c.job p).resvPortCnt ∨
      (c.job p).resvPortCnt ≤ (c.port.freeRows (c.job p).nodeSet).length ∧
        c.heldPorts + (c.job p).resvPortCnt < 2 ^ 31) :
    CounterExact (resvPortAllocJobpack env c p).2 := by
  obtain hinvalid | ⟨hfree, hsmall⟩ := hfree
  · have heq : resvPortAllocJobpack env c p = (.portsInvalid, c) := if_pos hinvalid
    rwa [heq]
  rcases resvPortAllocJobpack_cases env c p with ⟨-, heq⟩ | ⟨m, -, -, -, -, hshort, hle⟩ |
    ⟨m, heq, hm, -, -, -⟩
  · rwa [heq]
  · -- The search is not short of free rows, so it is not busy.
    have hpos : 0 < (c.job p).resvPortCnt := by omega
    have hlen := c.port.length_identify (c.job p).nodeSet c.port.lastPortAllocJobpack hpos
    omega
  · rw [heq]
    refine ⟨hc.nodup, fun q hq => ?_, ?_⟩
    · by_cases hqp : q = p
      · exact hqp ▸ hp
      · exact hc.listed q (by simpa [hqp] using hq)
    · have hsum := heldPorts_add_share c (resvPortAllocJobpack env c p).2 p
        (by rw [heq]; rfl) hc.nodup hp
        (fun q hq => by rw [heq]; exact setJob_job_of_ne _ _ hq)
      rw [portShare_of_none hnone, heq] at hsum
      simp [Ctld.portShare, Ctld.holdsPorts] at hsum
      refine hm.trans ?_
      rw [hc.counter, toInt_eq (by omega) (by omega)]
      exact_mod_cast hsum.symm

/-- Setting a job without ports anew leaves the counter as it is. -/
theorem CounterExact.rebind (hc : CounterExact c) (hnone : (c.job p).resvPortArray = none)
    (nodes : Bitmap) (cnt : ℕ) : CounterExact (portRebind c nodes cnt (.job p)) := by
  have hother : ∀ q ≠ p, (portRebind c nodes cnt (.job p)).job q = c.job q :=
    fun q hq => setJob_job_of_ne _ _ hq
  have hself : ((portRebind c nodes cnt (.job p)).job p).resvPortArray = none := by
    simp [portRebind, hnone]
  refine ⟨hc.nodup, fun q hq => ?_, ?_⟩
  · by_cases hqp : q = p
    · subst hqp
      exact absurd hself hq
    · exact hc.listed q (by rwa [hother q hqp] at hq)
  · rw [show (portRebind c nodes cnt (.job p)).port = c.port from rfl, hc.counter,
      heldPorts_eq_sum, heldPorts_eq_sum]
    refine congrArg (fun l => ((List.sum l : ℕ) : ℤ)) (map_congr_left fun q _ => ?_)
    by_cases hqp : q = p
    · subst hqp
      rw [portShare_of_none hnone, portShare_of_none hself]
    · rw [portShare_congr (hother q hqp)]

/-- A release of the only ports that are held sets the counter to what is held then. -/
theorem CounterExact.free (hc : CounterExact c) (honly : (c.job p).resvPortArray = none ∨
      ∀ q ∈ c.jobList, q ≠ p → (c.job q).resvPortArray ≠ none → (c.job q).resvPortCnt = 0) :
    CounterExact (resvPortJobpackFree c p) := by
  rcases resvPortJobpackFree_cases c p with ⟨-, heq⟩ | ⟨ports, hsome, m, heq, hm, -⟩
  · rwa [heq]
  rcases honly with hnone | honly
  · simp [hsome] at hnone
  rw [heq]
  refine ⟨hc.nodup, fun q hq => ?_, ?_⟩
  · by_cases hqp : q = p
    · subst hqp
      exact hc.listed q (by simp [hsome])
    · exact hc.listed q (by simpa [hqp] using hq)
  · -- No job has a share left: `p` has no ports, and the others have none in number.
    rw [heldPorts_eq_sum, sum_eq_zero]
    · exact hm.trans Nat.cast_zero.symm
    · intro x hx
      obtain ⟨q, hq, rfl⟩ := mem_map.1 hx
      by_cases hqp : q = p
      · subst hqp
        exact portShare_of_none (by simp)
      · refine (portShare_congr (setJob_job_of_ne _ _ hqp)).trans ?_
        unfold Ctld.portShare
        split_ifs with hholds
        · exact honly q hq hqp (Option.isSome_iff_ne_none.1 hholds)
        · rfl

/-- Every operation that may be made keeps the counter exact. -/
theorem CounterExact.exec (hc : CounterExact c) (ho : o.CounterOk c) :
    CounterExact (portExec env c o) := by
  cases o with
  | alloc h =>
    cases h with
    | step p =>
      obtain ⟨hjob, hlist, hcnt⟩ := portExec_step_frame env c p (.inl rfl)
      exact hc.stay hjob hlist hcnt
    | job p => exact hc.alloc ho.1 ho.2.1 ho.2.2
  | free h =>
    cases h with
    | step p =>
      obtain ⟨hjob, hlist, hcnt⟩ := portExec_step_frame env c p (.inr (.inl rfl))
      exact hc.stay hjob hlist hcnt
    | job p => exact hc.free ho
  | rebind h nodes cnt =>
    cases h with
    | step p =>
      obtain ⟨hjob, hlist, hcnt⟩ := portExec_step_frame env c p (.inr (.inr ⟨nodes, cnt, rfl⟩))
      exact hc.stay hjob hlist hcnt
    | job p => exact hc.rebind ho nodes cnt

/-- **The counter of job-pack ports**, where it is exact: over any sequence of
    calls from a state in which no job has ports and the counter is zero, if no
    reservation is short of free ports and every job that releases ports is the
    only one that has any, the counter is the number of ports that are held. -/
theorem portResvCntJobpack_eq_heldPorts (env : Env) (c : Ctld) (os : List PortOp)
    (hnodup : c.jobList.Nodup) (hnone : ∀ p, (c.job p).resvPortArray = none)
    (hzero : c.port.portResvCntJobpack = 0)
    (hos : Run.Admissible (portExec env) PortOp.CounterOk c os) :
    (Run.run (portExec env) c os).port.portResvCntJobpack =
      (Run.run (portExec env) c os).heldPorts := by
  have h0 : CounterExact c := by
    refine ⟨hnodup, fun p hp => absurd (hnone p) hp, ?_⟩
    rw [hzero, heldPorts_eq_sum, sum_eq_zero, Nat.cast_zero]
    intro x hx
    obtain ⟨p, -, rfl⟩ := mem_map.1 hx
    exact portShare_of_none (hnone p)
  exact (Run.invariant_run (fun _ _ hc ho => hc.exec ho) h0 hos).counter

end

/-- Three jobs, each wanting one port on node `0`, where there are two. -/
def threeJobs : Ctld where
  port := { portResvCnt := 2, portResvMin := 10, portResvMax := 11 }
  jobList := [1, 2, 3]
  job p := { jobId := p, nodeBitmap := some {0}, resvPortCnt := 1 }

theorem portResvCntJobpack_eq_heldPorts_threeJobs :
    (Run.run (portExec {}) threeJobs [.alloc (.job 1), .alloc (.job 2)]).heldPorts = 2 ∧
      (Run.run (portExec {}) threeJobs
        [.alloc (.job 1), .alloc (.job 2)]).port.portResvCntJobpack = 2 :=
  have hheld : (Run.run (portExec {}) threeJobs
      [.alloc (.job 1), .alloc (.job 2)]).heldPorts = 2 := by decide
  ⟨hheld, (portResvCntJobpack_eq_heldPorts {} threeJobs [.alloc (.job 1), .alloc (.job 2)]
    (by decide) (fun _ => rfl) rfl
    ⟨⟨by decide, rfl, .inr (by decide)⟩, ⟨by decide, rfl, .inr (by decide)⟩, trivial⟩).trans
    (congrArg Nat.cast hheld)⟩

/-- The counter drifts: the third job finds no free port, and the counter counts
    it all the same; and when the first job releases its port, the counter
    forgets the one of the second. -/
theorem counter_drifts :
    let busy := Run.run (portExec {}) threeJobs [.alloc (.job 1), .alloc (.job 2), .alloc (.job 3)]
    let freed := Run.run (portExec {}) threeJobs [.alloc (.job 1), .alloc (.job 2), .free (.job 1)]
    (busy.heldPorts = 2 ∧ busy.port.portResvCntJobpack = 3) ∧
      (freed.heldPorts = 1 ∧ freed.port.portResvCntJobpack = 0) := by
  decide

/-! ## Short of ports -/

/-- A step gets its ports if enough rows are free on its nodes. Otherwise the reservation fails,
    and leaves the table and the step as they are. -/
def StepServed (env : Env) (c : Ctld) (p : Ptr) : Prop :=
  let s := c.step p
  let free := (c.port.freeRows s.stepNodeBitmap).length
  let (rc, c') := resvPortAlloc env c p
  (s.resvPortCnt ≤ free → rc = .success) ∧
    (free < s.resvPortCnt → (rc = .portsInvalid ∨ rc = .portsBusy) ∧
      c'.port.portResvTable = c.port.portResvTable ∧ c'.step p = s)

/-- A job of a job pack gets its ports if enough rows are free on its nodes. Otherwise the
    reservation fails, and leaves the table and the job as they are. -/
def JobServed (env : Env) (c : Ctld) (p : Ptr) : Prop :=
  let j := c.job p
  let free := (c.port.freeRows j.nodeSet).length
  let (rc, c') := resvPortAllocJobpack env c p
  (j.resvPortCnt ≤ free → rc = .success) ∧
    (free < j.resvPortCnt → (rc = .portsInvalid ∨ rc = .portsBusy) ∧
      c'.port.portResvTable = c.port.portResvTable ∧ c'.job p = j)

section

variable (env : Env) (c : Ctld) (p : Ptr)

theorem jobServed : JobServed env c p := by
  have hle : (c.port.freeRows (c.job p).nodeSet).length ≤ c.port.portResvCnt := by
    refine (length_filter_le ..).trans ?_
    rw [length_range]
  have hfound := PortMgr.length_identify_lt { c.port with
    portResvCntJobpack := toInt (c.port.portResvCntJobpack + (c.job p).resvPortCnt) }
    (c.job p).nodeSet (c.job p).resvPortCnt c.port.lastPortAllocJobpack
  simp only [JobServed, resvPortAllocJobpack]
  split_ifs with hinvalid hbusy
  · exact ⟨fun hfree => by omega, fun _ => ⟨by simp, rfl, rfl⟩⟩
  · exact ⟨fun hfree => absurd (hfound.1 hbusy) (not_lt.2 hfree), fun _ => ⟨by simp, rfl, rfl⟩⟩
  · exact ⟨fun _ => rfl, fun hfree => absurd (hfound.2 hfree) hbusy⟩

/-- What a step and the job packs want, as an `int`, is not more than there is. -/
def LeavesEnough : Prop :=
  toInt ((c.step p).resvPortCnt + c.port.portResvCntJobpack) ≤ c.port.portResvCnt
  deriving Decidable

theorem stepServed_iff : StepServed env c p ↔
    ((c.step p).resvPortCnt ≤ (c.port.freeRows (c.step p).stepNodeBitmap).length →
      LeavesEnough c p) ∧ (LeavesEnough c p → ¬c.port.seedCursor.overflows) := by
  have hfound := PortMgr.length_identify_lt c.port.seedCursor (c.step p).stepNodeBitmap
    (c.step p).resvPortCnt c.port.seedCursor.lastPortAlloc
  have hseed : c.port.seedCursor.portResvCntJobpack = c.port.portResvCntJobpack ∧
    c.port.seedCursor.portResvCnt = c.port.portResvCnt := ⟨rfl, rfl⟩
  simp only [StepServed, resvPortAlloc, LeavesEnough, hseed.1, hseed.2]
  split_ifs with hcheck hfault hbusy
  · -- The ports of job packs are held against the step, also those on other nodes.
    refine ⟨fun h => ⟨fun hfree => ?_, fun hle => absurd hle (not_le.2 hcheck)⟩,
      fun h => ⟨fun hfree => ?_, fun _ => ⟨by simp, rfl, rfl⟩⟩⟩
    · cases h.1 hfree
    · exact absurd (h.1 hfree) (not_le.2 hcheck)
  · -- There is no return code, whether or not enough rows are free.
    refine iff_of_false (fun h => ?_) fun h => h.2 (not_lt.1 hcheck) hfault
    rcases le_or_gt (c.step p).resvPortCnt
      (c.port.freeRows (c.step p).stepNodeBitmap).length with hfree | hfree
    · cases h.1 hfree
    · rcases (h.2 hfree).1 with hrc | hrc <;> cases hrc
  · refine iff_of_true ⟨fun hfree => ?_, fun _ => ⟨by simp, rfl, rfl⟩⟩
      ⟨fun _ => not_lt.1 hcheck, fun _ => hfault⟩
    exact absurd (hfound.1 hbusy) (not_lt.2 hfree)
  · exact iff_of_true ⟨fun _ => rfl, fun hfree => absurd (hfound.2 hfree) hbusy⟩
      ⟨fun _ => not_lt.1 hcheck, fun _ => hfault⟩

/-- Whatever has happened to the table, the cursors and the counter: steps and jobs get their ports
    exactly if enough are free, as long as a step for which enough are free does not want more than
    the counter of job-pack ports leaves of all, and one that does not want more has a cursor that
    can be moved. -/
theorem portsServed_iff (q : Ptr) : StepServed env c p ∧ JobServed env c q ↔
    ((c.step p).resvPortCnt ≤ (c.port.freeRows (c.step p).stepNodeBitmap).length →
      LeavesEnough c p) ∧ (LeavesEnough c p → ¬c.port.seedCursor.overflows) := by
  rw [stepServed_iff, and_iff_left (jobServed env c q)]

end

/-- Both ports are taken on node `0` by jobs, and a step on node `1` gets none. -/
theorem step_not_served :
    let c := Run.run (portExec {}) { threeJobs with
      step := fun _ => { stepNodeBitmap := {1}, resvPortCnt := 1 } }
      [.alloc (.job 1), .alloc (.job 2)]
    (c.port.freeRows (c.step 4).stepNodeBitmap).length = 2 ∧
      (resvPortAlloc {} c 4).1 = .portsInvalid ∧ ¬StepServed {} c 4 := by
  intro c
  refine ⟨by decide, by decide +kernel, ?_⟩
  rw [stepServed_iff]
  exact fun h => absurd (h.1 (by decide)) (by decide +kernel)

end Slurm
