import Slurm.Port.Exact

/-!
# A new range of ports

`reserve_port_config` reads the range of ports from the parameters for MPI. When
the range is a new one, the table is thrown away, and filled again from the job
steps that are in the job list (`makeAllResv`). The job-pack jobs that have
ports are not looked at: what they own is missing from the new table.

So a new range keeps the reservations exactly when no job-pack job has a port of
it on some node (`reservePortConfig_keeps_iff`).
-/

namespace Slurm

open Ctld List PortMgr

/-- The rows of the given ports, those out of the range left out. -/
def PortMgr.rowsOf (m : PortMgr) (ports : List ℕ) : List ℕ :=
  (ports.filter fun p => m.portResvMin ≤ p ∧ p ≤ m.portResvMax).map (· - m.portResvMin)

/-- A clear table for a new range of ports. -/
def PortMgr.newRange (m : PortMgr) (pMin pMax : ℕ) : PortMgr :=
  { m with
    portResvTable := fun _ => ∅
    portResvCnt := pMax - pMin + 1
    portResvMin := pMin
    portResvMax := pMax }

/-- Build the ports of a step from their string (`_rebuild_port_array`). -/
def rebuildPortArray (env : Env) (c : Ctld) (sp : Ptr) : Ctld :=
  let s := c.step sp
  match env.hostlist (['['] ++ s.resvPorts.getD [] ++ [']']) with
  | none => c.setStep sp { s with resvPorts := none }
  | some hosts =>
    let ports := ((hosts.map CString.atoi).filter (0 < ·)).map Int.toNat
    c.setStep sp { s with
      resvPortArray := some ports
      resvPortCnt := ports.length
      resvPorts := if ports.length = 0 then none else s.resvPorts }

/-- Put the reservation of a step into the table (`_make_step_resv`). -/
def makeStepResv (env : Env) (c : Ctld) (sp : Ptr) : Ctld :=
  let s := c.step sp
  if s.resvPortCnt = 0 ∨ s.resvPorts.getD [] = [] then c
  else
    let c := if s.resvPortArray = none then rebuildPortArray env c sp else c
    let s := c.step sp
    c.setPort (c.port.reserve s.stepNodeBitmap
      (c.port.rowsOf ((s.resvPortArray.getD []).take s.resvPortCnt)))

/-- The steps of one job, those below `JOB_RUNNING` left out. -/
def makeStepsResv (env : Env) (c : Ctld) (sps : List Ptr) : Ctld :=
  sps.foldl (fun c sp => if (c.step sp).state = {} then c else makeStepResv env c sp) c

/-- Put the reservations of all steps into the table (`_make_all_resv`). -/
def makeAllResv (env : Env) (c : Ctld) : Ctld :=
  c.jobList.foldl (fun c p => makeStepsResv env c (c.job p).stepList) c

/-- The range a parameter names, after `ports=`; `none` if it is not a valid one. -/
def portRange (s : CStr) : Option (ℕ × ℕ) :=
  let (v, e) := CString.strtol s
  let pMin := CString.toInt v
  if pMin < 1 ∨ e.head? ≠ some '-' then none
  else
    let pMax := CString.toInt (CString.strtol e.tail).1
    if pMax < pMin then none else some (pMin.toNat, pMax.toNat)

/-- Configure the reserved ports (`reserve_port_config`). -/
def reservePortConfig (env : Env) (c : Ctld) (mpiParams : Option CStr) : Rc × Ctld :=
  match mpiParams.bind (CString.strstr · "ports=".toList) with
  | none =>
    -- There is a table when there are rows in it.
    if c.port.portResvCnt = 0 then (.success, c)
    else
      (.success, c.setPort { c.port with
        portResvTable := fun _ => ∅
        portResvCnt := 0
        portResvCntJobpack := 0
        portResvMin := 0
        portResvMax := 0 })
  | some s =>
    match portRange (s.drop 6) with
    | none => (.error, c)
    | some (pMin, pMax) =>
      if pMin = c.port.portResvMin ∧ pMax = c.port.portResvMax then (.success, c)
      else
        (.success, makeAllResv env (c.setPort (c.port.newRange pMin pMax)))

/-! ## Filling the table from the steps -/

/-- The ports of each step are there as an array just if they are there as a string. -/
def Ctld.Named (c : Ctld) : Prop :=
  ∀ sp, (c.step sp).resvPortArray = none ↔ (c.step sp).resvPorts.getD [] = []

/-- The steps are as the manager of the ports leaves them: those with ports are
    in the list of a job, at or past `JOB_RUNNING`, with their ports as a string;
    and none is left whose ports are only a string, to be built from it. -/
structure StepsLive (c : Ctld) : Prop where
  listed : ∀ sp, (c.step sp).resvPortArray ≠ none → ∃ j ∈ c.jobList, sp ∈ (c.job j).stepList
  running : ∀ sp, (c.step sp).resvPortArray ≠ none → (c.step sp).state ≠ {}
  named : c.Named

/-- The rows of the ports of a step. -/
def Ctld.stepRows (c : Ctld) (sp : Ptr) : List ℕ :=
  c.port.rowsOf (((c.step sp).resvPortArray.getD []).take (c.step sp).resvPortCnt)

section

variable {env : Env} {c : Ctld}

theorem PortMgr.mem_rowsOf {m : PortMgr} {ports : List ℕ} {i : ℕ} :
    i ∈ m.rowsOf ports ↔ m.portResvMin + i ∈ ports ∧ m.portResvMin + i ≤ m.portResvMax := by
  simp only [rowsOf, mem_map, mem_filter, decide_eq_true_eq]
  constructor
  · rintro ⟨p, ⟨hp, hmin, hmax⟩, rfl⟩
    rw [Nat.add_sub_cancel' hmin]
    exact ⟨hp, hmax⟩
  · rintro ⟨hp, hmax⟩
    exact ⟨_, ⟨hp, Nat.le_add_right .., hmax⟩, Nat.add_sub_cancel_left ..⟩

/-- A step that is as it should be only adds its nodes to its rows. -/
theorem makeStepResv_eq (hnamed : c.Named) (sp : Ptr) :
    makeStepResv env c sp =
      c.setPort (c.port.reserve (c.step sp).stepNodeBitmap (c.stepRows sp)) := by
  by_cases hskip : (c.step sp).resvPortCnt = 0 ∨ (c.step sp).resvPorts.getD [] = []
  · -- Nothing to reserve: no ports, or none that are named.
    have hrows : c.stepRows sp = [] := by
      rcases hskip with h0 | hempty
      · simp [Ctld.stepRows, PortMgr.rowsOf, h0]
      · simp [Ctld.stepRows, PortMgr.rowsOf, (hnamed sp).2 hempty]
    simp only [makeStepResv, if_pos hskip, hrows, PortMgr.reserve, foldl_nil]
    rfl
  · have hsome : (c.step sp).resvPortArray ≠ none := fun hnone =>
      hskip (.inr ((hnamed sp).1 hnone))
    simp [makeStepResv, hskip, hsome, Ctld.stepRows]

/-- The nodes of the steps in `sps` that are at or past `JOB_RUNNING`, in their rows. -/
def Ctld.InStepRows (c : Ctld) (sps : List Ptr) (i n : ℕ) : Prop :=
  ∃ sp ∈ sps, (c.step sp).state ≠ {} ∧ i ∈ c.stepRows sp ∧ n ∈ (c.step sp).stepNodeBitmap

/-- Filling the table only adds to its rows: the nodes of the given steps. -/
theorem makeStepsResv_eq (env : Env) (hnamed : c.Named) (sps : List Ptr) :
    ∃ m : PortMgr, makeStepsResv env c sps = c.setPort m ∧ SameRange c.port m ∧
      ∀ i n, n ∈ m.portResvTable i ↔ n ∈ c.port.portResvTable i ∨ c.InStepRows sps i n := by
  induction sps generalizing c with
  | nil => exact ⟨c.port, rfl, .refl _, by simp [Ctld.InStepRows]⟩
  | cons sp sps ih =>
    rw [makeStepsResv, foldl_cons]
    by_cases hstate : (c.step sp).state = {}
    · rw [if_pos hstate]
      obtain ⟨m, heq, hrange, hmem⟩ := ih hnamed
      refine ⟨m, heq, hrange, fun i n => (hmem i n).trans (or_congr Iff.rfl ?_)⟩
      simp [Ctld.InStepRows, hstate]
    · rw [if_neg hstate, makeStepResv_eq hnamed]
      obtain ⟨m, heq, hrange, hmem⟩ := ih (c := c.setPort
        (c.port.reserve (c.step sp).stepNodeBitmap (c.stepRows sp))) hnamed
      refine ⟨m, heq, ⟨hrange.cnt, hrange.min, hrange.max⟩, fun i n => (hmem i n).trans ?_⟩
      rw [setPort_port, mem_reserve, or_assoc]
      refine or_congr Iff.rfl ?_
      simp only [Ctld.InStepRows, exists_mem_cons_iff]
      exact or_congr ⟨fun h => ⟨hstate, h⟩, fun h => h.2⟩ Iff.rfl

/-- All steps of all jobs are put into the table, and nothing else. -/
theorem makeAllResv_eq (env : Env) (hnamed : c.Named) :
    ∃ m : PortMgr, makeAllResv env c = c.setPort m ∧ SameRange c.port m ∧
      ∀ i n, n ∈ m.portResvTable i ↔ n ∈ c.port.portResvTable i ∨
        ∃ j ∈ c.jobList, c.InStepRows (c.job j).stepList i n := by
  have key : ∀ (jobs : List Ptr) (c : Ctld), c.Named →
      ∃ m : PortMgr, jobs.foldl (fun c p => makeStepsResv env c (c.job p).stepList) c =
          c.setPort m ∧ SameRange c.port m ∧
        ∀ i n, n ∈ m.portResvTable i ↔ n ∈ c.port.portResvTable i ∨
          ∃ j ∈ jobs, c.InStepRows (c.job j).stepList i n := by
    intro jobs
    induction jobs with
    | nil => exact fun c _ => ⟨c.port, rfl, .refl _, by simp⟩
    | cons j jobs ih =>
      intro c hnamed
      obtain ⟨m, heq, hrange, hmem⟩ := makeStepsResv_eq env hnamed (c.job j).stepList
      obtain ⟨m', heq', hrange', hmem'⟩ := ih (c.setPort m) hnamed
      refine ⟨m', by rw [foldl_cons, heq, heq']; rfl, hrange.trans hrange', fun i n =>
        (hmem' i n).trans ?_⟩
      -- The rows of a step are the same for `m`, which has the same range.
      have hrows : ∀ sps, (c.setPort m).InStepRows sps i n ↔ c.InStepRows sps i n := by
        intro sps
        simp [Ctld.InStepRows, Ctld.stepRows, mem_rowsOf, setPort_port, setPort_step, hrange.min,
          hrange.max]
      simp only [hrows, exists_mem_cons_iff, setPort_port, setPort_job]
      rw [hmem, or_assoc]
  exact key c.jobList c hnamed

end

/-! ## What a new range keeps -/

section

variable {env : Env} {c : Ctld} {l : Ledger Holder (ℕ × ℕ)} {mpi : CStr} {s : CStr}
  {pMin pMax : ℕ}

/-- In the table filled anew, a bit is set when a step has the port and the node. -/
theorem mem_makeAllResv (env : Env) {m : PortMgr} (hr : Refines c l) (hlive : StepsLive c) {i n : ℕ}
    (hm : m.portResvTable i = ∅) (hi : m.portResvMin + i ≤ m.portResvMax) :
    n ∈ (makeAllResv env (c.setPort m)).port.portResvTable i ↔
      ∃ sp, (m.portResvMin + i, n) ∈ l.own (.step sp) := by
  obtain ⟨m', heq, -, hmem⟩ := makeAllResv_eq env (c := c.setPort m) hlive.named
  rw [heq]
  refine (hmem i n).trans ?_
  simp only [setPort_port, setPort_job, setPort_step, setPort_jobList, hm,
    Finset.notMem_empty, false_or, Ctld.InStepRows, Ctld.stepRows, mem_rowsOf, hr.own, Resv.owns,
    Set.mem_ofPred_eq, Ctld.resv]
  constructor
  · rintro ⟨j, -, sp, -, -, ⟨hp, -⟩, hn⟩
    refine ⟨sp, ?_⟩
    cases harr : (c.step sp).resvPortArray with
    | none => simp [harr] at hp
    | some a =>
      rw [harr, Option.getD_some] at hp
      exact ⟨a, rfl, mem_of_mem_take hp, hn⟩
  · rintro ⟨sp, a, harr, hp, hn⟩
    have hne : (c.step sp).resvPortArray ≠ none := by simp [harr]
    obtain ⟨j, hj, hsp⟩ := hlive.listed sp hne
    have hlen : a.length = (c.step sp).resvPortCnt := (hr.array (.step sp) a harr).2
    refine ⟨j, hj, sp, hsp, hlive.running sp hne, ⟨?_, hi⟩, hn⟩
    rwa [harr, Option.getD_some, take_of_length_le hlen.le]

/-- A valid range starts at `1` or later, and is not empty. -/
theorem portRange_le (h : portRange s = some (pMin, pMax)) : 1 ≤ pMin ∧ pMin ≤ pMax := by
  simp only [portRange] at h
  split_ifs at h with h1 h2
  obtain ⟨rfl, rfl⟩ := Prod.mk.inj (Option.some_injective _ h)
  omega

/-- The reservations of `c` are kept in `c'`: of every holder, the nodes are in
    the row of each of its ports that are in the range; and whatever the holders
    do from then on, no two of them have the same port on the same node. -/
def KeepsPorts (env : Env) (c c' : Ctld) : Prop :=
  (∀ h a, (c.resv h).array = some a →
    ∀ p ∈ a, c'.port.portResvMin ≤ p → p ≤ c'.port.portResvMax →
      (c.resv h).nodes ⊆ c'.port.portResvTable (p - c'.port.portResvMin)) ∧
  (∀ os, Run.Admissible (portExec env) PortOp.Ok c' os → ∀ h h', h ≠ h' →
    Disjoint ((Run.run (portExec env) c' os).resv h).owns
      ((Run.run (portExec env) c' os).resv h').owns)

/-- When the table still shows the ledger, the reservations are kept. -/
theorem Refines.keepsPorts {c' : Ctld} (hr : Refines c' l) (hresv : c'.resv = c.resv)
    (hrange : c'.port.portResvMin + c'.port.portResvCnt = c'.port.portResvMax + 1) :
    KeepsPorts env c c' := by
  refine ⟨fun h a ha p hp hmin hmax n hn => ?_, fun os hos h h' hne => ?_⟩
  · rw [hr.table _ (by omega), Nat.add_sub_cancel' hmin, Ledger.mem_owned]
    rw [← hresv] at ha hn
    exact ⟨h, by rw [hr.own]; exact ⟨a, ha, hp, hn⟩⟩
  · obtain ⟨⟨l', hr'⟩, -, -⟩ := refines_run hr hos
    rw [← hr'.own, ← hr'.own]
    exact l'.exclusive hne

/-- The table for a new range keeps the reservations exactly when no job-pack
    job has a port of the range on some node: it is filled from the steps alone. -/
theorem makeAllResv_keeps_iff (env : Env) (hr : Refines c l) (hlive : StepsLive c)
    (hle : pMin ≤ pMax) :
    KeepsPorts env c (makeAllResv env (c.setPort (c.port.newRange pMin pMax))) ↔
      ∀ j a, (c.job j).resvPortArray = some a →
        ∀ p ∈ a, pMin ≤ p → p ≤ pMax → (c.job j).nodeSet = ∅ := by
  obtain ⟨m, heq, hsame, -⟩ :=
    makeAllResv_eq env (c := c.setPort (c.port.newRange pMin pMax)) hlive.named
  have hcnt : m.portResvCnt = pMax - pMin + 1 := hsame.cnt
  have hmin : m.portResvMin = pMin := hsame.min
  have hmax : m.portResvMax = pMax := hsame.max
  have htable : ∀ i n, pMin + i ≤ pMax →
      (n ∈ m.portResvTable i ↔ ∃ sp, (pMin + i, n) ∈ l.own (.step sp)) := by
    intro i n hi
    have := mem_makeAllResv env (m := c.port.newRange pMin pMax) (n := n) hr hlive
      rfl hi
    rwa [heq] at this
  rw [heq]
  constructor
  · rintro ⟨hkeep, -⟩ j a ha p hp hpmin hpmax
    by_contra hne
    obtain ⟨n, hn⟩ := Finset.nonempty_iff_ne_empty.2 hne
    -- The node is in the row of the port, so a step owns what the job owns.
    have hrow := hkeep (.job j) a ha p hp (by rwa [setPort_port, hmin])
      (by rwa [setPort_port, hmax]) hn
    rw [setPort_port, hmin] at hrow
    obtain ⟨sp, hsp⟩ := (htable (p - pMin) n (by omega)).1 hrow
    rw [Nat.add_sub_cancel' hpmin] at hsp
    have hjob : (p, n) ∈ l.own (.job j) := by
      rw [hr.own]
      exact ⟨a, ha, hp, hn⟩
    exact absurd (Ledger.eq_of_mem_own hsp hjob) (by simp)
  · intro hjobs
    have hrange : m.portResvMin + m.portResvCnt = m.portResvMax + 1 := by omega
    refine Refines.keepsPorts ⟨.inr hrange, hr.own, fun i hi n => ?_, hr.array⟩ rfl hrange
    have hi' : pMin + i ≤ pMax := by
      rw [setPort_port, hcnt] at hi
      omega
    rw [setPort_port, hmin, htable i n hi', Ledger.mem_owned]
    refine ⟨fun ⟨sp, hsp⟩ => ⟨_, hsp⟩, fun ⟨h, hx⟩ => ?_⟩
    cases h with
    | step sp => exact ⟨sp, hx⟩
    | job j =>
      rw [hr.own] at hx
      obtain ⟨a, ha, hp, hn⟩ := hx
      have hempty : (c.job j).nodeSet = ∅ := hjobs j a ha _ hp (Nat.le_add_right ..) hi'
      exact absurd (show n ∈ (c.job j).nodeSet from hn) (by simp [hempty])

/-- **What a new range keeps.** When the table matches the holders, and the
    parameters name a valid range, the configuration succeeds; and it keeps the
    reservations exactly when the range is the old one, or no job-pack job has a
    port of the new one on some node. -/
theorem reservePortConfig_keeps_iff (env : Env) (hr : Refines c l) (hlive : StepsLive c)
    (hs : CString.strstr mpi "ports=".toList = some s)
    (hrange : portRange (s.drop 6) = some (pMin, pMax)) :
    (reservePortConfig env c (some mpi)).1 = .success ∧
    (KeepsPorts env c (reservePortConfig env c (some mpi)).2 ↔
      (pMin = c.port.portResvMin ∧ pMax = c.port.portResvMax) ∨
        ∀ j a, (c.job j).resvPortArray = some a →
          ∀ p ∈ a, pMin ≤ p → p ≤ pMax → (c.job j).nodeSet = ∅) := by
  obtain ⟨hpos, hle⟩ := portRange_le hrange
  simp only [reservePortConfig, Option.bind_some, hs, hrange]
  split_ifs with hsame
  · refine ⟨rfl, iff_of_true (hr.keepsPorts rfl ?_) (.inl hsame)⟩
    rcases hr.range with ⟨-, hmin, -⟩ | hcfg
    · omega
    · exact hcfg
  · rw [or_iff_right hsame]
    exact ⟨rfl, makeAllResv_keeps_iff env hr hlive hle⟩

end

/-- A step that wants one port on node `0`, where there are two. -/
def oneStep : Ctld where
  port := { portResvCnt := 2, portResvMin := 10, portResvMax := 11 }
  jobList := [1]
  job _ := { jobId := 1, stepList := [1] }
  step sp :=
    if sp = 1 then { state := ⟨.running, ∅⟩, stepNodeBitmap := {0}, resvPortCnt := 1 } else {}

/-- Port `11` has a name. -/
def namesPort : Env := { rangedPorts := fun _ => "11".toList }

/-- The step has taken port `11`. -/
def stepWithPort : Ctld := portExec namesPort oneStep (.alloc (.step 1))

theorem stepsLive_stepWithPort : StepsLive stepWithPort := by
  have hother {sp : Ptr} (hsp : sp ≠ 1) : stepWithPort.step sp = {} := by
    simp only [stepWithPort, portExec, portAlloc, resvPortAlloc]
    split_ifs <;> simp [oneStep, hsp]
  refine ⟨fun sp h => ?_, fun sp h => ?_, fun sp => ?_⟩
  all_goals
    by_cases hsp : sp = 1
    · subst hsp
      decide
    · simp_all

/-- The new range has port `11` as well, and the step keeps it. -/
theorem reservePortConfig_keeps_stepWithPort :
    let c := (reservePortConfig namesPort stepWithPort (some "ports=11-12".toList)).2
    KeepsPorts namesPort stepWithPort c ∧ c.port.portResvTable 0 = {0} := by
  have h0 : Refines oneStep .empty := by
    refine refines_empty (.inr rfl) (fun _ _ => rfl) fun h => ?_
    cases h with
    | job p => rfl
    | step p => by_cases hp : p = 1 <;> simp [Ctld.resv, oneStep, hp]
  obtain ⟨l, -, hr⟩ := portExec_refines namesPort (o := .alloc (.step 1)) h0 (by decide)
  have hrange : portRange ("ports=11-12".toList.drop 6) = some (11, 12) := by decide
  refine ⟨?_, by decide⟩
  exact (reservePortConfig_keeps_iff namesPort hr stepsLive_stepWithPort
    (s := "ports=11-12".toList) (by decide) hrange).2.2 (.inr fun j a ha => by cases ha)

/-- Two jobs of a job pack that want one port on node `0`, where there are two. -/
def packJobs : Ctld where
  port := { portResvCnt := 2, portResvMin := 10, portResvMax := 11 }
  jobList := [1, 2]
  job p := { jobId := p, packLeader := 1, nodeBitmap := some {0}, resvPortCnt := 1 }

/-- Job `1` has taken port `11`. -/
def jobWithPort : Ctld := portExec {} packJobs (.alloc (.job 1))

theorem refines_jobWithPort : ∃ l, Refines jobWithPort l := by
  have h0 : Refines packJobs .empty :=
    refines_empty (.inr rfl) (fun _ _ => rfl) (fun h => by cases h <;> rfl)
  obtain ⟨l, -, hr⟩ := portExec_refines {} (o := .alloc (.job 1)) h0 ⟨rfl, by decide⟩
  exact ⟨l, hr⟩

theorem stepsLive_jobWithPort : StepsLive jobWithPort :=
  ⟨fun _ h => absurd rfl h, fun _ h => absurd rfl h, fun _ => iff_of_true rfl rfl⟩

/-- Where job `1` has port `11` on node `0`, a new range that still has this port
    loses the reservation, and job `2` is given the same port on the same node. -/
theorem reservePortConfig_loses_jobWithPort :
    let c := (reservePortConfig {} jobWithPort (some "ports=11-11".toList)).2
    (∃ l, Refines jobWithPort l) ∧ StepsLive jobWithPort ∧
      (reservePortConfig {} jobWithPort (some "ports=11-11".toList)).1 = .success ∧
      ¬KeepsPorts {} jobWithPort c ∧
      ((portExec {} c (.alloc (.job 2))).job 1).resvPortArray = some [11] ∧
      ((portExec {} c (.alloc (.job 2))).job 2).resvPortArray = some [11] := by
  refine ⟨refines_jobWithPort, stepsLive_jobWithPort, by decide, fun hkeep => ?_, by decide,
    by decide⟩
  have hrow := hkeep.1 (.job 1) [11] (by decide) 11 (by decide) (by decide) (by decide)
  exact absurd hrow (by decide)

end Slurm
