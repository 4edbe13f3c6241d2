import Slurm.Port.Hold

/-!
# The ports of a job over its life

A job of a job pack that asks for ports gets them when it is allocated or when it is
launched. Who watches the job (`watch`) knows which bits of the table were set on its
behalf, over any sequence of operations on this job and on others (`LifeOp`).

The ports are released at one place only, at the end of a completion. So a job that is
killed, or that fails, keeps its ports (`ports_kept_by_kill`), and so does one that was
moved to other nodes, or was given ports twice. Where none of this happens
(`LifeOp.Returns`), all bits set on behalf of the job are among those that its
completion releases (`Returnable`), and are clear when it has ended
(`ports_returned_at_end`).
-/

namespace Slurm

open Finset Ctld Hold

/-! ## The operations -/

/-- What the scheduler notes in the record of a job, besides what it is allocated. -/
inductive Note
  | mark (k : ℕ) (alloc : Bool)
  | orphaned
  | freeDepends

/-- The record with the note. -/
def Note.apply : Note → JobRecord → JobRecord
  | .mark k alloc => JobRecord.setAlloc k alloc
  | .orphaned => JobRecord.orphaned
  | .freeDepends => JobRecord.freeDepends

/-- What happens in the life of a job: the allocator picks nodes for it (`select_nodes_pack`), the
    job is backed out (`_deallocate_jpck`), something is noted in its record, it gets its ports at
    the launch (`_resv_ports_jobpack`), it completes (`_job_complete`), is killed (`_job_signal` with
    `SIGKILL`), or fails (`job_fail`). -/
inductive LifeOp
  | pick (now : ℤ) (q : Ptr) (testOnly : Bool) (choice : Pick)
  | backOut (now : ℤ) (q : Ptr)
  | note (q : Ptr) (n : Note)
  | launch (q : Ptr)
  | complete (now : ℤ) (jobId uid : ℕ) (requeue nodeFail : Bool) (rc : ℕ)
  | kill (now : ℤ) (q : Ptr) (flags : KillFlags) (uid : ℕ) (preempt : Bool)
  | fail (now : ℤ) (jobId : ℕ) (base : JobBase)

theorem note_holds (c : Ctld) (q : Ptr) (n : Note) : Holds q c (c.modJob q n.apply) ∧
    ((c.modJob q n.apply).job q).jobState = (c.job q).jobState := by
  rw [modJob_job_self]
  cases n with
  | mark k alloc => exact ⟨.modJob fun _ => rfl, rfl⟩
  | orphaned => exact ⟨.modJob fun _ => rfl, rfl⟩
  | freeDepends => exact ⟨.modJob fun _ => rfl, rfl⟩

namespace LifeOp

/-- The state after an operation. -/
def exec (env : Env) (c : Ctld) : LifeOp → Ctld
  | pick now q testOnly choice => (selectNodesPack env now c q testOnly choice).2
  | backOut now q => deallocateJpck now c q
  | note q n => c.modJob q n.apply
  | launch q => resvPortsJobpack env c q
  | complete now jobId uid requeue nodeFail rc =>
    (jobCompleteOne env now c jobId uid requeue nodeFail rc).2
  | kill now q flags uid preempt => (jobSignalPtr env now c q sigKill flags uid preempt).2
  | fail now jobId base => (jobFail env now c jobId base).2

/-- The job that may get ports. -/
def taker : LifeOp → Option Ptr
  | pick _ q _ _ => some q
  | launch q => some q
  | _ => none

/-- What has to hold of an operation on the job `p` for its ports to be returned. A job with ports
    is not moved to other nodes, nor given other ports, and it ends by its completion, while it
    runs. -/
def Returns (p : Ptr) (c : Ctld) : LifeOp → Prop
  | pick _ q testOnly (.grant g) => q = p → testOnly = false →
    ((c.job p).resvPortArray = none ∨ (c.job p).nodeSet ⊆ g.nodes) ∧
      (g.nodes.card % 2 ^ 16 = 0 → g.nodes = ∅)
  | pick _ q testOnly (.hosed _ _ _) => q = p → testOnly = false → (c.job p).resvPortArray = none
  | launch q => q = p → (c.job p).resvPortArray = none ∧ ¬(c.job p).jobState.isFinished ∧
    ((c.job p).nodeCnt.toUInt16 = 0 → (c.job p).nodeSet = ∅)
  | complete _ jobId _ _ _ _ => c.findJobRecord jobId = some p →
    (c.job p).resvPortArray = none ∨ ¬(c.job p).jobState.isPending
  | kill _ q _ _ _ => q = p → (c.job p).resvPortArray = none ∨ (c.job p).jobState.isFinished
  | fail _ jobId _ => c.findJobRecord jobId = some p →
    (c.job p).resvPortArray = none ∨ (c.job p).jobState.isFinished
  | _ => True

end LifeOp

/-- A state of the controller, and the ports and nodes in the table that were set on behalf of a
    job. -/
structure Watched where
  ctld : Ctld
  mine : ℕ → Bitmap

/-- An operation, seen by who watches the job `p`. -/
def watch (env : Env) (p : Ptr) (s : Watched) (op : LifeOp) : Watched :=
  let c := op.exec env s.ctld
  { ctld := c
    mine := fun i => c.port.portResvTable i ∩
      (s.mine i ∪
        if op.taker = some p then c.port.portResvTable i \ s.ctld.port.portResvTable i else ∅) }

/-- The port of row `i` on the node `n` is one that is released with the ports of the job. -/
def Hold.Covers (h : Hold) (m : PortMgr) (i n : ℕ) : Prop :=
  ∃ a, h.array = some a ∧ m.portResvMin + i ∈ a.take h.cnt ∧ i < m.portResvCnt ∧
    n ∈ h.nodeBitmap.getD ∅

/-- All that was set on behalf of the job `p` is released with its ports, and a job that has ended
    has none. -/
structure Returnable (p : Ptr) (s : Watched) : Prop where
  range : s.ctld.port.RangeOk
  covered : ∀ i, ∀ n ∈ s.mine i, (s.ctld.job p).hold.Covers s.ctld.port i n
  named : (s.ctld.job p).resvPortArray ≠ none → (s.ctld.job p).resvPorts ≠ none
  ended : (s.ctld.job p).jobState.isFinished → (s.ctld.job p).resvPortArray = none

namespace Returnable

variable {p : Ptr} {s s' : Watched}

theorem mine_eq_empty (h : Returnable p s) (hnone : (s.ctld.job p).resvPortArray = none) (i : ℕ) :
    s.mine i = ∅ := by
  refine eq_empty_of_forall_notMem fun n hn => ?_
  obtain ⟨a, ha, -⟩ := h.covered i n hn
  simp [JobRecord.hold, hnone] at ha

/-- What the record of the job says of ports is the same. -/
theorem keep (h : Returnable p s) (hrange : SameRange s.ctld.port s'.ctld.port)
    (hhold : (s'.ctld.job p).hold = (s.ctld.job p).hold) (hmine : ∀ i, s'.mine i ⊆ s.mine i)
    (hend : (s'.ctld.job p).jobState.isFinished →
      (s.ctld.job p).jobState.isFinished ∨ (s.ctld.job p).resvPortArray = none) :
    Returnable p s' := by
  have harray : (s'.ctld.job p).resvPortArray = (s.ctld.job p).resvPortArray := congrArg array hhold
  have hnames : (s'.ctld.job p).resvPorts = (s.ctld.job p).resvPorts := congrArg names hhold
  refine ⟨hrange.rangeOk h.range, fun i n hn => ?_, ?_, fun hfin => ?_⟩
  · rw [hhold, Hold.Covers, hrange.min, hrange.cnt]
    exact h.covered i n (hmine i hn)
  · rw [harray, hnames]
    exact h.named
  · rw [harray]
    exact (hend hfin).elim h.ended id

/-- The job has no ports, before and after. -/
theorem of_none (h : Returnable p s) (hrange : SameRange s.ctld.port s'.ctld.port)
    (hnone : (s.ctld.job p).resvPortArray = none) (hnone' : (s'.ctld.job p).resvPortArray = none)
    (hmine : ∀ i, s'.mine i ⊆ s.mine i) : Returnable p s' := by
  refine ⟨hrange.rangeOk h.range, fun i n hn => ?_, fun hne => absurd hnone' hne, fun _ => hnone'⟩
  have hn := hmine i hn
  rw [h.mine_eq_empty hnone i] at hn
  exact absurd hn (notMem_empty n)

end Returnable

section

variable {env : Env} {p q : Ptr} {s : Watched} {op : LifeOp}

/-- Nothing is set on behalf of a job by an operation that is not its own, or sets nothing. -/
theorem watch_mine_subset (h : op.taker = some p →
    ∀ i, (op.exec env s.ctld).port.portResvTable i ⊆ s.ctld.port.portResvTable i) (i : ℕ) :
    (watch env p s op).mine i ⊆ s.mine i := by
  intro n hn
  simp only [watch, mem_inter, mem_union] at hn
  obtain ⟨htable, hmine | hnew⟩ := hn
  · exact hmine
  · split_ifs at hnew with htaker
    · exact absurd (h htaker i htable) (mem_sdiff.1 hnew).2
    · exact absurd hnew (notMem_empty n)

/-- An operation of a job that takes no ports and leaves what records say of them. -/
theorem Returnable.holds (h : Returnable p s) (hholds : Holds q s.ctld (op.exec env s.ctld))
    (htaker : op.taker = none) (hend : q = p → ((op.exec env s.ctld).job p).jobState.isFinished →
      (s.ctld.job p).jobState.isFinished ∨ (s.ctld.job p).resvPortArray = none) :
    Returnable p (watch env p s op) := by
  refine h.keep hholds.range (hholds.hold p)
    (watch_mine_subset fun ht => by simp [htaker] at ht) fun hfin => ?_
  rcases eq_or_ne q p with rfl | hq
  · exact hend rfl hfin
  · rw [watch, hholds.jobState p (Ne.symm hq)] at hfin
    exact .inl hfin

/-- An operation of another job. -/
theorem Returnable.other (h : Returnable p s)
    (hrange : SameRange s.ctld.port (op.exec env s.ctld).port)
    (hjob : (op.exec env s.ctld).job p = s.ctld.job p) (htaker : op.taker ≠ some p) :
    Returnable p (watch env p s op) := by
  refine h.keep hrange ?_ (watch_mine_subset fun ht => absurd ht htaker) fun hfin => .inl ?_
  · rw [watch, hjob]
  · rw [watch, hjob] at hfin
    exact hfin

/-- The job takes ports, while it has none. -/
theorem Returnable.take (h : Returnable p s) {c : Ctld}
    (hport : c.port = s.ctld.port) (hnone : (c.job p).resvPortArray = none)
    (hold : (s.ctld.job p).resvPortArray = none)
    (hfin : ¬(c.job p).jobState.isFinished)
    (hcnt : (c.job p).nodeCnt.toUInt16 = 0 → (c.job p).nodeSet = ∅)
    (hexec : op.exec env s.ctld = resvPortsJobpack env c p) :
    Returnable p (watch env p s op) := by
  obtain ⟨hrange, -, hstate, ⟨htable, hhold⟩ | ⟨rows, names, hhold, htable, hrows⟩⟩ :=
    resvPortsJobpack_cases env c p
  · rw [← hexec, hport] at hrange
    refine h.of_none hrange hold ?_ (watch_mine_subset fun _ i => ?_)
    · rw [watch, hexec]
      exact (congrArg array hhold).trans hnone
    · rw [hexec, htable, hport]
  · have harray : ((resvPortsJobpack env c p).job p).resvPortArray =
        some (rows.map (· + c.port.portResvMin)) := congrArg array hhold
    have hnames : ((resvPortsJobpack env c p).job p).resvPorts = some names :=
      congrArg Hold.names hhold
    refine ⟨?_, fun i n hn => ?_, fun _ => ?_, fun hfin' => ?_⟩
    · rw [watch, hexec]
      exact hrange.rangeOk (hport ▸ h.range)
    · -- What is new in the table are the rows of the job, on its nodes.
      simp only [watch, hexec, mem_inter, mem_union, h.mine_eq_empty hold i,
        notMem_empty, false_or, htable, PortMgr.mem_reserve, hport] at hn
      have hnew : i ∈ rows ∧ n ∈ (c.job p).nodeSet := by
        obtain ⟨hold | hnew, hn⟩ := hn
        · split_ifs at hn
          · exact absurd hold (mem_sdiff.1 hn).2
          · exact absurd hn (notMem_empty n)
        · exact hnew
      have hpos : (c.job p).nodeCnt.toUInt16 ≠ 0 := by
        intro h0
        rw [hcnt h0] at hnew
        exact notMem_empty n hnew.2
      obtain ⟨hlen, hlt⟩ := hrows hpos
      refine ⟨_, by rw [watch, hexec]; exact harray, ?_, ?_, ?_⟩
      · have htake : (rows.map (· + c.port.portResvMin)).take (c.job p).nodeCnt.toUInt16.toNat =
            rows.map (· + c.port.portResvMin) := by
          rw [List.take_of_length_le (by rw [List.length_map, hlen])]
        rw [watch, hexec, hhold, hrange.min]
        simp only [htake, List.mem_map]
        exact ⟨i, hnew.1, Nat.add_comm ..⟩
      · rw [watch, hexec, hrange.cnt]
        exact hlt i hnew.1
      · rw [watch, hexec, hhold]
        exact hnew.2
    · rw [watch, hexec, hnames]
      exact Option.some_ne_none _
    · rw [watch, hexec, hstate] at hfin'
      exact absurd hfin' hfin

theorem resvPortJobpackFree_other (c : Ctld) (hp : p ≠ q) :
    let c' := (resvPortJobpackFree c q).modJob q JobRecord.forgetPorts
    SameRange c.port c'.port ∧ c'.job p = c.job p := by
  have hmod : ((resvPortJobpackFree c q).modJob q JobRecord.forgetPorts).job p =
      (resvPortJobpackFree c q).job p := setJob_job_of_ne _ _ hp
  refine ⟨sameRange_portFree (h := .job q), hmod.trans ?_⟩
  obtain ⟨-, heq⟩ | ⟨ports, -, m, heq, -⟩ := resvPortJobpackFree_cases c q
  · rw [heq]
  · rw [heq]
    exact setJob_job_of_ne _ _ hp

/-- The job releases its ports. -/
theorem Returnable.release (h : Returnable p s) {c : Ctld} (hholds : Holds p s.ctld c)
    (htaker : op.taker = none)
    (hexec : op.exec env s.ctld = (resvPortJobpackFree c p).modJob p JobRecord.forgetPorts) :
    Returnable p (watch env p s op) := by
  have hrange : SameRange c.port (resvPortJobpackFree c p).port := sameRange_portFree (h := .job p)
  have hport : (op.exec env s.ctld).port = (resvPortJobpackFree c p).port := by rw [hexec]; rfl
  have hnone : ((op.exec env s.ctld).job p).resvPortArray = none := by
    rw [hexec, modJob_job_self]
    rfl
  have hsub : ∀ i, (watch env p s op).mine i ⊆ s.mine i :=
    watch_mine_subset fun ht => by simp [htaker] at ht
  have hempty : ∀ i, (watch env p s op).mine i = ∅ := by
    refine fun i => eq_empty_of_forall_notMem fun n hn => ?_
    obtain ⟨a, ha, hrow, hlt, hnode⟩ := h.covered i n (hsub i hn)
    have htable : n ∈ (resvPortJobpackFree c p).port.portResvTable i := by
      rw [← hport]
      exact (mem_inter.1 hn).1
    rw [← hholds.hold] at ha hrow hnode
    obtain ⟨hnone, -⟩ | ⟨ports, hports, m, heq, -, hm, -⟩ := resvPortJobpackFree_cases c p
    · rw [JobRecord.hold, hnone] at ha
      simp at ha
    · obtain rfl : ports = a := Option.some.inj (hports.symm.trans ha)
      have hreleased : n ∈ m.portResvTable i := by
        rw [heq] at htable
        exact htable
      rw [hm, PortMgr.mem_release] at hreleased
      have hmax := h.range.le hlt
      rw [← hholds.range.min] at hrow hmax
      rw [← hholds.range.max] at hmax
      exact hreleased.2 ⟨hnode, hrow, hmax⟩
  refine ⟨?_, fun i n hn => ?_, fun hne => absurd hnone hne, fun _ => hnone⟩
  · have hr := (hholds.range.trans hrange).rangeOk h.range
    rw [← hport] at hr
    exact hr
  · rw [hempty] at hn
    exact absurd hn (notMem_empty n)

/-- The job is started, on nodes that those with its ports are among. -/
theorem Returnable.start (h : Returnable p s) (now : ℤ) {g : Grant}
    (hkeep : (s.ctld.job p).resvPortArray = none ∨ (s.ctld.job p).nodeSet ⊆ g.nodes)
    (hcard : g.nodes.card % 2 ^ 16 = 0 → g.nodes = ∅) :
    Returnable p (watch env p s (.pick now p false (.grant g))) := by
  have hexec : (LifeOp.pick now p false (.grant g)).exec env s.ctld =
      startJob env now s.ctld p g := rfl
  obtain ⟨c, hport, -, hhold, hrun, hcnt, hstart | ⟨hnames, hstart⟩⟩ :=
    startJob_cases env now s.ctld p g
  · have hmine : ∀ i, (watch env p s (.pick now p false (.grant g))).mine i ⊆ s.mine i := by
      refine watch_mine_subset fun _ i => ?_
      rw [hexec, hstart, hport]
    have harray : (c.job p).resvPortArray = (s.ctld.job p).resvPortArray := congrArg array hhold
    have hnames : (c.job p).resvPorts = (s.ctld.job p).resvPorts := congrArg names hhold
    refine ⟨?_, fun i n hn => ?_, ?_, fun hfin => ?_⟩
    · rw [watch, hexec, hstart, hport]
      exact h.range
    · obtain ⟨a, ha, hrow, hlt, hnode⟩ := h.covered i n (hmine i hn)
      rw [watch, hexec, hstart, hhold, hport]
      refine ⟨a, ha, hrow, hlt, ?_⟩
      obtain hnone | hsub := hkeep
      · rw [JobRecord.hold, hnone] at ha
        simp at ha
      · exact hsub hnode
    · rw [watch, hexec, hstart, harray, hnames]
      exact h.named
    · rw [watch, hexec, hstart] at hfin
      exact absurd hrun hfin.2.1
  · have hnone : (s.ctld.job p).resvPortArray = none := by
      by_contra hne
      exact h.named hne hnames
    have hnone' : (c.job p).resvPortArray = none := (congrArg array hhold).trans hnone
    refine h.take hport hnone' hnone (fun hfin => hfin.2.1 hrun) (fun h0 => ?_) (hexec.trans hstart)
    have hzero : g.nodes.card % 2 ^ 16 = 0 := by
      have hnat := congrArg UInt16.toNat h0
      rw [hcnt, UInt32.toNat_toUInt16, UInt32.toNat_ofNat'] at hnat
      exact (Nat.mod_mod_of_dvd _ (by decide)).symm.trans hnat
    have hnodes : (c.job p).nodeBitmap = some g.nodes := congrArg nodeBitmap hhold
    rw [JobRecord.nodeSet, hnodes, hcard hzero]
    rfl

/-- The allocator picks nodes for the job. -/
theorem Returnable.pick (h : Returnable p s) (now : ℤ) (testOnly : Bool) (choice : Pick)
    (hok : (LifeOp.pick now p testOnly choice).Returns p s.ctld) :
    Returnable p (watch env p s (.pick now p testOnly choice)) := by
  have hstay (hexec : (LifeOp.pick now p testOnly choice).exec env s.ctld = s.ctld) :
      Returnable p (watch env p s (.pick now p testOnly choice)) := by
    refine h.keep ?_ ?_ (watch_mine_subset fun _ i => ?_) fun hfin => .inl ?_
    · rw [watch, hexec]
      exact .refl _
    · rw [watch, hexec]
    · rw [hexec]
    · rw [watch, hexec] at hfin
      exact hfin
  cases choice with
  | refuse rc reason =>
    have hholds : Holds p s.ctld (s.ctld.modJob p (JobRecord.refused reason)) := .modJob
    refine h.keep hholds.range (hholds.hold p) (watch_mine_subset fun _ i => subset_rfl)
      fun hfin => .inl ?_
    have hstate : ((s.ctld.modJob p (JobRecord.refused reason)).job p).jobState =
        (s.ctld.job p).jobState := by
      rw [modJob_job_self]
      rfl
    exact hstate ▸ hfin
  | hosed rc g held =>
    cases testOnly with
    | true => exact hstay rfl
    | false =>
      refine h.of_none (.refl _) (hok rfl rfl) ?_ (watch_mine_subset fun _ i => subset_rfl)
      have harray : ((s.ctld.modJob p fun j => (j.placed now g).unplaced held).job p).resvPortArray =
          (s.ctld.job p).resvPortArray := by
        rw [modJob_job_self]
        rfl
      exact harray.trans (hok rfl rfl)
  | grant g =>
    cases testOnly with
    | true => exact hstay rfl
    | false =>
      obtain ⟨hkeep, hcard⟩ := hok rfl rfl
      exact h.start now hkeep hcard

/-- Every operation that meets the condition keeps all that was set on behalf of the job to be
    released with its ports. -/
theorem Returnable.step (h : Returnable p s) (hok : op.Returns p s.ctld) :
    Returnable p (watch env p s op) := by
  cases op with
  | pick now q testOnly choice =>
    rcases eq_or_ne q p with rfl | hq
    · exact h.pick now testOnly choice hok
    · obtain ⟨hrange, hjob⟩ := selectNodesPack_other env now s.ctld testOnly choice (Ne.symm hq)
      exact h.other hrange hjob (by simpa [LifeOp.taker] using hq)
  | backOut now q =>
    refine h.holds (deallocateJpck_holds now s.ctld q) rfl fun hq hfin => ?_
    subst hq
    exact absurd hfin (deallocateJpck_not_finished now s.ctld q)
  | note q n =>
    obtain ⟨hholds, hstate⟩ := note_holds s.ctld q n
    refine h.holds hholds rfl fun hq hfin => .inl ?_
    subst hq
    exact hstate ▸ hfin
  | launch q =>
    rcases eq_or_ne q p with rfl | hq
    · obtain ⟨hnone, hfin, hcnt⟩ := hok rfl
      exact h.take rfl hnone hnone hfin hcnt rfl
    · obtain ⟨hrange, hjob, -⟩ := resvPortsJobpack_cases env s.ctld q
      exact h.other hrange (hjob p (Ne.symm hq)) (by simpa [LifeOp.taker] using hq)
  | complete now jobId uid requeue nodeFail rc =>
    cases hfind : s.ctld.findJobRecord jobId with
    | none =>
      have hsame : (LifeOp.complete now jobId uid requeue nodeFail rc).exec env s.ctld = s.ctld := by
        simp [LifeOp.exec, jobCompleteOne, hfind]
      refine h.other ?_ (by rw [hsame]) (by simp [LifeOp.taker])
      rw [hsame]
      exact .refl _
    | some q =>
      obtain ⟨hholds, hstate⟩ | ⟨c, hholds, hexec⟩ :=
        jobCompleteOne_cases env now s.ctld q uid requeue nodeFail rc hfind
      · refine h.holds hholds rfl fun hq hfin => ?_
        subst hq
        obtain hsame | hpend := hstate
        · exact .inl (hsame ▸ hfin)
        · exact .inr ((hok hfind).resolve_right (not_not.2 hpend))
      · rcases eq_or_ne q p with rfl | hq
        · exact h.release hholds rfl hexec
        · obtain ⟨hrange, hjob⟩ := resvPortJobpackFree_other c (Ne.symm hq)
          have hexec' : (LifeOp.complete now jobId uid requeue nodeFail rc).exec env s.ctld =
              (resvPortJobpackFree c q).modJob q JobRecord.forgetPorts := hexec
          refine h.keep ?_ ?_ (watch_mine_subset fun ht => by simp [LifeOp.taker] at ht)
            fun hfin => .inl ?_
          · rw [watch, hexec']
            exact hholds.range.trans hrange
          · rw [watch, hexec', hjob]
            exact hholds.hold p
          · rw [watch, hexec', hjob, hholds.jobState p (Ne.symm hq)] at hfin
            exact hfin
  | kill now q flags uid preempt =>
    have htouch := jobSignalPtr_touches env now s.ctld q sigKill flags uid preempt
    refine h.holds (htouch.elim (·.holds) (·.holds)) rfl fun hq _ => ?_
    exact (hok hq).symm
  | fail now jobId base =>
    cases hfind : s.ctld.findJobRecord jobId with
    | none =>
      have hsame : (LifeOp.fail now jobId base).exec env s.ctld = s.ctld := by
        simp [LifeOp.exec, jobFail, hfind]
      refine h.other ?_ (by rw [hsame]) (by simp [LifeOp.taker])
      rw [hsame]
      exact .refl _
    | some q =>
      refine h.holds (jobFail_holds env now q jobId base hfind) rfl fun hq _ => ?_
      exact (hok (hq ▸ hfind)).symm

end

/-- In every run whose operations on the job `p` meet the condition, the table has nothing that was
    set on behalf of `p` once `p` has ended. -/
theorem ports_returned_at_end (env : Env) (p : Ptr) (c₀ : Ctld) (ops : List LifeOp)
    (hrange : c₀.port.RangeOk) (hnone : (c₀.job p).resvPortArray = none)
    (hops : Run.Admissible (watch env p) (fun s op => op.Returns p s.ctld) ⟨c₀, fun _ => ∅⟩ ops) :
    let s := Run.run (watch env p) ⟨c₀, fun _ => ∅⟩ ops
    (s.ctld.job p).jobState.isFinished → ∀ i, s.mine i = ∅ := by
  have hstart : Returnable p ⟨c₀, fun _ => ∅⟩ :=
    ⟨hrange, fun i n hn => absurd hn (notMem_empty n), fun hne => absurd hnone hne, fun _ => hnone⟩
  intro s hfin i
  have hend : Returnable p s := Run.invariant_run (fun _ _ h hok => h.step hok) hstart hops
  exact hend.mine_eq_empty (hend.ended hfin) i

/-- One node, and two ports for job 10 of a job pack, which asks for them. -/
def portPack : Ctld where
  job _ := { jobId := 10, packLeader := 11, resvPortFlag := true }
  jobList := [0]
  nodeRecordCount := 1
  port := { portResvCnt := 2, portResvMin := 6000, portResvMax := 6001 }

/-- The job is started on the node, with its ports. -/
def startPortPack : LifeOp := .pick 5 0 false (.grant { nodes := {0} })

theorem ports_returned_at_end_portPack :
    let s := Run.run (watch { prologAlloc := true } 0) ⟨portPack, fun _ => ∅⟩
      [startPortPack, .complete 7 10 0 false false 0]
    (s.ctld.job 0).jobState.isFinished ∧ ∀ i, s.mine i = ∅ := by
  have hfin : ((Run.run (watch { prologAlloc := true } 0) ⟨portPack, fun _ => ∅⟩
      [startPortPack, .complete 7 10 0 false false 0]).ctld.job 0).jobState.isFinished := by decide
  have hops : Run.Admissible (watch { prologAlloc := true } 0) (fun s op => op.Returns 0 s.ctld)
      ⟨portPack, fun _ => ∅⟩ [startPortPack, .complete 7 10 0 false false 0] := by
    refine ⟨fun _ _ => ⟨.inl rfl, by simp⟩, fun _ => .inr (by decide), trivial⟩
  exact ⟨hfin, ports_returned_at_end _ 0 portPack _ (.inr rfl) rfl hops hfin⟩

/-- The job is killed while it runs. Its port stays taken. -/
theorem ports_kept_by_kill :
    let s := Run.run (watch { prologAlloc := true } 0) ⟨portPack, fun _ => ∅⟩
      [startPortPack, .kill 7 0 ∅ 0 false]
    (s.ctld.job 0).jobState = ⟨.cancelled, {.completing}⟩ ∧ (s.ctld.job 0).jobState.isFinished ∧
      0 ∈ s.ctld.port.portResvTable 1 ∧ 0 ∈ s.mine 1 := by
  decide

end Slurm
