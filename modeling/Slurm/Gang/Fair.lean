import Mathlib.Data.Finset.Max
import Slurm.Gang.Exclusive

/-!
# Every job gets its turn

In a partition on which no shadows fall, every job runs in one of any `n` time slices that
follow each other, where `n` is the number of its jobs (`Gang.gang_fair`). After a slice in which
the jobs took turns, the first of the list runs, so that it goes to the back in the next
one: a job that waits is nearer to the front each time (`Gang.idxOf_nextJobList`).

A slice in which the jobs do not take turns is one in which all of them run. This needs that
`jobsActive` is the number of jobs that run. It is, in partitions above which there are no jobs
(`Gang.Top`), and a partition without shadows is such a one: of the partitions with
jobs, one with the highest priority has a job that runs after every slice, and casts a shadow.
-/

namespace Slurm

open List

namespace Gang

variable {m : CoreMap} {g g' h h' : Gang} {p q j k : Ptr} {order done : List Ptr}

/-- There are no jobs in the partitions of a higher priority. -/
def Top (g : Gang) (q : Ptr) : Prop :=
  ∀ r ∈ g.gsPartList, (g.part q).priority < (g.part r).priority → (g.part r).jobList = []

/-- The jobs of `p` that run. -/
def running (g : Gang) (p : Ptr) : List Ptr :=
  (g.part p).jobList.filter fun j => (g.job j).sigState = .resume

/-- The row is as long as the list of the jobs that run. -/
def Counted (g : Gang) (p : Ptr) : Prop := (g.part p).jobsActive = (g.running p).length

theorem Top.shadow (ht : Top g q) (hs : Sound g) (hq : q ∈ g.gsPartList) :
    (g.part q).shadow = [] := by
  rw [eq_nil_iff_forall_not_mem]
  intro j hj
  obtain ⟨r, hr, hlt, hjr, -⟩ := (hs.shadowed q hq j).1 hj
  rw [ht r hr hlt] at hjr
  exact not_mem_nil hjr

/-- What `Top` and `Counted` depend on. -/
theorem Top.congr (ht : Top g q) (hl : g'.gsPartList.Perm g.gsPartList)
    (hp : ∀ r, (g'.part r).priority = (g.part r).priority)
    (hj : ∀ r ∈ g.gsPartList, (g.part r).jobList = [] → (g'.part r).jobList = []) : Top g' q := by
  intro r hr hlt
  rw [hp, hp] at hlt
  have hr' := hl.mem_iff.1 hr
  exact hj r hr' (ht r hr' hlt)

theorem Counted.congr (hc : Counted g q) (hl : (g'.part q).lit = (g.part q).lit)
    (hj : ∀ j ∈ (g.part q).jobList, g'.job j = g.job j) : Counted g' q := by
  have hrun : g'.running q = g.running q := by
    rw [running, running, of_lit (·.jobList) hl]
    exact filter_congr fun j hjm => by rw [hj j hjm]
  rw [Counted, of_lit (·.jobsActive) hl, hrun]
  exact hc

/-- A row that is filled, and has no shadows in it, is as long as it should be. -/
theorem Filled.counted (hf : Filled m g q) (hs : Sound g) (hq : q ∈ g.gsPartList)
    (hsh : (g.part q).shadow = []) : Counted g q := by
  rcases hf.packed with ⟨hnil, hzero⟩ | ⟨placed, hpk, hfull⟩
  · rw [Counted, running, hzero, hnil]
    rfl
  · rw [Counted, hpk.count]
    refine List.Perm.length_eq ((perm_ext_iff_of_nodup hpk.nodup
      ((hs.jobs q hq).filter _)).2 fun j => ?_)
    rw [mem_filter, decide_eq_true_iff]
    constructor
    · intro hj
      obtain ⟨hjl, hrow⟩ := (hpk.member j hj).resolve_left fun h => by simp [hsh] at h
      exact ⟨hjl, (hf.rowed j hjl).1 hrow⟩
    · rintro ⟨hjl, hsig⟩
      exact hfull j hjl ((hf.rowed j hjl).2 hsig)

theorem counted_lasting : Lasting fun h q => Top h q → Counted h q := by
  intro h h' p q hs hp hq hne hle ht hc htop
  have htop' : Top h q := by
    refine htop.congr (by rw [ht.gsPartList]) (fun r => (ht.priorities r).symm) fun r _ hr => ?_
    have hperm := ht.jobLists r
    rw [hr] at hperm
    exact hperm.nil_eq.symm
  exact (hc htop').congr (ht.other q hne) fun j hj => ht.job_other hs hp hq hne hj

/-! ## What holds while jobs start and take turns -/

/-- All jobs have a priority, and rows on which no shadows can fall have the right length. -/
structure Fit (g : Gang) : Prop where
  steady : Steady g
  priority : ∀ p ∈ g.gsPartList, ∀ j ∈ (g.part p).jobList, (g.job j).priority ≠ 0
  counted : ∀ q ∈ g.gsPartList, Top g q → Counted g q

/-- The priorities of jobs outlast a round. -/
theorem Frame.priority_ne (hf : Frame done g h)
    (hp : ∀ p ∈ g.gsPartList, ∀ j ∈ (g.part p).jobList, (g.job j).priority ≠ 0) :
    ∀ p ∈ h.gsPartList, ∀ j ∈ (h.part p).jobList, (h.job j).priority ≠ 0 := by
  intro p hpl j hj
  rw [of_fixed (·.priority) (hf.fixed j)]
  exact hp p (hf.gsPartList ▸ hpl) j ((hf.jobLists p).mem_iff.1 hj)

theorem updateAllActiveRows_fit (hs : Steady g) (ho : g.Ordered order)
    (hp : ∀ p ∈ g.gsPartList, ∀ j ∈ (g.part p).jobList, (g.job j).priority ≠ 0) :
    Fit (g.updateAllActiveRows m order) := by
  obtain ⟨hf, hst, hc⟩ : Frame order.reverse { g with gsPartList := order }
      (g.updateAllActiveRows m order) ∧ Steady (g.updateAllActiveRows m order) ∧
      ∀ q ∈ order, Top (g.updateAllActiveRows m order) q →
        Counted (g.updateAllActiveRows m order) q := by
    refine round_turns counted_lasting hs ho fun h done _ hst p hp _ => ?_
    obtain ⟨ht, -, hfill⟩ := updateActiveRow_filled hst.sound hp (hst.rowed p hp) true
    have hp' := ht.gsPartList ▸ hp
    exact ⟨ht, hfill.rowed, fun htop =>
      hfill.counted ht.sound hp' (htop.shadow ht.sound hp')⟩
  refine ⟨hst, hf.priority_ne fun p hpl => hp p (ho.perm.mem_iff.1 hpl), fun q hq => hc q ?_⟩
  rw [hf.gsPartList] at hq
  exact hq

section

variable {job : GangJob} (hs : Steady g) (hp : p ∈ g.gsPartList)

include hs hp

/-- The old record of a job, if there is one, goes, and the row of the partition is filled anew. -/
theorem cleared_cases :
    g.cleared m p job = g ∨ ∃ g₁, Steady g₁ ∧ g₁.job = g.job ∧ g₁.gsPartList = g.gsPartList ∧
      (∀ q, q ≠ p → (g₁.part q).lit = (g.part q).lit) ∧ Turn p g₁ (g.cleared m p job) ∧
      Filled m (g.cleared m p job) p := by
  unfold cleared
  cases g.findJob p job.jobId with
  | none => exact Or.inl rfl
  | some _ =>
    obtain ⟨hs1, hl1, -⟩ := removeJobFromPart_steady (m := m) hs hp job.jobId
    have hp1 : p ∈ (g.removeJobFromPart job.jobId p).gsPartList := hl1.gsPartList ▸ hp
    obtain ⟨ht, -, hfill⟩ := updateActiveRow_filled hs1.sound hp1 (hs1.rowed p hp1) false
    refine Or.inr ⟨_, hs1, ?_, hl1.gsPartList, fun q hq => ?_, ht, hfill⟩
    · rcases removeJobFromPart_cases job.jobId p with heq | ⟨k, -, heq⟩
      · rw [heq]
      · rw [heq]
        rfl
    · rcases removeJobFromPart_cases job.jobId p with heq | ⟨k, -, heq⟩
      · rw [heq]
      · rw [heq, without_part, if_neg hq]
        exact clearShadow_lit q

theorem cleared_fixed (k : Ptr) :
    ((g.cleared m p job).job k).fixed = (g.job k).fixed := by
  rcases cleared_cases hs hp with heq | ⟨g1, -, hjob, -, -, ht, -⟩
  · rw [heq]
  · rw [ht.fixed, hjob]

/-- Other partitions do not see that an old record goes. -/
theorem cleared_other (hq : q ∈ g.gsPartList) (hne : q ≠ p) :
    ((g.cleared m p job).part q).lit = (g.part q).lit ∧
      ∀ j ∈ (g.part q).jobList, (g.cleared m p job).job j = g.job j := by
  rcases cleared_cases hs hp with heq | ⟨g1, hs1, hjob, hl, hlit, ht, -⟩
  · rw [heq]
    exact ⟨rfl, fun _ _ => rfl⟩
  · refine ⟨(ht.other q hne).trans (hlit q hne), fun j hj => ?_⟩
    rw [← of_lit (·.jobList) (hlit q hne)] at hj
    rw [ht.job_other hs1.sound (hl ▸ hp) (hl ▸ hq) hne hj, hjob]

theorem addJobToPart_priority (k : Ptr) :
    ((g.addJobToPart m p job j).2.job k).priority =
      if k = j then job.priority else (g.job k).priority := by
  have hent : (((g.cleared m p job).entered p job j).job k).priority =
      if k = j then job.priority else (g.job k).priority := by
    rw [entered_job]
    split_ifs
    · rfl
    · exact of_fixed (·.priority) (cleared_fixed hs hp k)
  rw [← hent, addJobToPart_eq]
  dsimp only
  split_ifs
  · -- what is done to a job that runs is not done to its priority
    rw [modJob_job]
    by_cases hk : k = j
    · subst hk
      rw [if_pos rfl, wake_job, if_pos rfl]
      rfl
    · rw [if_neg hk, wake_job, if_neg hk]
      rfl
  · rfl

/-- A job that has come in and waits does not count. -/
theorem entered_counted (hj : g.Fresh j)
    (hq : q ∈ g.gsPartList) (htop : Top ((g.cleared m p job).entered p job j) q)
    (hc : ∀ q ∈ g.gsPartList, Top g q → Counted g q) :
    Counted ((g.cleared m p job).entered p job j) q := by
  obtain ⟨hs1, hl1, -⟩ : Steady (g.cleared m p job) ∧ Lists [] g (g.cleared m p job) ∧
    Shrinks m g (g.cleared m p job) := cleared_steady hs hp
  set g1 := g.cleared m p job with hg1
  have hj1 : g1.Fresh j := hl1.fresh hj not_mem_nil
  have hq1 : q ∈ g1.gsPartList := hl1.gsPartList ▸ hq
  -- the new job is in `p`, so that `p` is not above `q`
  have hnot : ¬(g1.part q).priority < (g1.part p).priority := by
    intro hlt
    have hnil := htop p (hl1.gsPartList ▸ hp) (by rwa [entered_priority, entered_priority])
    have hmem : j ∈ ((g1.entered p job j).part p).jobList := mem_entered.2 (Or.inr ⟨rfl, rfl⟩)
    rw [hnil] at hmem
    exact not_mem_nil hmem
  have htop1 : Top g1 q := by
    refine htop.congr (.refl _) (fun r => (entered_priority r).symm) fun r _ hr => ?_
    rw [eq_nil_iff_forall_not_mem] at hr ⊢
    exact fun k hk => hr k (mem_entered.2 (Or.inl hk))
  have htop0 : Top g q := by
    intro r hr hlt
    have hne : r ≠ p := by
      rintro rfl
      rw [← hl1.priority, ← hl1.priority] at hlt
      exact hnot hlt
    rw [← of_lit (·.jobList) (cleared_other hs hp hr hne).1]
    exact htop1 r (hl1.gsPartList ▸ hr) (by rwa [hl1.priority, hl1.priority])
  have hjobs (k) (hk : k ∈ (g1.part q).jobList) : (g1.entered p job j).job k = g1.job k := by
    rw [entered_job, if_neg]
    rintro rfl
    exact hj1 q hq1 hk
  by_cases hqp : q = p
  · subst hqp
    have hc1 : Counted g1 q := by
      rcases cleared_cases hs hp with heq | ⟨_, _, _, _, _, _, hfill⟩
      · rw [hg1, heq]
        exact hc q hq htop0
      · exact hfill.counted hs1.sound hq1 (htop1.shadow hs1.sound hq1)
    have hrun : (g1.entered q job j).running q = g1.running q := by
      rw [running, running, entered_part, if_pos rfl, filter_append]
      have hnew : [j].filter (fun k => ((g1.entered q job j).job k).sigState = .resume) = [] := by
        simp [entered_job]
      rw [hnew, append_nil]
      exact filter_congr fun k hk => by rw [hjobs k hk]
    rw [Counted, hrun, ← hc1, entered_part, if_pos rfl]
  · obtain ⟨hlit, hsame⟩ : (g1.part q).lit = (g.part q).lit ∧
        ∀ j ∈ (g.part q).jobList, g1.job j = g.job j := cleared_other hs hp hq hqp
    have hc1 : Counted g1 q := (hc q hq htop0).congr hlit hsame
    refine hc1.congr ?_ hjobs
    rw [entered_part, if_neg hqp]

end

theorem gsJobStart_fit {job : GangJob} (hg : Fit g) (hj : g.Fresh j) (hprio : job.priority ≠ 0)
    (ho : g.Ordered order) : Fit (g.gsJobStart m job j order) := by
  unfold gsJobStart
  cases hfind : g.findGsPart job.partName with
  | none => exact hg
  | some p =>
    have hp := findGsPart_mem hfind
    obtain ⟨hs', hl, -⟩ := addJobToPart_steady hg.steady hp hj
    have hprio' : ∀ q ∈ (g.addJobToPart m p job j).2.gsPartList,
        ∀ k ∈ ((g.addJobToPart m p job j).2.part q).jobList,
          ((g.addJobToPart m p job j).2.job k).priority ≠ 0 := by
      intro q hq k hk
      rw [hl.gsPartList] at hq
      rw [addJobToPart_priority hg.steady hp]
      split_ifs with hkj
      · exact hprio
      · refine hg.priority q hq k ((hl.mem q hq k hk).resolve_left ?_)
        rw [mem_singleton]
        exact hkj
    dsimp only
    split_ifs with hsig
    · exact updateAllActiveRows_fit hs' (hl.ordered ho) hprio'
    · refine ⟨hs', hprio', fun q hq htop => ?_⟩
      -- the job was not let in to the row
      have heq : (g.addJobToPart m p job j).2 = (g.cleared m p job).entered p job j := by
        rw [addJobToPart_eq] at hsig ⊢
        dsimp only at hsig ⊢
        split_ifs at hsig ⊢
        · exact absurd rfl hsig
        · rfl
      rw [heq] at htop ⊢
      exact entered_counted hg.steady hp hj (hl.gsPartList ▸ hq) htop hg.counted

/-! ## Time slices -/

theorem nextJobList_congr (hl : (g'.part q).lit = (g.part q).lit)
    (hj : ∀ j ∈ (g.part q).jobList, g'.job j = g.job j) : g'.nextJobList q = g.nextJobList q := by
  rw [nextJobList, nextJobList, of_lit (·.jobList) hl]
  congr 1
  · exact filter_congr fun j hjm => by rw [hj j hjm]
  · exact filter_congr fun j hjm => by rw [hj j hjm]

/-- What a time slice does in a partition: all jobs run, or they take turns and the first
    of the list is in the row. -/
def Rotates (g h : Gang) (q : Ptr) : Prop :=
  ((h.part q).jobList = (g.part q).jobList ∧
    ∀ j ∈ (g.part q).jobList, (h.job j).sigState = .resume) ∨
  ((h.part q).jobList = g.nextJobList q ∧ ∀ j rest, g.nextJobList q = j :: rest →
    (h.job j).rowState = .active ∧ (h.job j).sigState = .resume)

theorem rotates_lasting (g : Gang) : Lasting fun h q => Top g q → q ∈ h.gsPartList →
    (h.part q).jobList.Perm (g.part q).jobList ∧ Rotates g h q := by
  intro h h' p q hs hp hq hne _ ht hrot htop _
  obtain ⟨hperm, hrot⟩ := hrot htop hq
  have hlist := ht.jobList_other hne
  have hjob (j) (hj : j ∈ (g.part q).jobList) : h'.job j = h.job j :=
    ht.job_other hs hp hq hne (hperm.mem_iff.2 hj)
  refine ⟨hlist ▸ hperm, hrot.imp (fun ⟨hsame, hall⟩ => ⟨hlist.trans hsame, fun j hj => ?_⟩)
    fun ⟨hnext, hfirst⟩ => ⟨hlist.trans hnext, fun j rest heq => ?_⟩⟩
  · rw [hjob j hj]
    exact hall j hj
  · have hj : j ∈ (g.part q).jobList := nextJobList_perm.mem_iff.1 (heq ▸ mem_cons_self)
    rw [hjob j hj]
    exact hfirst j rest heq

theorem Lasting.and {Q Q' : Gang → Ptr → Prop} (h : Lasting Q) (h' : Lasting Q') :
    Lasting fun g p => Q g p ∧ Q' g p :=
  fun a b p q hs hp hq hne hle ht hQ =>
    ⟨h a b p q hs hp hq hne hle ht hQ.1, h' a b p q hs hp hq hne hle ht hQ.2⟩

/-- All jobs run where the row is long enough. -/
theorem Counted.all_run (hc : Counted g q)
    (hlen : (g.part q).jobList.length ≤ (g.part q).jobsActive) :
    ∀ j ∈ (g.part q).jobList, (g.job j).sigState = .resume := by
  have hfull : (g.running q).length = (g.part q).jobList.length :=
    le_antisymm (length_filter_le _ _) (hc ▸ hlen)
  intro j hj
  have hall := length_filter_eq_length_iff.1 hfull j hj
  exact of_decide_eq_true hall

theorem Frame.top (hf : Frame done g h) : Top h q ↔ Top g q := by
  constructor
  · intro ht
    refine ht.congr (by rw [hf.gsPartList]) (fun r => (hf.priority r).symm) fun r _ hr => ?_
    have hperm := hf.jobLists r
    rw [hr] at hperm
    exact hperm.nil_eq.symm
  · intro ht
    refine ht.congr (by rw [hf.gsPartList]) hf.priority fun r _ hr => ?_
    have hperm := hf.jobLists r
    rw [hr] at hperm
    exact hperm.eq_nil

/-- What a time slice makes true of a partition in its turn. -/
theorem slicePart_turn (hg : Fit g) (hf : Frame done g h) (hst : Steady h)
    (hp : p ∈ h.gsPartList) (hnot : p ∉ done) :
    Turn p h (slicePart m h p) ∧ Rowed (slicePart m h p) p ∧
      (Top (slicePart m h p) p → Counted (slicePart m h p) p) ∧
      (Top g p → p ∈ (slicePart m h p).gsPartList →
        ((slicePart m h p).part p).jobList.Perm (g.part p).jobList ∧
          Rotates g (slicePart m h p) p) := by
  have hp0 : p ∈ g.gsPartList := hf.gsPartList ▸ hp
  have hlit := hf.lit p hnot
  have hjob := hf.job p hp0 hnot
  unfold slicePart
  split_ifs with hturn
  · obtain ⟨ht, hlist, hfill, hfirst⟩ := cycleJobList_filled hst.sound hp
    have hp' := ht.gsPartList ▸ hp
    refine ⟨ht, hfill.rowed, fun htop => hfill.counted ht.sound hp' (htop.shadow ht.sound hp'),
      fun htop _ => ⟨ht.jobList.trans (hf.jobLists p), Or.inr ⟨?_, fun j rest heq => ?_⟩⟩⟩
    · rw [hlist, nextJobList_congr hlit hjob]
    · rw [← nextJobList_congr hlit hjob] at heq
      have hj : j ∈ (h.part p).jobList := nextJobList_perm.mem_iff.1 (heq ▸ mem_cons_self)
      refine hfirst j rest heq ((hf.top.2 htop).shadow hst.sound hp) ?_
      exact hf.priority_ne hg.priority p hp j hj
  · have hc (htop : Top h p) : Counted h p := (hg.counted p hp0 (hf.top.1 htop)).congr hlit hjob
    refine ⟨Turn.refl hst.sound, hst.rowed p hp, hc, fun htop _ => ⟨hf.jobLists p, Or.inl
      ⟨of_lit (·.jobList) hlit, ?_⟩⟩⟩
    rw [← of_lit (·.jobList) hlit]
    exact (hc (hf.top.2 htop)).all_run (by omega)

theorem timeSlice_fit (hg : Fit g) (ho : g.Ordered order) :
    Fit (g.timeSlice m order) ∧
      Frame order.reverse { g with gsPartList := order } (g.timeSlice m order) ∧
      ∀ q ∈ g.gsPartList, Top g q → Rotates g (g.timeSlice m order) q := by
  set g0 : Gang := { g with gsPartList := order } with hg0
  have htop (q) : Top g0 q ↔ Top g q := by
    unfold Top
    simp only [hg0, ho.perm.mem_iff]
  have hfit0 : Fit g0 := ⟨hg.steady.reorder ho.perm,
    fun p hp => hg.priority p (ho.perm.mem_iff.1 hp),
    fun q hq ht => hg.counted q (ho.perm.mem_iff.1 hq) ((htop q).1 ht)⟩
  obtain ⟨hf, hst, hall⟩ : Frame order.reverse g0 (g.timeSlice m order) ∧
      Steady (g.timeSlice m order) ∧ ∀ q ∈ order, _ :=
    round_turns (counted_lasting.and (rotates_lasting g0)) hg.steady ho
      fun h done hf hst p hp hnot => slicePart_turn hfit0 hf hst hp hnot
  refine ⟨⟨hst, hf.priority_ne hfit0.priority, fun q hq => (hall q ?_).1⟩, hf,
    fun q hq ht => ((hall q ?_).2 ((htop q).2 ht) ?_).2⟩
  · rw [hf.gsPartList] at hq
    exact hq
  · exact ho.perm.mem_iff.2 hq
  · rw [show List.foldl (slicePart m) _ _ = g.timeSlice m order from rfl, hf.gsPartList]
    exact ho.perm.mem_iff.2 hq

/-- A partition on which no shadow falls after a time slice has no jobs above it. -/
theorem top_of_timeSlice (hg : Fit g) (ho : g.Ordered order) (hp : p ∈ g.gsPartList)
    (hsh : ((g.timeSlice m order).part p).shadow = []) : Top g p := by
  obtain ⟨hfit, hf, hrot⟩ := timeSlice_fit hg ho
  intro r hr hlt
  by_contra hne
  -- of the partitions above with jobs, take one that has none above itself
  let above := g.gsPartList.toFinset.filter fun r =>
    (g.part p).priority < (g.part r).priority ∧ (g.part r).jobList ≠ []
  obtain ⟨t, ht, hmax⟩ := above.exists_max_image (fun r => (g.part r).priority)
    ⟨r, by simp [above, hr, hlt, hne]⟩
  obtain ⟨htl, htp, htn⟩ : t ∈ g.gsPartList ∧ (g.part p).priority < (g.part t).priority ∧
      (g.part t).jobList ≠ [] := by
    simpa [above] using ht
  have htop : Top g t := by
    intro u hu hlt'
    by_contra hun
    have hle := hmax u (by simp [above, hu, hun, htp.trans hlt'])
    omega
  -- one of its jobs runs after the slice
  obtain ⟨j, hj, hsig⟩ : ∃ j ∈ ((g.timeSlice m order).part t).jobList,
      ((g.timeSlice m order).job j).sigState = .resume := by
    rcases hrot t htl htop with ⟨hlist, hall⟩ | ⟨hlist, hfirst⟩
    · obtain ⟨j, hj⟩ := exists_mem_of_ne_nil _ htn
      exact ⟨j, hlist ▸ hj, hall j hj⟩
    · cases hcase : g.nextJobList t with
      | nil =>
        have hnil : (g.part t).jobList = [] := by
          have hperm : (g.nextJobList t).Perm (g.part t).jobList := nextJobList_perm
          rw [hcase] at hperm
          exact hperm.nil_eq.symm
        exact absurd hnil htn
      | cons j rest =>
        exact ⟨j, by rw [hlist, hcase]; exact mem_cons_self, (hfirst j rest hcase).2⟩
  have hmem : j ∈ ((g.timeSlice m order).part p).shadow := by
    refine (hfit.steady.sound.shadowed p ?_ j).2 ⟨t, ?_, ?_, hj, hsig⟩
    · rw [hf.gsPartList]
      exact ho.perm.mem_iff.2 hp
    · rw [hf.gsPartList]
      exact ho.perm.mem_iff.2 htl
    · rw [hf.priority, hf.priority]
      exact htp
  rw [hsh] at hmem
  exact not_mem_nil hmem

/-! ## The place of a job in the list -/

theorem idxOf_filter_le {A : Type*} [DecidableEq A] {P : A → Bool} {a : A} (ha : P a) (l : List A) :
    (l.filter P).idxOf a ≤ l.idxOf a := by
  induction l with
  | nil => simp
  | cons b l ih =>
    by_cases hb : b = a
    · subst hb
      simp [filter_cons_of_pos ha]
    · rw [idxOf_cons_ne _ hb]
      by_cases hPb : P b
      · rw [filter_cons_of_pos hPb, idxOf_cons_ne _ hb]
        omega
      · rw [filter_cons_of_neg hPb]
        omega

/-- A job that is not in the row comes nearer to the front, when the first one goes to the
    back. -/
theorem idxOf_nextJobList {a : Ptr} {rest : List Ptr} (hlist : (g.part p).jobList = a :: rest)
    (ha : (g.job a).rowState = .active) (hj : j ∈ (g.part p).jobList)
    (hrow : (g.job j).rowState ≠ .active) :
    (g.nextJobList p).idxOf j < (g.part p).jobList.idxOf j := by
  have hne : a ≠ j := by
    rintro rfl
    exact hrow ha
  have hmem : j ∈ (g.part p).jobList.filter fun k => (g.job k).rowState ≠ .active :=
    mem_filter.2 ⟨hj, decide_eq_true hrow⟩
  rw [nextJobList, idxOf_append_of_mem hmem, hlist,
    filter_cons_of_neg (by simp [ha]), idxOf_cons_ne _ hne]
  exact Nat.lt_succ_of_le (idxOf_filter_le
    (P := fun k => decide ((g.job k).rowState ≠ .active)) (decide_eq_true hrow) rest)

/-- The state after time slices, in which the partitions are sorted as `ws`. -/
def slices (m : CoreMap) (g : Gang) (ws : List (List Ptr)) : Gang :=
  Run.run (GangOp.exec m) g (ws.map .slice)

/-- The slices are those of a scheduler that sorts the partitions. -/
def Sliceable (m : CoreMap) (g : Gang) (ws : List (List Ptr)) : Prop :=
  Run.Admissible (GangOp.exec m) (fun g o => o.Valid g) g (ws.map .slice)
  deriving Decidable

/-- What the next slice needs, and the ones after it. -/
theorem slice_next (hg : Fit g) (ho : g.Ordered order) (hp : p ∈ g.gsPartList) (htop : Top g p) :
    Fit (g.timeSlice m order) ∧ p ∈ (g.timeSlice m order).gsPartList ∧ Top (g.timeSlice m order) p ∧
      ((g.timeSlice m order).part p).jobList.Perm (g.part p).jobList ∧
      Rotates g (g.timeSlice m order) p := by
  obtain ⟨hfit, hf, hrot⟩ := timeSlice_fit hg ho
  refine ⟨hfit, ?_, hf.top.2 fun r hr => htop r (ho.perm.mem_iff.1 hr), hf.jobLists p,
    hrot p hp htop⟩
  rw [hf.gsPartList]
  exact ho.perm.mem_iff.2 hp

/-- A job that runs after a slice, or after one of the others, runs after one of them all. -/
theorem runs_later {o : List Ptr} {ws : List (List Ptr)}
    (h : ((g.timeSlice m o).job j).sigState = .resume ∨
      ∃ i < ws.length, (((g.timeSlice m o).slices m (ws.take (i + 1))).job j).sigState = .resume) :
    ∃ i < (o :: ws).length, ((g.slices m ((o :: ws).take (i + 1))).job j).sigState = .resume := by
  rcases h with hnow | ⟨i, hi, hlater⟩
  · exact ⟨0, by simp, hnow⟩
  · exact ⟨i + 1, by simpa using hi, hlater⟩

/-- A job runs before as many slices have gone by as there are jobs in front of it. -/
theorem runs_within {ws : List (List Ptr)} (hg : Fit g) (hp : p ∈ g.gsPartList) (htop : Top g p)
    (hhead : ∀ a rest, (g.part p).jobList = a :: rest →
      (g.job a).rowState = .active ∧ (g.job a).sigState = .resume)
    (hj : j ∈ (g.part p).jobList) (hws : g.Sliceable m ws)
    (hidx : (g.part p).jobList.idxOf j ≤ ws.length) :
    (g.job j).sigState = .resume ∨
      ∃ i < ws.length, ((g.slices m (ws.take (i + 1))).job j).sigState = .resume := by
  induction ws generalizing g with
  | nil =>
    -- the job is the first one
    left
    cases hlist : (g.part p).jobList with
    | nil =>
      rw [hlist] at hj
      exact absurd hj not_mem_nil
    | cons a rest =>
      rw [hlist] at hidx
      have haj : a = j := by
        by_contra hne
        rw [idxOf_cons_ne _ hne] at hidx
        simp at hidx
      exact haj ▸ (hhead a rest hlist).2
  | cons o ws ih =>
    by_cases hrun : (g.job j).sigState = .resume
    · exact Or.inl hrun
    right
    obtain ⟨hfit, hp', htop', hperm, hrot⟩ := slice_next hg hws.1 hp htop
    have hj' : j ∈ ((g.timeSlice m o).part p).jobList := hperm.mem_iff.2 hj
    apply runs_later
    rcases hrot with ⟨-, hall⟩ | ⟨hnext, hfirst⟩
    · exact Or.inl (hall j hj)
    · refine ih hfit hp' htop' (fun a rest heq => hfirst a rest (hnext ▸ heq)) hj' hws.2 ?_
      have hrow : (g.job j).rowState = .noActive := by
        by_contra hrow
        exact hrun ((hg.steady.rowed p hp j hj).1 hrow)
      obtain ⟨a, rest, hlist⟩ := exists_cons_of_ne_nil (ne_nil_of_mem hj)
      have hlt := idxOf_nextJobList hlist (hhead a rest hlist).1 hj (by simp [hrow])
      rw [hnext]
      simp only [length_cons] at hidx
      omega

/-- Every job runs in one of as many slices as there are jobs. -/
theorem runs_in_turn {ws : List (List Ptr)} (hg : Fit g) (hp : p ∈ g.gsPartList)
    (hws : g.Sliceable m ws) (hlen : ws.length = (g.part p).jobList.length)
    (hsh : ∀ i < ws.length, ((g.slices m (ws.take (i + 1))).part p).shadow = [])
    (hj : j ∈ (g.part p).jobList) :
    ∃ i < ws.length, ((g.slices m (ws.take (i + 1))).job j).sigState = .resume := by
  cases ws with
  | nil =>
    have hnil : (g.part p).jobList = [] := eq_nil_of_length_eq_zero hlen.symm
    rw [hnil] at hj
    exact absurd hj not_mem_nil
  | cons o ws =>
    have htop : Top g p := top_of_timeSlice hg hws.1 hp (hsh 0 (by simp))
    obtain ⟨hfit, hp', htop', hperm, hrot⟩ := slice_next hg hws.1 hp htop
    have hj' : j ∈ ((g.timeSlice m o).part p).jobList := hperm.mem_iff.2 hj
    apply runs_later
    rcases hrot with ⟨-, hall⟩ | ⟨hnext, hfirst⟩
    · exact Or.inl (hall j hj)
    · have hidx : ((g.timeSlice m o).part p).jobList.idxOf j ≤ ws.length := by
        have hlt := idxOf_lt_length_of_mem hj'
        rw [hperm.length_eq, ← hlen, length_cons] at hlt
        omega
      exact runs_within hfit hp' htop' (fun a rest heq => hfirst a rest (hnext ▸ heq)) hj' hws.2
        hidx

/-! ## Runs -/

/-- The scheduler has been set up (`_build_parts`), and has no jobs yet. -/
structure Built (g : Gang) : Prop extends Empty g where
  jobsActive : ∀ p ∈ g.gsPartList, (g.part p).jobsActive = 0

theorem Built.fit (hg : Built g) : Fit g := by
  refine ⟨hg.steady, fun p hp j hj => ?_, fun q hq _ => ?_⟩
  · rw [(hg.jobs p hp).1] at hj
    exact absurd hj not_mem_nil
  · rw [Counted, hg.jobsActive q hq, running, (hg.jobs q hq).1]
    rfl

end Gang

namespace GangOp

/-- A job with a priority starts, or a time slice is over. -/
def StartsOrSlices (g : Gang) : GangOp → Prop
  | start job j order => job.priority ≠ 0 ∧ (start job j order).Valid g
  | slice order => (slice order).Valid g
  | _ => False

instance (g : Gang) : (o : GangOp) → Decidable (o.StartsOrSlices g)
  | start _ _ _ => inferInstanceAs (Decidable (_ ∧ _))
  | fini _ _ | scan _ _ => .isFalse id
  | slice order => inferInstanceAs (Decidable ((slice order).Valid g))

end GangOp

namespace Gang

variable {m : CoreMap} {g : Gang}

theorem run_fit {os : List GangOp} (hg : g.Built)
    (hos : Run.Admissible (GangOp.exec m) (fun g o => o.StartsOrSlices g) g os) :
    Fit (Run.run (GangOp.exec m) g os) := by
  refine Run.invariant_run (fun g o hI hok => ?_) hg.fit hos
  cases o with
  | start job j order => exact gsJobStart_fit hI hok.2.1 hok.1 hok.2.2
  | slice order => exact (timeSlice_fit hI hok).1
  | fini job order => exact hok.elim
  | scan jobs order => exact hok.elim

/-- What holds when a partition has its turn in a time slice. -/
theorem steady_slice {order pre post : List Ptr} {p : Ptr} (hs : Steady g) (ho : g.Ordered order)
    (hsplit : order = pre ++ p :: post) :
    Sound (pre.foldl (slicePart m) { g with gsPartList := order }) ∧
      p ∈ (pre.foldl (slicePart m) { g with gsPartList := order }).gsPartList := by
  have hnd : order.Nodup := ho.perm.nodup_iff.2 hs.sound.parts
  have hsub : pre.Sublist order := hsplit ▸ sublist_append_left pre _
  have hturns : ∀ h done, Frame done { g with gsPartList := order } h → Steady h →
      ∀ q ∈ h.gsPartList, q ∉ done →
        Turn q h (slicePart m h q) ∧ Rowed (slicePart m h q) q ∧ True := by
    intro h done _ hst q hq _
    unfold slicePart
    split_ifs
    · obtain ⟨ht, -, hfill, -⟩ := cycleJobList_filled hst.sound hq
      exact ⟨ht, hfill.rowed, trivial⟩
    · exact ⟨Turn.refl hst.sound, hst.rowed q hq, trivial⟩
  obtain ⟨hf, hst, -⟩ := foldl_turns (Q := fun _ _ => True) (fun _ _ _ _ _ _ _ _ _ _ h => h) hturns
    (Frame.refl _) (hs.reorder ho.perm) (by simpa using fun q hq => hsub.subset hq)
    (by simpa using hnd.sublist hsub) (ho.sorted.sublist hsub) (by simp)
  refine ⟨hst.sound, ?_⟩
  rw [hf.gsPartList, hsplit]
  simp

/-- From every state that jobs reach by starting, and by taking turns: in a partition on which no
    shadows fall, every job runs in one of any `n` time slices that follow each other, `n`
    being the number of jobs. Whenever the jobs of a partition take turns, the loop over
    them ends, and those that were active come after the others, each in their order. -/
theorem gang_fair (m : CoreMap) (g : Gang) (hg : g.Built) (os : List GangOp)
    (hos : Run.Admissible (GangOp.exec m) (fun g o => o.StartsOrSlices g) g os) :
    (∀ p ∈ (Run.run (GangOp.exec m) g os).gsPartList, ∀ ws : List (List Ptr),
      ws.length = ((Run.run (GangOp.exec m) g os).part p).jobList.length →
      (Run.run (GangOp.exec m) g os).Sliceable m ws → (∀ i < ws.length,
        (((Run.run (GangOp.exec m) g os).slices m (ws.take (i + 1))).part p).shadow = []) →
      ∀ j ∈ ((Run.run (GangOp.exec m) g os).part p).jobList, ∃ i < ws.length,
        (((Run.run (GangOp.exec m) g os).slices m (ws.take (i + 1))).job j).sigState = .resume) ∧
    ∀ order pre p post, (Run.run (GangOp.exec m) g os).Ordered order → order = pre ++ p :: post →
      ∀ h, h = pre.foldl (slicePart m) { Run.run (GangOp.exec m) g os with gsPartList := order } →
        (h.cycleLoop p).rest = [] ∧ ((h.cycleJobList m p).part p).jobList =
          (h.part p).jobList.filter (fun j => (h.job j).rowState ≠ .active) ++
            (h.part p).jobList.filter fun j => (h.job j).rowState = .active := by
  have hfit : Fit (Run.run (GangOp.exec m) g os) := run_fit hg hos
  constructor
  · intro p hp ws hlen hws hsh j hj
    exact runs_in_turn hfit hp hws hlen hsh hj
  · rintro order pre p post ho hsplit h rfl
    obtain ⟨hs, hp⟩ := steady_slice hfit.steady ho hsplit
    refine ⟨?_, (cycleJobList_filled hs hp).2.1⟩
    rw [cycleLoop_eq (hs.jobs p hp)]

/-- The job that has to wait for both cores runs in one of two slices. -/
theorem gang_fair_two : ∃ i < 2,
    (((Run.run (GangOp.exec twoCores) twoParts (threeStarts {0, 1})).slices twoCores
      ([[0, 1], [0, 1]].take (i + 1))).job 11).sigState = .resume :=
  (gang_fair twoCores twoParts ⟨⟨by decide, by decide⟩, by decide⟩ (threeStarts {0, 1})
    (by decide +kernel)).1 0 (by decide +kernel) [[0, 1], [0, 1]] (by decide +kernel) (by decide +kernel)
    (by decide +kernel) 11 (by decide +kernel)

end Gang

end Slurm
