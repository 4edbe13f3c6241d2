import Slurm.Gang.Round
import Slurm.Lib.Run

/-!
# Jobs that run together do not share cores

Of the jobs that the gang scheduler lets run, two in one partition have no core in
common, and neither has a job with one of a partition of a higher priority
(`Gang.Exclusive`). This holds after jobs start and end, as all rows are built anew then.

A time slice does not look at a partition in which all jobs and shadows seem to be in the row,
by their number. When a partition above swaps one job for another, this number stays the
same, but the new job may need cores that are taken (`Gang.slice_conflict`). Under the
condition `Gang.Calm`, which excludes this, the jobs that run are exclusive in every run
(`Gang.gang_exclusive`).
-/

namespace Slurm

open List

namespace Gang

variable {m : CoreMap} {g g' g'' : Gang} {p q j k : Ptr} {order new : List Ptr}

/-- No two jobs of a partition run on the same core, and no job runs on a core of one
    that runs in a partition of a higher priority. -/
structure Exclusive (m : CoreMap) (g : Gang) : Prop where
  inside : ∀ p ∈ g.gsPartList, ∀ j k, g.Runs p j → g.Runs p k → j ≠ k →
    Disjoint (g.cores m j) (g.cores m k)
  above : ∀ p ∈ g.gsPartList, ∀ q ∈ g.gsPartList, (g.part p).priority < (g.part q).priority →
    ∀ j k, g.Runs p j → g.Runs q k → Disjoint (g.cores m j) (g.cores m k)

theorem exclusive_iff (hs : Sound g) : Exclusive m g ↔ ∀ p ∈ g.gsPartList, SafeAt m g p := by
  constructor
  · intro h p hp
    refine ⟨h.inside p hp, fun j k hj hk => ?_⟩
    obtain ⟨q, hq, hlt, hkq, hsig⟩ := (hs.shadowed p hp k).1 hk
    exact h.above p hp q hq hlt j k hj ⟨hkq, hsig⟩
  · intro h
    refine ⟨fun p hp => (h p hp).inside, fun p hp q hq hlt j k hj hk => ?_⟩
    exact (h p hp).above j k hj ((hs.shadowed p hp k).2 ⟨q, hq, hlt, hk.1, hk.2⟩)

/-! ## Operations that only take jobs away -/

/-- No job runs that did not run before. -/
structure Shrinks (m : CoreMap) (g g' : Gang) : Prop where
  gsPartList : g'.gsPartList = g.gsPartList
  priority : ∀ q, (g'.part q).priority = (g.part q).priority
  runs : ∀ q ∈ g.gsPartList, ∀ j, g'.Runs q j → g.Runs q j ∧ g'.cores m j = g.cores m j

theorem Shrinks.refl (m : CoreMap) (g : Gang) : Shrinks m g g :=
  ⟨rfl, fun _ => rfl, fun _ _ _ hj => ⟨hj, rfl⟩⟩

theorem Shrinks.trans (h : Shrinks m g g') (h' : Shrinks m g' g'') : Shrinks m g g'' where
  gsPartList := h'.gsPartList.trans h.gsPartList
  priority q := (h'.priority q).trans (h.priority q)
  runs q hq j hj := by
    obtain ⟨hj', hc'⟩ := h'.runs q (h.gsPartList ▸ hq) j hj
    obtain ⟨hj'', hc⟩ := h.runs q hq j hj'
    exact ⟨hj'', hc'.trans hc⟩

theorem Exclusive.shrinks (he : Exclusive m g) (h : Shrinks m g g') : Exclusive m g' := by
  refine ⟨fun p hp j k hj hk hjk => ?_, fun p hp q hq hlt j k hj hk => ?_⟩
  · rw [h.gsPartList] at hp
    obtain ⟨hj', hcj⟩ := h.runs p hp j hj
    obtain ⟨hk', hck⟩ := h.runs p hp k hk
    rw [hcj, hck]
    exact he.inside p hp j k hj' hk' hjk
  · rw [h.gsPartList] at hp hq
    rw [h.priority, h.priority] at hlt
    obtain ⟨hj', hcj⟩ := h.runs p hp j hj
    obtain ⟨hk', hck⟩ := h.runs q hq k hk
    rw [hcj, hck]
    exact he.above p hp q hq hlt j k hj' hk'

/-- What an operation on one partition does to the lists of jobs: all but `new` was
    there before. -/
structure Lists (new : List Ptr) (g g' : Gang) : Prop where
  gsPartList : g'.gsPartList = g.gsPartList
  priority : ∀ q, (g'.part q).priority = (g.part q).priority
  mem : ∀ q ∈ g.gsPartList, ∀ j ∈ (g'.part q).jobList, j ∈ new ∨ j ∈ (g.part q).jobList

theorem Lists.trans {new' : List Ptr} (h : Lists new g g') (h' : Lists new' g' g'') :
    Lists (new ++ new') g g'' where
  gsPartList := h'.gsPartList.trans h.gsPartList
  priority q := (h'.priority q).trans (h.priority q)
  mem q hq j hj := by
    rw [mem_append]
    rcases h'.mem q (h.gsPartList ▸ hq) j hj with hn | hj'
    · exact Or.inl (Or.inr hn)
    · exact (h.mem q hq j hj').imp_left Or.inl

theorem Lists.refl (g : Gang) : Lists [] g g := ⟨rfl, fun _ => rfl, fun _ _ _ hj => Or.inr hj⟩

theorem Turn.lists (ht : Turn p g g') : Lists [] g g' :=
  ⟨ht.gsPartList, ht.priorities, fun q _ _ hj => Or.inr ((ht.jobLists q).mem_iff.1 hj)⟩

theorem Lists.ordered (h : Lists new g g') (ho : g.Ordered order) :
    g'.Ordered order where
  perm := h.gsPartList ▸ ho.perm
  sorted := ho.sorted.imp fun hle => by rwa [h.priority, h.priority]

/-- The address is that of no job. -/
def Fresh (g : Gang) (j : Ptr) : Prop := ∀ p ∈ g.gsPartList, j ∉ (g.part p).jobList
  deriving Decidable

theorem Lists.fresh (h : Lists new g g') (hj : g.Fresh j) (hn : j ∉ new) :
    g'.Fresh j := by
  intro q hq hm
  rw [h.gsPartList] at hq
  exact (h.mem q hq j hm).elim hn (hj q hq)

/-- The job `j` is taken out of `p`. -/
def without (g : Gang) (p j : Ptr) : Gang :=
  (g.clearShadow j).modPart p fun t => { t with jobList := t.jobList.erase j }

theorem without_part (q : Ptr) : (g.without p j).part q =
    if q = p then
      { (g.clearShadow j).part p with jobList := ((g.clearShadow j).part p).jobList.erase j }
    else (g.clearShadow j).part q := modPart_part _ q

theorem without_shadow (q : Ptr) :
    ((g.without p j).part q).shadow = ((g.clearShadow j).part q).shadow := by
  rw [without_part]
  split_ifs with hq
  · rw [hq]
  · rfl

theorem without_priority (q : Ptr) : ((g.without p j).part q).priority = (g.part q).priority := by
  rw [← of_lit (·.priority) (clearShadow_lit (g := g) q), without_part]
  split_ifs with hq
  · rw [hq]
  · rfl

theorem without_jobList (q : Ptr) : ((g.without p j).part q).jobList =
    if q = p then (g.part p).jobList.erase j else (g.part q).jobList := by
  rw [without_part]
  split_ifs with hq
  · exact congrArg (·.erase j) (of_lit (·.jobList) (clearShadow_lit p))
  · exact of_lit (·.jobList) (clearShadow_lit q)

theorem mem_without (hs : Sound g) (hp : p ∈ g.gsPartList) (hj : j ∈ (g.part p).jobList)
    (hq : q ∈ g.gsPartList) :
    k ∈ ((g.without p j).part q).jobList ↔ k ≠ j ∧ k ∈ (g.part q).jobList := by
  rw [without_jobList]
  split_ifs with hqp
  · rw [hqp, (hs.jobs p hp).mem_erase_iff]
  · -- the job is in no other partition
    refine ⟨fun hk => ⟨?_, hk⟩, And.right⟩
    rintro rfl
    exact hqp (hs.apart q hq p hp k hk hj)

theorem without_steady (hs : Steady g) (hp : p ∈ g.gsPartList) (hj : j ∈ (g.part p).jobList) :
    Steady (g.without p j) := by
  have hmem {q k} (hq : q ∈ g.gsPartList) := mem_without (k := k) hs.sound hp hj hq
  refine ⟨⟨hs.sound.parts, fun q hq => ?_, fun q hq r hr k hkq hkr => ?_, fun q hq => ?_,
    fun q hq k => ?_⟩, fun q hq k hk => ?_⟩
  · rw [without_jobList]
    split_ifs
    · exact (hs.sound.jobs p hp).erase j
    · exact hs.sound.jobs q hq
  · exact hs.sound.apart q hq r hr k ((hmem hq).1 hkq).2 ((hmem hr).1 hkr).2
  · rw [without_shadow]
    exact clearShadow_nodup (hs.sound.shadows q hq)
  · have hq' : q ∈ g.gsPartList := hq
    rw [without_shadow, mem_clearShadow hq' (hs.sound.shadows q hq'), hs.sound.shadowed q hq' k]
    simp only [without_priority]
    constructor
    · rintro ⟨hne, r, hr, hlt, hk, hsig⟩
      exact ⟨r, hr, hlt, (hmem hr).2 ⟨hne, hk⟩, hsig⟩
    · rintro ⟨r, hr, hlt, hk, hsig⟩
      exact ⟨((hmem hr).1 hk).1, r, hr, hlt, ((hmem hr).1 hk).2, hsig⟩
  · exact hs.rowed q hq k ((hmem hq).1 hk).2

theorem removeJobFromPart_cases (id : ℕ) (p : Ptr) :
    g.removeJobFromPart id p = g ∨
      ∃ j ∈ (g.part p).jobList, g.removeJobFromPart id p = g.without p j := by
  unfold removeJobFromPart
  split_ifs
  · exact Or.inl rfl
  · cases hfind : g.findJob p id with
    | none => exact Or.inl rfl
    | some j => exact Or.inr ⟨j, mem_of_find?_eq_some hfind, rfl⟩

theorem removeJobFromPart_steady (hs : Steady g) (hp : p ∈ g.gsPartList) (id : ℕ) :
    Steady (g.removeJobFromPart id p) ∧ Lists [] g (g.removeJobFromPart id p) ∧
      Shrinks m g (g.removeJobFromPart id p) := by
  rcases removeJobFromPart_cases id p with heq | ⟨j, hj, heq⟩
  · rw [heq]
    exact ⟨hs, Lists.refl g, Shrinks.refl m g⟩
  · rw [heq]
    have hmem {q k} (hq : q ∈ g.gsPartList) := mem_without (k := k) hs.sound hp hj hq
    refine ⟨without_steady hs hp hj, ⟨rfl, without_priority, fun q hq k hk => ?_⟩,
      ⟨rfl, without_priority, fun q hq k hk => ?_⟩⟩
    · exact Or.inr ((hmem hq).1 hk).2
    · exact ⟨⟨((hmem hq).1 hk.1).2, hk.2⟩, rfl⟩

/-- The row is built anew, without jobs that wait. -/
theorem keepRow_shrinks (hs : Steady g) (hp : p ∈ g.gsPartList) :
    Turn p g (g.updateActiveRow m p false) ∧ Rowed (g.updateActiveRow m p false) p ∧
      Shrinks m g (g.updateActiveRow m p false) := by
  obtain ⟨ht, -, hfill, -, hjobs⟩ := keepRow_filled hs.sound hp (hs.rowed p hp)
  refine ⟨ht, hfill.rowed, ⟨ht.gsPartList, ht.priorities, fun q _ j hj => ?_⟩⟩
  refine ⟨⟨(ht.jobLists q).mem_iff.1 hj.1, ?_⟩, ht.cores j⟩
  rcases hjobs j with heq | heq
  · rw [← heq]
    exact hj.2
  · have hsig := hj.2
    rw [heq] at hsig
    cases hsig

/-! ## A job comes in -/

/-- A job comes to the end of the list of `p`, and waits. -/
def entered (g : Gang) (p : Ptr) (job : GangJob) (j : Ptr) : Gang :=
  (g.modJob j fun _ =>
    { jobId := job.jobId, jobResrcs := job.jobResrcs, priority := job.priority }).modPart p
      fun t => { t with jobList := t.jobList ++ [j] }

section

variable {job : GangJob}

theorem entered_part (q : Ptr) : (g.entered p job j).part q =
    if q = p then { g.part p with jobList := (g.part p).jobList ++ [j] } else g.part q :=
  modPart_part _ q

theorem entered_job (k : Ptr) : (g.entered p job j).job k =
    if k = j then { jobId := job.jobId, jobResrcs := job.jobResrcs, priority := job.priority }
    else g.job k := by
  rw [entered, modPart_job, modJob_job]

theorem mem_entered : k ∈ ((g.entered p job j).part q).jobList ↔
    k ∈ (g.part q).jobList ∨ (q = p ∧ k = j) := by
  rw [entered_part]
  split_ifs with hq
  · simp [hq]
  · simp [hq]

theorem entered_priority (q : Ptr) :
    ((g.entered p job j).part q).priority = (g.part q).priority := by
  rw [entered_part]
  split_ifs with hq
  · rw [hq]
  · rfl

theorem entered_shadow (q : Ptr) : ((g.entered p job j).part q).shadow = (g.part q).shadow := by
  rw [entered_part]
  split_ifs with hq
  · rw [hq]
  · rfl

theorem entered_steady (hs : Steady g) (hj : g.Fresh j) : Steady (g.entered p job j) := by
  have hold (q k) (hq : q ∈ g.gsPartList) (hk : k ∈ (g.part q).jobList) : k ≠ j := by
    rintro rfl
    exact hj q hq hk
  refine ⟨⟨hs.sound.parts, fun q hq => ?_, fun q hq r hr k hkq hkr => ?_, fun q hq => ?_,
    fun q hq k => ?_⟩, fun q hq k hk => ?_⟩
  · rw [entered_part]
    split_ifs with hqp
    · subst hqp
      exact nodup_append.2 ⟨hs.sound.jobs q hq, nodup_singleton j, by
        rintro a ha b hb rfl
        exact hj q hq (mem_singleton.1 hb ▸ ha)⟩
    · exact hs.sound.jobs q hq
  · rw [mem_entered] at hkq hkr
    rcases hkq with hkq | ⟨rfl, rfl⟩
    · rcases hkr with hkr | ⟨-, rfl⟩
      · exact hs.sound.apart q hq r hr k hkq hkr
      · exact absurd hkq (hj q hq)
    · rcases hkr with hkr | ⟨rfl, -⟩
      · exact absurd hkr (hj r hr)
      · rfl
  · rw [entered_shadow]
    exact hs.sound.shadows q hq
  · -- the new job is suspended, and is nobody's shadow
    have hq' : q ∈ g.gsPartList := hq
    rw [entered_shadow, hs.sound.shadowed q hq' k]
    simp only [entered_priority, mem_entered, entered_job]
    constructor
    · rintro ⟨r, hr, hlt, hk, hsig⟩
      refine ⟨r, hr, hlt, Or.inl hk, ?_⟩
      rwa [if_neg (hold r k hr hk)]
    · rintro ⟨r, hr, hlt, hk, hsig⟩
      by_cases hkj : k = j
      · rw [if_pos hkj] at hsig
        cases hsig
      · rw [if_neg hkj] at hsig
        exact ⟨r, hr, hlt, hk.resolve_right fun h => hkj h.2, hsig⟩
  · rw [mem_entered] at hk
    rw [entered_job]
    split_ifs with hkj
    · simp
    · exact hs.rowed q hq k (hk.resolve_right fun h => hkj h.2)

theorem entered_lists : Lists [j] g (g.entered p job j) := by
  refine ⟨rfl, entered_priority, fun q _ k hk => ?_⟩
  rw [mem_entered] at hk
  rw [mem_singleton]
  exact hk.symm.imp_left And.right

theorem entered_shrinks : Shrinks m g (g.entered p job j) := by
  refine ⟨rfl, entered_priority, fun q _ k ⟨hk, hsig⟩ => ?_⟩
  rw [mem_entered] at hk
  rw [entered_job] at hsig
  by_cases hkj : k = j
  · rw [if_pos hkj] at hsig
    cases hsig
  · rw [if_neg hkj] at hsig
    refine ⟨⟨hk.resolve_right fun h => hkj h.2, hsig⟩, ?_⟩
    unfold cores
    rw [entered_job, if_neg hkj]

theorem cleared_steady (hs : Steady g) (hp : p ∈ g.gsPartList) :
    Steady (g.cleared m p job) ∧ Lists [] g (g.cleared m p job) ∧
      Shrinks m g (g.cleared m p job) := by
  unfold cleared
  cases g.findJob p job.jobId with
  | none => exact ⟨hs, Lists.refl g, Shrinks.refl m g⟩
  | some _ =>
    obtain ⟨hs1, hl1, hsh1⟩ := removeJobFromPart_steady hs hp job.jobId
    have hp1 : p ∈ (g.removeJobFromPart job.jobId p).gsPartList := hl1.gsPartList ▸ hp
    obtain ⟨ht, hr, hsh2⟩ := keepRow_shrinks hs1 hp1
    exact ⟨ht.steady hs1 hp1 hr, hl1.trans ht.lists, hsh1.trans hsh2⟩

/-- The new job runs if it is not suspended already, and fits. -/
theorem addJobToPart_eq : g.addJobToPart m p job j = let h := (g.cleared m p job).entered p job j
    if ¬job.jobState.isSuspended ∧ h.fits m p j then
      (.resume, ((h.addJobToActive m p j).wake p j).modJob j fun k => { k with rowState := .filler })
    else (.suspend, h) := by
  have hfits (h : Gang) : (((h.modJob j fun _ =>
      { jobId := job.jobId, jobResrcs := job.jobResrcs, priority := job.priority,
        sigState := .resume }).modPart p fun t => { t with jobList := t.jobList ++ [j] }).fits m p j ↔
      (h.entered p job j).fits m p j) := by
    simp [fits, entered, modJob, modPart]
  simp only [addJobToPart, hfits]
  split_ifs
  · -- the states of the job are set in another order
    simp [entered, wake, modJob, modPart, addJobToActive, castShadow, modParts]
  · simp [entered, modJob, modPart]

theorem addJobToPart_steady (hs : Steady g) (hp : p ∈ g.gsPartList) (hj : g.Fresh j) :
    Steady (g.addJobToPart m p job j).2 ∧ Lists [j] g (g.addJobToPart m p job j).2 ∧
      ((g.addJobToPart m p job j).1 = .suspend → Shrinks m g (g.addJobToPart m p job j).2) := by
  obtain ⟨hs1, hl1, hsh1⟩ : Steady (g.cleared m p job) ∧ Lists [] g (g.cleared m p job) ∧
    Shrinks m g (g.cleared m p job) := cleared_steady hs hp
  have hj1 : (g.cleared m p job).Fresh j := hl1.fresh hj not_mem_nil
  have hs2 : Steady ((g.cleared m p job).entered p job j) := entered_steady hs1 hj1
  have hl2 : Lists [j] g ((g.cleared m p job).entered p job j) := hl1.trans entered_lists
  rw [addJobToPart_eq]
  set h := (g.cleared m p job).entered p job j with hh
  simp only
  split_ifs with hc
  · have hp2 : p ∈ h.gsPartList := hl2.gsPartList ▸ hp
    have hjp : j ∈ (h.part p).jobList := mem_entered.2 (Or.inr ⟨rfl, rfl⟩)
    have hpl : Turn p h (h.addJobToActive m p j) := hs2.sound.place
    have hjp1 := hpl.jobList.mem_iff.2 hjp
    have hwake := hpl.sound.wake (hpl.gsPartList ▸ hp2) hjp1
    have ht : Turn p h _ := (hpl.trans hwake).trans
      (hwake.sound.setRow (hwake.jobList.mem_iff.2 hjp1) .filler)
    refine ⟨ht.steady hs2 hp2 fun k hk => ?_, ?_, fun h => nomatch h⟩
    · rw [modJob_job]
      split_ifs with hkj
      · simp [wake_job]
      · rw [wake_job, if_neg hkj]
        exact hs2.rowed p hp2 k (ht.jobList.mem_iff.1 hk)
    · have hl := hl2.trans ht.lists
      rwa [append_nil] at hl
  · exact ⟨hs2, hl2, fun _ => hsh1.trans entered_shrinks⟩

end

/-! ## The operations -/

theorem findGsPart_mem {name : CStr} (h : g.findGsPart name = some p) : p ∈ g.gsPartList :=
  mem_of_find?_eq_some h

theorem updateAllActiveRows_exclusive (hs : Steady g) (ho : g.Ordered order) :
    Steady (g.updateAllActiveRows m order) ∧ Exclusive m (g.updateAllActiveRows m order) := by
  obtain ⟨hf, hst, hsafe⟩ := round_turns safeAt_lasting hs ho fun h done _ hst p hp _ => by
    obtain ⟨ht, -, hfill⟩ := updateActiveRow_filled (m := m) hst.sound hp (hst.rowed p hp) true
    exact ⟨ht, hfill.rowed, hfill.safeAt ht.sound (ht.gsPartList ▸ hp)⟩
  refine ⟨hst, (exclusive_iff hst.sound).2 fun p hp => hsafe p ?_⟩
  rw [hf.gsPartList] at hp
  exact hp

variable {job : GangJob}

theorem gsJobStart_exclusive (hs : Steady g) (he : Exclusive m g) (hj : g.Fresh j)
    (ho : g.Ordered order) : Steady (g.gsJobStart m job j order) ∧
      Exclusive m (g.gsJobStart m job j order) := by
  unfold gsJobStart
  cases hfind : g.findGsPart job.partName with
  | none => exact ⟨hs, he⟩
  | some p =>
    obtain ⟨hs', hl, hsh⟩ := addJobToPart_steady hs (findGsPart_mem hfind) hj
    dsimp only
    split_ifs with hsig
    · exact updateAllActiveRows_exclusive hs' (hl.ordered ho)
    · -- the new job is suspended, and nothing else has changed for the worse
      refine ⟨hs', he.shrinks (hsh ?_)⟩
      cases hcase : (g.addJobToPart m p job j).1 with
      | suspend => rfl
      | resume => exact absurd hcase hsig

theorem gsJobFini_exclusive (hs : Steady g) (he : Exclusive m g)
    (ho : g.Ordered order) : Steady (g.gsJobFini m job order) ∧
      Exclusive m (g.gsJobFini m job order) := by
  unfold gsJobFini
  cases hfind : g.findGsPart job.partName with
  | none => exact ⟨hs, he⟩
  | some p =>
    obtain ⟨hs', hl, -⟩ := removeJobFromPart_steady (m := m) hs (findGsPart_mem hfind) job.jobId
    exact updateAllActiveRows_exclusive hs' (hl.ordered ho)

theorem scanJob_steady (hs : Steady g) (hj : g.Fresh j) :
    Steady (g.scanJob m job j) ∧ Lists [j] g (g.scanJob m job j) := by
  have hsame : Steady g ∧ Lists [j] g g := ⟨hs, ⟨rfl, fun _ => rfl, fun _ _ _ hk => Or.inr hk⟩⟩
  unfold scanJob
  split
  · exact hsame
  · cases hfind : g.findGsPart job.partName with
    | none => exact hsame
    | some p =>
      dsimp only
      split_ifs
      · exact hsame
      · obtain ⟨hs', hl, -⟩ := addJobToPart_steady hs (findGsPart_mem hfind) hj
        exact ⟨hs', hl⟩
      · obtain ⟨hs', hl, -⟩ := removeJobFromPart_steady (m := m) hs (findGsPart_mem hfind) job.jobId
        refine ⟨hs', hl.gsPartList, hl.priority, fun q hq k hk => ?_⟩
        exact Or.inr ((hl.mem q hq k hk).resolve_left not_mem_nil)

section

variable {jobs : List (GangJob × Ptr)} (hs : Steady g) (hj : ∀ x ∈ jobs, g.Fresh x.2)
  (hnd : (jobs.map Prod.snd).Nodup)

include hs hj hnd

/-- The jobs in the list of all jobs are looked at one after the other. -/
theorem scanJobs_steady :
    Steady (jobs.foldl (fun g x => g.scanJob m x.1 x.2) g) ∧
      Lists (jobs.map Prod.snd) g (jobs.foldl (fun g x => g.scanJob m x.1 x.2) g) := by
  induction jobs generalizing g with
  | nil => exact ⟨hs, Lists.refl g⟩
  | cons x jobs ih =>
    rw [map_cons, nodup_cons] at hnd
    obtain ⟨hs', hl⟩ : Steady (g.scanJob m x.1 x.2) ∧ Lists [x.2] g (g.scanJob m x.1 x.2) :=
      scanJob_steady hs (hj x mem_cons_self)
    -- the addresses of later jobs are still free
    have hj' : ∀ y ∈ jobs, (g.scanJob m x.1 x.2).Fresh y.2 := by
      intro y hy
      refine hl.fresh (hj y (mem_cons_of_mem _ hy)) ?_
      rw [mem_singleton]
      intro heq
      exact hnd.1 (heq ▸ mem_map_of_mem hy)
    obtain ⟨hs'', hl'⟩ := ih hs' hj' hnd.2
    exact ⟨hs'', hl.trans hl'⟩

theorem gsJobScan_exclusive (ho : g.Ordered order) :
    Steady (g.gsJobScan m jobs order) ∧ Exclusive m (g.gsJobScan m jobs order) := by
  obtain ⟨hs', hl⟩ := scanJobs_steady hs hj hnd
  exact updateAllActiveRows_exclusive hs' (hl.ordered ho)

end

/-! ## Time slices -/

/-- A time slice looks at `q` whatever happens above, or none of the jobs that may be
    resumed above needs a core of those that run in `q`. -/
def Calm (m : CoreMap) (g : Gang) (q : Ptr) : Prop :=
  (g.part q).jobsActive < (g.part q).jobList.length ∨
    ∀ p ∈ g.gsPartList, (g.part q).priority < (g.part p).priority →
      ∀ k ∈ (g.part p).jobList, (g.job k).sigState = .suspend →
        ∀ j ∈ (g.part q).jobList, (g.job j).sigState = .resume →
          Disjoint (g.cores m j) (g.cores m k)
  deriving Decidable

/-- A partition that is not looked at stays safe, if it is calm. -/
theorem Calm.safeAt {done : List Ptr} {h : Gang} (hc : g.Calm m q)
    (he : Exclusive m g) (hf : Frame done g h) (hst : Sound h) (hq : q ∈ g.gsPartList)
    (hnot : q ∉ done) (hskip : ¬(h.part q).jobsActive < (h.part q).jobList.length) :
    SafeAt m h q := by
  have hlit := hf.lit q hnot
  have hlist : (h.part q).jobList = (g.part q).jobList := of_lit (·.jobList) hlit
  have hcalm := hc.resolve_left (by
    rwa [of_lit (·.jobsActive) hlit, hlist] at hskip)
  have hruns (j) (hj : h.Runs q j) : g.Runs q j := by
    obtain ⟨hjl, hsig⟩ := hj
    rw [hlist] at hjl
    rw [hf.job q hq hnot j hjl] at hsig
    exact ⟨hjl, hsig⟩
  refine ⟨fun j k hj hk hjk => ?_, fun j k hj hk => ?_⟩
  · rw [hf.cores, hf.cores]
    exact he.inside q hq j k (hruns j hj) (hruns k hk) hjk
  · rw [hf.cores, hf.cores]
    obtain ⟨p, hp, hlt, hkp, -⟩ := (hst.shadowed q (hf.gsPartList ▸ hq) k).1 hk
    rw [hf.gsPartList] at hp
    rw [hf.priority, hf.priority] at hlt
    rw [(hf.jobLists p).mem_iff] at hkp
    -- the job above ran before, or was resumed in this slice
    cases hsig : (g.job k).sigState with
    | resume => exact he.above q hq p hp hlt j k (hruns j hj) ⟨hkp, hsig⟩
    | suspend => exact hcalm p hp hlt k hkp hsig j (hruns j hj).1 (hruns j hj).2

theorem timeSlice_exclusive (hs : Steady g) (he : Exclusive m g) (ho : g.Ordered order)
    (hc : ∀ q ∈ g.gsPartList, g.Calm m q) :
    Steady (g.timeSlice m order) ∧ Exclusive m (g.timeSlice m order) := by
  set g0 : Gang := { g with gsPartList := order } with hg0
  have he0 : Exclusive m g0 := ⟨fun p hp => he.inside p (ho.perm.mem_iff.1 hp), fun p hp q hq =>
      he.above p (ho.perm.mem_iff.1 hp) q (ho.perm.mem_iff.1 hq)⟩
  have hc0 : ∀ q ∈ g0.gsPartList, g0.Calm m q := fun q hq =>
    (hc q (ho.perm.mem_iff.1 hq)).imp_right fun h p hp => h p (ho.perm.mem_iff.1 hp)
  obtain ⟨hf, hst, hsafe⟩ : Frame order.reverse g0 (g.timeSlice m order) ∧
      Steady (g.timeSlice m order) ∧ ∀ q ∈ order, SafeAt m (g.timeSlice m order) q := by
    refine round_turns safeAt_lasting hs ho fun h done hf hst p hp hnot => ?_
    have hp0 : p ∈ g0.gsPartList := hf.gsPartList ▸ hp
    unfold slicePart
    split_ifs with hturn
    · obtain ⟨ht, -, hfill, -⟩ := cycleJobList_filled hst.sound hp
      exact ⟨ht, hfill.rowed, hfill.safeAt ht.sound (ht.gsPartList ▸ hp)⟩
    · refine ⟨Turn.refl hst.sound, hst.rowed p hp, ?_⟩
      exact (hc0 p hp0).safeAt he0 hf hst.sound hp0 hnot (by omega)
  refine ⟨hst, (exclusive_iff hst.sound).2 fun p hp => hsafe p ?_⟩
  rw [hf.gsPartList] at hp
  exact hp

/-! ## Runs -/

end Gang

/-- The operations of the gang scheduler. A job that is new gets an address, and the partitions
    are sorted as `order`. -/
inductive GangOp
  | start (job : GangJob) (j : Ptr) (order : List Ptr)
  | fini (job : GangJob) (order : List Ptr)
  | scan (jobs : List (GangJob × Ptr)) (order : List Ptr)
  | slice (order : List Ptr)

namespace GangOp

/-- The state after an operation. -/
def exec (m : CoreMap) (g : Gang) : GangOp → Gang
  | start job j order => g.gsJobStart m job j order
  | fini job order => g.gsJobFini m job order
  | scan jobs order => g.gsJobScan m jobs order
  | slice order => g.timeSlice m order

/-- New jobs get addresses that are free, and `list_sort` sorts. -/
def Valid (g : Gang) : GangOp → Prop
  | start _ j order => g.Fresh j ∧ g.Ordered order
  | fini _ order => g.Ordered order
  | scan jobs order => (∀ x ∈ jobs, g.Fresh x.2) ∧ (jobs.map Prod.snd).Nodup ∧ g.Ordered order
  | slice order => g.Ordered order

/-- An operation that meets the condition on time slices. -/
def Quiet (m : CoreMap) (g : Gang) : GangOp → Prop
  | slice order => g.Ordered order ∧ ∀ q ∈ g.gsPartList, g.Calm m q
  | o => o.Valid g

/-- The jobs that come in have a priority. -/
def Prioritised : GangOp → Prop
  | start job _ _ => job.priority ≠ 0
  | fini _ _ => True
  | scan jobs _ => ∀ x ∈ jobs, x.1.priority ≠ 0
  | slice _ => True

instance : (o : GangOp) → Decidable o.Prioritised
  | start job _ _ => inferInstanceAs (Decidable (job.priority ≠ 0))
  | scan jobs _ => inferInstanceAs (Decidable (∀ x ∈ jobs, x.1.priority ≠ 0))
  | fini _ _ | slice _ => .isTrue trivial

instance (g : Gang) : (o : GangOp) → Decidable (o.Valid g)
  | start _ _ _ | scan _ _ => inferInstanceAs (Decidable (_ ∧ _))
  | fini _ order | slice order => inferInstanceAs (Decidable (g.Ordered order))

instance (m : CoreMap) (g : Gang) : (o : GangOp) → Decidable (o.Quiet m g)
  | start job j order => inferInstanceAs (Decidable ((start job j order).Valid g))
  | fini job order => inferInstanceAs (Decidable ((fini job order).Valid g))
  | scan jobs order => inferInstanceAs (Decidable ((scan jobs order).Valid g))
  | slice _ => inferInstanceAs (Decidable (_ ∧ _))

end GangOp

namespace Gang

variable {m : CoreMap} {g : Gang}

/-- The scheduler has no jobs yet. -/
structure Empty (g : Gang) : Prop where
  parts : g.gsPartList.Nodup
  jobs : ∀ p ∈ g.gsPartList, (g.part p).jobList = [] ∧ (g.part p).shadow = []

theorem Empty.steady (h : Empty g) : Steady g := by
  have hno (p) (hp : p ∈ g.gsPartList) (j) : j ∉ (g.part p).jobList := by
    rw [(h.jobs p hp).1]
    exact not_mem_nil
  refine ⟨⟨h.parts, fun p hp => ?_, fun p hp _ _ j hj => absurd hj (hno p hp j), fun q hq => ?_,
    fun q hq j => ?_⟩, fun p hp j hj => absurd hj (hno p hp j)⟩
  · rw [(h.jobs p hp).1]
    exact nodup_nil
  · rw [(h.jobs q hq).2]
    exact nodup_nil
  · rw [(h.jobs q hq).2]
    refine ⟨fun hj => absurd hj not_mem_nil, ?_⟩
    rintro ⟨p, hp, -, hj, -⟩
    exact absurd hj (hno p hp j)

theorem Empty.exclusive (h : Empty g) : Exclusive m g := by
  refine (exclusive_iff h.steady.sound).2 fun p hp => ?_
  have hno (j) : ¬g.Runs p j := by
    rintro ⟨hj, -⟩
    rw [(h.jobs p hp).1] at hj
    exact not_mem_nil hj
  exact ⟨fun j _ hj => absurd hj (hno j), fun j _ hj => absurd hj (hno j)⟩

/-- In every run whose time slices find the partitions calm, no two jobs of a partition run on
    the same core, and no job runs on a core of one that runs in a partition of a
    higher priority. -/
theorem gang_exclusive (m : CoreMap) (g : Gang) (hg : g.Empty) (os : List GangOp)
    (hrun : Run.Admissible (GangOp.exec m) (fun g o => o.Quiet m g) g os) :
    (Run.run (GangOp.exec m) g os).Exclusive m := by
  have hinv : Steady (Run.run (GangOp.exec m) g os) ∧
      (Run.run (GangOp.exec m) g os).Exclusive m := by
    refine Run.invariant_run (I := fun g => Steady g ∧ Exclusive m g) (fun g o hI hok => ?_)
      ⟨hg.steady, hg.exclusive⟩ hrun
    obtain ⟨hs, he⟩ := hI
    cases o with
    | start job j order => exact gsJobStart_exclusive hs he hok.1 hok.2
    | fini job order => exact gsJobFini_exclusive hs he hok
    | scan jobs order => exact gsJobScan_exclusive hs hok.1 hok.2.1 hok.2.2
    | slice order => exact timeSlice_exclusive hs he hok.1 hok.2
  exact hinv.2

/-! ## A swap that goes unnoticed -/

/-- One node with two cores. -/
def twoCores : CoreMap := ⟨1, fun _ => 0, fun _ => 2⟩

/-- Two partitions without jobs, of which the first has the higher priority. -/
def twoParts : Gang where
  part p :=
    if p = 0 then { partName := ['h'], priority := 2 } else { partName := ['l'], priority := 1 }
  gsPartList := [0, 1]

/-- A job that runs on some of the two cores. -/
def coresJob (id : ℕ) (name : CStr) (cores : Bitmap) : GangJob where
  jobId := id
  jobState := { base := .running }
  partName := name
  priority := 1
  jobResrcs := { nodeBitmap := {0}, coreBitmap := cores }

/-- In the upper partition are a job with the first core, and one with the cores `b`; in the
    lower one is a job with the second core. -/
def threeStarts (b : Bitmap) : List GangOp :=
  [.start (coresJob 1 ['h'] {0}) 10 [0, 1], .start (coresJob 2 ['h'] b) 11 [0, 1],
    .start (coresJob 3 ['l'] {1}) 12 [0, 1]]

theorem twoParts_empty : twoParts.Empty := ⟨by decide, by decide⟩

/-- The two jobs above share the first core, and take turns. -/
theorem gang_exclusive_three :
    (Run.run (GangOp.exec twoCores) twoParts
      (threeStarts {0} ++ [.slice [0, 1], .slice [0, 1]])).Exclusive twoCores :=
  gang_exclusive twoCores twoParts twoParts_empty _ (by decide +kernel)

/-- In the second time slice a job with both cores gets its turn, and the job below goes on
    to run on one of them. -/
theorem slice_conflict : ¬∀ (m : CoreMap) (g : Gang), g.Empty → ∀ os : List GangOp,
    Run.Admissible (GangOp.exec m) (fun g o => o.Valid g) g os → (∀ o ∈ os, o.Prioritised) →
      (Run.run (GangOp.exec m) g os).Exclusive m := by
  intro hall
  have hex := hall twoCores twoParts twoParts_empty
    (threeStarts {0, 1} ++ [.slice [0, 1], .slice [0, 1]]) (by decide +kernel) (by decide)
  -- the job below, and the one that has both cores
  have hdisj := hex.above 1 (by decide +kernel) 0 (by decide +kernel) (by decide +kernel) 12 11
    (by decide +kernel) (by decide +kernel)
  revert hdisj
  decide +kernel

end Gang

end Slurm
