import Slurm.Gang

/-!
# The turn of a partition

What the gang scheduler keeps between its operations (`Gang.Sound`): a job is in one
partition, and the shadows on a partition are the jobs that run in partitions of a
higher priority. In the turn of a partition, jobs are placed in its row, halted and
woken. Each of these keeps `Sound`, and changes nothing of the other partitions but the
shadows of the jobs of this one (`Gang.Acts`).
-/

namespace Slurm

/-- All of a partition but the shadows on it. -/
def GsPart.lit (t : GsPart) : GsPart := { t with shadow := [] }

/-- All of a job but what the scheduler decides on. -/
def GsJob.fixed (k : GsJob) : GsJob := { k with sigState := .suspend, rowState := .noActive }

namespace Gang

variable {m : CoreMap} {g g' g'' : Gang} {p q j k : Ptr}

/-! ## Fields -/

@[simp] theorem modPart_job (f) : (g.modPart p f).job = g.job := rfl
@[simp] theorem castShadow_job (n) : (g.castShadow j n).job = g.job := rfl
@[simp] theorem clearShadow_job : (g.clearShadow j).job = g.job := rfl

theorem modJob_job (f) (k : Ptr) :
    (g.modJob j f).job k = if k = j then f (g.job j) else g.job k := by
  simp only [modJob, Function.update_apply]

theorem modPart_part (f) (q : Ptr) :
    (g.modPart p f).part q = if q = p then f (g.part p) else g.part q := by
  simp only [modPart, Function.update_apply]

@[simp] theorem castShadow_lit (n) (q : Ptr) : ((g.castShadow j n).part q).lit = (g.part q).lit := by
  simp only [castShadow, modParts]
  split_ifs <;> rfl

@[simp] theorem clearShadow_lit (q : Ptr) : ((g.clearShadow j).part q).lit = (g.part q).lit := by
  simp only [clearShadow, modParts]
  split_ifs <;> rfl

theorem of_lit {A : Type*} {t t' : GsPart} (f : GsPart → A) (h : t'.lit = t.lit)
    (hf : ∀ t : GsPart, f t.lit = f t := by intro; rfl) : f t' = f t := by
  rw [← hf, h, hf]

theorem of_fixed {A : Type*} {k k' : GsJob} (f : GsJob → A) (h : k'.fixed = k.fixed)
    (hf : ∀ k : GsJob, f k.fixed = f k := by intro; rfl) : f k' = f k := by
  rw [← hf, h, hf]

@[simp] theorem addJobToActive_jobList (q : Ptr) :
    ((g.addJobToActive m p j).part q).jobList = (g.part q).jobList := by
  simp only [addJobToActive, modPart_part]
  split_ifs with h <;> simp [h]

@[simp] theorem addJobToActive_priority (q : Ptr) :
    ((g.addJobToActive m p j).part q).priority = (g.part q).priority := by
  simp only [addJobToActive, modPart_part]
  split_ifs with h <;> simp [h]

@[simp] theorem addJobToActive_partName (q : Ptr) :
    ((g.addJobToActive m p j).part q).partName = (g.part q).partName := by
  simp only [addJobToActive, modPart_part]
  split_ifs with h <;> simp [h]

@[simp] theorem addJobToActive_shadow (q : Ptr) :
    ((g.addJobToActive m p j).part q).shadow = (g.part q).shadow := by
  simp only [addJobToActive, modPart_part]
  split_ifs with h <;> simp [h]

theorem mem_castShadow {n : ℕ} (hq : q ∈ g.gsPartList) :
    k ∈ ((g.castShadow j n).part q).shadow ↔
      k ∈ (g.part q).shadow ∨ (k = j ∧ (g.part q).priority < n) := by
  simp only [castShadow, modParts, if_pos hq]
  split_ifs with h
  · constructor
    · exact Or.inl
    · rintro (hk | ⟨rfl, hlt⟩)
      · exact hk
      · exact h.resolve_left (by omega)
  · rw [not_or, not_le] at h
    simp only [List.mem_append, List.mem_singleton]
    tauto

theorem castShadow_nodup {n : ℕ} (h : (g.part q).shadow.Nodup) :
    ((g.castShadow j n).part q).shadow.Nodup := by
  simp only [castShadow, modParts]
  split_ifs with _ hc
  · exact h
  · rw [not_or] at hc
    exact List.nodup_append.2 ⟨h, List.nodup_singleton j, by
      rintro a ha b hb rfl
      exact hc.2 (List.mem_singleton.1 hb ▸ ha)⟩
  · exact h

theorem mem_clearShadow (hq : q ∈ g.gsPartList) (h : (g.part q).shadow.Nodup) :
    k ∈ ((g.clearShadow j).part q).shadow ↔ k ≠ j ∧ k ∈ (g.part q).shadow := by
  simp only [clearShadow, modParts, if_pos hq]
  exact h.mem_erase_iff

theorem clearShadow_nodup (h : (g.part q).shadow.Nodup) :
    ((g.clearShadow j).part q).shadow.Nodup := by
  simp only [clearShadow, modParts]
  split_ifs
  · exact h.erase j
  · exact h

/-! ## The active row -/

/-- The cores that are taken in the active row of a partition. -/
def row (g : Gang) (p : Ptr) : Bitmap :=
  if (g.part p).jobsActive = 0 then ∅ else (g.part p).activeResmap.getD ∅

theorem fits_iff : g.fits m p j ↔ Disjoint (g.cores m j) (g.row p) := by
  unfold fits row cores
  rcases hr : (g.part p).activeResmap with - | full
  · simp
  · by_cases h0 : (g.part p).jobsActive = 0
    · simp [h0]
    · simp [h0, jobFitsIntoCores_iff]

theorem row_addJobToActive : (g.addJobToActive m p j).row p = g.row p ∪ g.cores m j := by
  have hpart : (g.addJobToActive m p j).part p = { g.part p with
        activeResmap := some (addJobToCores m (g.job j).jobResrcs
          (if (g.part p).jobsActive = 0 then (g.part p).activeResmap.map fun _ => ∅
            else (g.part p).activeResmap))
        jobsActive := (g.part p).jobsActive + 1 } := by
    simp [addJobToActive, modPart_part]
  simp only [row, hpart, cores, Nat.add_one_ne_zero, if_false, Option.getD_some, addJobToCores_eq]
  -- a row that is taken up again is cleared first
  by_cases h0 : (g.part p).jobsActive = 0
  · rw [if_pos h0, if_pos h0]
    cases (g.part p).activeResmap <;> rfl
  · rw [if_neg h0, if_neg h0]

@[simp] theorem addJobToActive_jobsActive :
    ((g.addJobToActive m p j).part p).jobsActive = (g.part p).jobsActive + 1 := by
  simp [addJobToActive, modPart_part]

/-! ## What holds between the turns -/

/-- A job is in one partition, and the shadows on a partition are the jobs that run in
    the partitions of a higher priority. -/
structure Sound (g : Gang) : Prop where
  parts : g.gsPartList.Nodup
  jobs : ∀ p ∈ g.gsPartList, (g.part p).jobList.Nodup
  apart : ∀ p ∈ g.gsPartList, ∀ q ∈ g.gsPartList, ∀ j,
    j ∈ (g.part p).jobList → j ∈ (g.part q).jobList → p = q
  shadows : ∀ q ∈ g.gsPartList, (g.part q).shadow.Nodup
  shadowed : ∀ q ∈ g.gsPartList, ∀ j, j ∈ (g.part q).shadow ↔
    ∃ p ∈ g.gsPartList, (g.part q).priority < (g.part p).priority ∧
      j ∈ (g.part p).jobList ∧ (g.job j).sigState = .resume

/-- The jobs in the row of a partition are those that run. -/
def Rowed (g : Gang) (p : Ptr) : Prop :=
  ∀ j ∈ (g.part p).jobList, (g.job j).rowState ≠ .noActive ↔ (g.job j).sigState = .resume

/-- What the turn of a partition leaves as it is. -/
structure Acts (p : Ptr) (g g' : Gang) : Prop where
  gsPartList : g'.gsPartList = g.gsPartList
  other : ∀ q, q ≠ p → (g'.part q).lit = (g.part q).lit
  priority : (g'.part p).priority = (g.part p).priority
  partName : (g'.part p).partName = (g.part p).partName
  jobList : (g'.part p).jobList.Perm (g.part p).jobList
  fixed : ∀ j, (g'.job j).fixed = (g.job j).fixed
  job : ∀ j, j ∉ (g.part p).jobList → g'.job j = g.job j

namespace Acts

theorem refl (p : Ptr) (g : Gang) : Acts p g g :=
  ⟨rfl, fun _ _ => rfl, rfl, rfl, .refl _, fun _ => rfl, fun _ _ => rfl⟩

theorem trans (h : Acts p g g') (h' : Acts p g' g'') : Acts p g g'' where
  gsPartList := h'.gsPartList.trans h.gsPartList
  other q hq := (h'.other q hq).trans (h.other q hq)
  priority := h'.priority.trans h.priority
  partName := h'.partName.trans h.partName
  jobList := h'.jobList.trans h.jobList
  fixed j := (h'.fixed j).trans (h.fixed j)
  job j hj := (h'.job j fun hm => hj (h.jobList.mem_iff.1 hm)).trans (h.job j hj)

theorem priorities (h : Acts p g g') (q : Ptr) : (g'.part q).priority = (g.part q).priority := by
  by_cases hq : q = p
  · exact hq ▸ h.priority
  · exact of_lit (·.priority) (h.other q hq)

theorem jobLists (h : Acts p g g') (q : Ptr) :
    (g'.part q).jobList.Perm (g.part q).jobList := by
  by_cases hq : q = p
  · exact hq ▸ h.jobList
  · rw [of_lit (·.jobList) (h.other q hq)]

theorem cores (h : Acts p g g') (j : Ptr) : g'.cores m j = g.cores m j := by
  unfold Gang.cores
  rw [of_fixed (·.jobResrcs) (h.fixed j)]

end Acts

/-- The turn of a partition, or a part of it, that keeps what holds between the turns. -/
structure Turn (p : Ptr) (g g' : Gang) : Prop extends Acts p g g' where
  sound : Sound g'

namespace Turn

theorem refl (h : Sound g) : Turn p g g := ⟨Acts.refl p g, h⟩

theorem trans (h : Turn p g g') (h' : Turn p g' g'') : Turn p g g'' :=
  ⟨h.toActs.trans h'.toActs, h'.sound⟩

end Turn

/-- A job of a partition is no shadow on this partition. -/
theorem Sound.notMem_shadow (h : Sound g) (hp : p ∈ g.gsPartList) (hj : j ∈ (g.part p).jobList) :
    j ∉ (g.part p).shadow := by
  intro hm
  obtain ⟨q, hq, hlt, hjq, -⟩ := (h.shadowed p hp j).1 hm
  have hpq : p = q := h.apart p hp q hq j hj hjq
  subst hpq
  exact lt_irrefl _ hlt

/-! ## Jobs are placed, halted and woken -/

/-- Suspend a job that runs. -/
def halt (g : Gang) (j : Ptr) : Gang :=
  (g.modJob j fun k => { k with sigState := .suspend }).clearShadow j

/-- Resume a job of `p` that is suspended. -/
def wake (g : Gang) (p j : Ptr) : Gang :=
  (g.modJob j fun k => { k with sigState := .resume }).castShadow j (g.part p).priority

theorem halt_job (k : Ptr) :
    (g.halt j).job k = if k = j then { g.job j with sigState := .suspend } else g.job k := by
  simp [halt, clearShadow_job, modJob_job]

theorem wake_job (k : Ptr) :
    (g.wake p j).job k = if k = j then { g.job j with sigState := .resume } else g.job k := by
  simp [wake, castShadow_job, modJob_job]

/-- The shadow of a job that runs is there already. -/
theorem Sound.castShadow_eq (h : Sound g) (hp : p ∈ g.gsPartList) (hj : j ∈ (g.part p).jobList)
    (hr : (g.job j).sigState = .resume) : g.castShadow j (g.part p).priority = g := by
  unfold castShadow modParts
  congr 1
  funext q
  beta_reduce
  split_ifs with hq hc
  · rfl
  · -- a partition of a lower priority, where the job is not a shadow yet
    rw [not_or, not_le] at hc
    exact absurd ((h.shadowed q hq j).2 ⟨p, hp, hc.1, hj, hr⟩) hc.2
  · rfl

/-- After a part of a turn it remains to see that the shadows are right. -/
theorem Acts.sound (h : Acts p g g') (hs : Sound g)
    (hnd : ∀ q ∈ g.gsPartList, (g'.part q).shadow.Nodup)
    (hsh : ∀ q ∈ g.gsPartList, ∀ j, j ∈ (g'.part q).shadow ↔
      ∃ p ∈ g.gsPartList, (g.part q).priority < (g.part p).priority ∧
        j ∈ (g.part p).jobList ∧ (g'.job j).sigState = .resume) : Sound g' where
  parts := h.gsPartList ▸ hs.parts
  jobs q hq := (h.jobLists q).nodup_iff.2 (hs.jobs q (h.gsPartList ▸ hq))
  apart q hq r hr j hjq hjr :=
    hs.apart q (h.gsPartList ▸ hq) r (h.gsPartList ▸ hr) j ((h.jobLists q).mem_iff.1 hjq)
      ((h.jobLists r).mem_iff.1 hjr)
  shadows q hq := hnd q (h.gsPartList ▸ hq)
  shadowed q hq j := by
    simp only [h.gsPartList, h.priorities, (h.jobLists _).mem_iff]
    exact hsh q (h.gsPartList ▸ hq) j

/-- A part of a turn that leaves shadows and signals alone. -/
theorem Acts.turn (h : Acts p g g') (hs : Sound g)
    (hsh : ∀ q, (g'.part q).shadow = (g.part q).shadow)
    (hsig : ∀ j, (g'.job j).sigState = (g.job j).sigState) : Turn p g g' := by
  refine ⟨h, h.sound hs (fun q hq => ?_) fun q hq j => ?_⟩
  · rw [hsh]
    exact hs.shadows q hq
  · rw [hsh, hsig]
    exact hs.shadowed q hq j

theorem Sound.place (h : Sound g) : Turn p g (g.addJobToActive m p j) := by
  refine Acts.turn ?_ h (fun q => addJobToActive_shadow q) (fun _ => rfl)
  refine ⟨rfl, fun q hq => ?_, addJobToActive_priority p, addJobToActive_partName p, ?_,
    fun _ => rfl, fun _ _ => rfl⟩
  · simp [addJobToActive, modPart_part, hq]
  · rw [addJobToActive_jobList]

/-- The row is forgotten. -/
def reset (g : Gang) (p : Ptr) : Gang := g.modPart p fun t => { t with jobsActive := 0 }

theorem reset_part (q : Ptr) :
    (g.reset p).part q = if q = p then { g.part p with jobsActive := 0 } else g.part q :=
  modPart_part _ q

theorem reset_shadow (q : Ptr) : ((g.reset p).part q).shadow = (g.part q).shadow := by
  rw [reset_part]
  split_ifs with hq
  · rw [hq]
  · rfl

@[simp] theorem reset_jobList : ((g.reset p).part p).jobList = (g.part p).jobList := by
  rw [reset_part, if_pos rfl]

@[simp] theorem reset_jobsActive : ((g.reset p).part p).jobsActive = 0 := by
  rw [reset_part, if_pos rfl]

theorem Sound.reset (h : Sound g) : Turn p g (g.reset p) := by
  refine Acts.turn ⟨rfl, fun q hq => ?_, ?_, ?_, ?_, fun _ => rfl, fun _ _ => rfl⟩ h
    (fun q => reset_shadow q) fun _ => rfl
  · rw [reset_part, if_neg hq]
  · rw [reset_part, if_pos rfl]
  · rw [reset_part, if_pos rfl]
  · rw [reset_jobList]

theorem Sound.setRow (h : Sound g) (hj : j ∈ (g.part p).jobList) (r : RowState) :
    Turn p g (g.modJob j fun k => { k with rowState := r }) := by
  refine Acts.turn ?_ h (fun _ => rfl) fun k => ?_
  · refine ⟨rfl, fun _ _ => rfl, rfl, rfl, .refl _, fun k => ?_, fun k hk => ?_⟩
    · rw [modJob_job]
      split_ifs with hkj
      · rw [hkj]; rfl
      · rfl
    · rw [modJob_job, if_neg]
      rintro rfl
      exact hk hj
  · rw [modJob_job]
    split_ifs with hkj
    · rw [hkj]
    · rfl

/-- A new signal for one job of the partition is all that a turn may do to the jobs. -/
theorem acts_of_signal {s : SigState} (hl : g'.gsPartList = g.gsPartList)
    (hlit : ∀ q, (g'.part q).lit = (g.part q).lit)
    (hjob : ∀ k, g'.job k = if k = j then { g.job j with sigState := s } else g.job k)
    (hj : j ∈ (g.part p).jobList) : Acts p g g' := by
  refine ⟨hl, fun q _ => hlit q, of_lit (·.priority) (hlit p), of_lit (·.partName) (hlit p), ?_,
    fun k => ?_, fun k hk => ?_⟩
  · rw [of_lit (·.jobList) (hlit p)]
  · rw [hjob]
    split_ifs with hkj
    · rw [hkj]; rfl
    · rfl
  · rw [hjob, if_neg]
    rintro rfl
    exact hk hj

theorem Sound.halt (h : Sound g) (hj : j ∈ (g.part p).jobList) : Turn p g (g.halt j) := by
  have hlit (q : Ptr) : ((g.halt j).part q).lit = (g.part q).lit := clearShadow_lit q
  have hacts : Acts p g (g.halt j) := acts_of_signal rfl hlit halt_job hj
  refine ⟨hacts, hacts.sound h (fun q hq => clearShadow_nodup (h.shadows q hq)) fun q hq k => ?_⟩
  -- the job is suspended, and its shadow gone; all others are as before
  have hm : k ∈ ((g.halt j).part q).shadow ↔ k ≠ j ∧ k ∈ (g.part q).shadow :=
    mem_clearShadow hq (h.shadows q hq)
  rw [hm, h.shadowed q hq k, halt_job]
  by_cases hkj : k = j
  · simp [hkj]
  · simp [hkj]

theorem Sound.wake (h : Sound g) (hp : p ∈ g.gsPartList) (hj : j ∈ (g.part p).jobList) :
    Turn p g (g.wake p j) := by
  have hlit (q : Ptr) : ((g.wake p j).part q).lit = (g.part q).lit := castShadow_lit _ q
  have hacts : Acts p g (g.wake p j) := acts_of_signal rfl hlit wake_job hj
  refine ⟨hacts, hacts.sound h (fun q hq => castShadow_nodup (h.shadows q hq)) fun q hq k => ?_⟩
  have hm : k ∈ ((g.wake p j).part q).shadow ↔
      k ∈ (g.part q).shadow ∨ (k = j ∧ (g.part q).priority < (g.part p).priority) :=
    mem_castShadow hq
  rw [hm, h.shadowed q hq k, wake_job]
  by_cases hkj : k = j
  · -- the job is in `p` only, so that its shadow is where `p` is above
    subst hkj
    simp only [true_and, if_true]
    constructor
    · rintro (⟨r, hr, hlt, hkr, -⟩ | hlt)
      · exact ⟨r, hr, hlt, hkr, trivial⟩
      · exact ⟨p, hp, hlt, hj, trivial⟩
    · rintro ⟨r, hr, hlt, hkr, -⟩
      exact Or.inr (h.apart r hr p hp k hkr hj ▸ hlt)
  · simp [hkj]

end Gang

end Slurm
