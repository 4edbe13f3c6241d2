import Slurm.Gang.Turn

/-!
# The active row

The row of a partition is built by going over its jobs, some of which are considered:
one that fits is placed, one that does not is dropped. `Gang.Packed` says what is in the
row at any time; a pass over the jobs (`Gang.Visits`, `Gang.visits_pass`) adds to it. From
this, `updateActiveRow` leaves a row that is filled with the jobs that run
(`Gang.Filled`): their cores are disjoint, and disjoint from those of the shadows.
-/

namespace Slurm.Gang

open List Or Turn

variable {m : CoreMap} {g g' : Gang} {p q j k : Ptr} {placed : List Ptr}

/-- The turn of `p` does not change the shadows on partitions that are not below `p`. -/
theorem Turn.mem_shadow (h : Turn p g g') (hs : Sound g) (hp : p ∈ g.gsPartList)
    (hq : q ∈ g.gsPartList) (hle : (g.part p).priority ≤ (g.part q).priority) :
    k ∈ (g'.part q).shadow ↔ k ∈ (g.part q).shadow := by
  rw [h.sound.shadowed q (h.gsPartList ▸ hq), hs.shadowed q hq]
  simp only [h.gsPartList, h.priorities, (h.jobLists _).mem_iff]
  -- a job that casts a shadow on `q` is not in `p`
  have hjob (r) (hr : r ∈ g.gsPartList) (hlt : (g.part q).priority < (g.part r).priority)
      (hk : k ∈ (g.part r).jobList) : g'.job k = g.job k := by
    refine h.job k fun hkp => ?_
    have hpr : p = r := hs.apart p hp r hr k hkp hk
    subst hpr
    omega
  constructor
  · rintro ⟨r, hr, hlt, hk, hsig⟩
    exact ⟨r, hr, hlt, hk, hjob r hr hlt hk ▸ hsig⟩
  · rintro ⟨r, hr, hlt, hk, hsig⟩
    exact ⟨r, hr, hlt, hk, (hjob r hr hlt hk).symm ▸ hsig⟩

/-! ## What is in the row -/

/-- The row of `p` has the jobs `placed` in it: all shadows on `p`, and jobs of `p` that are
    disjoint from all else. -/
structure Packed (m : CoreMap) (g : Gang) (p : Ptr) (placed : List Ptr) : Prop where
  nodup : placed.Nodup
  count : (g.part p).jobsActive = placed.length
  cover : ∀ j ∈ placed, g.cores m j ⊆ g.row p
  shadow : ∀ j ∈ (g.part p).shadow, j ∈ placed
  member : ∀ j ∈ placed, j ∈ (g.part p).shadow ∨
    (j ∈ (g.part p).jobList ∧ (g.job j).rowState ≠ .noActive)
  apart : ∀ j ∈ placed, j ∈ (g.part p).jobList → ∀ k ∈ placed, k ≠ j →
    Disjoint (g.cores m j) (g.cores m k)

namespace Packed

/-- A job that fits is placed. -/
theorem place (h : Packed m g p placed) (hs : Sound g) (hp : p ∈ g.gsPartList)
    (ht : Turn p g g') (hjob : ∀ k, k ≠ j → g'.job k = g.job k)
    (hj : j ∈ (g.part p).jobList) (hnew : j ∉ placed) (hfits : g.fits m p j)
    (hrow : g'.row p = g.row p ∪ g.cores m j)
    (hcount : (g'.part p).jobsActive = (g.part p).jobsActive + 1)
    (hin : (g'.job j).rowState ≠ .noActive) : Packed m g' p (j :: placed) where
  nodup := nodup_cons.2 ⟨hnew, h.nodup⟩
  count := by rw [hcount, h.count, length_cons]
  cover k hk := by
    rw [ht.cores, hrow]
    rcases mem_cons.1 hk with rfl | hk
    · exact Finset.subset_union_right
    · exact (h.cover k hk).trans Finset.subset_union_left
  shadow k hk := by
    rw [ht.mem_shadow hs hp hp le_rfl] at hk
    exact mem_cons_of_mem _ (h.shadow k hk)
  member k hk := by
    rw [ht.mem_shadow hs hp hp le_rfl, ht.jobList.mem_iff]
    rcases mem_cons.1 hk with rfl | hk'
    · exact inr ⟨hj, hin⟩
    · rw [hjob k (by rintro rfl; exact hnew hk')]
      exact h.member k hk'
  apart := by
    have hdisj (k) (hk : k ∈ placed) : Disjoint (g.cores m j) (g.cores m k) :=
      (fits_iff.1 hfits).mono_right (h.cover k hk)
    intro a ha hap b hb hab
    rw [ht.cores, ht.cores]
    rw [ht.jobList.mem_iff] at hap
    rcases mem_cons.1 ha with rfl | ha'
    · exact hdisj b ((mem_cons.1 hb).resolve_left hab)
    · rcases mem_cons.1 hb with rfl | hb'
      · exact (hdisj a ha').symm
      · exact h.apart a ha' hap b hb' hab

/-- The jobs that are not in the row may change. -/
theorem congr (h : Packed m g p placed) (hs : Sound g) (hp : p ∈ g.gsPartList)
    (ht : Turn p g g') (hrows : ∀ k ∈ placed, (g'.job k).rowState = (g.job k).rowState)
    (hrow : g'.row p = g.row p)
    (hcount : (g'.part p).jobsActive = (g.part p).jobsActive) : Packed m g' p placed where
  nodup := h.nodup
  count := hcount.trans h.count
  cover k hk := by
    rw [ht.cores, hrow]
    exact h.cover k hk
  shadow k hk := h.shadow k ((ht.mem_shadow hs hp hp le_rfl).1 hk)
  member k hk := by
    rw [ht.mem_shadow hs hp hp le_rfl, ht.jobList.mem_iff, hrows k hk]
    exact h.member k hk
  apart a ha hap b hb hab := by
    rw [ht.cores, ht.cores]
    exact h.apart a ha (ht.jobList.mem_iff.1 hap) b hb hab

end Packed

/-! ## Passes over the jobs -/

/-- A pass over the jobs: which are considered, and what becomes of one that is placed,
    and of one that is dropped. -/
structure Pass where
  considered : GsJob → Prop
  onPlace : GsJob → GsJob
  onDrop : GsJob → GsJob

/-- What a pass does when it comes to a job. -/
structure Visits (m : CoreMap) (P : Pass) (p j : Ptr) (g g' : Gang) : Prop where
  skip : ¬P.considered (g.job j) → g' = g
  turn : Turn p g g'
  jobs : ∀ k, k ≠ j → g'.job k = g.job k
  jobList : (g'.part p).jobList = (g.part p).jobList
  place : P.considered (g.job j) → g.fits m p j → g'.job j = P.onPlace (g.job j) ∧
    g'.row p = g.row p ∪ g.cores m j ∧ (g'.part p).jobsActive = (g.part p).jobsActive + 1
  drop : P.considered (g.job j) → ¬g.fits m p j → g'.job j = P.onDrop (g.job j) ∧
    g'.row p = g.row p ∧ (g'.part p).jobsActive = (g.part p).jobsActive

/-- What a pass over the jobs `todo` did, where `fresh` are the jobs it placed. -/
structure Passed (m : CoreMap) (P : Pass) (p : Ptr) (todo fresh : List Ptr) (g g' : Gang) :
    Prop where
  turn : Turn p g g'
  jobList : (g'.part p).jobList = (g.part p).jobList
  mem : ∀ j ∈ fresh, j ∈ todo ∧ P.considered (g.job j)
  other : ∀ j, (j ∉ todo ∨ ¬P.considered (g.job j)) → g'.job j = g.job j
  placed : ∀ j ∈ fresh, g'.job j = P.onPlace (g.job j)
  dropped : ∀ j ∈ todo, P.considered (g.job j) → j ∉ fresh → g'.job j = P.onDrop (g.job j)
  first : ∀ j rest, todo = j :: rest → P.considered (g.job j) → g.fits m p j → j ∈ fresh

/-- What a visit adds to the row. -/
def Catches (m : CoreMap) (P : Pass) (p j : Ptr) (g : Gang) (c : List Ptr) : Prop :=
  (P.considered (g.job j) ∧ g.fits m p j ∧ c = [j]) ∨
    (¬(P.considered (g.job j) ∧ g.fits m p j) ∧ c = [])

variable {P : Pass} {todo fresh c : List Ptr} {g₁ : Gang}

theorem Visits.packed (hv : Visits m P p j g g₁)
    (hplace : ∀ k, P.considered k → (P.onPlace k).rowState ≠ .noActive) (hs : Sound g)
    (hp : p ∈ g.gsPartList) (hj : j ∈ (g.part p).jobList) (hpk : Packed m g p placed)
    (hnew : P.considered (g.job j) → j ∉ placed) :
    ∃ c, Catches m P p j g c ∧ Packed m g₁ p (c ++ placed) := by
  by_cases hc : P.considered (g.job j)
  · by_cases hfit : g.fits m p j
    · obtain ⟨hjob, hrow, hcount⟩ := hv.place hc hfit
      refine ⟨[j], inl ⟨hc, hfit, rfl⟩, ?_⟩
      exact hpk.place hs hp hv.turn hv.jobs hj (hnew hc) hfit hrow hcount (hjob ▸ hplace _ hc)
    · obtain ⟨-, hrow, hcount⟩ := hv.drop hc hfit
      refine ⟨[], inr ⟨fun h => hfit h.2, rfl⟩, ?_⟩
      refine hpk.congr hs hp hv.turn (fun k hk => ?_) hrow hcount
      rw [hv.jobs]
      rintro rfl
      exact hnew hc hk
  · rw [hv.skip hc]
    exact ⟨[], inr ⟨fun h => hc h.1, rfl⟩, hpk⟩

/-- A visit, and then the rest of the pass. -/
theorem Passed.cons (hv : Visits m P p j g g₁) (h : Passed m P p todo fresh g₁ g')
    (hj : j ∉ todo) (hc : Catches m P p j g c) : Passed m P p (j :: todo) (fresh ++ c) g g' := by
  have hne (k) (hk : k ∈ todo) : k ≠ j := by
    rintro rfl
    exact hj hk
  -- the rest of the pass does not come to `j` again
  have hlast : g'.job j = g₁.job j := h.other j (inl hj)
  have hjc (k) (hk : k ∈ c) : k = j ∧ P.considered (g.job j) ∧ g.fits m p j := by
    rcases hc with ⟨hcon, hfit, rfl⟩ | ⟨-, rfl⟩
    · exact ⟨mem_singleton.1 hk, hcon, hfit⟩
    · exact absurd hk not_mem_nil
  refine ⟨hv.turn.trans h.turn, h.jobList.trans hv.jobList, fun k hk => ?_, fun k hk => ?_,
    fun k hk => ?_, fun k hk hcon hnot => ?_, fun a rest heq hcon hfit => ?_⟩
  · rcases mem_append.1 hk with hk | hk
    · obtain ⟨hkt, hkc⟩ := h.mem k hk
      rw [hv.jobs k (hne k hkt)] at hkc
      exact ⟨mem_cons_of_mem _ hkt, hkc⟩
    · obtain ⟨rfl, hcon, -⟩ := hjc k hk
      exact ⟨mem_cons_self, hcon⟩
  · by_cases hkj : k = j
    · subst hkj
      have hcon : ¬P.considered (g.job k) := hk.resolve_left fun h => h mem_cons_self
      rw [hlast, hv.skip hcon]
    · rw [h.other, hv.jobs k hkj]
      rw [hv.jobs k hkj]
      exact hk.imp_left fun hk hkt => hk (mem_cons_of_mem _ hkt)
  · rcases mem_append.1 hk with hk | hk
    · rw [h.placed k hk, hv.jobs k (hne k (h.mem k hk).1)]
    · obtain ⟨rfl, hcon, hfit⟩ := hjc k hk
      rw [hlast, (hv.place hcon hfit).1]
  · rw [mem_append, not_or] at hnot
    rcases mem_cons.1 hk with rfl | hkt
    · have hfit : ¬g.fits m p k := by
        intro hfit
        rcases hc with ⟨-, -, rfl⟩ | ⟨hc, -⟩
        · exact hnot.2 mem_cons_self
        · exact hc ⟨hcon, hfit⟩
      rw [hlast, (hv.drop hcon hfit).1]
    · rw [h.dropped k hkt (by rwa [hv.jobs k (hne k hkt)]) hnot.1, hv.jobs k (hne k hkt)]
  · obtain ⟨rfl, rfl⟩ := List.cons.inj heq
    refine mem_append_right _ ?_
    rcases hc with ⟨-, -, rfl⟩ | ⟨hc, -⟩
    · exact mem_cons_self
    · exact absurd ⟨hcon, hfit⟩ hc

/-- A pass that visits every job adds the jobs it places to the row. -/
theorem visits_pass {f : Gang → Ptr → Gang}
    (hplace : ∀ k, P.considered k → (P.onPlace k).rowState ≠ .noActive)
    (hnd : todo.Nodup) (hs : Sound g) (hp : p ∈ g.gsPartList)
    (hmem : ∀ j ∈ todo, j ∈ (g.part p).jobList)
    (hf : ∀ h, Turn p g h → ∀ j ∈ todo, h.job j = g.job j → Visits m P p j h (f h j))
    (hpk : Packed m g p placed) (hnew : ∀ j ∈ todo, P.considered (g.job j) → j ∉ placed) :
    ∃ fresh, Passed m P p todo fresh g (todo.foldl f g) ∧
      Packed m (todo.foldl f g) p (fresh ++ placed) := by
  induction todo generalizing g placed with
  | nil =>
    exact ⟨[], ⟨refl hs, rfl, by simp, fun _ _ => rfl, by simp, by simp, by simp⟩, hpk⟩
  | cons j todo ih =>
    obtain ⟨hj, hnd⟩ := nodup_cons.1 hnd
    have hv : Visits m P p j g (f g j) := hf g (refl hs) j mem_cons_self rfl
    have hsame (k) (hk : k ∈ todo) : (f g j).job k = g.job k := by
      refine hv.jobs k ?_
      rintro rfl
      exact hj hk
    obtain ⟨c, hc, hpk'⟩ := hv.packed hplace hs hp (hmem j mem_cons_self) hpk (hnew j mem_cons_self)
    -- what the visit put in the row is not met again
    have hnew' : ∀ k ∈ todo, P.considered ((f g j).job k) → k ∉ c ++ placed := by
      intro k hk hcon hm
      rw [hsame k hk] at hcon
      rcases mem_append.1 hm with hm | hm
      · rcases hc with ⟨-, -, rfl⟩ | ⟨-, rfl⟩
        · exact hj (mem_singleton.1 hm ▸ hk)
        · exact absurd hm not_mem_nil
      · exact hnew k (mem_cons_of_mem _ hk) hcon hm
    obtain ⟨fresh, hpass, hpacked⟩ := ih hnd hv.turn.sound (hv.turn.gsPartList ▸ hp)
      (fun k hk => hv.jobList ▸ hmem k (mem_cons_of_mem _ hk))
      (fun h ht k hk hjob => hf h (hv.turn.trans ht) k (mem_cons_of_mem _ hk)
        (hjob.trans (hsame k hk))) hpk' hnew'
    refine ⟨fresh ++ c, hpass.cons hv hj hc, ?_⟩
    rw [append_assoc]
    exact hpacked

/-! ## The passes of the scheduler -/

/-- Jobs that are in the row already, as `want`, stay or are suspended. -/
def keepPass (want : RowState) : Pass where
  considered k := k.rowState = want
  onPlace k := k
  onDrop k := { k with sigState := .suspend, rowState := .noActive }

/-- Jobs that wait are resumed, if there is room. -/
def fillPass : Pass where
  considered k := k.rowState = .noActive ∧ k.priority ≠ 0
  onPlace k := { k with rowState := .filler, sigState := .resume }
  onDrop k := k

/-- Jobs get their place in a new row. -/
def activatePass : Pass where
  considered k := k.priority ≠ 0
  onPlace k := { k with rowState := .active }
  onDrop k := k

theorem row_of_lit (h : (g'.part p).lit = (g.part p).lit) : g'.row p = g.row p :=
  of_lit (fun t => if t.jobsActive = 0 then ∅ else t.activeResmap.getD ∅) h

theorem visits_keepJob {want : RowState} (hs : Sound g) (hp : p ∈ g.gsPartList)
    (hj : j ∈ (g.part p).jobList)
    (hsig : (g.job j).rowState = want → (g.job j).sigState = .resume) :
    Visits m (keepPass want) p j g (keepJob m p want g j) := by
  by_cases hc : (g.job j).rowState = want
  · by_cases hfit : g.fits m p j
    · -- the job stays, and its shadow is there already
      have hcast : (g.addJobToActive m p j).castShadow j (g.part p).priority =
          g.addJobToActive m p j := by
        have hpl : Sound (g.addJobToActive m p j) := (hs.place).sound
        have heq := hpl.castShadow_eq hp (by rwa [addJobToActive_jobList]) (hsig hc)
        rwa [addJobToActive_priority] at heq
      have hkeep : keepJob m p want g j = g.addJobToActive m p j := by
        simp [keepJob, hc, hfit, hcast]
      rw [hkeep]
      exact ⟨fun h => absurd hc h, hs.place, fun _ _ => rfl, addJobToActive_jobList p,
        fun _ _ => ⟨rfl, row_addJobToActive, addJobToActive_jobsActive⟩,
        fun _ h => absurd hfit h⟩
    · have hrun : (g.job j).sigState ≠ .suspend := by simp [hsig hc]
      have hkeep : keepJob m p want g j =
          (g.halt j).modJob j fun k => { k with rowState := .noActive } := by
        simp [keepJob, hc, hfit, hrun, halt]
      have hlit : ((g.halt j).part p).lit = (g.part p).lit := clearShadow_lit p
      have hhalt : Turn p g (g.halt j) := hs.halt hj
      have hj' : j ∈ ((g.halt j).part p).jobList := hhalt.jobList.mem_iff.2 hj
      rw [hkeep]
      refine ⟨fun h => absurd hc h, hhalt.trans (hhalt.sound.setRow hj' _), fun k hk => ?_,
        of_lit (·.jobList) hlit, fun _ h => absurd h hfit,
        fun _ _ => ⟨?_, row_of_lit hlit, of_lit (·.jobsActive) hlit⟩⟩
      · rw [modJob_job, if_neg hk, halt_job, if_neg hk]
      · rw [modJob_job, if_pos rfl, halt_job, if_pos rfl]
        rfl
  · have hkeep : keepJob m p want g j = g := by simp [keepJob, hc]
    rw [hkeep]
    exact ⟨fun _ => rfl, refl hs, fun _ _ => rfl, rfl, fun h => absurd h hc,
      fun h => absurd h hc⟩

theorem visits_fillJob (hs : Sound g) (hp : p ∈ g.gsPartList) (hj : j ∈ (g.part p).jobList) :
    Visits m fillPass p j g (fillJob m p g j) := by
  by_cases hc : (g.job j).rowState = .noActive ∧ (g.job j).priority ≠ 0
  · have hskip : ¬((g.job j).rowState ≠ .noActive ∨ (g.job j).priority = 0) := by
      rw [not_or]
      exact ⟨not_not.2 hc.1, hc.2⟩
    by_cases hfit : g.fits m p j
    · have hfill : fillJob m p g j =
          ((g.addJobToActive m p j).wake p j).modJob j fun k => { k with rowState := .filler } := by
        -- the shadow is cast before the states of the job are set
        simp only [fillJob, if_neg hskip, if_pos hfit, wake, addJobToActive_priority]
        simp [modJob, castShadow, modParts]
      have hpl : Turn p g (g.addJobToActive m p j) := hs.place
      have hj1 : j ∈ ((g.addJobToActive m p j).part p).jobList := hpl.jobList.mem_iff.2 hj
      have hwake := hpl.sound.wake (hpl.gsPartList ▸ hp) hj1
      have hlit : (((g.addJobToActive m p j).wake p j).part p).lit =
        ((g.addJobToActive m p j).part p).lit := castShadow_lit _ p
      rw [hfill]
      refine ⟨fun h => absurd hc h, (hpl.trans hwake).trans
        (hwake.sound.setRow (hwake.jobList.mem_iff.2 hj1) _), fun k hk => ?_,
        (of_lit (·.jobList) hlit).trans (addJobToActive_jobList p),
        fun _ _ => ⟨?_, (row_of_lit hlit).trans row_addJobToActive,
          (of_lit (·.jobsActive) hlit).trans addJobToActive_jobsActive⟩, fun _ h => absurd hfit h⟩
      · rw [modJob_job, if_neg hk, wake_job, if_neg hk]
        rfl
      · rw [modJob_job, if_pos rfl, wake_job, if_pos rfl]
        rfl
    · have hfill : fillJob m p g j = g := by simp [fillJob, hskip, hfit]
      rw [hfill]
      exact ⟨fun _ => rfl, refl hs, fun _ _ => rfl, rfl, fun _ h => absurd h hfit,
        fun _ _ => ⟨rfl, rfl, rfl⟩⟩
  · have hskip : (g.job j).rowState ≠ .noActive ∨ (g.job j).priority = 0 := by
      by_contra h
      rw [not_or, not_not] at h
      exact hc h
    have hfill : fillJob m p g j = g := by simp [fillJob, hskip]
    rw [hfill]
    exact ⟨fun _ => rfl, refl hs, fun _ _ => rfl, rfl, fun h => absurd h hc,
      fun h => absurd h hc⟩

theorem visits_activateJob (hs : Sound g) (hj : j ∈ (g.part p).jobList) :
    Visits m activatePass p j g (activateJob m p g j) := by
  by_cases hc : (g.job j).priority = 0
  · have hact : activateJob m p g j = g := by simp [activateJob, hc]
    rw [hact]
    exact ⟨fun _ => rfl, refl hs, fun _ _ => rfl, rfl, fun h => absurd hc h,
      fun h => absurd hc h⟩
  · by_cases hfit : g.fits m p j
    · have hact : activateJob m p g j =
          (g.addJobToActive m p j).modJob j fun k => { k with rowState := .active } := by
        simp [activateJob, hc, hfit]
      have hpl : Turn p g (g.addJobToActive m p j) := hs.place
      rw [hact]
      refine ⟨fun h => absurd hc h, hpl.trans (hpl.sound.setRow (hpl.jobList.mem_iff.2 hj) _),
        fun k hk => ?_, addJobToActive_jobList p,
        fun _ _ => ⟨?_, row_addJobToActive, addJobToActive_jobsActive⟩, fun _ h => absurd hfit h⟩
      · rw [modJob_job, if_neg hk]
        rfl
      · rw [modJob_job, if_pos rfl]
        rfl
    · have hact : activateJob m p g j = g := by simp [activateJob, hc, hfit]
      rw [hact]
      exact ⟨fun _ => rfl, refl hs, fun _ _ => rfl, rfl, fun _ h => absurd h hfit,
        fun _ _ => ⟨rfl, rfl, rfl⟩⟩

/-! ## The shadows come first -/

/-- What is placed on top of a row without a look at it. -/
theorem foldl_addJobToActive (l : List Ptr) (hs : Sound g) :
    ∃ g', l.foldl (fun g j => g.addJobToActive m p j) g = g' ∧ Turn p g g' ∧ g'.job = g.job ∧
      (∀ q, (g'.part q).jobList = (g.part q).jobList) ∧
      (∀ q, (g'.part q).shadow = (g.part q).shadow) ∧
      (g'.part p).jobsActive = (g.part p).jobsActive + l.length ∧
      g.row p ⊆ g'.row p ∧ ∀ j ∈ l, g.cores m j ⊆ g'.row p := by
  induction l generalizing g with
  | nil => exact ⟨g, rfl, refl hs, rfl, fun _ => rfl, fun _ => rfl, rfl, subset_rfl, by simp⟩
  | cons j l ih =>
    have hpl : Turn p g (g.addJobToActive m p j) := hs.place
    obtain ⟨g', hfold, ht, hjob, hlist, hsh, hcount, hrow, hcov⟩ := ih hpl.sound
    have hle : g.row p ∪ g.cores m j ⊆ _ := row_addJobToActive ▸ hrow
    refine ⟨g', hfold, hpl.trans ht, hjob, fun q => (hlist q).trans (addJobToActive_jobList q),
      fun q => (hsh q).trans (addJobToActive_shadow q), ?_,
      Finset.subset_union_left.trans hle, fun k hk => ?_⟩
    · rw [hcount, addJobToActive_jobsActive, length_cons]
      omega
    · rcases mem_cons.1 hk with rfl | hk
      · exact Finset.subset_union_right.trans hle
      · exact hcov k hk

/-- The row starts with the shadows, and nothing else. -/
theorem packed_addShadows (hs : Sound g) (hp : p ∈ g.gsPartList) :
    Turn p g (g.addShadows m p) ∧ (g.addShadows m p).job = g.job ∧
      ((g.addShadows m p).part p).jobList = (g.part p).jobList ∧
      Packed m (g.addShadows m p) p (g.part p).shadow := by
  have ht0 : Turn p g (g.reset p) := hs.reset
  obtain ⟨_, rfl, ht, hjob, hlist, hsh, hcount, -, hcov⟩ :=
    foldl_addJobToActive (g.part p).shadow ht0.sound
  have hjobs : (g.addShadows m p).job = g.job := hjob
  have hturn : Turn p g (g.addShadows m p) := ht0.trans ht
  have hshadow : ((g.addShadows m p).part p).shadow = (g.part p).shadow :=
    (hsh p).trans (reset_shadow p)
  refine ⟨hturn, hjobs, (hlist p).trans reset_jobList, ⟨hs.shadows p hp, ?_, fun j hj => ?_,
    fun j hj => hshadow ▸ hj, fun j hj => inl (hshadow.symm ▸ hj), fun j hj hjp => ?_⟩⟩
  · have hlen : ((g.addShadows m p).part p).jobsActive = ((g.reset p).part p).jobsActive + _ := hcount
    rw [hlen, reset_jobsActive, Nat.zero_add]
  · rw [hturn.cores]
    exact hcov j hj
  · -- no job of the partition is a shadow on it
    exact absurd hj (hs.notMem_shadow hp (hturn.jobList.mem_iff.1 hjp))

/-! ## The row is built anew -/

/-- The row of `p` is filled with the jobs of `p` that run. An empty partition may have shadows
    that are not in the row. -/
structure Filled (m : CoreMap) (g : Gang) (p : Ptr) : Prop where
  rowed : Rowed g p
  packed : ((g.part p).jobList = [] ∧ (g.part p).jobsActive = 0) ∨
    ∃ placed, Packed m g p placed ∧
      ∀ j ∈ (g.part p).jobList, (g.job j).rowState ≠ .noActive → j ∈ placed

section

variable {want : RowState} (h : Passed m (keepPass want) p todo fresh g g')

include h

/-- A job that is still in the row after a pass was placed by it. -/
theorem Passed.mem_of_keep
    (hj : j ∈ todo) (hrow : (g'.job j).rowState = want) (hwant : want ≠ .noActive) :
    j ∈ fresh := by
  by_contra hnot
  by_cases hc : (keepPass want).considered (g.job j)
  · rw [h.dropped j hj hc hnot] at hrow
    exact hwant hrow.symm
  · rw [h.other j (inr hc)] at hrow
    exact hc hrow

/-- A pass over the jobs in the row leaves a job as it was, or suspends it. -/
theorem Passed.keep_cases (j : Ptr) : g'.job j = g.job j ∨
      g'.job j = { g.job j with sigState := .suspend, rowState := .noActive } := by
  by_cases hc : j ∈ todo ∧ (keepPass want).considered (g.job j)
  · by_cases hf : j ∈ fresh
    · exact inl (h.placed j hf)
    · exact inr (h.dropped j hc.1 hc.2 hf)
  · refine inl (h.other j ?_)
    rwa [← not_and_or]

theorem Passed.keep_rowed (hr : Rowed g p) : Rowed g' p := by
  intro j hj
  rw [h.jobList] at hj
  rcases h.keep_cases j with heq | heq
  · rw [heq]
    exact hr j hj
  · rw [heq]
    simp

end

theorem keep_pass (want : RowState) (hwant : want ≠ .noActive) (hs : Sound g)
    (hp : p ∈ g.gsPartList) (hr : Rowed g p) (hpk : Packed m g p placed)
    (hnew : ∀ j ∈ (g.part p).jobList, (g.job j).rowState = want → j ∉ placed) :
    ∃ fresh, Passed m (keepPass want) p (g.part p).jobList fresh g
        ((g.part p).jobList.foldl (keepJob m p want) g) ∧
      Packed m ((g.part p).jobList.foldl (keepJob m p want) g) p (fresh ++ placed) := by
  refine visits_pass (fun k hk => ?_) (hs.jobs p hp) hs hp (fun _ hj => hj)
    (fun h ht j hj hjob => ?_) hpk hnew
  · exact (show k.rowState = want from hk) ▸ hwant
  · refine visits_keepJob ht.sound (ht.gsPartList ▸ hp) (ht.jobList.mem_iff.2 hj) fun hrow => ?_
    rw [hjob] at hrow ⊢
    exact (hr j hj).1 (hrow ▸ hwant)

section

variable (hs : Sound g) (hp : p ∈ g.gsPartList)

include hs hp

theorem fill_pass (hpk : Packed m g p placed) :
    ∃ fresh, Passed m fillPass p (g.part p).jobList fresh g
        ((g.part p).jobList.foldl (fillJob m p) g) ∧
      Packed m ((g.part p).jobList.foldl (fillJob m p) g) p (fresh ++ placed) := by
  refine visits_pass (fun k _ => by simp [fillPass]) (hs.jobs p hp) hs hp (fun _ hj => hj)
    (fun h ht j hj _ => ?_) hpk fun j hj hc hm => ?_
  · exact visits_fillJob ht.sound (ht.gsPartList ▸ hp) (ht.jobList.mem_iff.2 hj)
  · -- a job that waits is not in the row
    rcases hpk.member j hm with hsh | ⟨-, hrow⟩
    · exact hs.notMem_shadow hp hj hsh
    · exact hrow hc.1

theorem activate_pass (hpk : Packed m g p placed) (hnew : ∀ j ∈ (g.part p).jobList, j ∉ placed) :
    ∃ fresh, Passed m activatePass p (g.part p).jobList fresh g
        ((g.part p).jobList.foldl (activateJob m p) g) ∧
      Packed m ((g.part p).jobList.foldl (activateJob m p) g) p (fresh ++ placed) :=
  visits_pass (fun k _ => by simp [activatePass]) (hs.jobs p hp) hs hp (fun _ hj => hj)
    (fun _ ht _ hj _ => visits_activateJob ht.sound (ht.jobList.mem_iff.2 hj)) hpk
    fun j hj _ => hnew j hj

/-- What the new row is, before jobs that wait are added to it. -/
theorem keepRow_filled (hr : Rowed g p) :
    let g' := g.updateActiveRow m p false
    Turn p g g' ∧ (g'.part p).jobList = (g.part p).jobList ∧ Filled m g' p ∧
      (∃ placed, Packed m g' p placed ∧
        ∀ j ∈ (g.part p).jobList, (g'.job j).rowState ≠ .noActive → j ∈ placed) ∧
      ∀ j, g'.job j = g.job j ∨
        g'.job j = { g.job j with sigState := .suspend, rowState := .noActive } := by
  obtain ⟨ht1, hjob1, hlist1, hpk1⟩ := packed_addShadows hs hp
  set g₁ := g.addShadows m p with hg1
  have hr1 : Rowed g₁ p := by
    intro j hj
    rw [hjob1]
    exact hr j (hlist1 ▸ hj)
  have hp1 : p ∈ g₁.gsPartList := ht1.gsPartList ▸ hp
  obtain ⟨fa, hpa, hpk2⟩ := keep_pass .active (by decide) ht1.sound hp1 hr1 hpk1
    fun j hj _ => hs.notMem_shadow hp (hlist1 ▸ hj)
  set g2 := (g₁.part p).jobList.foldl (keepJob m p .active) g₁ with hg2
  have hr2 : Rowed g2 p := hpa.keep_rowed hr1
  have hp2 : p ∈ g2.gsPartList := hpa.turn.gsPartList ▸ hp1
  -- a filler is not among the jobs that were placed as active ones
  have hnew : ∀ j ∈ (g2.part p).jobList, (g2.job j).rowState = .filler →
      j ∉ fa ++ (g.part p).shadow := by
    intro j hj hrow hm
    rcases mem_append.1 hm with hm | hm
    · have hact : (g₁.job j).rowState = .active := (hpa.mem j hm).2
      have hsame : g2.job j = g₁.job j := hpa.placed j hm
      rw [hsame, hact] at hrow
      cases hrow
    · rw [hpa.jobList, hlist1] at hj
      exact hs.notMem_shadow hp hj hm
  obtain ⟨fb, hpb, hpk3⟩ := keep_pass .filler (by decide) hpa.turn.sound hp2 hr2 hpk2 hnew
  have hg3 : g.updateActiveRow m p false = (g2.part p).jobList.foldl (keepJob m p .filler) g2 := rfl
  rw [hg3]
  set g3 := (g2.part p).jobList.foldl (keepJob m p .filler) g2 with hg3'
  have hlist2 : (g2.part p).jobList = (g.part p).jobList := hpa.jobList.trans hlist1
  have hlist3 : (g3.part p).jobList = (g.part p).jobList := hpb.jobList.trans hlist2
  have hfull : ∀ j ∈ (g.part p).jobList, (g3.job j).rowState ≠ .noActive →
      j ∈ fb ++ (fa ++ (g.part p).shadow) := by
    intro j hj hrow
    cases hcase : (g3.job j).rowState with
    | noActive => exact absurd hcase hrow
    | filler =>
      exact mem_append_left _ (hpb.mem_of_keep (hlist2 ▸ hj) hcase (by decide))
    | active =>
      -- it was active before the fillers were looked at, too
      have hact : (g2.job j).rowState = .active := by
        rcases hpb.keep_cases j with heq | heq
        · rwa [heq] at hcase
        · rw [heq] at hcase
          cases hcase
      exact mem_append_right _ (mem_append_left _ (hpa.mem_of_keep (hlist1 ▸ hj) hact (by decide)))
  refine ⟨(ht1.trans hpa.turn).trans hpb.turn, hlist3, ⟨hpb.keep_rowed hr2, inr ⟨_, hpk3, ?_⟩⟩,
    ⟨_, hpk3, hfull⟩, fun j => ?_⟩
  · rw [hlist3]
    exact hfull
  · have h1 : g₁.job j = g.job j := congrFun hjob1 j
    rcases hpa.keep_cases j with ha | ha
    · rcases hpb.keep_cases j with hb | hb
      · exact inl (by rw [hb, ha, h1])
      · exact inr (by rw [hb, ha, h1])
    · rcases hpb.keep_cases j with hb | hb
      · exact inr (by rw [hb, ha, h1])
      · exact inr (by rw [hb, ha, h1])

/-- The turn of a partition in which its row is built anew. -/
theorem updateActiveRow_filled (hr : Rowed g p) (b : Bool) :
    Turn p g (g.updateActiveRow m p b) ∧
      ((g.updateActiveRow m p b).part p).jobList = (g.part p).jobList ∧
      Filled m (g.updateActiveRow m p b) p := by
  obtain ⟨ht, hlist, hfill, ⟨placed, hpk, hfull⟩, -⟩ := keepRow_filled hs hp hr
  cases b with
  | false => exact ⟨ht, hlist, hfill⟩
  | true =>
    obtain ⟨fresh, hpass, hpk'⟩ := fill_pass ht.sound (ht.gsPartList ▸ hp) hpk
    have heq : g.updateActiveRow m p true =
        (((g.updateActiveRow m p false).part p).jobList).foldl (fillJob m p)
          (g.updateActiveRow m p false) := rfl
    rw [heq]
    set h := g.updateActiveRow m p false with hh
    set h' := (h.part p).jobList.foldl (fillJob m p) h with hh'
    -- a job was placed now, or is as it was
    have hcases (j) (hj : j ∈ (h.part p).jobList) : j ∈ fresh ∨ h'.job j = h.job j := by
      by_cases hf : j ∈ fresh
      · exact inl hf
      · refine inr ?_
        by_cases hc : fillPass.considered (h.job j)
        · exact hpass.dropped j hj hc hf
        · exact hpass.other j (inr hc)
    refine ⟨ht.trans hpass.turn, hpass.jobList.trans hlist, ⟨fun j hj => ?_, inr ⟨_, hpk',
      fun j hj hrow => ?_⟩⟩⟩
    · rw [hpass.jobList] at hj
      rcases hcases j hj with hf | hsame
      · rw [hpass.placed j hf]
        simp [fillPass]
      · rw [hsame]
        exact hfill.rowed j hj
    · rw [hpass.jobList] at hj
      rcases hcases j hj with hf | hsame
      · exact mem_append_left _ hf
      · rw [hsame] at hrow
        exact mem_append_right _ (hfull j (hlist ▸ hj) hrow)

end

end Slurm.Gang
